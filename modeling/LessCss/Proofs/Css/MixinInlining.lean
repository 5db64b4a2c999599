import LessCss.Proofs.Css.CallScopes
import LessCss.Proofs.Css.Guards
/-!
Declarations in the place of a call.

A rule of the sheet whose body is a row of declarations can be called by its selector. If nothing else is registered
under that name, each such call inside a block, without arguments and not marked important, stands for these
declarations. The sheet that has them in the place of the calls evaluates to the same (`Sheet.evaluate_inlineMixin`).
Blocks may be stored as mixins, so the scopes of the two sheets hold mixins with other bodies, but the same bindings.
-/
namespace LessCss

variable (name : Text) (ds : List Declaration)

/-- A call of the name without arguments that is not marked important. -/
def Call.isBare (c : Call) : Bool := c.name = name ∧ c.args = [] ∧ c.important = false

namespace Item

/-- The body that consists of these declarations. -/
def declarations (ds : List Declaration) : List Item := ds.map .declaration

def isBareCall : Item → Bool
  | .call c => c.isBare name
  | _ => false

mutual

/-- An item with declarations in the place of the bare calls in its blocks. -/
def inlineMixin : Item → Item
  | .rule selectors body => .rule selectors (inlineMixinAll body)
  | .atRule atName params body => .atRule atName params (inlineMixinAll body)
  | .mixin mixinName params body => .mixin mixinName params (inlineMixinAll body)
  | .declaration d => .declaration d
  | .definition d => .definition d
  | .call c => .call c

/-- The items of a block with declarations in the place of the bare calls, at any depth. -/
def inlineMixinAll : List Item → List Item
  | [] => []
  | i :: is => (if i.isBareCall name then declarations ds else [inlineMixin i]) ++ inlineMixinAll is

end

end Item

/-- A statement with declarations in the place of the bare calls in its blocks. -/
def Statement.inlineMixin : Statement → Statement
  | .rule selectors body => .rule selectors (Item.inlineMixinAll name ds body)
  | .atRule atName params body => .atRule atName params (Item.inlineMixinAll name ds body)
  | .mixin mixinName params body => .mixin mixinName params (Item.inlineMixinAll name ds body)
  | x => x

/-- A sheet with declarations in the place of the bare calls that stand inside a block. -/
def Sheet.inlineMixin (s : Sheet) : Sheet := s.map (Statement.inlineMixin name ds)

namespace Mixin

def inlineMixin : Mixin → Mixin
  | plain body => plain (Item.inlineMixinAll name ds body)
  | parametric params body => parametric params (Item.inlineMixinAll name ds body)

theorem body_inlineMixin (m : Mixin) : (m.inlineMixin name ds).body = Item.inlineMixinAll name ds m.body := by
  cases m <;> rfl

theorem accepts_inlineMixin (count : Nat) (m : Mixin) : (m.inlineMixin name ds).accepts count = m.accepts count := by
  cases m <;> rfl

end Mixin

namespace Scope

def inlineMixin (s : Scope) : Scope := ⟨s.bindings, s.mixins.map (Prod.map id (Mixin.inlineMixin name ds))⟩

theorem filterMap_declarations {β : Type} {f : Item → Option β} (hf : ∀ d, f (.declaration d) = none) :
    (Item.declarations ds).filterMap f = [] := by
  simp [Item.declarations, hf]

theorem binding?_inlineMixin (i : Item) : binding? (Item.inlineMixin name ds i) = binding? i := by
  cases i <;> rfl

theorem mixin?_inlineMixin (i : Item) :
    mixin? (Item.inlineMixin name ds i) = (mixin? i).map (Prod.map id (Mixin.inlineMixin name ds)) := by
  cases i with
  | rule selectors body =>
    rcases selectors with _ | ⟨selector, _ | ⟨second, others⟩⟩
    · rfl
    · cases h : isCallable selector <;> simp [Item.inlineMixin, mixin?, h, Mixin.inlineMixin]
    · rfl
  | declaration | definition | call | atRule | mixin => rfl

/-- Calls and declarations are of no account to what reads the other items. -/
theorem filterMap_inlineMixinAll {β : Type} {f : Item → Option β} (hcall : ∀ c, f (.call c) = none)
    (hdeclaration : ∀ d, f (.declaration d) = none) (is : List Item) :
    (Item.inlineMixinAll name ds is).filterMap f = is.filterMap fun i => f (Item.inlineMixin name ds i) := by
  induction is with
  | nil => rfl
  | cons i is ih =>
    rw [Item.inlineMixinAll, List.filterMap_append, ih]
    split
    · next hbare =>
      cases i with
      | call c =>
        rw [filterMap_declarations ds hdeclaration, List.filterMap_cons, Item.inlineMixin, hcall]
        rfl
      | _ => exact nomatch hbare
    · exact (List.filterMap_append (f := fun i => f (Item.inlineMixin name ds i)) (l := [i])).symm

theorem ofItems_map_inlineMixin (is : List Item) :
    ofItems (is.map (Item.inlineMixin name ds)) = (ofItems is).inlineMixin name ds := by
  rw [ofItems, ofItems, inlineMixin, List.filterMap_map, List.filterMap_map, List.map_filterMap]
  simp only [Function.comp_def, binding?_inlineMixin, mixin?_inlineMixin]

theorem ofItems_inlineMixinAll (is : List Item) :
    ofItems (Item.inlineMixinAll name ds is) = (ofItems is).inlineMixin name ds := by
  rw [← ofItems_map_inlineMixin, ofItems, ofItems, List.filterMap_map, List.filterMap_map,
    filterMap_inlineMixinAll name ds (fun _ => rfl) fun _ => rfl,
    filterMap_inlineMixinAll name ds (fun _ => rfl) fun _ => rfl]
  rfl

theorem mixinsNamed_ofItems_append (is js : List Item) :
    (ofItems (is ++ js)).mixinsNamed name = (ofItems is).mixinsNamed name ++ (ofItems js).mixinsNamed name := by
  simp only [mixinsNamed, ofItems, List.filterMap_append]

end Scope

namespace Scopes

def inlineMixin (S : Scopes) : Scopes := S.map (Scope.inlineMixin name ds)

variable {name ds} {S T : Scopes}

theorem find?_of_bindings (h : S.map (·.bindings) = T.map (·.bindings)) (name : Text) :
    Option.Rel (fun p q => p.1 = q.1 ∧ p.2.map (·.bindings) = q.2.map (·.bindings)) (find? name S) (find? name T) := by
  induction S generalizing T with
  | nil =>
    obtain rfl := List.map_eq_nil_iff.mp h.symm
    exact .none
  | cons s S ih =>
    obtain ⟨t, T, rfl⟩ := List.exists_cons_of_ne_nil (l := T) (by rintro rfl; exact nomatch h)
    obtain ⟨hst, hST⟩ : s.bindings = t.bindings ∧ S.map (·.bindings) = T.map (·.bindings) := List.cons.inj h
    rw [find?, find?, ← hst]
    cases Scope.find? name s.bindings with
    | none => exact ih hST
    | some q => exact .some ⟨rfl, congrArg (q.2 :: ·) hST⟩

/-- Variables denote what the bindings say, by induction on the definitions that are not being evaluated. -/
theorem resolve_of_bindings (h : S.map (·.bindings) = T.map (·.bindings)) : S.resolve = T.resolve := by
  induction hn : S.deferredCount using Nat.strongRecOn generalizing S T with
  | ind n ih =>
    subst hn
    funext name p
    have hname := find?_of_bindings h name
    rw [resolve_eq, resolve_eq]
    generalize hS : find? name S = found, find? name T = found' at hname
    cases hname with
    | none => rfl
    | @some q q' hfound =>
      obtain ⟨b, home⟩ := q
      obtain ⟨b', home'⟩ := q'
      obtain ⟨rfl, hhome⟩ := hfound
      cases b with
      | deferred value =>
        have hsame := ih _ (deferredCount_find? hS) hhome rfl
        dsimp only
        rw [hsame]
      | pending => rfl
      | resolved v => rfl

variable (name ds)

theorem resolve_inlineMixin (S : Scopes) : (S.inlineMixin name ds).resolve = S.resolve :=
  resolve_of_bindings (by rw [inlineMixin, List.map_map]; rfl)

theorem mixinsNamed_inlineMixin (S : Scopes) (other : Text) :
    (S.inlineMixin name ds).mixinsNamed other = (S.mixinsNamed other).map (Mixin.inlineMixin name ds) := by
  have hs : ∀ s : Scope,
      (s.inlineMixin name ds).mixinsNamed other = (s.mixinsNamed other).map (Mixin.inlineMixin name ds) := by
    intro s
    simp only [Scope.mixinsNamed, Scope.inlineMixin, List.filterMap_map, List.map_filterMap]
    congr 1
    funext m
    by_cases hn : m.1 = other <;> simp [hn]
  induction S with
  | nil => rfl
  | cons s S ih =>
    unfold mixinsNamed inlineMixin at ih ⊢
    rw [List.map_cons, List.map_cons, List.map_cons, List.find?_cons, List.find?_cons, hs, List.isEmpty_map]
    cases (s.mixinsNamed other).isEmpty with
    | true => exact ih
    | false => rfl

end Scopes

namespace Item

theorem mixinNamesAll_append (is js : List Item) : mixinNamesAll (is ++ js) = mixinNamesAll is ++ mixinNamesAll js := by
  induction is with
  | nil => rfl
  | cons i is ih => rw [List.cons_append, mixinNamesAll, mixinNamesAll, ih, List.append_assoc]

theorem mixinNamesAll_declarations : mixinNamesAll (declarations ds) = [] := by
  induction ds with
  | nil => rfl
  | cons d ds ih => exact ih

theorem inlineMixinAll_declarations (ds' : List Declaration) :
    inlineMixinAll name ds (declarations ds') = declarations ds' := by
  induction ds' with
  | nil => rfl
  | cons d ds' ih => exact congrArg (Item.declaration d :: ·) ih

mutual

theorem mixinNames_inlineMixin (i : Item) : mixinNames (inlineMixin name ds i) = mixinNames i := by
  have hname : (Scope.mixin? (inlineMixin name ds i)).map (·.1) = (Scope.mixin? i).map (·.1) := by
    rw [Scope.mixin?_inlineMixin, Option.map_map]
    rfl
  cases i with
  | declaration | definition | call => rfl
  | rule | atRule | mixin =>
    rw [inlineMixin] at hname ⊢
    rw [mixinNames, mixinNames, hname, mixinNamesAll_inlineMixinAll]

theorem mixinNamesAll_inlineMixinAll (is : List Item) :
    mixinNamesAll (inlineMixinAll name ds is) = mixinNamesAll is := by
  cases is with
  | nil => rfl
  | cons i is =>
    rw [inlineMixinAll, mixinNamesAll_append, mixinNamesAll_inlineMixinAll is, mixinNamesAll]
    split
    · next hbare =>
      cases i with
      | call c => rw [mixinNamesAll_declarations]; rfl
      | _ => exact nomatch hbare
    · rw [mixinNamesAll, mixinNames_inlineMixin i, mixinNamesAll, List.append_nil]

end

theorem mixinNamesAll_map_inlineMixin (is : List Item) :
    mixinNamesAll (is.map (inlineMixin name ds)) = mixinNamesAll is := by
  induction is with
  | nil => rfl
  | cons i is ih => rw [List.map_cons, mixinNamesAll, mixinNamesAll, ih, mixinNames_inlineMixin]

end Item

variable {name ds} {S : Scopes} {callable : List Text}

namespace Item

/-- What declarations yield depends on the values of variables only. -/
theorem yieldAll_declarations_congr {S T : Scopes} (h : S.resolve = T.resolve) (calls calls' : Expansion)
    (selectors selectors' : List Text) (ds : List Declaration) :
    yieldAll calls S selectors (declarations ds) = yieldAll calls' T selectors' (declarations ds) := by
  induction ds with
  | nil => rfl
  | cons d ds ih =>
    rw [declarations, List.map_cons, yieldAll, yieldAll, yield, yield, Declaration.evaluate, Declaration.evaluate,
      Scopes.evaluate_congr h]
    unfold declarations at ih
    rw [ih]

end Item

/-- The scope of a row of declarations binds nothing. -/
theorem Scopes.resolve_declarations (S : Scopes) (ds : List Declaration) :
    resolve (.ofItems (Item.declarations ds) :: S) = resolve S := by
  have hbindings : (Scope.ofItems (Item.declarations ds)).bindings = [] :=
    congrArg List.reverse (Scope.filterMap_declarations ds fun _ => rfl)
  have hnone : ∀ other, ∀ s ∈ [Scope.ofItems (Item.declarations ds)], ¬s.Binds other := by
    intro other s hs hbinds
    obtain rfl := List.mem_singleton.mp hs
    rw [Scope.Binds, hbindings] at hbinds
    exact List.not_mem_nil hbinds
  funext other p
  exact resolve_append (hnone other) p

/-- In these scopes the name stands for a rule with these declarations. No mixin in them registers anything under the
name. -/
structure Scopes.Holds (name : Text) (ds : List Declaration) (S : Scopes) : Prop where
  named : S.mixinsNamed name = [.plain (Item.declarations ds)]
  others : ∀ s ∈ S, ∀ q ∈ s.mixins, name ∉ Item.mixinNamesAll q.2.body

namespace Scopes.Holds

theorem cons (h : S.Holds name ds) {s : Scope} (hs : ∀ q ∈ s.mixins, q.1 ≠ name ∧ name ∉ Item.mixinNamesAll q.2.body) :
    Holds name ds (s :: S) := by
  have hnone : s.mixinsNamed name = [] := by
    rw [Scope.mixinsNamed, List.filterMap_eq_nil_iff]
    exact fun q hq => if_neg (hs q hq).1
  refine ⟨?_, ?_⟩
  · have hnamed := h.named
    rw [mixinsNamed] at hnamed ⊢
    rw [List.map_cons, List.find?_cons, hnone]
    exact hnamed
  · rw [List.forall_mem_cons]
    exact ⟨fun q hq => (hs q hq).2, h.others⟩

/-- Entering a block in which nothing is registered under the name. -/
theorem block (h : S.Holds name ds) {body : List Item} (hbody : name ∉ Item.mixinNamesAll body) :
    Holds name ds (.ofItems body :: S) := by
  refine h.cons ?_
  rintro ⟨n, m⟩ hm
  obtain ⟨hn, hnames⟩ := Guards.within_ofItems (List.Subset.refl _) hm
  exact ⟨fun heq => hbody (heq ▸ hn), fun hname => hbody (hnames hname)⟩

theorem parameters (h : S.Holds name ds) (bound : List (Text × Value)) : Holds name ds (.ofValues bound :: S) :=
  h.cons fun _ hq => nomatch hq

end Scopes.Holds

/-- A bare call of the name yields what the declarations yield at the call. -/
theorem expand_bare (h : S.Holds name ds) (hcallable : name ∈ callable) {c : Call} (hc : c.isBare name)
    (calls : Expansion) (selectors : List Text) :
    expand callable S selectors c = Item.yieldAll calls S selectors (Item.declarations ds) := by
  obtain ⟨rfl, hargs, himportant⟩ := of_decide_eq_true hc
  rw [expand_eq, h.named, hargs, himportant, if_neg (by simp), if_neg (not_not_intro hcallable)]
  have hbody : ∀ inner, Item.yieldAll inner (.ofItems (Item.declarations ds) :: S) selectors (Item.declarations ds) =
      Item.yieldAll calls S selectors (Item.declarations ds) :=
    fun inner => Item.yieldAll_declarations_congr (Scopes.resolve_declarations S ds) inner calls _ _ ds
  show (Item.yieldAll _ (.ofItems (Item.declarations ds) :: S) selectors (Item.declarations ds) >>= fun y =>
    .ok (y ++ .none)) >>= Except.ok = _
  rw [hbody]
  cases Item.yieldAll calls S selectors (Item.declarations ds) with
  | error d => rfl
  | ok y => exact congrArg Except.ok (Yield.append_none y)

/-- A call of the name yields the same wherever the variables denote the same. -/
theorem expand_named {T : Scopes} (hS : S.Holds name ds) (hT : T.Holds name ds) (h : S.resolve = T.resolve)
    {c : Call} (hc : c.name = name) (selectors : List Text) :
    expand callable S selectors c = expand callable T selectors c := by
  subst hc
  have hyield : ∀ args p, Mixin.yieldAll (expand (without c.name callable)) S selectors args
      ([.plain (Item.declarations ds)].filter p) = Mixin.yieldAll (expand (without c.name callable)) T selectors args
      ([.plain (Item.declarations ds)].filter p) := by
    intro args p
    have hbody := Item.yieldAll_declarations_congr (S := .ofItems (Item.declarations ds) :: S)
      (T := .ofItems (Item.declarations ds) :: T)
      (by rw [Scopes.resolve_declarations, Scopes.resolve_declarations, h]) (expand (without c.name callable))
      (expand (without c.name callable)) selectors selectors ds
    cases hp : p (.plain (Item.declarations ds)) with
    | false => simp [hp, Mixin.yieldAll]
    | true =>
      rw [List.filter_cons_of_pos hp]
      exact congrArg (· >>= fun y => Except.ok (y ++ Yield.none)) hbody
  rw [expand_eq, expand_eq, hS.named, hT.named, Scopes.evaluate_congr h]
  simp only [hyield]

theorem Scopes.Holds.inlineMixin (h : S.Holds name ds) : (S.inlineMixin name ds).Holds name ds := by
  refine ⟨?_, ?_⟩
  · rw [mixinsNamed_inlineMixin, h.named]
    show [Mixin.plain (Item.inlineMixinAll name ds (Item.declarations ds))] = _
    rw [Item.inlineMixinAll_declarations]
  · intro t ht r hr
    obtain ⟨s, hs, rfl⟩ := List.mem_map.mp ht
    obtain ⟨q, hq, rfl⟩ := List.mem_map.mp hr
    show name ∉ Item.mixinNamesAll (q.2.inlineMixin name ds).body
    rw [Mixin.body_inlineMixin, Item.mixinNamesAll_inlineMixinAll]
    exact h.others s hs q hq

variable (name ds callable) in
/-- Calls yield the same in scopes that hold mixins with declarations in the place of the bare calls. -/
def Inlines : Prop :=
  ∀ {S : Scopes}, S.Holds name ds → ∀ selectors c,
    expand callable (S.inlineMixin name ds) selectors c = expand callable S selectors c

namespace Item

/-- What stands in the block of an item. -/
def inside : Item → List Item
  | .rule _ body | .atRule _ _ body | .mixin _ _ body => body
  | _ => []

theorem mixinNamesAll_inside (i : Item) : mixinNamesAll i.inside ⊆ mixinNames i := by
  cases i with
  | rule | atRule | mixin => exact List.subset_append_right _ _
  | declaration | definition | call => exact List.nil_subset _

mutual

theorem yield_inlineMixin (hcallable : name ∈ callable) (hcalls : Inlines name ds callable) {S : Scopes}
    (h : S.Holds name ds) (selectors : List Text) (i : Item) (hi : name ∉ mixinNamesAll i.inside) :
    yield (expand callable) (S.inlineMixin name ds) selectors (inlineMixin name ds i) =
      yield (expand callable) S selectors i := by
  cases i with
  | declaration d =>
    rw [inlineMixin, yield, yield, Declaration.evaluate, Declaration.evaluate,
      Scopes.evaluate_congr (S.resolve_inlineMixin name ds)]
  | definition d => rfl
  | call c => exact hcalls h selectors c
  | rule own body =>
    rw [inlineMixin, yield, yield, Scope.ofItems_inlineMixinAll]
    exact congrArg (· >>= _) (yieldAll_inlineMixin hcallable hcalls (h.block hi) _ body hi)
  | atRule atName params body =>
    rw [inlineMixin, yield, yield, Scope.ofItems_inlineMixinAll]
    exact congrArg (· >>= _) (yieldAll_inlineMixin hcallable hcalls (h.block hi) _ body hi)
  | mixin mixinName params body => rfl

theorem yieldAll_inlineMixin (hcallable : name ∈ callable) (hcalls : Inlines name ds callable) {S : Scopes}
    (h : S.Holds name ds) (selectors : List Text) (is : List Item) (his : name ∉ mixinNamesAll is) :
    yieldAll (expand callable) (S.inlineMixin name ds) selectors (inlineMixinAll name ds is) =
      yieldAll (expand callable) S selectors is := by
  cases is with
  | nil => rfl
  | cons i is =>
    rw [mixinNamesAll, List.mem_append, not_or] at his
    rw [inlineMixinAll, yieldAll_append, yieldAll_inlineMixin hcallable hcalls h selectors is his.2, yieldAll]
    have hhead : yieldAll (expand callable) (S.inlineMixin name ds) selectors
        (if i.isBareCall name then declarations ds else [inlineMixin name ds i]) =
          yield (expand callable) S selectors i := by
      split
      · next hbare =>
        cases i with
        | call c =>
          rw [yield, expand_bare h hcallable hbare (expand callable)]
          exact yieldAll_declarations_congr (S.resolve_inlineMixin name ds) _ _ _ _ ds
        | _ => exact nomatch hbare
      · have hi : name ∉ mixinNamesAll i.inside := fun hname => his.1 (mixinNamesAll_inside i hname)
        rw [yieldAll_singleton, yield_inlineMixin hcallable hcalls h selectors i hi]
    rw [hhead]
    cases yield (expand callable) S selectors i with
    | error d => rfl
    | ok y => cases yieldAll (expand callable) S selectors is <;> rfl

end

end Item

theorem Mixin.yieldAll_inlineMixin (hcallable : name ∈ callable) (hcalls : Inlines name ds callable)
    (h : S.Holds name ds) (selectors : List Text) (args : List Value) (ms : List Mixin)
    (hms : ∀ m ∈ ms, name ∉ Item.mixinNamesAll m.body) :
    Mixin.yieldAll (expand callable) (S.inlineMixin name ds) selectors args (ms.map (Mixin.inlineMixin name ds)) =
      Mixin.yieldAll (expand callable) S selectors args ms := by
  induction ms with
  | nil => rfl
  | cons m ms ih =>
    rw [List.forall_mem_cons] at hms
    rw [List.map_cons, Mixin.yieldAll, Mixin.yieldAll, ih hms.2]
    cases m with
    | plain body =>
      have hbody := Item.yieldAll_inlineMixin hcallable hcalls (h.block hms.1) selectors body hms.1
      rw [inlineMixin, bodyScopes, bodyScopes, Scope.ofItems_inlineMixinAll, ok_bind, ok_bind]
      exact congrArg (· >>= _) hbody
    | parametric params body =>
      have hsame := parameterScope_congr (S.resolve_inlineMixin name ds) params args
      rw [inlineMixin, bodyScopes, bodyScopes, Scope.ofItems_inlineMixinAll, hsame]
      cases hscope : parameterScope S params args with
      | error d => rfl
      | ok scope =>
        obtain ⟨bound, rfl⟩ := ofValues_of_parameterScope hscope
        have hholds := (h.parameters bound).block hms.1
        have hbody := Item.yieldAll_inlineMixin hcallable hcalls hholds selectors body hms.1
        rw [ok_bind, ok_bind, ok_bind, ok_bind]
        exact congrArg (· >>= _) hbody

/-- Calls yield the same, by induction on the names that may be called. -/
theorem expand_inlineMixin (hcallable : name ∈ callable) : Inlines name ds callable := by
  induction hn : callable.length using Nat.strongRecOn generalizing callable with
  | ind n ih =>
    subst hn
    intro S h selectors c
    by_cases hname : c.name = name
    · exact expand_named h.inlineMixin h (S.resolve_inlineMixin name ds) hname selectors
    · rw [expand_eq, expand_eq, Scopes.mixinsNamed_inlineMixin, List.isEmpty_map,
        Scopes.evaluate_congr (S.resolve_inlineMixin name ds)]
      by_cases hc : c.name ∈ callable
      · have hwithout : name ∈ without c.name callable :=
          List.mem_filter.mpr ⟨hcallable, decide_eq_true (Ne.symm hname)⟩
        have hcalls : Inlines name ds (without c.name callable) := ih _ (without_length hc) hwithout rfl
        have hfilter : ∀ count, ((S.mixinsNamed c.name).map (Mixin.inlineMixin name ds)).filter (·.accepts count) =
            ((S.mixinsNamed c.name).filter (·.accepts count)).map (Mixin.inlineMixin name ds) := by
          intro count
          rw [List.filter_map]
          simp only [Function.comp_def, Mixin.accepts_inlineMixin]
        have hbodies : ∀ count, ∀ m ∈ (S.mixinsNamed c.name).filter (·.accepts count),
            name ∉ Item.mixinNamesAll m.body := by
          intro count m hm
          obtain ⟨s, hs, hmixin⟩ := Scopes.exists_of_mem_mixinsNamed (List.mem_filter.mp hm).1
          exact h.others s hs _ hmixin
        simp only [hfilter, List.isEmpty_map,
          Mixin.yieldAll_inlineMixin hwithout hcalls h selectors _ _ (hbodies _)]
      · simp only [if_pos hc]

theorem Statement.toItem?_inlineMixin (x : Statement) :
    (x.inlineMixin name ds).toItem? = x.toItem?.map (Item.inlineMixin name ds) := by
  cases x <;> rfl

theorem Sheet.items_inlineMixin (s : Sheet) :
    Sheet.items (s.inlineMixin name ds) = s.items.map (Item.inlineMixin name ds) := by
  rw [Sheet.items, Sheet.items, Sheet.inlineMixin, List.filterMap_map, List.map_filterMap]
  congr 1
  funext x
  exact x.toItem?_inlineMixin

theorem Statement.nodesOf_inlineMixin (hcallable : name ∈ callable) (h : S.Holds name ds) (x : Statement)
    (hx : ∀ i, x.toItem? = some i → name ∉ Item.mixinNamesAll i.inside) :
    Sheet.nodesOf (expand callable) (S.inlineMixin name ds) (x.inlineMixin name ds) =
      Sheet.nodesOf (expand callable) S x := by
  have hcalls : Inlines name ds callable := expand_inlineMixin hcallable
  cases x with
  | directive | definition | mixin => rfl
  | call c =>
    show Sheet.nodesOf _ _ (.call c) = _
    rw [Sheet.nodesOf, Sheet.nodesOf, hcalls h]
  | rule selectors body =>
    exact congrArg (Except.map Yield.nodes)
      (Item.yield_inlineMixin hcallable hcalls h [] (.rule selectors body) (hx _ rfl))
  | atRule atName params body =>
    exact congrArg (Except.map Yield.nodes)
      (Item.yield_inlineMixin hcallable hcalls h [] (.atRule atName params body) (hx _ rfl))

theorem Sheet.items_append (before after : Sheet) : Sheet.items (before ++ after) = before.items ++ after.items :=
  List.filterMap_append

/-- The scope of a sheet in which nothing else is registered under the name of the rule. -/
theorem Sheet.holds_items {before after : List Item} (hname : Scope.isCallable name)
    (hothers : name ∉ Item.mixinNamesAll (before ++ after)) :
    Scopes.Holds name ds [.ofItems (before ++ .rule [name] (Item.declarations ds) :: after)] := by
  rw [Item.mixinNamesAll_append, List.mem_append, not_or] at hothers
  have hnone : ∀ {is : List Item}, name ∉ Item.mixinNamesAll is → (Scope.ofItems is).mixinsNamed name = [] := by
    intro is his
    rw [Scope.mixinsNamed, List.filterMap_eq_nil_iff]
    rintro ⟨n, m⟩ hm
    refine if_neg ?_
    rintro rfl
    exact his (Guards.within_ofItems (List.Subset.refl _) hm).1
  have hrule : Scope.mixin? (.rule [name] (Item.declarations ds)) = some (name, .plain (Item.declarations ds)) :=
    if_pos hname
  refine ⟨?_, ?_⟩
  · have hself : (Scope.ofItems [.rule [name] (Item.declarations ds)]).mixinsNamed name =
        [.plain (Item.declarations ds)] := by
      simp [Scope.ofItems, Scope.mixinsNamed, hrule]
    have hnamed : (Scope.ofItems (before ++ ([.rule [name] (Item.declarations ds)] ++ after))).mixinsNamed name =
        [.plain (Item.declarations ds)] := by
      rw [Scope.mixinsNamed_ofItems_append, Scope.mixinsNamed_ofItems_append, hnone hothers.1, hself, hnone hothers.2]
      rfl
    rw [List.singleton_append] at hnamed
    rw [Scopes.mixinsNamed, List.map_singleton, hnamed]
    rfl
  · intro s hs q hq
    obtain rfl := List.mem_singleton.mp hs
    obtain ⟨i, hi, hmixin⟩ := List.mem_filterMap.mp hq
    have hbody : Item.mixinNamesAll q.2.body ⊆ i.mixinNames := by
      rw [Item.mixinNames_of_mixin? hmixin]
      exact List.subset_cons_self _ _
    rcases List.mem_append.mp hi with hi | hi
    · exact fun h => hothers.1 (Item.mixinNames_subset hi (hbody h))
    · rcases List.mem_cons.mp hi with rfl | hi
      · obtain rfl := Option.some.inj (hrule.symm.trans hmixin)
        show name ∉ Item.mixinNamesAll (Item.declarations ds)
        rw [Item.mixinNamesAll_declarations]
        exact List.not_mem_nil
      · exact fun h => hothers.2 (Item.mixinNames_subset hi (hbody h))

/-- A rule of the sheet can be called by its selector, its body is a row of declarations, and no other rule and no
mixin is registered under its name, in the sheet or in any block. Then its declarations may stand in the place of each
call of the rule in a block, if the call has no arguments and is not marked important: both sheets evaluate to the
same nodes, or fail alike. -/
theorem Sheet.evaluate_inlineMixin {before after : Sheet} (hname : Scope.isCallable name)
    (hothers : name ∉ Item.mixinNamesAll (Sheet.items (before ++ after))) :
    let s : Sheet := before ++ .rule [name] (ds.map .declaration) :: after
    (s.inlineMixin name ds).evaluate = s.evaluate := by
  intro s
  have hitems : s.items = before.items ++ .rule [name] (Item.declarations ds) :: after.items := items_append _ _
  rw [items_append] at hothers
  have hholds : Scopes.Holds name ds [.ofItems s.items] := hitems ▸ holds_items hname hothers
  have hcallable : name ∈ Item.mixinNamesAll s.items := by
    rw [hitems, Item.mixinNamesAll_append, Item.mixinNamesAll, Item.mixinNames, Scope.mixin?, if_pos hname]
    exact List.mem_append_right _ (.head _)
  have hinside : ∀ x ∈ s, ∀ i, x.toItem? = some i → name ∉ Item.mixinNamesAll i.inside := by
    intro x hx i hi
    have hmem : i ∈ s.items := List.mem_filterMap.mpr ⟨x, hx, hi⟩
    rw [hitems, List.mem_append, List.mem_cons] at hmem
    rw [Item.mixinNamesAll_append, List.mem_append, not_or] at hothers
    rcases hmem with hmem | rfl | hmem
    · exact fun h => hothers.1 (Item.mixinNames_subset hmem (Item.mixinNamesAll_inside i h))
    · show name ∉ Item.mixinNamesAll (Item.declarations ds)
      rw [Item.mixinNamesAll_declarations]
      exact List.not_mem_nil
    · exact fun h => hothers.2 (Item.mixinNames_subset hmem (Item.mixinNamesAll_inside i h))
  have hnodes : ∀ x ∈ s, nodesOf (expand (Item.mixinNamesAll s.items))
      [(Scope.ofItems s.items).inlineMixin name ds] (x.inlineMixin name ds) =
        nodesOf (expand (Item.mixinNamesAll s.items)) [.ofItems s.items] x :=
    fun x hx => x.nodesOf_inlineMixin hcallable hholds (hinside x hx)
  rw [Sheet.evaluate, Sheet.evaluate, items_inlineMixin, Item.mixinNamesAll_map_inlineMixin,
    Scope.ofItems_map_inlineMixin, Sheet.inlineMixin, List.mapM_map]
  exact congrArg (Except.map List.flatten) (mapM_congr hnodes)

/-- A rule is called in a rule that is called itself, and in a media block. -/
theorem Sheet.evaluate_inlineMixin_nested :
    let red : Declaration := ⟨"color".toList, [⟨.atKeyword, "@c".toList, ⟨1, 1⟩, true⟩], false⟩
    let call (name : String) : Item := .call ⟨name.toList, [], false, ⟨1, 1⟩⟩
    let mixin : Statement := .rule [".m".toList] [.declaration red]
    let definition : Statement := .definition ⟨"c".toList, [⟨.ident, "red".toList, ⟨1, 1⟩, true⟩]⟩
    let media (body : List Item) : Item := .atRule "media".toList "print".toList body
    let s : Sheet := [definition, mixin, .rule [".n".toList] [call ".m"],
      .rule ["a".toList] [call ".n", media [call ".m"]]]
    let t : Sheet := [definition, mixin, .rule [".n".toList] [.declaration red],
      .rule ["a".toList] [call ".n", media [.declaration red]]]
    Scope.isCallable ".m".toList = true ∧ t = s.inlineMixin ".m".toList [red] ∧ t.evaluate = s.evaluate := by
  intro red call mixin definition media s t
  have hname : Scope.isCallable ".m".toList = true := by decide
  have hinlined : t = s.inlineMixin ".m".toList [red] := rfl
  have hsame := @Sheet.evaluate_inlineMixin ".m".toList [red] [definition]
    [.rule [".n".toList] [call ".m"], .rule ["a".toList] [call ".n", media [call ".m"]]] hname (by decide)
  refine ⟨hname, hinlined, ?_⟩
  rw [hinlined]
  exact hsame

end LessCss
