import Mathlib.Data.List.Forall2
import LessCss.Proofs.Css.CallScopes
/-!
The place of a definition in its block.

A block registers its definitions before it is evaluated, so it does not count where in the block they stand.
`Sheet.Moved` relates a sheet to one with definitions at other places of their blocks, at any depth. Both evaluate to
the same (`Sheet.evaluate_moved`). A block may come back as the body of a mixin, so scopes are related by what names
are bound to in them, and by their mixins up to moved definitions.
-/
namespace LessCss

namespace Item

/-- The item defines a variable, or a mixin with parameters. -/
def isDefinition : Item → Bool
  | definition _ | mixin .. => true
  | _ => false

/-- The item can be called by a name. -/
def registers (name : Text) (i : Item) : Bool := (Scope.mixin? i).any (·.1 = name)

def valueOf? (name : Text) : Item → Option (List Token)
  | definition d => if d.name = name then some d.value else none
  | _ => none

/-- The values that a block gives to a variable. -/
def valuesOf (name : Text) (is : List Item) : List (List Token) := is.filterMap (valueOf? name)

/-- The items of a block with its definitions at other places. The order of the other items is the same, and so is that
of the items that can be called by one name. A variable has the same last definition. The definitions of it before that
one may be left out. -/
structure Rearranged (is js : List Item) : Prop where
  others : js.filter (!·.isDefinition) = is.filter (!·.isDefinition)
  mixins : ∀ name, js.filter (registers name) = is.filter (registers name)
  last : ∀ name, (valuesOf name js).getLast? = (valuesOf name is).getLast?

mutual

/-- An item and the same item with definitions at other places of its blocks. -/
inductive Moved : Item → Item → Prop
  | declaration (d) : Moved (declaration d) (declaration d)
  | definition (d) : Moved (definition d) (definition d)
  | call (c) : Moved (call c) (call c)
  | rule {selectors body body'} (hbody : Hoisted body body') : Moved (rule selectors body) (rule selectors body')
  | atRule {name params body body'} (hbody : Hoisted body body') :
    Moved (atRule name params body) (atRule name params body')
  | mixin {name params body body'} (hbody : Hoisted body body') :
    Moved (mixin name params body) (mixin name params body')

/-- Definitions are moved in the blocks of the items, and then among the items. -/
inductive Hoisted : List Item → List Item → Prop
  | intro {is js ks} (inside : MovedAll is js) (here : Rearranged js ks) : Hoisted is ks

inductive MovedAll : List Item → List Item → Prop
  | nil : MovedAll [] []
  | cons {i j is js} (hi : Moved i j) (his : MovedAll is js) : MovedAll (i :: is) (j :: js)

end

end Item

/-- A statement and the same statement with definitions at other places of its blocks. -/
inductive Statement.Moved : Statement → Statement → Prop
  | directive (d) : Moved (.directive d) (.directive d)
  | definition (d) : Moved (.definition d) (.definition d)
  | call (c) : Moved (.call c) (.call c)
  | rule {selectors body body'} (hbody : Item.Hoisted body body') : Moved (.rule selectors body) (.rule selectors body')
  | atRule {name params body body'} (hbody : Item.Hoisted body body') :
    Moved (.atRule name params body) (.atRule name params body')
  | mixin {name params body body'} (hbody : Item.Hoisted body body') :
    Moved (.mixin name params body) (.mixin name params body')

/-- The statement defines a variable, or a mixin with parameters. -/
def Statement.isDefinition (x : Statement) : Bool := x.toItem?.any Item.isDefinition

/-- Definitions are moved in the blocks of the statements, and then among the statements. -/
def Sheet.Moved (s u : Sheet) : Prop :=
  ∃ t : Sheet, List.Forall₂ Statement.Moved s t ∧
    u.filter (!·.isDefinition) = t.filter (!·.isDefinition) ∧ Item.Rearranged t.items u.items

namespace Scope

/-- What a name is bound to. -/
def boundTo? (name : Text) (bs : List (Text × Binding)) : Option Binding := (find? name bs).map (·.1)

theorem boundTo?_cons (name n : Text) (b : Binding) (bs : List (Text × Binding)) :
    boundTo? name ((n, b) :: bs) = if n = name then some b else boundTo? name bs := by
  unfold boundTo?
  rw [find?]
  split
  · rfl
  · rw [Option.map_map]
    rfl

theorem boundTo?_append (name : Text) (bs cs : List (Text × Binding)) :
    boundTo? name (bs ++ cs) = (boundTo? name bs).or (boundTo? name cs) := by
  induction bs with
  | nil => rfl
  | cons b bs ih =>
    obtain ⟨n, b⟩ := b
    rw [List.cons_append, boundTo?_cons, boundTo?_cons, ih]
    split <;> rfl

/-- A binding that is marked is pending. The others are as they were. -/
theorem boundTo?_marked {name : Text} {b : Binding} {bs marked : List (Text × Binding)}
    (h : find? name bs = some (b, marked)) (other : Text) :
    boundTo? other marked = if other = name then some .pending else boundTo? other bs := by
  induction bs generalizing marked with
  | nil => exact nomatch h
  | cons c bs ih =>
    obtain ⟨n, c⟩ := c
    rw [find?] at h
    split at h
    · next hn =>
      obtain ⟨-, rfl⟩ := Prod.mk.inj (Option.some.inj h)
      subst hn
      rw [boundTo?_cons, boundTo?_cons]
      simp only [eq_comm (a := other)]
      split <;> rfl
    · next hn =>
      obtain ⟨⟨found, rest⟩, hrest, heq⟩ := Option.map_eq_some_iff.mp h
      obtain ⟨rfl, rfl⟩ := Prod.mk.inj heq
      rw [boundTo?_cons, boundTo?_cons, ih hrest]
      by_cases hother : other = name
      · subst hother
        simp [hn]
      · simp [hother]

theorem find?_like {bs cs : List (Text × Binding)} (h : ∀ name, boundTo? name bs = boundTo? name cs) (name : Text) :
    Option.Rel (fun p q => p.1 = q.1 ∧ ∀ other, boundTo? other p.2 = boundTo? other q.2)
      (find? name bs) (find? name cs) := by
  have hname := h name
  unfold boundTo? at hname
  cases hb : find? name bs with
  | none =>
    rw [hb] at hname
    rw [Option.map_eq_none_iff.mp hname.symm]
    exact .none
  | some p =>
    obtain ⟨b, marked⟩ := p
    rw [hb] at hname
    obtain ⟨⟨c, marked'⟩, hc, rfl⟩ := Option.map_eq_some_iff.mp hname.symm
    rw [hc]
    refine .some ⟨rfl, ?_⟩
    intro other
    rw [boundTo?_marked hb, boundTo?_marked hc, h]

/-- The last definition of a variable counts. -/
theorem boundTo?_ofItems (name : Text) (is : List Item) :
    boundTo? name (ofItems is).bindings = (Item.valuesOf name is).getLast?.map .deferred := by
  unfold ofItems
  induction is with
  | nil => rfl
  | cons i is ih =>
    have hi : boundTo? name (binding? i).toList = (Item.valueOf? name i).map .deferred := by
      cases i with
      | definition d =>
        change boundTo? name [(d.name, .deferred d.value)] = _
        rw [boundTo?_cons, Item.valueOf?]
        split <;> rfl
      | _ => rfl
    have hcons : ((i :: is).filterMap binding?).reverse = (is.filterMap binding?).reverse ++ (binding? i).toList := by
      cases hb : binding? i <;> simp [hb]
    have hvalues : Item.valuesOf name (i :: is) = (Item.valueOf? name i).toList ++ Item.valuesOf name is := by
      cases hv : Item.valueOf? name i <;> simp [Item.valuesOf, hv]
    dsimp only at ih ⊢
    rw [hcons, boundTo?_append, ih, hi, hvalues, List.getLast?_append]
    cases Item.valueOf? name i <;> simp

theorem mixinsNamed_ofItems (name : Text) (is : List Item) : (ofItems is).mixinsNamed name =
    (is.filter (Item.registers name)).filterMap fun i => (mixin? i).map (·.2) := by
  unfold mixinsNamed ofItems
  rw [List.filterMap_filterMap, List.filterMap_filter]
  congr 1
  funext i
  unfold Item.registers
  cases mixin? i with
  | none => rfl
  | some m => by_cases hm : m.1 = name <;> simp [hm]

end Scope

/-- A mixin and the same mixin with definitions at other places of its blocks. -/
inductive Mixin.Moved : Mixin → Mixin → Prop
  | plain {body body'} (hbody : Item.Hoisted body body') : Moved (.plain body) (.plain body')
  | parametric {params body body'} (hbody : Item.Hoisted body body') :
    Moved (.parametric params body) (.parametric params body')

/-- Names are bound to the same in both scopes, up to moved definitions in mixins. -/
structure Scope.Like (s t : Scope) : Prop where
  bindings : ∀ name, boundTo? name s.bindings = boundTo? name t.bindings
  mixins : ∀ name, List.Forall₂ Mixin.Moved (s.mixinsNamed name) (t.mixinsNamed name)

namespace Item

mutual

theorem Moved.refl (i : Item) : Moved i i := by
  cases i with
  | declaration d => exact .declaration d
  | definition d => exact .definition d
  | call c => exact .call c
  | rule selectors body => exact .rule (Hoisted.refl body)
  | atRule name params body => exact .atRule (Hoisted.refl body)
  | mixin name params body => exact .mixin (Hoisted.refl body)

theorem Hoisted.refl (is : List Item) : Hoisted is is :=
  .intro (MovedAll.refl is) ⟨rfl, fun _ => rfl, fun _ => rfl⟩

theorem MovedAll.refl (is : List Item) : MovedAll is is := by
  cases is with
  | nil => exact .nil
  | cons i is => exact .cons (Moved.refl i) (MovedAll.refl is)

end

theorem Moved.valueOf? {i j : Item} (h : Moved i j) (name : Text) : Item.valueOf? name i = Item.valueOf? name j := by
  cases h <;> rfl

theorem Moved.mixin? {i j : Item} (h : Moved i j) :
    Option.Rel (fun m n => m.1 = n.1 ∧ Mixin.Moved m.2 n.2) (Scope.mixin? i) (Scope.mixin? j) := by
  cases h with
  | declaration | definition | call | atRule => exact .none
  | mixin hbody => exact .some ⟨rfl, .parametric hbody⟩
  | @rule selectors body body' hbody =>
    rcases selectors with _ | ⟨selector, _ | ⟨second, others⟩⟩
    · exact .none
    · simp only [Scope.mixin?]
      cases Scope.isCallable selector with
      | true => exact .some ⟨rfl, .plain hbody⟩
      | false => exact .none
    · exact .none

theorem MovedAll.forall₂ : ∀ {is js : List Item}, MovedAll is js → List.Forall₂ Moved is js
  | _, _, .nil => .nil
  | _, _, .cons hi his => .cons hi his.forall₂

theorem MovedAll.of_forall₂ {is js : List Item} (h : List.Forall₂ Moved is js) : MovedAll is js := by
  induction h with
  | nil => exact .nil
  | cons hi _ ih => exact .cons hi ih

theorem MovedAll.valuesOf {is js : List Item} (h : MovedAll is js) (name : Text) :
    Item.valuesOf name is = Item.valuesOf name js := by
  replace h := h.forall₂
  unfold Item.valuesOf
  induction h with
  | nil => rfl
  | cons hi _ ih => rw [List.filterMap_cons, List.filterMap_cons, hi.valueOf?, ih]

theorem MovedAll.mixinsNamed {is js : List Item} (h : MovedAll is js) (name : Text) :
    List.Forall₂ Mixin.Moved ((Scope.ofItems is).mixinsNamed name) ((Scope.ofItems js).mixinsNamed name) := by
  unfold Scope.mixinsNamed Scope.ofItems
  refine List.rel_filterMap ?_ (List.rel_filterMap (fun _ _ hi => Moved.mixin? hi) h.forall₂)
  rintro ⟨n, m⟩ ⟨n', m'⟩ ⟨rfl, hm⟩
  dsimp only
  split
  · exact .some hm
  · exact .none

theorem Rearranged.mixinsNamed {is js : List Item} (h : Rearranged is js) (name : Text) :
    (Scope.ofItems is).mixinsNamed name = (Scope.ofItems js).mixinsNamed name := by
  rw [Scope.mixinsNamed_ofItems, Scope.mixinsNamed_ofItems, h.mixins]

end Item

/-- Definitions at other places of a block bind the same. -/
theorem Scope.ofItems_like {is js ks : List Item} (inside : Item.MovedAll is js) (here : Item.Rearranged js ks) :
    (ofItems is).Like (ofItems ks) := by
  constructor
  · intro name
    rw [boundTo?_ofItems, boundTo?_ofItems, inside.valuesOf, here.last]
  · intro name
    rw [← here.mixinsNamed]
    exact inside.mixinsNamed name

theorem Mixin.Moved.refl (m : Mixin) : m.Moved m := by
  cases m with
  | plain body => exact .plain (.refl body)
  | parametric params body => exact .parametric (.refl body)

theorem Scope.Like.refl (s : Scope) : s.Like s :=
  ⟨fun _ => rfl, fun _ => List.forall₂_same.mpr fun m _ => .refl m⟩

namespace Scopes

variable {S T : Scopes}

theorem find?_like (h : List.Forall₂ Scope.Like S T) (name : Text) :
    Option.Rel (fun p q => p.1 = q.1 ∧ List.Forall₂ Scope.Like p.2 q.2) (find? name S) (find? name T) := by
  induction h with
  | nil => exact .none
  | @cons s t S T hst hST ih =>
    have hfind := Scope.find?_like hst.bindings name
    unfold find?
    generalize Scope.find? name s.bindings = p, Scope.find? name t.bindings = q at hfind
    cases hfind with
    | none => exact ih
    | some hfound => exact .some ⟨hfound.1, .cons ⟨hfound.2, hst.mixins⟩ hST⟩

/-- A variable has the same value in scopes that are alike, by induction on the definitions that are not being
evaluated. -/
theorem resolve_like (h : List.Forall₂ Scope.Like S T) : resolve S = resolve T := by
  induction hn : S.deferredCount using Nat.strongRecOn generalizing S T with
  | ind n ih =>
    subst hn
    funext name p
    have hfind := find?_like h name
    rw [resolve_eq, resolve_eq]
    generalize hS : find? name S = found, find? name T = found' at hfind
    cases hfind with
    | none => rfl
    | @some q q' hfound =>
      obtain ⟨b, home⟩ := q
      obtain ⟨b', home'⟩ := q'
      obtain ⟨rfl, hhome⟩ := hfound
      cases b with
      | deferred value =>
        have hsame := ih _ (deferredCount_find? hS) hhome rfl
        dsimp only
        rw [hsame]
      | pending => rfl
      | resolved v => rfl

theorem mixinsNamed_like (h : List.Forall₂ Scope.Like S T) (name : Text) :
    List.Forall₂ Mixin.Moved (S.mixinsNamed name) (T.mixinsNamed name) := by
  induction h with
  | nil => exact .nil
  | @cons s t S T hst hST ih =>
    have hmixins := hst.mixins name
    unfold mixinsNamed at ih ⊢
    rw [List.map_cons, List.map_cons, List.find?_cons, List.find?_cons]
    generalize s.mixinsNamed name = ms, t.mixinsNamed name = ms' at hmixins
    cases hmixins with
    | nil => exact ih
    | cons hm hms => exact .cons hm hms

end Scopes

/-- Calls of both kinds yield the same in scopes that are alike. -/
def SameYield (calls calls' : Expansion) : Prop :=
  ∀ {S T : Scopes}, List.Forall₂ Scope.Like S T → ∀ selectors c, calls S selectors c = calls' T selectors c

variable {calls calls' : Expansion}

namespace Item

/-- Definitions yield nothing. -/
theorem yieldAll_others (S : Scopes) (selectors : List Text) (is : List Item) :
    yieldAll calls S selectors (is.filter (!·.isDefinition)) = yieldAll calls S selectors is := by
  have hdefinition : ∀ i : Item, i.isDefinition = true → yield calls S selectors i = .ok .none := by
    rintro (_ | _) h
    all_goals first | rfl | exact nomatch h
  induction is with
  | nil => rfl
  | cons i is ih =>
    cases h : i.isDefinition with
    | false => rw [List.filter_cons_of_pos (by rw [h]; rfl), yieldAll, yieldAll, ih]
    | true =>
      rw [List.filter_cons_of_neg (by rw [h]; exact nofun), yieldAll, hdefinition i h, ih, ok_bind]
      simp only [Yield.none_append]
      exact (bind_pure _).symm

mutual

theorem yield_moved (hcalls : SameYield calls calls') : ∀ {i j : Item}, Moved i j → ∀ {S T : Scopes},
    List.Forall₂ Scope.Like S T → ∀ selectors, yield calls S selectors i = yield calls' T selectors j
  | _, _, .declaration d, _, _, h, _ => by
    rw [yield, yield, Declaration.evaluate, Declaration.evaluate, Scopes.evaluate_congr (Scopes.resolve_like h)]
  | _, _, .definition _, _, _, _, _ => rfl
  | _, _, .call c, _, _, h, selectors => hcalls h selectors c
  | _, _, .rule hbody, _, _, h, _ => by rw [yield, yield, yieldAll_hoisted hcalls hbody h]
  | _, _, .atRule hbody, _, _, h, _ => by rw [yield, yield, yieldAll_hoisted hcalls hbody h]
  | _, _, .mixin _, _, _, _, _ => rfl

theorem yieldAll_hoisted (hcalls : SameYield calls calls') : ∀ {is ks : List Item}, Hoisted is ks → ∀ {S T : Scopes},
    List.Forall₂ Scope.Like S T → ∀ selectors,
      yieldAll calls (.ofItems is :: S) selectors is = yieldAll calls' (.ofItems ks :: T) selectors ks
  | _, _, .intro inside here, _, _, h, selectors => by
    rw [yieldAll_moved hcalls inside (.cons (Scope.ofItems_like inside here) h) selectors,
      ← yieldAll_others, ← here.others, yieldAll_others]

theorem yieldAll_moved (hcalls : SameYield calls calls') : ∀ {is js : List Item}, MovedAll is js → ∀ {S T : Scopes},
    List.Forall₂ Scope.Like S T → ∀ selectors, yieldAll calls S selectors is = yieldAll calls' T selectors js
  | _, _, .nil, _, _, _, _ => rfl
  | _, _, .cons hi his, _, _, h, selectors => by
    rw [yieldAll, yieldAll, yield_moved hcalls hi h selectors, yieldAll_moved hcalls his h selectors]

end

end Item

namespace Mixin

variable {S T : Scopes}

theorem Moved.accepts {m m' : Mixin} (h : m.Moved m') (count : Nat) : m.accepts count = m'.accepts count := by
  cases h <;> rfl

theorem yieldAll_like (hcalls : SameYield calls calls') (h : List.Forall₂ Scope.Like S T) (selectors : List Text)
    (args : List Value) {ms ms' : List Mixin} (hms : List.Forall₂ Moved ms ms') :
    Mixin.yieldAll calls S selectors args ms = Mixin.yieldAll calls' T selectors args ms' := by
  induction hms with
  | nil => rfl
  | cons hm _ ih =>
    rw [Mixin.yieldAll, Mixin.yieldAll, ih]
    cases hm with
    | plain hbody =>
      have hyield := Item.yieldAll_hoisted hcalls hbody h selectors
      simp only [bodyScopes, body, ok_bind, hyield]
    | @parametric params body body' hbody =>
      have hsame := parameterScope_congr (Scopes.resolve_like h) params args
      simp only [bodyScopes, Mixin.body, hsame]
      cases parameterScope T params args with
      | error d => rfl
      | ok scope =>
        have hyield := Item.yieldAll_hoisted hcalls hbody (.cons (.refl scope) h) selectors
        simp only [ok_bind, hyield]

end Mixin

/-- Calls yield the same in scopes that are alike, by induction on the names that may be called. -/
theorem expand_like {callable callable' : List Text} (hmem : ∀ name, name ∈ callable ↔ name ∈ callable') :
    SameYield (expand callable) (expand callable') := by
  induction hn : callable.length using Nat.strongRecOn generalizing callable callable' with
  | ind n ih =>
    subst hn
    intro S T h selectors c
    have hmixins := Scopes.mixinsNamed_like h c.name
    have hempty : ∀ {ms ms' : List Mixin}, List.Forall₂ Mixin.Moved ms ms' → ms.isEmpty = ms'.isEmpty := by
      intro ms ms' hms
      cases hms <;> rfl
    rw [expand_eq, expand_eq, Scopes.evaluate_congr (Scopes.resolve_like h), hempty hmixins]
    simp only [hmem]
    by_cases hc : c.name ∈ callable'
    · have hwithout : ∀ name, name ∈ without c.name callable ↔ name ∈ without c.name callable' := by
        intro name
        unfold without
        rw [List.mem_filter, List.mem_filter, hmem]
      have hcalls : SameYield (expand (without c.name callable)) (expand (without c.name callable')) :=
        ih _ (without_length ((hmem _).mpr hc)) hwithout rfl
      have hfilter : ∀ count, List.Forall₂ Mixin.Moved ((S.mixinsNamed c.name).filter (·.accepts count))
          ((T.mixinsNamed c.name).filter (·.accepts count)) := by
        intro count
        refine List.rel_filter ?_ hmixins
        intro m m' hm
        exact Bool.eq_iff_iff.mp (hm.accepts count)
      simp only [hempty (hfilter _), Mixin.yieldAll_like hcalls h selectors _ (hfilter _)]
    · simp only [if_pos hc]

namespace Item

theorem mem_mixinNamesAll {name : Text} {is : List Item} : name ∈ mixinNamesAll is ↔ ∃ i ∈ is, name ∈ mixinNames i := by
  induction is with
  | nil => simp [mixinNamesAll]
  | cons i is ih => simp [mixinNamesAll, ih]

/-- Only definitions of variables may be left out. -/
theorem Rearranged.mem_iff {is js : List Item} (h : Rearranged is js) {i : Item} (hi : ∀ d, i ≠ .definition d) :
    i ∈ js ↔ i ∈ is := by
  have hothers : i ∈ js.filter (!·.isDefinition) ↔ i ∈ is.filter (!·.isDefinition) := by rw [h.others]
  rw [List.mem_filter, List.mem_filter] at hothers
  cases i with
  | definition d => exact absurd rfl (hi d)
  | mixin name params body =>
    have hmixins : .mixin name params body ∈ js.filter (registers name) ↔
        .mixin name params body ∈ is.filter (registers name) := by rw [h.mixins]
    simpa [registers, Scope.mixin?] using hmixins
  | declaration | call | rule | atRule => simpa [isDefinition] using hothers

theorem Rearranged.mixinNames {is js : List Item} (h : Rearranged is js) (name : Text) :
    name ∈ mixinNamesAll js ↔ name ∈ mixinNamesAll is := by
  rw [mem_mixinNamesAll, mem_mixinNamesAll]
  refine exists_congr fun i => and_congr_left fun hname => h.mem_iff ?_
  rintro d rfl
  exact nomatch hname

theorem Moved.mixinName? {i j : Item} (h : Moved i j) : (Scope.mixin? i).map (·.1) = (Scope.mixin? j).map (·.1) := by
  have hmixin := h.mixin?
  generalize Scope.mixin? i = m, Scope.mixin? j = m' at hmixin
  cases hmixin with
  | none => rfl
  | some hm => exact congrArg some hm.1

mutual

theorem Moved.mixinNames : ∀ {i j : Item}, Moved i j → ∀ name, name ∈ Item.mixinNames i ↔ name ∈ Item.mixinNames j
  | _, _, .declaration _, _ | _, _, .definition _, _ | _, _, .call _, _ => .rfl
  | _, _, .rule hbody, name => by
    rw [Item.mixinNames, Item.mixinNames, (Moved.rule hbody).mixinName?, List.mem_append, List.mem_append,
      hbody.mixinNames name]
  | _, _, .atRule hbody, name => by
    rw [Item.mixinNames, Item.mixinNames, (Moved.atRule hbody).mixinName?, List.mem_append, List.mem_append,
      hbody.mixinNames name]
  | _, _, .mixin hbody, name => by
    rw [Item.mixinNames, Item.mixinNames, (Moved.mixin hbody).mixinName?, List.mem_append, List.mem_append,
      hbody.mixinNames name]

theorem Hoisted.mixinNames : ∀ {is ks : List Item}, Hoisted is ks → ∀ name,
    name ∈ mixinNamesAll is ↔ name ∈ mixinNamesAll ks
  | _, _, .intro inside here, name => (inside.mixinNames name).trans (here.mixinNames name).symm

theorem MovedAll.mixinNames : ∀ {is js : List Item}, MovedAll is js → ∀ name,
    name ∈ mixinNamesAll is ↔ name ∈ mixinNamesAll js
  | _, _, .nil, _ => .rfl
  | _, _, .cons hi his, name => by simp [mixinNamesAll, hi.mixinNames name, his.mixinNames name]

end

end Item

namespace Statement

theorem Moved.toItem? {x y : Statement} (h : x.Moved y) : Option.Rel Item.Moved x.toItem? y.toItem? := by
  cases h with
  | directive d => exact .none
  | definition d => exact .some (.definition d)
  | call c => exact .some (.call c)
  | rule hbody => exact .some (.rule hbody)
  | atRule hbody => exact .some (.atRule hbody)
  | mixin hbody => exact .some (.mixin hbody)

theorem nodesOf_moved (hcalls : SameYield calls calls') {S T : Scopes} (h : List.Forall₂ Scope.Like S T)
    {x y : Statement} (hxy : x.Moved y) : Sheet.nodesOf calls S x = Sheet.nodesOf calls' T y := by
  cases hxy with
  | directive | definition | mixin => rfl
  | call c => rw [Sheet.nodesOf, Sheet.nodesOf, hcalls h]
  | rule hbody => rw [Sheet.nodesOf, Sheet.nodesOf, Item.yield_moved hcalls (.rule hbody) h]
  | atRule hbody => rw [Sheet.nodesOf, Sheet.nodesOf, Item.yield_moved hcalls (.atRule hbody) h]

theorem nodesOf_definition (calls : Expansion) (S : Scopes) {x : Statement} (h : x.isDefinition = true) :
    Sheet.nodesOf calls S x = .ok [] := by
  cases x with
  | definition | mixin => rfl
  | directive | call | rule | atRule => exact nomatch h

end Statement

theorem Sheet.movedAll_items {s t : Sheet} (h : List.Forall₂ Statement.Moved s t) :
    Item.MovedAll (Sheet.items s) (Sheet.items t) :=
  .of_forall₂ (List.rel_filterMap (fun _ _ hx => Statement.Moved.toItem? hx) h)

/-- It does not count where in its block a definition stands. A sheet and the same sheet with definitions at other
places of their blocks, at any depth, evaluate to the same nodes or fail alike. -/
theorem Sheet.evaluate_moved {s u : Sheet} (h : s.Moved u) : u.evaluate = s.evaluate := by
  obtain ⟨t, inside, others, here⟩ := h
  have hitems := movedAll_items inside
  have hcalls : SameYield (expand (Item.mixinNamesAll s.items)) (expand (Item.mixinNamesAll u.items)) :=
    expand_like (Item.Hoisted.intro hitems here).mixinNames
  have hscopes : List.Forall₂ Scope.Like [.ofItems s.items] [.ofItems u.items] :=
    .cons (Scope.ofItems_like hitems here) .nil
  unfold Sheet.evaluate
  generalize expand (Item.mixinNamesAll s.items) = calls, [Scope.ofItems s.items] = S,
    expand (Item.mixinNamesAll u.items) = calls', [Scope.ofItems u.items] = T at hcalls hscopes
  have hdefinition : ∀ x : Statement, (!x.isDefinition) = false → nodesOf calls' T x = .ok [] := by
    intro x hx
    exact Statement.nodesOf_definition calls' T (by simpa using hx)
  calc (u.mapM (nodesOf calls' T)).map List.flatten
    _ = (t.mapM (nodesOf calls' T)).map List.flatten := by
      rw [← mapM_filter_flatten hdefinition, others, mapM_filter_flatten hdefinition]
    _ = (s.mapM (nodesOf calls S)).map List.flatten := by
      congr 1
      clear others here hitems
      induction inside with
      | nil => rfl
      | cons hx _ ih => rw [List.mapM_cons, List.mapM_cons, Statement.nodesOf_moved hcalls hscopes hx, ih]

/-- A mixin is defined after it is called. In its body a variable is defined before it is used, and not twice. -/
theorem Sheet.evaluate_moved_mixin :
    let x : Definition := ⟨"x".toList, [⟨.number, "1".toList, ⟨1, 1⟩, true⟩]⟩
    let x' : Definition := ⟨"x".toList, [⟨.number, "2".toList, ⟨1, 1⟩, true⟩]⟩
    let width : Declaration := ⟨"width".toList, [⟨.atKeyword, "@x".toList, ⟨1, 1⟩, true⟩], false⟩
    let rule : Statement := .rule ["a".toList] [.call ⟨".m".toList, [], false, ⟨1, 1⟩⟩]
    let before : Sheet := [.mixin ".m".toList [] [.declaration width, .definition x, .definition x'], rule]
    let after : Sheet := [rule, .mixin ".m".toList [] [.definition x', .declaration width]]
    before.Moved after ∧ after.evaluate = before.evaluate := by
  intro x x' width rule before after
  have hbody : Item.Rearranged [.declaration width, .definition x, .definition x']
      [.definition x', .declaration width] := by
    refine ⟨rfl, fun _ => rfl, ?_⟩
    intro name
    by_cases hname : x.name = name
    · simp only [Item.valuesOf, Item.valueOf?, List.filterMap_cons, List.filterMap_nil, if_pos hname,
        if_pos (show x'.name = name from hname)]
      rfl
    · simp only [Item.valuesOf, Item.valueOf?, List.filterMap_cons, List.filterMap_nil, if_neg hname,
        if_neg (show x'.name ≠ name from hname)]
  have hsheet : Item.Rearranged (Sheet.items [.mixin ".m".toList [] [.definition x', .declaration width], rule])
      (Sheet.items after) := by
    refine ⟨rfl, ?_, fun _ => rfl⟩
    intro name
    rfl
  have hmoved : before.Moved after :=
    ⟨_, .cons (.mixin (.intro (.refl _) hbody)) (.cons (.rule (.refl _)) .nil), rfl, hsheet⟩
  exact ⟨hmoved, evaluate_moved hmoved⟩

end LessCss
