import LessCss.Proofs.Css.Blame
import LessCss.Proofs.Css.GuardedRun
import LessCss.Proofs.Css.Parameters
/-!
Which calls are reported as recursive.

A call is linked to the mixins that it resolves to where it stands and that accept its arguments. Evaluation follows
these links, and keeps the chain of mixins that it has come through (`Sheet.Visits`). A diagnostic that names a mixin is
about a call that evaluation has come to (`Sheet.evaluate_reported`). It reports a call as recursive if a mixin of the
same name is in the chain, and it reports no other call so (`Sheet.evaluate_recursion`). That mixin need not be one that
the call is linked to: it may take another number of arguments, or stand in another scope (`Sheet.evaluate_overload`).
-/
namespace LessCss

def Fault.mixin? : Fault → Option Text
  | undefinedMixin name | recursiveMixin name | noMatchingMixin name => some name
  | _ => none

/-- A diagnostic that is about no mixin. -/
def Diagnostic.Mixinless (d : Diagnostic) : Prop := d.fault.mixin? = none

theorem Expr.Malformed.mixinless {ts : List Token} {d : Diagnostic} (h : Malformed ts d) : d.Mixinless := by
  cases h with
  | number => rfl
  | @misfit f t ht hf =>
    cases f with
    | undefinedMixin | recursiveMixin | noMatchingMixin => exact nomatch hf
    | _ => rfl

namespace Scopes

theorem value_mixinless {lookup : Lookup} (h : ∀ name p, Ends (fun _ => True) Diagnostic.Mixinless (lookup name p))
    (value : List Token) :
    Ends (fun _ => True) Diagnostic.Mixinless (Expr.ofTokens value >>= fun e => e.evaluate lookup) := by
  rcases eq_or_ne value [] with rfl | hne
  · exact show Diagnostic.Mixinless _ from rfl
  · have hanswers : Expr.Answers Diagnostic.Mixinless value lookup :=
      ⟨fun _ _ _ => ⟨rfl, rfl⟩, fun t _ _ => h t.name t.position⟩
    exact ((Expr.ofTokens_ends hne).mono_error fun _ hd => hd.mixinless).bind fun e _ he =>
      Expr.evaluate_ends hanswers e he.1

/-- By induction on the definitions that are not being evaluated. -/
theorem resolve_mixinless (S : Scopes) (name : Text) (p : Position) :
    Ends (fun _ => True) Diagnostic.Mixinless (S.resolve name p) := by
  induction hn : S.deferredCount using Nat.strongRecOn generalizing S name p with
  | ind n ih =>
    subst hn
    rw [resolve_eq]
    cases hfind : find? name S with
    | none => exact show Diagnostic.Mixinless _ from rfl
    | some q =>
      obtain ⟨b, home⟩ := q
      cases b with
      | resolved v => trivial
      | pending => exact show Diagnostic.Mixinless _ from rfl
      | deferred value =>
        exact value_mixinless (fun name p => ih _ (deferredCount_find? hfind) home name p rfl) value

theorem evaluate_mixinless (S : Scopes) (value : List Token) :
    Ends (fun _ => True) Diagnostic.Mixinless (S.evaluate value) :=
  value_mixinless (resolve_mixinless S) value

end Scopes

namespace Mixin

theorem bindFallbacks_mixinless (S : Scopes) (scope : Scope) (ps : List Parameter) :
    Ends (fun _ => True) Diagnostic.Mixinless (bindFallbacks S scope ps) := by
  induction ps generalizing scope with
  | nil => trivial
  | cons p ps ih =>
    rw [bindFallbacks]
    split
    · exact ih scope
    · next value _ =>
      exact (Scopes.evaluate_mixinless _ value).bind fun v _ _ => (ih _).bind fun _ _ _ => trivial

theorem bodyScopes_mixinless (m : Mixin) (S : Scopes) (args : List Value) :
    Ends (fun _ => True) Diagnostic.Mixinless (m.bodyScopes S args) := by
  cases m with
  | plain body => trivial
  | parametric params body =>
    have hscope : Ends (fun _ => True) Diagnostic.Mixinless (parameterScope S params args) :=
      (bindFallbacks_mixinless S _ _).bind fun _ _ _ => trivial
    exact hscope.bind fun _ _ _ => trivial

end Mixin

namespace Sheet

/-- The items that the evaluation of a sheet comes to. With each item come the mixins that lead to it, the last one
first and each under the name by which it is called, and the scopes around the item. -/
inductive Visits (s : Sheet) : List (Text × Mixin) → Scopes → Item → Prop
  | start {i} (hi : i ∈ s.items) : Visits s [] [.ofItems s.items] i
  | rule {chain S own body i} (h : Visits s chain S (.rule own body)) (hi : i ∈ body) :
      Visits s chain (.ofItems body :: S) i
  | atRule {chain S name params body i} (h : Visits s chain S (.atRule name params body)) (hi : i ∈ body) :
      Visits s chain (.ofItems body :: S) i
  | call {chain S c args m T i} (h : Visits s chain S (.call c)) (hargs : c.args.mapM S.evaluate = .ok args)
      (hm : m ∈ S.mixinsNamed c.name) (haccepts : m.accepts args.length = true)
      (hscopes : m.bodyScopes S args = .ok T) (hi : i ∈ m.body) : Visits s ((c.name, m) :: chain) T i

/-- If a diagnostic reports a recursion, it blames a call of a name that is in the chain which leads to that call. -/
def Recurs (s : Sheet) (d : Diagnostic) : Prop := ∀ name, d.fault = .recursiveMixin name →
  ∃ chain S c, s.Visits chain S (.call c) ∧ c.name = name ∧ d.position = some c.position ∧ name ∈ chain.map (·.1)

/-- The names that may be called at the end of a chain. -/
def callable (s : Sheet) (chain : List (Text × Mixin)) : List Text :=
  Guards.unguarded (chain.map (·.1)) (Item.mixinNamesAll s.items)

variable {s : Sheet} {chain : List (Text × Mixin)} {S : Scopes}

theorem callable_nil (s : Sheet) : s.callable [] = Item.mixinNamesAll s.items :=
  List.filter_eq_self.mpr (by simp)

theorem callable_cons (name : Text) (m : Mixin) : s.callable ((name, m) :: chain) = without name (s.callable chain) :=
  (Guards.without_unguarded name _).symm

theorem mem_callable {name : Text} :
    name ∈ s.callable chain ↔ name ∈ Item.mixinNamesAll s.items ∧ name ∉ chain.map (·.1) := by
  simp [callable, Guards.unguarded]

/-- The mixins that a visited item can call are mixins of the sheet. -/
theorem Visits.within {i : Item} (h : s.Visits chain S i) :
    Guards.Frame.Within (Item.mixinNamesAll s.items) ⟨S, [], [], .item [] i⟩ := by
  induction h with
  | start hi => exact (Guards.Reachable.start hi).sound.within
  | rule _ hi ih =>
    have hbody := ih.enters (.rule hi)
    exact ⟨hbody.scopes, hbody.task⟩
  | atRule _ hi ih => exact ih.enters (.atRule hi)
  | @call _ S c args m _ _ _ _ hm _ hscopes hi ih =>
    have hmixin := ih.enters (.call args hm List.not_mem_nil)
    cases m with
    | plain body =>
      obtain rfl := Except.ok.inj hscopes
      have hbody := hmixin.enters (.plain hi)
      exact ⟨hbody.scopes, hbody.task⟩
    | parametric params body =>
      obtain ⟨scope, hscope, heq⟩ := bind_eq_ok hscopes
      obtain rfl := Except.ok.inj heq
      obtain ⟨bound, rfl⟩ := Mixin.ofValues_of_parameterScope hscope
      have hbody := hmixin.enters (.parametric bound hi)
      exact ⟨hbody.scopes, hbody.task⟩

theorem Visits.mem_callable {c : Call} (h : s.Visits chain S (.call c)) (hdefined : S.mixinsNamed c.name ≠ []) :
    c.name ∈ s.callable chain ↔ c.name ∉ chain.map (·.1) := by
  obtain ⟨m, hm⟩ := List.exists_mem_of_ne_nil _ hdefined
  obtain ⟨scope, hscope, hmixin⟩ := Scopes.exists_of_mem_mixinsNamed hm
  rw [Sheet.mem_callable]
  exact and_iff_right (h.within.scopes scope hscope _ _ hmixin).1

/-- The diagnostics of an evaluation. Those that name a mixin are about calls that it comes to. -/
inductive Reported (s : Sheet) : Diagnostic → Prop
  | mixinless {d : Diagnostic} (h : d.Mixinless) : Reported s d
  | undefined {chain S c} (h : s.Visits chain S (.call c)) (hnone : S.mixinsNamed c.name = []) :
      Reported s ((Fault.undefinedMixin c.name).blame c.position)
  | recursive {chain S c} (h : s.Visits chain S (.call c)) (hchain : c.name ∈ chain.map (·.1)) :
      Reported s ((Fault.recursiveMixin c.name).blame c.position)
  | unmatched {chain S c} (h : s.Visits chain S (.call c)) (hdefined : S.mixinsNamed c.name ≠ []) :
      Reported s ((Fault.noMatchingMixin c.name).blame c.position)

theorem reported_of_ends {α : Type} {e : Except Diagnostic α} (h : Ends (fun _ => True) Diagnostic.Mixinless e) :
    Ends (fun _ => True) s.Reported e :=
  h.mono_error fun _ hd => .mixinless hd

/-- At the end of a chain calls report what may be reported. -/
def CallsReport (s : Sheet) (chain : List (Text × Mixin)) (calls : Expansion) : Prop :=
  ∀ {S : Scopes} (selectors : List Text) {c : Call}, s.Visits chain S (.call c) →
    Ends (fun _ => True) s.Reported (calls S selectors c)

variable {calls : Expansion}

mutual

theorem yield_reported (hcalls : s.CallsReport chain calls) {S : Scopes} (selectors : List Text) {i : Item}
    (h : s.Visits chain S i) : Ends (fun _ => True) s.Reported (Item.yield calls S selectors i) := by
  cases i with
  | declaration d =>
    have hproperty : Ends (fun _ => True) s.Reported (d.evaluate S) :=
      (reported_of_ends (Scopes.evaluate_mixinless S d.value)).map fun _ _ => trivial
    exact hproperty.map fun _ _ => trivial
  | definition | mixin => trivial
  | call c => exact hcalls selectors h
  | rule own body =>
    have hbody : ∀ i ∈ body, s.Visits chain (.ofItems body :: S) i := fun _ hi => h.rule hi
    exact (yieldAll_reported hcalls (Css.nestSelectors selectors own) hbody).bind fun _ _ _ => trivial
  | atRule name params body =>
    have hbody : ∀ i ∈ body, s.Visits chain (.ofItems body :: S) i := fun _ hi => h.atRule hi
    exact (yieldAll_reported hcalls selectors hbody).bind fun _ _ _ => trivial

theorem yieldAll_reported (hcalls : s.CallsReport chain calls) {S : Scopes} (selectors : List Text) {is : List Item}
    (h : ∀ i ∈ is, s.Visits chain S i) : Ends (fun _ => True) s.Reported (Item.yieldAll calls S selectors is) := by
  cases is with
  | nil => trivial
  | cons i is =>
    rw [List.forall_mem_cons] at h
    rw [Item.yieldAll]
    exact (yield_reported hcalls selectors h.1).bind fun _ _ _ =>
      (yieldAll_reported hcalls selectors h.2).bind fun _ _ _ => trivial

end

theorem expand_reported (s : Sheet) (chain : List (Text × Mixin)) :
    s.CallsReport chain (expand (s.callable chain)) := by
  -- on the names that may still be called
  induction hn : (s.callable chain).length using Nat.strongRecOn generalizing chain with
  | ind n ih =>
    subst hn
    intro S selectors c hvisit
    rw [expand_eq]
    split
    · next hnone => exact .undefined hvisit (List.isEmpty_iff.mp hnone)
    · next hsome =>
      have hdefined : S.mixinsNamed c.name ≠ [] := mt List.isEmpty_iff.mpr hsome
      have hmem := hvisit.mem_callable hdefined
      split
      · next hname =>
        rw [hmem, not_not] at hname
        exact .recursive hvisit hname
      · next hname =>
        refine (Ends.mapM fun value _ => reported_of_ends (Scopes.evaluate_mixinless S value)).bind fun args hargs _ => ?_
        dsimp only
        split
        · exact .unmatched hvisit hdefined
        · rw [Mixin.yieldAll_eq_mapM]
          have hbodies : ∀ m ∈ (S.mixinsNamed c.name).filter (·.accepts args.length), Ends (fun _ => True) s.Reported
              (m.bodyScopes S args >>= fun T =>
                Item.yieldAll (expand (without c.name (s.callable chain))) T selectors m.body) := by
            intro m hm
            obtain ⟨hm, haccepts⟩ := List.mem_filter.mp hm
            have hlt : (s.callable ((c.name, m) :: chain)).length < (s.callable chain).length :=
              callable_cons c.name m ▸ without_length (not_not.mp hname)
            refine (reported_of_ends (m.bodyScopes_mixinless S args)).bind fun T hscopes _ => ?_
            rw [← callable_cons]
            exact yieldAll_reported (ih _ hlt _ rfl) selectors fun i hi => hvisit.call hargs hm haccepts hscopes hi
          have hyields : Ends (fun _ => True) s.Reported (Except.map Yield.concat _) :=
            (Ends.mapM hbodies).map fun _ _ => trivial
          exact hyields.bind fun _ _ _ => trivial

theorem nodesOf_reported (hcalls : s.CallsReport [] calls) {x : Statement} (hx : x ∈ s) :
    Ends (fun _ => True) s.Reported (nodesOf calls [.ofItems s.items] x) := by
  have hvisit : ∀ i, x.toItem? = some i → s.Visits [] [.ofItems s.items] i :=
    fun i hi => .start (List.mem_filterMap.mpr ⟨x, hx, hi⟩)
  cases x with
  | directive | definition | mixin => trivial
  | call c =>
    refine (hcalls [] (hvisit _ rfl)).bind fun y _ _ => ?_
    split
    · trivial
    · exact .mixinless rfl
  | rule selectors body => exact (yield_reported hcalls [] (hvisit _ rfl)).map fun _ _ => trivial
  | atRule name params body => exact (yield_reported hcalls [] (hvisit _ rfl)).map fun _ _ => trivial

/-- Whatever diagnostic a sheet is rejected with, if it names a mixin it is about a call that evaluation comes to. -/
theorem evaluate_reported (s : Sheet) : Ends (fun _ => True) s.Reported s.evaluate := by
  have hcalls : s.CallsReport [] (expand (Item.mixinNamesAll s.items)) := callable_nil s ▸ expand_reported s []
  exact (Ends.mapM fun x hx => nodesOf_reported hcalls hx).map fun _ _ => trivial

theorem Reported.recurs {d : Diagnostic} (h : s.Reported d) : s.Recurs d := by
  intro name hf
  cases h with
  | mixinless h =>
    rw [Diagnostic.Mixinless, hf] at h
    exact nomatch h
  | undefined | unmatched => exact nomatch hf
  | @recursive chain S c h hchain =>
    obtain rfl := Fault.recursiveMixin.inj hf
    exact ⟨chain, S, c, h, rfl, rfl, hchain⟩

theorem yield_of_nodesOf {x : Statement} {ns : List Css.Node} (h : nodesOf calls S x = .ok ns) {i : Item}
    (hi : x.toItem? = some i) : ∃ y, Item.yield calls S [] i = .ok y := by
  cases x with
  | directive d => exact nomatch hi
  | definition d =>
    obtain rfl := Option.some.inj hi
    exact ⟨_, rfl⟩
  | mixin name params body =>
    obtain rfl := Option.some.inj hi
    exact ⟨_, rfl⟩
  | call c =>
    obtain rfl := Option.some.inj hi
    obtain ⟨y, hy, -⟩ := bind_eq_ok h
    exact ⟨y, hy⟩
  | rule selectors body =>
    obtain rfl := Option.some.inj hi
    obtain ⟨y, hy, -⟩ := map_eq_ok h
    exact ⟨y, hy⟩
  | atRule name params body =>
    obtain rfl := Option.some.inj hi
    obtain ⟨y, hy, -⟩ := map_eq_ok h
    exact ⟨y, hy⟩

theorem yield_of_yieldAll {selectors : List Text} {is : List Item} {z : Yield}
    (h : Item.yieldAll calls S selectors is = .ok z) {i : Item} (hi : i ∈ is) :
    ∃ y, Item.yield calls S selectors i = .ok y := by
  rw [Item.yieldAll_eq_mapM] at h
  obtain ⟨ys, hys, -⟩ := map_eq_ok h
  obtain ⟨y, -, hy⟩ := exists_of_mapM hys hi
  exact ⟨y, hy⟩

/-- A call that yields something is of a name that may be called, and the bodies of its mixins yield something. -/
theorem yieldAll_of_expand {callable : List Text} {selectors : List Text} {c : Call} {z : Yield}
    (h : expand callable S selectors c = .ok z) :
    c.name ∈ callable ∧ ∀ args, c.args.mapM S.evaluate = .ok args →
      ∀ m ∈ S.mixinsNamed c.name, m.accepts args.length = true → ∀ T, m.bodyScopes S args = .ok T →
        ∃ y, Item.yieldAll (expand (without c.name callable)) T selectors m.body = .ok y := by
  rw [expand_eq] at h
  split at h
  · exact nomatch h
  · split at h
    · exact nomatch h
    · next hname =>
      refine ⟨not_not.mp hname, fun args hargs m hm haccepts T hscopes => ?_⟩
      rw [hargs, ok_bind] at h
      dsimp only at h
      split at h
      · exact nomatch h
      · rw [Mixin.yieldAll_eq_mapM] at h
        obtain ⟨y, hy, -⟩ := bind_eq_ok h
        obtain ⟨ys, hys, -⟩ := map_eq_ok hy
        obtain ⟨y, -, hbody⟩ := exists_of_mapM hys (List.mem_filter.mpr ⟨hm, haccepts⟩)
        rw [hscopes, ok_bind] at hbody
        exact ⟨y, hbody⟩

/-- If the sheet evaluates, then so does every item that is visited, by induction on the visit. -/
theorem Visits.yields {ns : List Css.Node} (hs : s.evaluate = .ok ns) {i : Item} (h : s.Visits chain S i) :
    ∃ selectors y, Item.yield (expand (s.callable chain)) S selectors i = .ok y := by
  induction h with
  | start hi =>
    obtain ⟨x, hx, hitem⟩ := List.mem_filterMap.mp hi
    obtain ⟨nodes, hnodes, -⟩ := map_eq_ok hs
    obtain ⟨_, -, hnodes⟩ := exists_of_mapM hnodes hx
    rw [callable_nil]
    exact ⟨[], yield_of_nodesOf hnodes hitem⟩
  | rule _ hi ih =>
    obtain ⟨selectors, y, hy⟩ := ih
    obtain ⟨z, hz, -⟩ := bind_eq_ok hy
    exact ⟨_, yield_of_yieldAll hz hi⟩
  | atRule _ hi ih =>
    obtain ⟨selectors, y, hy⟩ := ih
    obtain ⟨z, hz, -⟩ := bind_eq_ok hy
    exact ⟨_, yield_of_yieldAll hz hi⟩
  | call _ hargs hm haccepts hscopes hi ih =>
    obtain ⟨selectors, y, hy⟩ := ih
    obtain ⟨z, hz⟩ := (yieldAll_of_expand hy).2 _ hargs _ hm haccepts _ hscopes
    rw [callable_cons]
    exact ⟨selectors, yield_of_yieldAll hz hi⟩

/-- A sheet is rejected for a recursion only at a call of a name that is in the chain of mixins which leads to the
call, and a sheet that evaluates has no such call. -/
theorem evaluate_recursion (s : Sheet) :
    (∀ d name, s.evaluate = .error d → d.fault = .recursiveMixin name →
      ∃ chain S c, s.Visits chain S (.call c) ∧ c.name = name ∧ d.position = some c.position ∧
        name ∈ chain.map (·.1)) ∧
    ∀ ns, s.evaluate = .ok ns → ∀ chain S c, s.Visits chain S (.call c) → c.name ∉ chain.map (·.1) := by
  refine ⟨fun d name hd => ?_, fun ns hs chain S c hvisit => ?_⟩
  · exact ((evaluate_reported s).of_error hd).recurs name
  · obtain ⟨selectors, y, hy⟩ := hvisit.yields hs
    exact (Sheet.mem_callable.mp (yieldAll_of_expand hy).1).2

end Sheet

/-- The body of a mixin sees the mixins of a name that the call sees, unless it defines some itself. -/
theorem Mixin.mixinsNamed_bodyScopes {m : Mixin} {S T : Scopes} {args : List Value} {name : Text}
    (hbody : (Scope.ofItems m.body).mixinsNamed name = []) (h : m.bodyScopes S args = .ok T) :
    T.mixinsNamed name = S.mixinsNamed name := by
  cases m with
  | plain body =>
    obtain rfl := Except.ok.inj h
    exact Scopes.mixinsNamed_skip hbody S
  | parametric params body =>
    obtain ⟨scope, hscope, heq⟩ := bind_eq_ok h
    obtain rfl := Except.ok.inj heq
    obtain ⟨bound, rfl⟩ := ofValues_of_parameterScope hscope
    exact (Scopes.mixinsNamed_skip hbody _).trans (Scopes.mixinsNamed_skip rfl S)

/-- A mixin that calls the other mixin of its name. No mixin leads to itself, and yet a recursion is reported. -/
theorem Sheet.evaluate_overload :
    let inner : Call := ⟨".m".toList, [], false, ⟨1, 10⟩⟩
    let outer : Call := ⟨".m".toList, [[⟨.number, "1px".toList, ⟨1, 44⟩, false⟩]], false, ⟨1, 41⟩⟩
    let color : Item := .declaration ⟨"color".toList, [⟨.ident, "red".toList, ⟨1, 30⟩, true⟩], false⟩
    let s : Sheet := [.mixin ".m".toList [⟨"a".toList, none⟩] [.call inner], .mixin ".m".toList [] [color],
      .rule ["b".toList] [.call outer]]
    (∀ chain S i, s.Visits chain S i → chain.Nodup) ∧
      ∃ d, s.evaluate = .error d ∧ d.report = ⟨.runtime, ".m is called recursively", some ⟨1, 10⟩⟩ := by
  intro inner outer color s
  let one : Mixin := .parametric [⟨"a".toList, none⟩] [.call inner]
  let other : Mixin := .parametric [] [color]
  -- The call in the rule leads to the one mixin only, and the call in that mixin to the other one only.
  have hvisits : ∀ chain S i, s.Visits chain S i → S.mixinsNamed ".m".toList = [one, other] ∧
      (chain = [] ∧ i ∈ s.items ∨ chain = [] ∧ i = .call outer ∨ chain = [(".m".toList, one)] ∧ i = .call inner ∨
        chain = [(".m".toList, other), (".m".toList, one)] ∧ ∃ d, i = .declaration d) := by
    intro chain S i h
    induction h with
    | start hi => exact ⟨rfl, .inl ⟨rfl, hi⟩⟩
    | @rule chain S own body i _ hi ih =>
      obtain ⟨hmixins, ⟨hchain, hmem⟩ | ⟨-, ⟨⟩⟩ | ⟨-, ⟨⟩⟩ | ⟨-, d, ⟨⟩⟩⟩ := ih
      obtain ⟨rfl, rfl⟩ : own = ["b".toList] ∧ body = [.call outer] := by
        simpa [s, items, Statement.toItem?] using hmem
      obtain rfl := List.mem_singleton.mp hi
      exact ⟨(Scopes.mixinsNamed_skip rfl S).trans hmixins, .inr (.inl ⟨hchain, rfl⟩)⟩
    | atRule _ _ ih =>
      obtain ⟨-, ⟨-, hmem⟩ | ⟨-, ⟨⟩⟩ | ⟨-, ⟨⟩⟩ | ⟨-, d, ⟨⟩⟩⟩ := ih
      simp [s, items, Statement.toItem?] at hmem
    | @call chain S c args m T i _ hargs hm haccepts hscopes hi ih =>
      rw [← (mapM_eq_ok_iff.mp hargs).length_eq] at haccepts
      have hlinked := List.mem_filter.mpr ⟨hm, haccepts⟩
      obtain ⟨hmixins, ⟨-, hmem⟩ | ⟨rfl, ⟨⟩⟩ | ⟨rfl, ⟨⟩⟩ | ⟨-, d, ⟨⟩⟩⟩ := ih
      · simp [s, items, Statement.toItem?] at hmem
      · rw [hmixins] at hlinked
        obtain rfl : m = one := List.mem_singleton.mp hlinked
        obtain rfl := List.mem_singleton.mp hi
        exact ⟨(Mixin.mixinsNamed_bodyScopes rfl hscopes).trans hmixins, .inr (.inr (.inl ⟨rfl, rfl⟩))⟩
      · rw [hmixins] at hlinked
        obtain rfl : m = other := List.mem_singleton.mp hlinked
        obtain rfl := List.mem_singleton.mp hi
        exact ⟨(Mixin.mixinsNamed_bodyScopes rfl hscopes).trans hmixins, .inr (.inr (.inr ⟨rfl, _, rfl⟩))⟩
  refine ⟨fun chain S i h => ?_, ?_⟩
  · obtain ⟨-, ⟨rfl, -⟩ | ⟨rfl, -⟩ | ⟨rfl, -⟩ | ⟨rfl, -⟩⟩ := hvisits chain S i h
    · exact .nil
    · exact .nil
    · exact List.nodup_cons.mpr ⟨List.not_mem_nil, .nil⟩
    · simp [one, other]
  · have hreport : (s.evaluate.mapError Diagnostic.report).map (fun _ => ()) =
        .error ⟨.runtime, ".m is called recursively", some ⟨1, 10⟩⟩ := by decide +kernel
    exact map_mapError_eq_error hreport

end LessCss
