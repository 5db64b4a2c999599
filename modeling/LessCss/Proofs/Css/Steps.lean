import LessCss.Css.Evaluation
import LessCss.Proofs.Outcome
import LessCss.Proofs.Sheet.Items
/-!
What evaluation does in one step, with the recursion hidden: bodies as folds over their items, calls of several mixins
as folds over them, and the arguments of a call as bindings. The bindings and the mixins of a block come from the items
of the block.
-/
namespace LessCss

/-- What a row of bodies yields together. -/
def Yield.concat (ys : List Yield) : Yield := ys.foldr .append .none

namespace Yield

theorem none_append (y : Yield) : none ++ y = y := rfl

theorem append_none (y : Yield) : y ++ none = y := by
  obtain ⟨ps, ns⟩ := y
  show (⟨ps ++ [], ns ++ []⟩ : Yield) = ⟨ps, ns⟩
  rw [List.append_nil, List.append_nil]

theorem append_assoc (x y z : Yield) : x ++ y ++ z = x ++ (y ++ z) := by
  show (⟨x.properties ++ y.properties ++ z.properties, x.nodes ++ y.nodes ++ z.nodes⟩ : Yield) =
    ⟨x.properties ++ (y.properties ++ z.properties), x.nodes ++ (y.nodes ++ z.nodes)⟩
  rw [List.append_assoc, List.append_assoc]

end Yield

/-- The bindings of parameters to their values. -/
def Scope.ofValues (bound : List (Text × Value)) : Scope := ⟨bound.map fun (n, v) => (n, .resolved v), []⟩

theorem Scope.ofValues_bind (bound : List (Text × Value)) (name : Text) (v : Value) :
    (Scope.ofValues bound).bind name v = .ofValues ((name, v) :: bound) := rfl

theorem Scopes.exists_of_mem_mixinsNamed {scopes : Scopes} {name : Text} {m : Mixin}
    (h : m ∈ scopes.mixinsNamed name) : ∃ s ∈ scopes, (name, m) ∈ s.mixins := by
  rw [mixinsNamed] at h
  generalize hf : (scopes.map (·.mixinsNamed name)).find? (!·.isEmpty) = found at h
  cases found with
  | none => exact nomatch h
  | some ms =>
    obtain ⟨s, hs, rfl⟩ := List.mem_map.mp (List.mem_of_find?_eq_some hf)
    obtain ⟨⟨n, m'⟩, hm, heq⟩ := List.mem_filterMap.mp h
    obtain ⟨rfl, rfl⟩ : n = name ∧ m' = m := by simpa using heq
    exact ⟨s, hs, hm⟩

/-- What holds of everything in a sheet holds of its items. -/
theorem Sheet.meetsAll_items {c : Criterion} {s : Sheet} (h : ∀ x ∈ s, x.Meets c) : Item.MeetsAll c s.items := by
  refine Item.meetsAll_iff.mpr fun i hi => ?_
  obtain ⟨x, hx, hitem⟩ := List.mem_filterMap.mp hi
  exact (h x hx).toItem hitem

namespace Scope

variable {is : List Item}

/-- The bindings of a block come from its definitions. -/
theorem exists_definition {q : Text × Binding} (h : q ∈ (ofItems is).bindings) :
    ∃ d, .definition d ∈ is ∧ q = (d.name, .deferred d.value) := by
  obtain ⟨i, hi, hbinding⟩ := List.mem_filterMap.mp (List.mem_reverse.mp h)
  cases i with
  | definition d => exact ⟨d, hi, (Option.some.inj hbinding).symm⟩
  | declaration | call | rule | atRule | mixin => cases hbinding

/-- The mixins of a block come from its rules with a single selector and from its definitions of mixins. -/
theorem exists_mixin {q : Text × Mixin} (h : q ∈ (ofItems is).mixins) :
    (∃ selector body, .rule [selector] body ∈ is ∧ q = (selector, .plain body)) ∨
      ∃ name params body, .mixin name params body ∈ is ∧ q = (name, .parametric params body) := by
  obtain ⟨i, hi, hmixin⟩ := List.mem_filterMap.mp h
  unfold mixin? at hmixin
  split at hmixin
  · next selector body =>
    split at hmixin
    · exact .inl ⟨selector, body, hi, (Option.some.inj hmixin).symm⟩
    · cases hmixin
  · next name params body => exact .inr ⟨name, params, body, hi, (Option.some.inj hmixin).symm⟩
  · cases hmixin

end Scope

variable {S : Scopes}

theorem Item.yieldAll_eq_mapM (calls : Expansion) (selectors : List Text) (is : List Item) :
    Item.yieldAll calls S selectors is = (is.mapM (Item.yield calls S selectors)).map Yield.concat := by
  induction is with
  | nil => rfl
  | cons i is ih =>
    rw [Item.yieldAll, ih, List.mapM_cons]
    cases Item.yield calls S selectors i with
    | error d => rfl
    | ok y => cases is.mapM (Item.yield calls S selectors) <;> rfl

namespace Item

theorem yieldAll_append (calls : Expansion) (selectors : List Text) (is js : List Item) :
    yieldAll calls S selectors (is ++ js) =
      yieldAll calls S selectors is >>= fun y => (yieldAll calls S selectors js).map (y ++ ·) := by
  induction is with
  | nil =>
    rw [List.nil_append, yieldAll, ok_bind]
    cases yieldAll calls S selectors js <;> rfl
  | cons i is ih =>
    rw [List.cons_append, yieldAll, yieldAll, ih]
    cases yield calls S selectors i with
    | error d => rfl
    | ok y =>
      cases yieldAll calls S selectors is with
      | error d => rfl
      | ok z =>
        cases yieldAll calls S selectors js with
        | error d => rfl
        | ok w => exact congrArg Except.ok (Yield.append_assoc y z w).symm

theorem yieldAll_singleton (calls : Expansion) (selectors : List Text) (i : Item) :
    yieldAll calls S selectors [i] = yield calls S selectors i := by
  rw [yieldAll]
  cases yield calls S selectors i with
  | error d => rfl
  | ok y => exact congrArg Except.ok (Yield.append_none y)

end Item

namespace Mixin

theorem yieldAll_eq_mapM (calls : Expansion) (selectors : List Text) (args : List Value) (ms : List Mixin) :
    Mixin.yieldAll calls S selectors args ms =
      (ms.mapM fun m : Mixin => do Item.yieldAll calls (← m.bodyScopes S args) selectors m.body).map
        Yield.concat := by
  induction ms with
  | nil => rfl
  | cons m ms ih =>
    rw [Mixin.yieldAll, ih, List.mapM_cons]
    cases m.bodyScopes S args with
    | error d => rfl
    | ok scopes =>
      rw [ok_bind, ok_bind]
      cases Item.yieldAll calls scopes selectors m.body with
      | error d => rfl
      | ok y =>
        cases ms.mapM fun m : Mixin => do Item.yieldAll calls (← m.bodyScopes S args) selectors m.body <;> rfl

/-- The bindings of the parameters that a call gives. The last one comes first. -/
def boundArguments (params : List Parameter) (args : List Value) : List (Text × Value) :=
  ((params.zip args).map fun (p, v) => (p.name, v)).reverse

theorem bindArguments_eq (params : List Parameter) (args : List Value) :
    bindArguments params args = .ofValues (boundArguments params args) := by
  have h : ∀ (ps : List (Parameter × Value)) (bound : List (Text × Value)),
      ps.foldl (fun s p => s.bind p.1.name p.2) (Scope.ofValues bound) =
        .ofValues ((ps.map fun p => (p.1.name, p.2)).reverse ++ bound) := by
    intro ps
    induction ps with
    | nil =>
      intro bound
      rfl
    | cons p ps ih =>
      intro bound
      rw [List.foldl_cons, Scope.ofValues_bind, ih]
      simp
  rw [bindArguments, boundArguments, ← List.append_nil (List.reverse _)]
  exact h _ []

theorem ofValues_of_bindFallbacks {bound : List (Text × Value)} {ps : List Parameter} {scope : Scope} {vs : List Value}
    (h : bindFallbacks S (.ofValues bound) ps = .ok (scope, vs)) : ∃ bound', scope = .ofValues bound' := by
  induction ps generalizing bound vs with
  | nil =>
    obtain ⟨rfl, -⟩ := Prod.mk.inj (Except.ok.inj h)
    exact ⟨bound, rfl⟩
  | cons p ps ih =>
    rw [bindFallbacks] at h
    split at h
    · exact ih h
    · obtain ⟨v, -, hv⟩ := bind_eq_ok h
      obtain ⟨⟨inner, ws⟩, hrest, heq⟩ := bind_eq_ok hv
      obtain ⟨rfl, -⟩ := Prod.mk.inj (Except.ok.inj heq)
      rw [Scope.ofValues_bind] at hrest
      exact ih hrest

theorem ofValues_of_parameterScope {params : List Parameter} {args : List Value} {scope : Scope}
    (h : parameterScope S params args = .ok scope) : ∃ bound, scope = .ofValues bound := by
  obtain ⟨⟨inner, vs⟩, hfallbacks, heq⟩ := bind_eq_ok h
  obtain rfl := Except.ok.inj heq
  rw [bindArguments_eq] at hfallbacks
  obtain ⟨bound, rfl⟩ := ofValues_of_bindFallbacks hfallbacks
  exact ⟨_, Scope.ofValues_bind ..⟩

end Mixin

theorem expand_eq (callable : List Text) (selectors : List Text) (c : Call) : expand callable S selectors c =
    if (S.mixinsNamed c.name).isEmpty then .error ((Fault.undefinedMixin c.name).blame c.position)
    else if c.name ∉ callable then .error ((Fault.recursiveMixin c.name).blame c.position)
    else (do
      let args ← c.args.mapM S.evaluate
      let mixins := (S.mixinsNamed c.name).filter (·.accepts args.length)
      if mixins.isEmpty then .error ((Fault.noMatchingMixin c.name).blame c.position)
      else do
        let y ← Mixin.yieldAll (expand (without c.name callable)) S selectors args mixins
        .ok (if c.important then y.important else y)) := by
  rw [expand]
  cases hm : S.mixinsNamed c.name with
  | nil => rfl
  | cons m ms =>
    dsimp only
    by_cases hc : c.name ∈ callable
    · rw [dif_pos hc, if_neg (by simp), if_neg (not_not_intro hc)]
      cases c.args.mapM S.evaluate with
      | error d => rfl
      | ok args =>
        rw [ok_bind, ok_bind]
        cases (m :: ms).filter (·.accepts args.length) <;> rfl
    · rw [dif_neg hc, if_neg (by simp), if_pos hc]

end LessCss
