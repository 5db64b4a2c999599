import LessCss.Proofs.Css.Hoisting
import LessCss.Proofs.Css.Values
import LessCss.Proofs.Expr.Constants
import LessCss.Proofs.Sheet.Items
import LessCss.Proofs.Token.Spell
/-!
Constants in the place of a variable of a sheet.

A variable that is defined once, outside of all blocks and by a constant, has the value of the constant wherever it is
used. So a sheet that evaluates to a style sheet evaluates to the same with the constant in the place of the variable
(`Sheet.evaluate_inline`). The scopes of an evaluation bind the variable at the outermost level alone
(`Scopes.Constant`), and every step of the new evaluation follows that of the old one.
-/
namespace LessCss

/-- The parameter is not the variable, and a constant may be put in the place of the variable in its value. -/
def Parameter.Uses (x : Text) (p : Parameter) : Prop := p.name ≠ x ∧ ∀ v ∈ p.fallback, Expr.Inlinable x v

/-- Nothing binds a variable, and a constant may be put in its place in every value. -/
def Criterion.uses (x : Text) : Criterion where
  header
    | .mixin _ params => ∀ p ∈ params, p.Uses x
    | _ => True
  definition d := d.name ≠ x ∧ Expr.Inlinable x d.value
  call c := ∀ v ∈ c.args, Expr.Inlinable x v
  declaration d := Expr.Inlinable x d.value

/-- The same of the parameters and the body of a mixin. -/
def Mixin.Uses (x : Text) : Mixin → Prop
  | plain body => Item.MeetsAll (.uses x) body
  | parametric params body => (∀ p ∈ params, p.Uses x) ∧ Item.MeetsAll (.uses x) body

/-- A constant may be put in the place of a variable in everything that a scope holds. -/
structure Scope.Inlinable (x : Text) (s : Scope) : Prop where
  bindings : ∀ q ∈ s.bindings, ∀ v, q.2 = .deferred v → Expr.Inlinable x v
  mixins : ∀ q ∈ s.mixins, q.2.Uses x

/-- The outermost scope alone binds a variable, to a constant. -/
inductive Scopes.Constant (x : Text) (l : Token) : Scopes → Prop
  | outermost {s} (hx : Scope.boundTo? x s.bindings = some (.deferred [l])) (hs : s.Inlinable x) : Constant x l [s]
  | inside {s S} (hx : ¬s.Binds x) (hs : s.Inlinable x) (hS : Constant x l S) : Constant x l (s :: S)

variable {x : Text} {l : Token}

namespace Scope

theorem inlinable_ofItems {is : List Item} (h : Item.MeetsAll (.uses x) is) :
    ¬(ofItems is).Binds x ∧ (ofItems is).Inlinable x := by
  rw [Item.meetsAll_iff] at h
  refine ⟨fun hbinds => ?_, fun q hq => ?_, fun q hq => ?_⟩
  · obtain ⟨q, hq, hname⟩ := List.mem_map.mp hbinds
    obtain ⟨d, hd, rfl⟩ := exists_definition hq
    exact (h _ hd).1 hname
  · obtain ⟨d, hd, rfl⟩ := exists_definition hq
    rintro _ ⟨⟩
    exact (h _ hd).2
  · rcases exists_mixin hq with ⟨selector, body, hrule, rfl⟩ | ⟨name, params, body, hmixin, rfl⟩
    · exact (h _ hrule).2
    · exact h _ hmixin

theorem inlinable_ofValues (bound : List (Text × Value)) : (ofValues bound).Inlinable x := by
  constructor
  · rintro q hq v hv
    obtain ⟨⟨n, w⟩, -, rfl⟩ := List.mem_map.mp hq
    exact nomatch hv
  · exact nofun

theorem ofValues_mapValues (f : List Token → List Token) (bound : List (Text × Value)) :
    (ofValues bound).mapValues f = ofValues bound := by
  unfold mapValues ofValues
  rw [List.map_map]
  rfl

theorem mem_of_find? {name : Text} {b : Binding} {bs marked : List (Text × Binding)}
    (h : find? name bs = some (b, marked)) : (name, b) ∈ bs ∧ ∀ q ∈ marked, q ∈ bs ∨ q.2 = .pending := by
  induction bs generalizing marked with
  | nil => exact nomatch h
  | cons c bs ih =>
    obtain ⟨n, c⟩ := c
    rw [find?] at h
    split at h
    · next hn =>
      obtain ⟨rfl, rfl⟩ := Prod.mk.inj (Option.some.inj h)
      refine ⟨hn ▸ .head _, ?_⟩
      rw [List.forall_mem_cons]
      exact ⟨.inr rfl, fun q hq => .inl (.tail _ hq)⟩
    · obtain ⟨⟨found, rest⟩, hrest, heq⟩ := Option.map_eq_some_iff.mp h
      obtain ⟨rfl, rfl⟩ := Prod.mk.inj heq
      obtain ⟨hmem, hmarked⟩ := ih hrest
      refine ⟨.tail _ hmem, ?_⟩
      rw [List.forall_mem_cons]
      exact ⟨.inl (.head _), fun q hq => (hmarked q hq).imp_left (.tail _)⟩

/-- What is marked may still be inlined. -/
theorem Inlinable.marked {s : Scope} (h : s.Inlinable x) {name : Text} {b : Binding} {marked : List (Text × Binding)}
    (hfind : find? name s.bindings = some (b, marked)) : ({ s with bindings := marked } : Scope).Inlinable x where
  bindings q hq v hv := by
    rcases (mem_of_find? hfind).2 q hq with hmem | hpending
    · exact h.bindings q hmem v hv
    · rw [hpending] at hv
      exact nomatch hv
  mixins := h.mixins

end Scope

namespace Scopes

variable {S : Scopes}

theorem Constant.inlinable (h : Constant x l S) : ∀ s ∈ S, s.Inlinable x := by
  induction h with
  | outermost _ hs => exact List.forall_mem_singleton.mpr hs
  | inside _ hs _ ih => exact List.forall_mem_cons.mpr ⟨hs, ih⟩

theorem Constant.find?_self (h : Constant x l S) : ∃ home, find? x S = some (.deferred [l], home) := by
  induction h with
  | outermost hx _ =>
    obtain ⟨⟨b, marked⟩, hfind, rfl⟩ := Option.map_eq_some_iff.mp hx
    exact ⟨_, by rw [find?, hfind]⟩
  | inside hx _ _ ih =>
    obtain ⟨home, hhome⟩ := ih
    exact ⟨home, by rw [find?, Scope.find?_eq_none_iff.mpr hx, hhome]⟩

/-- Where another variable is defined, the outermost scope alone binds the variable as well. -/
theorem Constant.home (h : Constant x l S) {name : Text} (hname : name ≠ x) {b : Binding} {home : Scopes}
    (hfind : find? name S = some (b, home)) : Constant x l home ∧ ∀ v, b = .deferred v → Expr.Inlinable x v := by
  induction h with
  | @outermost s hx hs =>
    rw [find?] at hfind
    cases hmarked : Scope.find? name s.bindings with
    | none =>
      rw [hmarked] at hfind
      cases hfind
    | some p =>
      obtain ⟨b', marked⟩ := p
      rw [hmarked] at hfind
      obtain ⟨rfl, rfl⟩ := Prod.mk.inj (Option.some.inj hfind)
      refine ⟨.outermost ?_ (hs.marked hmarked), hs.bindings _ (Scope.mem_of_find? hmarked).1⟩
      rw [Scope.boundTo?_marked hmarked, if_neg hname.symm, hx]
  | @inside s S hx hs hS ih =>
    rw [find?] at hfind
    cases hmarked : Scope.find? name s.bindings with
    | none =>
      rw [hmarked] at hfind
      exact ih hfind
    | some p =>
      obtain ⟨b', marked⟩ := p
      rw [hmarked] at hfind
      obtain ⟨rfl, rfl⟩ := Prod.mk.inj (Option.some.inj hfind)
      refine ⟨.inside ?_ (hs.marked hmarked) hS, hs.bindings _ (Scope.mem_of_find? hmarked).1⟩
      rwa [Scope.Binds, Scope.names_of_find? hmarked]

theorem Constant.resolve_self (h : Constant x l S) (hl : l.Constant) (p : Position) :
    resolve S x p = .ok (.ofConstant l) := by
  obtain ⟨home, hhome⟩ := h.find?_self
  rw [resolve_eq, hhome]
  dsimp only
  rw [Expr.ofTokens_constant hl, ok_bind, Expr.evaluate_ofConstant]

/-- Variables have the same values with the constant in the place of the variable, by induction on the definitions
that are not being evaluated. -/
theorem resolve_inline (hl : l.Constant) (h : Constant x l S) :
    Expr.Extends (resolve S) (resolve (S.mapValues (Token.inlineAll x l))) := by
  induction hn : S.deferredCount using Nat.strongRecOn generalizing S with
  | ind n ih =>
    subst hn
    intro name p
    rw [resolve_eq, resolve_eq, find?_mapValues]
    cases hfind : find? name S with
    | none => exact .refl _
    | some q =>
      obtain ⟨b, home⟩ := q
      cases b with
      | resolved v => exact .refl _
      | pending => exact .refl _
      | deferred value =>
        by_cases hname : name = x
        · subst hname
          obtain ⟨home', hhome'⟩ := h.find?_self
          obtain ⟨hvalue, rfl⟩ := Prod.mk.inj (Option.some.inj (hfind.symm.trans hhome'))
          obtain rfl := Binding.deferred.inj hvalue
          have hsame : [l].map (Token.inline name l) = [l] := by
            rw [List.map_singleton, Token.inline_constant hl]
          simp only [Option.map_some, Prod.map_apply, Binding.mapValue, hsame, Expr.ofTokens_constant hl, ok_bind,
            Expr.evaluate_ofConstant]
          exact .refl _
        · obtain ⟨hhome, hvalue⟩ := h.home hname hfind
          have hextends := ih _ (deferredCount_find? hfind) hhome rfl
          refine Expr.evaluate_inlinable hl (hvalue _ rfl) hextends ?_
          exact fun p => hextends x p _ (hhome.resolve_self hl p)

theorem evaluate_inlined (hl : l.Constant) (h : Constant x l S) {value : List Token} (hvalue : Expr.Inlinable x value) :
    Follows (S.evaluate value)
      ((S.mapValues (Token.inlineAll x l)).evaluate (value.map (Token.inline x l))) := by
  have hextends := resolve_inline hl h
  refine Expr.evaluate_inlinable hl hvalue hextends ?_
  exact fun p => hextends x p _ (h.resolve_self hl p)

theorem Constant.mixin_uses (h : Constant x l S) {name : Text} {m : Mixin} (hm : m ∈ S.mixinsNamed name) :
    m.Uses x := by
  obtain ⟨s, hs, hmixin⟩ := exists_of_mem_mixinsNamed hm
  exact (h.inlinable s hs).mixins _ hmixin

end Scopes

namespace Mixin

variable {S : Scopes}

theorem bindFallbacks_inline (hl : l.Constant) (hS : S.Constant x l) {ps : List Parameter}
    (hps : ∀ p ∈ ps, p.Uses x) {bound : List (Text × Value)} (hbound : ¬(Scope.ofValues bound).Binds x) :
    Follows (bindFallbacks S (.ofValues bound) ps)
      (bindFallbacks (S.mapValues (Token.inlineAll x l)) (.ofValues bound)
        (ps.map (Parameter.mapValue (Token.inlineAll x l)))) := by
  induction ps generalizing bound with
  | nil => exact .refl _
  | cons p ps ih =>
    rw [List.forall_mem_cons] at hps
    rw [List.map_cons, bindFallbacks, bindFallbacks, Parameter.mapValue]
    cases hfallback : p.fallback with
    | none => exact ih hps.2 hbound
    | some value =>
      have hscopes : Scopes.Constant x l (.ofValues bound :: S) := .inside hbound (Scope.inlinable_ofValues bound) hS
      have hvalue := Scopes.evaluate_inlined hl hscopes (hps.1.2 value hfallback)
      rw [Scopes.mapValues, List.map_cons, Scope.ofValues_mapValues] at hvalue
      refine hvalue.bind fun v _ => ?_
      rw [Scope.ofValues_bind]
      refine (ih hps.2 ?_).bind fun _ _ => .refl _
      rintro hbinds
      rcases List.mem_cons.mp hbinds with rfl | hmem
      · exact hps.1.1 rfl
      · exact hbound hmem

theorem parameterScope_inline (hl : l.Constant) (hS : S.Constant x l) {params : List Parameter}
    (hparams : ∀ p ∈ params, p.Uses x) (args : List Value) : Follows (parameterScope S params args)
      (parameterScope (S.mapValues (Token.inlineAll x l))
        (params.map (Parameter.mapValue (Token.inlineAll x l))) args) := by
  have hbound : boundArguments (params.map (Parameter.mapValue (Token.inlineAll x l))) args =
      boundArguments params args := by
    unfold boundArguments
    rw [List.zip_map_left, List.map_map]
    rfl
  have hbinds : ¬(Scope.ofValues (boundArguments params args)).Binds x := by
    intro hbinds
    obtain ⟨p, hp, hname⟩ := List.mem_map.mp (binds_of_boundArguments hbinds)
    exact (hparams p hp).1 hname
  rw [parameterScope, parameterScope, bindArguments_eq, bindArguments_eq, hbound, ← List.map_drop]
  refine (bindFallbacks_inline hl hS ?_ hbinds).bind fun _ _ => .refl _
  exact fun p hp => hparams p (List.mem_of_mem_drop hp)

end Mixin

/-- What calls yield with a constant in the place of a variable follows what they yield with the variable. -/
def InlineCalls (x : Text) (l : Token) (calls calls' : Expansion) : Prop :=
  ∀ {S : Scopes}, S.Constant x l → ∀ selectors {c : Call}, (∀ v ∈ c.args, Expr.Inlinable x v) →
    Follows (calls S selectors c)
      (calls' (S.mapValues (Token.inlineAll x l)) selectors (c.mapValues (Token.inlineAll x l)))

variable {calls calls' : Expansion}

namespace Item

mutual

theorem yield_inline (hl : l.Constant) (hcalls : InlineCalls x l calls calls') {S : Scopes} (hS : S.Constant x l)
    (selectors : List Text) {i : Item} (hi : i.Meets (.uses x)) : Follows (yield calls S selectors i)
      (yield calls' (S.mapValues (Token.inlineAll x l)) selectors
        (mapValues (Token.inlineAll x l) i)) := by
  cases i with
  | declaration d => exact ((Scopes.evaluate_inlined hl hS hi).map _).map _
  | definition | mixin => exact .refl _
  | call c => exact hcalls hS selectors hi
  | rule own body =>
    have hblock := Scope.inlinable_ofItems hi.2
    have hbody := yieldAll_inline hl hcalls (.inside hblock.1 hblock.2 hS) (Css.nestSelectors selectors own) hi.2
    rw [Scopes.mapValues, List.map_cons, ← Scope.ofItems_mapValues] at hbody
    exact hbody.bind fun _ _ => .refl _
  | atRule name params body =>
    have hblock := Scope.inlinable_ofItems hi.2
    have hbody := yieldAll_inline hl hcalls (.inside hblock.1 hblock.2 hS) selectors hi.2
    rw [Scopes.mapValues, List.map_cons, ← Scope.ofItems_mapValues] at hbody
    exact hbody.bind fun _ _ => .refl _

theorem yieldAll_inline (hl : l.Constant) (hcalls : InlineCalls x l calls calls') {S : Scopes} (hS : S.Constant x l)
    (selectors : List Text) {is : List Item} (his : MeetsAll (.uses x) is) : Follows (yieldAll calls S selectors is)
      (yieldAll calls' (S.mapValues (Token.inlineAll x l)) selectors
        (mapValuesAll (Token.inlineAll x l) is)) := by
  cases is with
  | nil => exact .refl _
  | cons i is =>
    rw [yieldAll, mapValuesAll, yieldAll]
    exact (yield_inline hl hcalls hS selectors his.1).bind fun _ _ =>
      (yieldAll_inline hl hcalls hS selectors his.2).bind fun _ _ => .refl _

end

end Item

namespace Mixin

variable {S : Scopes}

theorem body_inline (hl : l.Constant) (hx : x ≠ "arguments".toList) (hcalls : InlineCalls x l calls calls')
    (hS : S.Constant x l) (selectors : List Text) (args : List Value) {m : Mixin} (hm : m.Uses x) :
    Follows (m.bodyScopes S args >>= fun scopes => Item.yieldAll calls scopes selectors m.body)
      ((m.mapValues (Token.inlineAll x l)).bodyScopes (S.mapValues (Token.inlineAll x l)) args >>=
        fun scopes => Item.yieldAll calls' scopes selectors (m.mapValues (Token.inlineAll x l)).body) := by
  cases m with
  | plain body =>
    have hblock := Scope.inlinable_ofItems hm
    have hbody := Item.yieldAll_inline hl hcalls (.inside hblock.1 hblock.2 hS) selectors hm
    rwa [Scopes.mapValues, List.map_cons, ← Scope.ofItems_mapValues] at hbody
  | parametric params body =>
    have hblock := Scope.inlinable_ofItems hm.2
    have hscope := parameterScope_inline hl hS hm.1 args
    rw [bodyScopes, mapValues, bodyScopes, bind_assoc, bind_assoc]
    refine hscope.bind fun scope hok => ?_
    obtain ⟨bound, rfl⟩ := ofValues_of_parameterScope hok
    have hbinds : ¬(Scope.ofValues bound).Binds x := by
      intro hbinds
      rcases List.mem_cons.mp (binds_of_parameterScope hok hbinds) with rfl | hparam
      · exact hx rfl
      · obtain ⟨p, hp, hname⟩ := List.mem_map.mp hparam
        exact (hm.1 p hp).1 hname
    have hscopes : Scopes.Constant x l (.ofItems body :: .ofValues bound :: S) :=
      .inside hblock.1 hblock.2 (.inside hbinds (Scope.inlinable_ofValues bound) hS)
    have hbody := Item.yieldAll_inline hl hcalls hscopes selectors hm.2
    rwa [Scopes.mapValues, List.map_cons, List.map_cons, ← Scope.ofItems_mapValues, Scope.ofValues_mapValues] at hbody

theorem yieldAll_inline (hl : l.Constant) (hx : x ≠ "arguments".toList) (hcalls : InlineCalls x l calls calls')
    (hS : S.Constant x l) (selectors : List Text) (args : List Value) {ms : List Mixin} (hms : ∀ m ∈ ms, m.Uses x) :
    Follows (Mixin.yieldAll calls S selectors args ms)
      (Mixin.yieldAll calls' (S.mapValues (Token.inlineAll x l)) selectors args
        (ms.map (Mixin.mapValues (Token.inlineAll x l)))) := by
  rw [yieldAll_eq_mapM, yieldAll_eq_mapM, List.mapM_map]
  exact (Follows.mapM fun m hm => body_inline hl hx hcalls hS selectors args (hms m hm)).map _

end Mixin

/-- Calls, by induction on the names that may be called. -/
theorem expand_inline (hl : l.Constant) (hx : x ≠ "arguments".toList) (callable : List Text) :
    InlineCalls x l (expand callable) (expand callable) := by
  induction hn : callable.length using Nat.strongRecOn generalizing callable with
  | ind n ih =>
    subst hn
    intro S hS selectors c hc
    have hmixins : ∀ m ∈ S.mixinsNamed c.name, m.Uses x := fun m hm => hS.mixin_uses hm
    rw [expand_eq, expand_eq]
    simp only [Call.mapValues, Scopes.mixinsNamed_mapValues, List.isEmpty_map]
    by_cases hnone : (S.mixinsNamed c.name).isEmpty
    · rw [if_pos hnone]
      exact .error _ _
    · rw [if_neg hnone, if_neg hnone]
      by_cases hcallable : c.name ∈ callable
      · rw [if_neg (not_not_intro hcallable), if_neg (not_not_intro hcallable), List.mapM_map]
        refine (Follows.mapM fun v hv => Scopes.evaluate_inlined hl hS (hc v hv)).bind fun args _ => ?_
        have hfilter : ((S.mixinsNamed c.name).map (Mixin.mapValues (Token.inlineAll x l))).filter
            (·.accepts args.length) = ((S.mixinsNamed c.name).filter (·.accepts args.length)).map
              (Mixin.mapValues (Token.inlineAll x l)) := by
          rw [List.filter_map]
          simp only [Function.comp_def, Mixin.accepts_mapValues]
        rw [hfilter, List.isEmpty_map]
        split
        · exact .error _ _
        · have hcalls : InlineCalls x l (expand (without c.name callable)) (expand (without c.name callable)) :=
            ih _ (without_length hcallable) _ rfl
          refine (Mixin.yieldAll_inline hl hx hcalls hS selectors args ?_).bind fun _ _ => .refl _
          exact fun m hm => hmixins m (List.mem_filter.mp hm).1
      · rw [if_pos hcallable]
        exact .error _ _

theorem Statement.nodesOf_inline (hl : l.Constant) (hcalls : InlineCalls x l calls calls') {S : Scopes}
    (hS : S.Constant x l) {s : Statement} (hs : s.Meets (.uses x)) : Follows (Sheet.nodesOf calls S s)
      (Sheet.nodesOf calls' (S.mapValues (Token.inlineAll x l)) (s.mapValues (Token.inlineAll x l))) := by
  cases s with
  | directive | definition | mixin => exact .refl _
  | call c => exact (hcalls hS [] hs).bind fun _ _ => .refl _
  | rule selectors body =>
    have hyield := Item.yield_inline hl hcalls hS [] (hs.toItem rfl)
    exact hyield.map _
  | atRule name params body =>
    have hyield := Item.yield_inline hl hcalls hS [] (hs.toItem rfl)
    exact hyield.map _

namespace Sheet

variable {before after : Sheet}

theorem valuesOf_items {s : Sheet} (hs : ∀ y ∈ s, y.Meets (.uses x)) : Item.valuesOf x s.items = [] := by
  refine List.filterMap_eq_nil_iff.mpr ?_
  intro i hi
  obtain ⟨y, hy, htoItem⟩ := List.mem_filterMap.mp hi
  have hmeets := (hs y hy).toItem htoItem
  cases i with
  | definition d => exact if_neg hmeets.1
  | declaration | call | rule | atRule | mixin => rfl

theorem constant_ofItems (hl : l.Constant) (hs : ∀ s ∈ before ++ after, s.Meets (.uses x)) :
    Scopes.Constant x l [.ofItems (Sheet.items (before ++ .definition ⟨x, [l]⟩ :: after))] := by
  have hitem : ∀ i ∈ Sheet.items (before ++ .definition ⟨x, [l]⟩ :: after),
      i = .definition ⟨x, [l]⟩ ∨ i.Meets (.uses x) := by
    intro i hi
    obtain ⟨s, hmem, htoItem⟩ := List.mem_filterMap.mp hi
    rcases List.mem_append.mp hmem with hbefore | hmem
    · exact .inr ((hs s (List.mem_append_left _ hbefore)).toItem htoItem)
    · rcases List.mem_cons.mp hmem with rfl | hafter
      · exact .inl (Option.some.inj htoItem).symm
      · exact .inr ((hs s (List.mem_append_right _ hafter)).toItem htoItem)
  have hvalues : Item.valuesOf x (Sheet.items (before ++ .definition ⟨x, [l]⟩ :: after)) = [[l]] := by
    rw [List.forall_mem_append] at hs
    have hself : Item.valueOf? x (.definition ⟨x, [l]⟩) = some [l] := if_pos rfl
    have hitems : Sheet.items (before ++ .definition ⟨x, [l]⟩ :: after) =
        Sheet.items before ++ .definition ⟨x, [l]⟩ :: Sheet.items after := List.filterMap_append ..
    rw [hitems, Item.valuesOf, List.filterMap_append, List.filterMap_cons_some hself]
    change Item.valuesOf x (Sheet.items before) ++ [l] :: Item.valuesOf x (Sheet.items after) = _
    rw [valuesOf_items hs.1, valuesOf_items hs.2]
    rfl
  refine .outermost ?_ ⟨?_, ?_⟩
  · rw [Scope.boundTo?_ofItems, hvalues]
    rfl
  · intro q hq
    obtain ⟨d, hd, rfl⟩ := Scope.exists_definition hq
    rintro _ ⟨⟩
    rcases hitem _ hd with heq | hmeets
    · obtain rfl := Item.definition.inj heq
      exact Expr.inlinable_constant hl
    · exact hmeets.2
  · intro q hq
    rcases Scope.exists_mixin hq with ⟨selector, body, hrule, rfl⟩ | ⟨name, params, body, hmixin, rfl⟩
    · exact ((hitem _ hrule).resolve_left (by simp)).2
    · exact (hitem _ hmixin).resolve_left (by simp)

/-- A sheet in which a variable is defined once, outside of all blocks and by a single token, evaluates to the same
with that token in the place of the variable in all values, if it evaluates at all. -/
theorem evaluate_inline {source : Text} (hl : l ∈ Token.ofText source)
    (hkind : l.kind = .number ∨ l.kind = .ident ∨ l.kind = .hash ∨ l.kind = .string) (hx : x ≠ "arguments".toList)
    (hs : ∀ s ∈ before ++ after, s.Meets (.uses x)) {ns : List Css.Node}
    (h : evaluate (before ++ .definition ⟨x, [l]⟩ :: after) = .ok ns) :
    evaluate (Sheet.mapValues (Token.inlineAll x l) (before ++ .definition ⟨x, [l]⟩ :: after)) = .ok ns := by
  have hconst : l.Constant := by
    refine ⟨hkind, ?_⟩
    intro hnumber
    obtain ⟨b, spaced, c, cs, hk, htext⟩ := Token.isLexeme_of_mem hl (by rw [hnumber]; exact nofun)
    rw [htext]
    exact Lexeme.parse?_of_read b spaced c cs (hk ▸ hnumber)
  have hscopes := constant_ofItems hconst hs
  revert h
  unfold Sheet.evaluate
  rw [items_mapValues, Item.mixinNamesAll_mapValues, Scope.ofItems_mapValues, Sheet.mapValues]
  dsimp only
  rw [List.mapM_map]
  generalize Sheet.items (before ++ .definition ⟨x, [l]⟩ :: after) = is at hscopes
  refine (Follows.mapM ?_).map List.flatten ns
  intro s hmem
  rcases List.mem_append.mp hmem with hbefore | hmem
  · exact s.nodesOf_inline hconst (expand_inline hconst hx _) hscopes (hs s (List.mem_append_left _ hbefore))
  · rcases List.mem_cons.mp hmem with rfl | hafter
    · exact .refl _
    · exact s.nodesOf_inline hconst (expand_inline hconst hx _) hscopes (hs s (List.mem_append_right _ hafter))

/-- A variable in the arguments of a function, and the same color in its place. -/
theorem evaluate_inline_color :
    let red : Token := ⟨.ident, "red".toList, ⟨1, 1⟩, false⟩
    let definition : Statement := .definition ⟨"x".toList, [red]⟩
    let rule (name : Token.Kind × Text) : Statement := .rule ["a".toList] [.declaration ⟨"color".toList,
      [⟨.function, "fade(".toList, ⟨1, 1⟩, true⟩, ⟨name.1, name.2, ⟨1, 1⟩, false⟩, ⟨.rparen, ")".toList, ⟨1, 1⟩, false⟩],
      false⟩]
    ∃ ns, Sheet.evaluate [definition, rule (.atKeyword, "@x".toList)] = .ok ns ∧
      Sheet.evaluate [definition, rule (.ident, "red".toList)] = .ok ns := by
  intro red definition rule
  have hl : red ∈ Token.ofText "red".toList := by decide +kernel
  have hs : ∀ s ∈ [] ++ [rule (.atKeyword, "@x".toList)], s.Meets (.uses "x".toList) := by
    intro s hs
    obtain rfl := List.mem_singleton.mp hs
    have hvalue : Expr.NoSlash [⟨.function, "fade(".toList, ⟨1, 1⟩, true⟩, ⟨.atKeyword, "@x".toList, ⟨1, 1⟩, false⟩,
        ⟨.rparen, ")".toList, ⟨1, 1⟩, false⟩] := by decide
    exact ⟨trivial, fun _ => hvalue, trivial⟩
  have hsome : (Sheet.evaluate [definition, rule (.atKeyword, "@x".toList)]).toOption.isSome := by decide +kernel
  obtain ⟨ns, hns⟩ := Option.isSome_iff_exists.mp hsome
  have h := eq_ok_of_toOption hns
  exact ⟨ns, h, @evaluate_inline _ _ [] _ _ hl (.inr (.inl rfl)) (by decide) hs ns h⟩

end Sheet
end LessCss
