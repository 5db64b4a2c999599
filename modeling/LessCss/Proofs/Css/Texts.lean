import LessCss.Proofs.Css.Constants
import LessCss.Proofs.Css.Minified
import LessCss.Proofs.Sheet.Stretches
/-!
Where the texts of a style sheet come from.

A text of a style sheet is that of a value, or the parameters of a block as they stand in the sheet. Values are made of
rows of the sheet and of values that have been made before: scopes, calls and the bodies of mixins only pass them on. So
what one evaluation keeps (`Passed`) holds of every text of the style sheet (`Sheet.evaluate_texts`).
-/
namespace LessCss

/-- What evaluation keeps: a row of which `V` holds makes a value of which `P` holds from such values, and `Q` holds of
its text. -/
structure Passed (V : List Token → Prop) (P : Value → Prop) (Q : Text → Prop) : Prop where
  evaluate : ∀ {value lookup v}, V value → (∀ ⦃name p w⦄, lookup name p = .ok w → P w) →
    (Expr.ofTokens value >>= fun e => e.evaluate lookup) = .ok v → P v
  list : ∀ {vs}, (∀ v ∈ vs, P v) → P (.list vs .space)
  render : ∀ {v}, P v → Q v.render

section

variable {V : List Token → Prop} {P : Value → Prop} {Q : Text → Prop}

/-- The rows in a mixin meet a criterion. -/
def Mixin.Meets (V : List Token → Prop) (Q : Text → Prop) : Mixin → Prop
  | plain body => Item.MeetsAll (.texts V Q) body
  | parametric params body =>
    (∀ p ∈ params, ∀ value ∈ p.fallback, V value) ∧ Item.MeetsAll (.texts V Q) body

theorem Mixin.Meets.body {m : Mixin} (h : m.Meets V Q) : Item.MeetsAll (.texts V Q) m.body := by
  cases m with
  | plain => exact h
  | parametric => exact h.2

/-- What a binding stands for. -/
def Binding.Holds (V : List Token → Prop) (P : Value → Prop) : Binding → Prop
  | deferred value => V value
  | pending => True
  | resolved v => P v

structure Scope.Holds (V : List Token → Prop) (P : Value → Prop) (Q : Text → Prop) (s : Scope) : Prop where
  bindings : ∀ q ∈ s.bindings, q.2.Holds V P
  mixins : ∀ q ∈ s.mixins, q.2.Meets V Q

def Scopes.Hold (V : List Token → Prop) (P : Value → Prop) (Q : Text → Prop) (S : Scopes) : Prop :=
  ∀ s ∈ S, s.Holds V P Q

namespace Scope

theorem holds_ofItems (P : Value → Prop) {is : List Item} (h : Item.MeetsAll (.texts V Q) is) :
    (ofItems is).Holds V P Q := by
  rw [Item.meetsAll_iff] at h
  refine ⟨fun q hq => ?_, fun q hq => ?_⟩
  · obtain ⟨d, hd, rfl⟩ := exists_definition hq
    exact h _ hd
  · rcases exists_mixin hq with ⟨selector, body, hrule, rfl⟩ | ⟨name, params, body, hmixin, rfl⟩
    · exact (h _ hrule).2
    · exact h _ hmixin

theorem holds_empty : empty.Holds V P Q := ⟨List.forall_mem_nil _, List.forall_mem_nil _⟩

theorem Holds.bind {s : Scope} (h : s.Holds V P Q) {v : Value} (hv : P v) (name : Text) : (s.bind name v).Holds V P Q where
  bindings := List.forall_mem_cons.mpr ⟨hv, h.bindings⟩
  mixins := h.mixins

theorem Holds.marked {s : Scope} (h : s.Holds V P Q) {name : Text} {b : Binding} {marked : List (Text × Binding)}
    (hfind : find? name s.bindings = some (b, marked)) : ({ s with bindings := marked } : Scope).Holds V P Q where
  bindings q hq := by
    rcases (mem_of_find? hfind).2 q hq with hmem | hpending
    · exact h.bindings q hmem
    · rw [hpending]
      trivial
  mixins := h.mixins

end Scope

namespace Scopes

variable {S : Scopes}

theorem Hold.cons (h : S.Hold V P Q) {s : Scope} (hs : s.Holds V P Q) : Hold V P Q (s :: S) :=
  List.forall_mem_cons.mpr ⟨hs, h⟩

theorem Hold.find? (h : S.Hold V P Q) {name : Text} {b : Binding} {home : Scopes} (hfind : find? name S = some (b, home)) :
    b.Holds V P ∧ home.Hold V P Q := by
  induction S with
  | nil => cases hfind
  | cons s S ih =>
    obtain ⟨hs, hS⟩ := List.forall_mem_cons.mp h
    rw [Scopes.find?] at hfind
    cases hmarked : Scope.find? name s.bindings with
    | none =>
      rw [hmarked] at hfind
      exact ih hS hfind
    | some p =>
      obtain ⟨b', marked⟩ := p
      rw [hmarked] at hfind
      obtain ⟨rfl, rfl⟩ := Prod.mk.inj (Option.some.inj hfind)
      have hS : Hold V P Q S := hS
      exact ⟨hs.bindings _ (Scope.mem_of_find? hmarked).1, hS.cons (hs.marked hmarked)⟩

theorem Hold.mixin (h : S.Hold V P Q) {name : Text} {m : Mixin} (hm : m ∈ S.mixinsNamed name) : m.Meets V Q := by
  obtain ⟨s, hs, hmixin⟩ := exists_of_mem_mixinsNamed hm
  exact (h s hs).mixins _ hmixin

/-- By induction on the definitions that are not being evaluated. -/
theorem Hold.resolve (hpassed : Passed V P Q) (h : S.Hold V P Q) {name : Text} {p : Position} {v : Value}
    (hv : S.resolve name p = .ok v) : P v := by
  induction hn : S.deferredCount using Nat.strongRecOn generalizing S name p v with
  | ind n ih =>
    subst hn
    rw [resolve_eq] at hv
    cases hfind : Scopes.find? name S with
    | none =>
      rw [hfind] at hv
      cases hv
    | some q =>
      obtain ⟨b, home⟩ := q
      obtain ⟨hb, hhome⟩ := h.find? hfind
      rw [hfind] at hv
      cases b with
      | resolved w =>
        obtain rfl := Except.ok.inj hv
        exact hb
      | pending => cases hv
      | deferred value =>
        exact hpassed.evaluate hb (fun _ _ _ hw => ih _ (deferredCount_find? hfind) hhome hw rfl) hv

theorem Hold.evaluate (hpassed : Passed V P Q) (h : S.Hold V P Q) {value : List Token} (hvalue : V value) :
    Ends P (fun _ => True) (S.evaluate value) := by
  cases hv : S.evaluate value with
  | error d => trivial
  | ok v => exact hpassed.evaluate hvalue (fun _ _ _ hw => h.resolve hpassed hw) hv

end Scopes

namespace Mixin

variable {S : Scopes}

theorem holds_bindArguments {args : List Value} (hargs : ∀ v ∈ args, P v) (params : List Parameter) :
    (bindArguments params args).Holds V P Q := by
  have hzip : ∀ q ∈ params.zip args, P q.2 := fun q hq => hargs q.2 (List.of_mem_zip hq).2
  have hfold : ∀ (qs : List (Parameter × Value)) (s : Scope), (∀ q ∈ qs, P q.2) → s.Holds V P Q →
      (qs.foldl (fun s q => s.bind q.1.name q.2) s).Holds V P Q := by
    intro qs
    induction qs with
    | nil => exact fun s _ hs => hs
    | cons q qs ih =>
      intro s hqs hs
      obtain ⟨hq, hqs⟩ := List.forall_mem_cons.mp hqs
      exact ih _ hqs (hs.bind hq _)
  exact hfold _ _ hzip Scope.holds_empty

theorem bindFallbacks_holds (hpassed : Passed V P Q) (hS : S.Hold V P Q) {ps : List Parameter}
    (hps : ∀ p ∈ ps, ∀ value ∈ p.fallback, V value) {scope : Scope} (hscope : scope.Holds V P Q) :
    Ends (fun q => q.1.Holds V P Q ∧ ∀ v ∈ q.2, P v) (fun _ => True) (bindFallbacks S scope ps) := by
  induction ps generalizing scope with
  | nil => exact ⟨hscope, List.forall_mem_nil P⟩
  | cons p ps ih =>
    rw [List.forall_mem_cons] at hps
    rw [bindFallbacks]
    split
    · exact ih hps.2 hscope
    · next value hfallback =>
      have hscopes : Scopes.Hold V P Q (scope :: S) := hS.cons hscope
      refine (hscopes.evaluate hpassed (hps.1 value hfallback)).bind fun v _ hv => ?_
      refine (ih hps.2 (hscope.bind hv p.name)).bind fun q _ hq => ?_
      exact ⟨hq.1, List.forall_mem_cons.mpr ⟨hv, hq.2⟩⟩

theorem parameterScope_holds (hpassed : Passed V P Q) (hS : S.Hold V P Q) {params : List Parameter}
    (hparams : ∀ p ∈ params, ∀ value ∈ p.fallback, V value) {args : List Value} (hargs : ∀ v ∈ args, P v) :
    Ends (·.Holds V P Q) (fun _ => True) (parameterScope S params args) := by
  have hleft : ∀ p ∈ params.drop args.length, ∀ value ∈ p.fallback, V value :=
    fun p hp => hparams p (List.mem_of_mem_drop hp)
  refine (bindFallbacks_holds hpassed hS hleft (holds_bindArguments hargs params)).bind fun q _ hq => ?_
  exact hq.1.bind (hpassed.list (List.forall_mem_append.mpr ⟨hargs, hq.2⟩)) _

theorem bodyScopes_hold (hpassed : Passed V P Q) (hS : S.Hold V P Q) {m : Mixin} (hm : m.Meets V Q) {args : List Value}
    (hargs : ∀ v ∈ args, P v) : Ends (·.Hold V P Q) (fun _ => True) (m.bodyScopes S args) := by
  have hbody := Scope.holds_ofItems P hm.body
  cases m with
  | plain body => exact hS.cons hbody
  | parametric params body =>
    exact (parameterScope_holds hpassed hS hm.1 hargs).bind fun scope _ hscope => (hS.cons hscope).cons hbody

end Mixin

open Css.Node (textsAll)

theorem Css.Node.textsAll_append (ns ms : List Css.Node) : textsAll (ns ++ ms) = textsAll ns ++ textsAll ms := by
  induction ns with
  | nil => rfl
  | cons n ns ih => rw [List.cons_append, textsAll, textsAll, ih, List.append_assoc]

namespace Yield

/-- The texts of what a body contributes. -/
def texts (y : Yield) : List Text := y.properties.map (·.value) ++ textsAll y.nodes

theorem texts_append (y z : Yield) :
    (y ++ z).texts = y.properties.map (·.value) ++ z.properties.map (·.value) ++ (textsAll y.nodes ++ textsAll z.nodes) := by
  show List.map _ (y.properties ++ z.properties) ++ textsAll (y.nodes ++ z.nodes) = _
  rw [List.map_append, Css.Node.textsAll_append]

theorem texts_important (y : Yield) : y.important.texts = y.texts := by
  show List.map _ (List.map _ y.properties) ++ _ = _
  rw [List.map_map]
  rfl

theorem textsAll_underRule (selectors : List Text) (y : Yield) : textsAll (y.underRule selectors) = y.texts := by
  unfold underRule
  split
  · next hempty =>
    rw [List.isEmpty_iff] at hempty
    rw [texts, hempty]
    rfl
  · rfl

theorem texts_underAtRule (name params : Text) (selectors : List Text) (y : Yield) :
    (y.underAtRule name params selectors).texts = params :: y.texts := by
  unfold underAtRule
  split
  · rfl
  · rw [Css.Node.texts, textsAll_underRule]
    rfl

/-- Of every text of what a body contributes `Q` holds. -/
def Says (Q : Text → Prop) (y : Yield) : Prop := ∀ text ∈ y.texts, Q text

theorem Says.none (Q : Text → Prop) : Yield.none.Says Q := List.forall_mem_nil Q

theorem Says.append {y z : Yield} (hy : y.Says Q) (hz : z.Says Q) : (y ++ z).Says Q := by
  obtain ⟨hproperties, hnodes⟩ := List.forall_mem_append.mp hy
  obtain ⟨hproperties', hnodes'⟩ := List.forall_mem_append.mp hz
  rw [Says, texts_append]
  exact List.forall_mem_append.mpr
    ⟨List.forall_mem_append.mpr ⟨hproperties, hproperties'⟩, List.forall_mem_append.mpr ⟨hnodes, hnodes'⟩⟩

theorem Says.underRule {y : Yield} (h : y.Says Q) (selectors : List Text) : Says Q ⟨[], y.underRule selectors⟩ := by
  intro text htext
  exact h text (textsAll_underRule selectors y ▸ htext)

theorem Says.underAtRule {y : Yield} (h : y.Says Q) {params : Text} (hparams : Q params) (name : Text)
    (selectors : List Text) : Says Q ⟨[], [y.underAtRule name params selectors]⟩ := by
  have htexts : texts ⟨[], [y.underAtRule name params selectors]⟩ = params :: y.texts := by
    rw [← texts_underAtRule name params selectors y]
    exact List.append_nil _
  rw [Says, htexts]
  exact List.forall_mem_cons.mpr ⟨hparams, h⟩

end Yield

/-- Of every text that calls yield `Q` holds. -/
def Expansion.Says (V : List Token → Prop) (P : Value → Prop) (Q : Text → Prop) (calls : Expansion) : Prop :=
  ∀ ⦃S : Scopes⦄, S.Hold V P Q → ∀ selectors ⦃c : Call⦄, (∀ value ∈ c.args, V value) →
    Ends (·.Says Q) (fun _ => True) (calls S selectors c)

variable {calls : Expansion}

namespace Item

mutual

theorem yield_texts (hpassed : Passed V P Q) (hcalls : calls.Says V P Q) {S : Scopes} (hS : S.Hold V P Q)
    (selectors : List Text) {i : Item} (hi : i.Meets (.texts V Q)) :
    Ends (·.Says Q) (fun _ => True) (yield calls S selectors i) := by
  cases i with
  | declaration d =>
    have hproperty : Ends (fun p => Q p.value) (fun _ => True) (d.evaluate S) :=
      (hS.evaluate hpassed hi).map fun _ hv => hpassed.render hv
    exact hproperty.map fun _ hp => List.forall_mem_singleton.mpr hp
  | definition | mixin => exact Yield.Says.none Q
  | call c => exact hcalls hS selectors hi
  | rule own body =>
    have hblock : Scopes.Hold V P Q (.ofItems body :: S) := hS.cons (Scope.holds_ofItems P hi.2)
    exact (yieldAll_texts hpassed hcalls hblock (Css.nestSelectors selectors own) hi.2).bind
      fun _ _ hy => hy.underRule _
  | atRule name params body =>
    have hblock : Scopes.Hold V P Q (.ofItems body :: S) := hS.cons (Scope.holds_ofItems P hi.2)
    exact (yieldAll_texts hpassed hcalls hblock selectors hi.2).bind fun _ _ hy => hy.underAtRule hi.1 _ _

theorem yieldAll_texts (hpassed : Passed V P Q) (hcalls : calls.Says V P Q) {S : Scopes} (hS : S.Hold V P Q)
    (selectors : List Text) {is : List Item} (his : MeetsAll (.texts V Q) is) :
    Ends (·.Says Q) (fun _ => True) (yieldAll calls S selectors is) := by
  cases is with
  | nil => exact Yield.Says.none Q
  | cons i is =>
    rw [yieldAll]
    exact (yield_texts hpassed hcalls hS selectors his.1).bind fun _ _ hy =>
      (yieldAll_texts hpassed hcalls hS selectors his.2).bind fun _ _ hz => hy.append hz

end

end Item

theorem Mixin.yieldAll_texts (hpassed : Passed V P Q) (hcalls : calls.Says V P Q) {S : Scopes} (hS : S.Hold V P Q)
    (selectors : List Text) {args : List Value} (hargs : ∀ v ∈ args, P v) {ms : List Mixin} (hms : ∀ m ∈ ms, m.Meets V Q) :
    Ends (·.Says Q) (fun _ => True) (Mixin.yieldAll calls S selectors args ms) := by
  induction ms with
  | nil => exact Yield.Says.none Q
  | cons m ms ih =>
    rw [List.forall_mem_cons] at hms
    rw [Mixin.yieldAll]
    refine (bodyScopes_hold hpassed hS hms.1 hargs).bind fun scopes _ hscopes => ?_
    refine (Item.yieldAll_texts hpassed hcalls hscopes selectors hms.1.body).bind fun _ _ hy => ?_
    exact (ih hms.2).bind fun _ _ hz => hy.append hz

/-- By induction on the names that may still be called. -/
theorem expand_texts (hpassed : Passed V P Q) (callable : List Text) : Expansion.Says V P Q (expand callable) := by
  induction hn : callable.length using Nat.strongRecOn generalizing callable with
  | ind n ih =>
    subst hn
    intro S hS selectors c hc
    rw [expand_eq]
    split
    · trivial
    · split
      · trivial
      · next hname =>
        refine (Ends.mapM fun value hvalue => hS.evaluate hpassed (hc value hvalue)).bind fun args _ hargs => ?_
        dsimp only
        split
        · trivial
        · have hms : ∀ m ∈ (S.mixinsNamed c.name).filter (·.accepts args.length), m.Meets V Q :=
            fun m hm => hS.mixin (List.mem_of_mem_filter hm)
          have hcalls : Expansion.Says V P Q (expand (without c.name callable)) :=
            ih _ (without_length (not_not.mp hname)) _ rfl
          refine (Mixin.yieldAll_texts hpassed hcalls hS selectors hargs hms).bind fun y _ hy => ?_
          split
          · show y.important.Says Q
            rw [Yield.Says, Yield.texts_important]
            exact hy
          · exact hy

namespace Sheet

theorem nodesOf_texts (hpassed : Passed V P Q) (hcalls : calls.Says V P Q) {S : Scopes} (hS : S.Hold V P Q) {x : Statement}
    (hx : x.Meets (.texts V Q)) : Ends (∀ text ∈ textsAll ·, Q text) (fun _ => True) (nodesOf calls S x) := by
  have hnodes : ∀ y : Yield, y.Says Q → ∀ text ∈ textsAll y.nodes, Q text :=
    fun y hy text htext => hy text (List.mem_append_right _ htext)
  cases x with
  | directive | definition | mixin => exact List.forall_mem_nil Q
  | call c =>
    refine (hcalls hS [] hx).bind fun y _ hy => ?_
    split
    · exact hnodes y hy
    · trivial
  | rule selectors body => exact (Item.yield_texts hpassed hcalls hS [] (i := .rule selectors body) hx).map hnodes
  | atRule name params body => exact (Item.yield_texts hpassed hcalls hS [] (i := .atRule name params body) hx).map hnodes

theorem textsAll_flatten (parts : List (List Css.Node)) : textsAll parts.flatten = parts.flatMap textsAll := by
  induction parts with
  | nil => rfl
  | cons ns parts ih => rw [List.flatten_cons, Css.Node.textsAll_append, ih, List.flatMap_cons]

/-- What evaluation keeps holds of every text of a style sheet. -/
theorem evaluate_texts (hpassed : Passed V P Q) {s : Sheet} (hs : ∀ x ∈ s, x.Meets (.texts V Q)) :
    Ends (∀ text ∈ textsAll ·, Q text) (fun _ => True) s.evaluate := by
  have hscopes : Scopes.Hold V P Q [.ofItems s.items] :=
    List.forall_mem_singleton.mpr (Scope.holds_ofItems P (meetsAll_items hs))
  have hcalls := expand_texts hpassed (Item.mixinNamesAll s.items)
  refine (Ends.mapM fun x hx => nodesOf_texts hpassed hcalls hscopes (hs x hx)).map fun parts hparts text htext => ?_
  rw [textsAll_flatten] at htext
  obtain ⟨ns, hns, htext⟩ := List.mem_flatMap.mp htext
  exact hparts ns hns text htext

end Sheet

end

end LessCss
