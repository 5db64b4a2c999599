import LessCss.Compile
import LessCss.Proofs.Css.Constants
import LessCss.Proofs.Expr.Blame
/-!
What a diagnostic is blamed on.

Every place in a diagnostic is that of a token of the source, and the token is what the fault is about: a variable, an
operator or the beginning of a call (`compile_blames`). The values and the calls of a sheet come from its tokens
(`Tokens.findsOn_row`), and evaluation only passes them on: the scopes of an evaluation hold nothing else
(`Scopes.StandsIn`), so whatever is looked up, bound or called still has the place of its token.
-/
namespace LessCss

/-- The token `t`, with the tokens `after` behind it, is what a fault is about. -/
def Fault.Concerns (ts : List Token) (t : Token) (after : List Token) : Fault → Prop
  | undefinedVariable name | recursiveVariable name => t.kind = .atKeyword ∧ t.name = name
  | divisionByZero | invalidOperands => t.kind = .operator
  | undefinedMixin name | recursiveMixin name | noMatchingMixin name => Tokens.BeginsCall ts name t after
  | propertyOutsideRule => ∃ name, Tokens.BeginsCall ts name t after
  | invalidNumber text => t.kind = .number ∧ t.text = text ∧ Measure.parse? text = none
  | _ => True

/-- The place of a diagnostic, if it has one, is that of a token which its fault is about. Only the readers of items
blame no place. -/
structure Diagnostic.Blames (ts : List Token) (d : Diagnostic) : Prop where
  placed : ∀ p, d.position = some p →
    ∃ before t after, ts = before ++ t :: after ∧ t.position = p ∧ d.fault.Concerns ts t after
  unplaced : d.position = none → d.fault.ofItem = true

abbrev Criterion.within (ts : List Token) : Criterion := .values (Tokens.Within ts) (Tokens.CallIn ts)

/-- The values and the calls in a mixin are those of a row. -/
def Mixin.StandsIn (ts : List Token) : Mixin → Prop
  | plain body => Item.MeetsAll (.within ts) body
  | parametric params body =>
    (∀ p ∈ params, ∀ v ∈ p.fallback, Tokens.Within ts v) ∧ Item.MeetsAll (.within ts) body

/-- The values and the calls in a scope are those of a row. -/
structure Scope.StandsIn (ts : List Token) (s : Scope) : Prop where
  bindings : ∀ q ∈ s.bindings, ∀ v, q.2 = .deferred v → Tokens.Within ts v
  mixins : ∀ q ∈ s.mixins, q.2.StandsIn ts

def Scopes.StandsIn (ts : List Token) (S : Scopes) : Prop := ∀ s ∈ S, s.StandsIn ts

variable {ts : List Token}

namespace Diagnostic

theorem blames_of_mem {f : Fault} {t : Token} (ht : t ∈ ts) (h : ∀ after, f.Concerns ts t after) :
    (f.blame t.position).Blames ts := by
  refine ⟨?_, nofun⟩
  rintro p ⟨⟩
  obtain ⟨before, after, hts⟩ := List.append_of_mem ht
  exact ⟨before, t, after, hts, rfl, h after⟩

/-- A fault of the readers of items is about nothing but its place. -/
theorem Refuses.blames {d : Diagnostic} (h : d.Refuses ts) : d.Blames ts := by
  obtain ⟨hitem, hplaced⟩ := h
  refine ⟨fun p hp => ?_, fun _ => hitem⟩
  obtain ⟨t, ht, rfl⟩ := hplaced p hp
  obtain ⟨before, after, hts⟩ := List.append_of_mem ht
  refine ⟨before, t, after, hts, rfl, ?_⟩
  obtain ⟨f, position⟩ := d
  cases f with
  | undefinedVariable | undefinedMixin | divisionByZero | invalidOperands | recursiveVariable | recursiveMixin
  | noMatchingMixin | propertyOutsideRule | invalidNumber => exact nomatch hitem
  | _ => trivial

end Diagnostic

/-- A fault of the readers of values is about a number that is none, or about nothing but its place. -/
theorem Expr.Malformed.blames {d : Diagnostic} (h : Malformed ts d) : d.Blames ts := by
  cases h with
  | number ht hk hparse => exact Diagnostic.blames_of_mem ht fun _ => ⟨hk, rfl, hparse⟩
  | @misfit f t ht hf =>
    refine Diagnostic.blames_of_mem ht fun _ => ?_
    cases f with
    | undefinedVariable | undefinedMixin | divisionByZero | invalidOperands | recursiveVariable | recursiveMixin
    | noMatchingMixin | propertyOutsideRule | invalidNumber => exact nomatch hf
    | _ => trivial

theorem Tokens.CallIn.blames {c : Call} (h : CallIn ts c) {f : Fault}
    (hf : ∀ {t after}, BeginsCall ts c.name t after → f.Concerns ts t after) : (f.blame c.position).Blames ts := by
  obtain ⟨t, after, hcall, hposition⟩ := h
  obtain ⟨before, hts⟩ := hcall.visited.suffix
  refine ⟨?_, nofun⟩
  rintro p ⟨⟩
  exact ⟨before, t, after, hts.symm, hposition.symm, hf hcall⟩

namespace Scope

theorem standsIn_ofItems {is : List Item} (h : Item.MeetsAll (.within ts) is) : (ofItems is).StandsIn ts := by
  rw [Item.meetsAll_iff] at h
  refine ⟨fun q hq => ?_, fun q hq => ?_⟩
  · obtain ⟨d, hd, rfl⟩ := exists_definition hq
    rintro _ ⟨⟩
    exact h _ hd
  · rcases exists_mixin hq with ⟨selector, body, hrule, rfl⟩ | ⟨name, params, body, hmixin, rfl⟩
    · exact (h _ hrule).2
    · exact h _ hmixin

theorem standsIn_ofValues (bound : List (Text × Value)) : (ofValues bound).StandsIn ts where
  bindings := by
    rintro q hq v hv
    obtain ⟨⟨n, w⟩, -, rfl⟩ := List.mem_map.mp hq
    exact nomatch hv
  mixins := nofun

theorem StandsIn.marked {s : Scope} (h : s.StandsIn ts) {name : Text} {b : Binding} {marked : List (Text × Binding)}
    (hfind : find? name s.bindings = some (b, marked)) : ({ s with bindings := marked } : Scope).StandsIn ts where
  bindings q hq v hv := by
    rcases (mem_of_find? hfind).2 q hq with hmem | hpending
    · exact h.bindings q hmem v hv
    · rw [hpending] at hv
      exact nomatch hv
  mixins := h.mixins

end Scope

namespace Scopes

variable {S : Scopes}

theorem StandsIn.find? (h : S.StandsIn ts) {name : Text} {b : Binding} {home : Scopes}
    (hfind : find? name S = some (b, home)) : home.StandsIn ts ∧ ∀ v, b = .deferred v → Tokens.Within ts v := by
  induction S with
  | nil => exact nomatch hfind
  | cons s S ih =>
    obtain ⟨hs, hS⟩ := List.forall_mem_cons.mp h
    rw [Scopes.find?] at hfind
    cases hmarked : Scope.find? name s.bindings with
    | none =>
      rw [hmarked] at hfind
      exact ih hS hfind
    | some p =>
      obtain ⟨b', marked⟩ := p
      rw [hmarked] at hfind
      obtain ⟨rfl, rfl⟩ := Prod.mk.inj (Option.some.inj hfind)
      exact ⟨List.forall_mem_cons.mpr ⟨hs.marked hmarked, hS⟩, hs.bindings _ (Scope.mem_of_find? hmarked).1⟩

/-- The operators and the variables of a value that is evaluated where the variables can be looked up. -/
theorem answers (h : ∀ t ∈ ts, t.kind = .atKeyword →
    Ends (fun _ => True) (·.Blames ts) (S.resolve t.name t.position)) : Expr.Answers (·.Blames ts) ts S.resolve where
  operator _ ht hk := ⟨Diagnostic.blames_of_mem ht fun _ => hk, Diagnostic.blames_of_mem ht fun _ => hk⟩
  reference := h

theorem evaluate_ends_of_answers (h : Expr.Answers (·.Blames ts) ts S.resolve) {value : List Token}
    (hvalue : Tokens.Within ts value) :
    Ends (fun _ => True) (·.Blames ts) (Expr.ofTokens value >>= fun e => e.evaluate S.resolve) := by
  refine ((Expr.ofTokens_ends hvalue.1).mono_error fun d hd => ?_).bind fun e _ he =>
    Expr.evaluate_ends h e (he.1.mono hvalue.2)
  exact (hd.mono hvalue.2).blames

/-- By induction on the definitions that are not being evaluated. -/
theorem resolve_ends (h : S.StandsIn ts) {t : Token} (ht : t ∈ ts) (hk : t.kind = .atKeyword) :
    Ends (fun _ => True) (·.Blames ts) (S.resolve t.name t.position) := by
  induction hn : S.deferredCount using Nat.strongRecOn generalizing S t with
  | ind n ih =>
    subst hn
    rw [resolve_eq]
    cases hfind : find? t.name S with
    | none => exact Diagnostic.blames_of_mem ht fun _ => ⟨hk, rfl⟩
    | some q =>
      obtain ⟨b, home⟩ := q
      obtain ⟨hhome, hvalue⟩ := h.find? hfind
      cases b with
      | resolved v => trivial
      | pending => exact Diagnostic.blames_of_mem ht fun _ => ⟨hk, rfl⟩
      | deferred value =>
        refine evaluate_ends_of_answers (answers fun u hu hku => ?_) (hvalue _ rfl)
        exact ih _ (deferredCount_find? hfind) hhome hu hku rfl

theorem evaluate_ends (h : S.StandsIn ts) {value : List Token} (hvalue : Tokens.Within ts value) :
    Ends (fun _ => True) (·.Blames ts) (S.evaluate value) :=
  evaluate_ends_of_answers (answers fun _ ht hk => resolve_ends h ht hk) hvalue

theorem StandsIn.mixin (h : S.StandsIn ts) {name : Text} {m : Mixin} (hm : m ∈ S.mixinsNamed name) :
    m.StandsIn ts := by
  obtain ⟨s, hs, hmixin⟩ := exists_of_mem_mixinsNamed hm
  exact (h s hs).mixins _ hmixin

end Scopes

namespace Mixin

variable {S : Scopes}

theorem bindFallbacks_ends (hS : S.StandsIn ts) {ps : List Parameter}
    (hps : ∀ p ∈ ps, ∀ v ∈ p.fallback, Tokens.Within ts v) (bound : List (Text × Value)) :
    Ends (fun _ => True) (·.Blames ts) (bindFallbacks S (.ofValues bound) ps) := by
  induction ps generalizing bound with
  | nil => trivial
  | cons p ps ih =>
    rw [List.forall_mem_cons] at hps
    rw [bindFallbacks]
    split
    · exact ih hps.2 bound
    · next value hfallback =>
      have hscopes : Scopes.StandsIn ts (.ofValues bound :: S) :=
        List.forall_mem_cons.mpr ⟨Scope.standsIn_ofValues bound, hS⟩
      refine (Scopes.evaluate_ends hscopes (hps.1 value hfallback)).bind fun v _ _ => ?_
      rw [Scope.ofValues_bind]
      exact (ih hps.2 _).bind fun _ _ _ => trivial

theorem parameterScope_ends (hS : S.StandsIn ts) {params : List Parameter}
    (hparams : ∀ p ∈ params, ∀ v ∈ p.fallback, Tokens.Within ts v) (args : List Value) :
    Ends (·.StandsIn ts) (·.Blames ts) (parameterScope S params args) := by
  cases hscope : parameterScope S params args with
  | ok scope =>
    obtain ⟨bound, rfl⟩ := ofValues_of_parameterScope hscope
    exact Scope.standsIn_ofValues bound
  | error d =>
    have hbound : Ends (fun _ => True) (·.Blames ts) (parameterScope S params args) := by
      rw [parameterScope, bindArguments_eq]
      have hdropped : ∀ p ∈ params.drop args.length, ∀ v ∈ p.fallback, Tokens.Within ts v :=
        fun p hp => hparams p (List.mem_of_mem_drop hp)
      exact (bindFallbacks_ends hS hdropped _).bind fun _ _ _ => trivial
    exact hbound.of_error hscope

theorem StandsIn.body {m : Mixin} (h : m.StandsIn ts) : Item.MeetsAll (.within ts) m.body := by
  cases m with
  | plain body => exact h
  | parametric params body => exact h.2

theorem bodyScopes_ends (hS : S.StandsIn ts) {m : Mixin} (hm : m.StandsIn ts) (args : List Value) :
    Ends (·.StandsIn ts) (·.Blames ts) (m.bodyScopes S args) := by
  have hbody := Scope.standsIn_ofItems hm.body
  cases m with
  | plain body => exact List.forall_mem_cons.mpr ⟨hbody, hS⟩
  | parametric params body =>
    refine (parameterScope_ends hS hm.1 args).bind fun scope _ hscope => ?_
    exact List.forall_mem_cons.mpr ⟨hbody, List.forall_mem_cons.mpr ⟨hscope, hS⟩⟩

end Mixin

/-- Calls that begin with tokens of a row blame tokens of it. -/
def CallsBlame (ts : List Token) (calls : Expansion) : Prop :=
  ∀ {S : Scopes}, S.StandsIn ts → ∀ selectors {c : Call}, (Criterion.within ts).call c →
    Ends (fun _ => True) (·.Blames ts) (calls S selectors c)

variable {calls : Expansion}

namespace Item

mutual

theorem yield_ends (hcalls : CallsBlame ts calls) {S : Scopes} (hS : S.StandsIn ts) (selectors : List Text)
    {i : Item} (hi : i.Meets (.within ts)) : Ends (fun _ => True) (·.Blames ts) (yield calls S selectors i) := by
  cases i with
  | declaration d =>
    have hproperty : Ends (fun _ => True) (·.Blames ts) (d.evaluate S) :=
      (Scopes.evaluate_ends hS hi).map fun _ _ => trivial
    exact hproperty.map fun _ _ => trivial
  | definition | mixin => trivial
  | call c => exact hcalls hS selectors hi
  | rule own body =>
    have hblock : Scopes.StandsIn ts (.ofItems body :: S) :=
      List.forall_mem_cons.mpr ⟨Scope.standsIn_ofItems hi.2, hS⟩
    exact (yieldAll_ends hcalls hblock (Css.nestSelectors selectors own) hi.2).bind fun _ _ _ => trivial
  | atRule name params body =>
    have hblock : Scopes.StandsIn ts (.ofItems body :: S) :=
      List.forall_mem_cons.mpr ⟨Scope.standsIn_ofItems hi.2, hS⟩
    exact (yieldAll_ends hcalls hblock selectors hi.2).bind fun _ _ _ => trivial

theorem yieldAll_ends (hcalls : CallsBlame ts calls) {S : Scopes} (hS : S.StandsIn ts) (selectors : List Text)
    {is : List Item} (his : MeetsAll (.within ts) is) :
    Ends (fun _ => True) (·.Blames ts) (yieldAll calls S selectors is) := by
  cases is with
  | nil => trivial
  | cons i is =>
    rw [yieldAll]
    exact (yield_ends hcalls hS selectors his.1).bind fun _ _ _ =>
      (yieldAll_ends hcalls hS selectors his.2).bind fun _ _ _ => trivial

end

end Item

theorem Mixin.yieldAll_ends (hcalls : CallsBlame ts calls) {S : Scopes} (hS : S.StandsIn ts) (selectors : List Text)
    (args : List Value) {ms : List Mixin} (hms : ∀ m ∈ ms, m.StandsIn ts) :
    Ends (fun _ => True) (·.Blames ts) (yieldAll calls S selectors args ms) := by
  rw [yieldAll_eq_mapM]
  have hbodies : ∀ m ∈ ms, Ends (fun _ => True) (·.Blames ts)
      (m.bodyScopes S args >>= fun scopes => Item.yieldAll calls scopes selectors m.body) := by
    intro m hm
    exact (bodyScopes_ends hS (hms m hm) args).bind fun _ _ hscopes =>
      Item.yieldAll_ends hcalls hscopes selectors (hms m hm).body
  exact (Ends.mapM hbodies).map fun _ _ => trivial

/-- By induction on the names that may still be called. -/
theorem expand_ends (callable : List Text) : CallsBlame ts (expand callable) := by
  induction hn : callable.length using Nat.strongRecOn generalizing callable with
  | ind n ih =>
    subst hn
    intro S hS selectors c hc
    rw [expand_eq]
    split
    · exact hc.1.blames fun h => h
    · split
      · exact hc.1.blames fun h => h
      · next hname =>
        have hargs : ∀ v ∈ c.args, Ends (fun _ => True) (·.Blames ts) (S.evaluate v) :=
          fun v hv => Scopes.evaluate_ends hS (hc.2 v hv)
        refine (Ends.mapM hargs).bind fun args _ _ => ?_
        dsimp only
        split
        · exact hc.1.blames fun h => h
        · have hms : ∀ m ∈ (S.mixinsNamed c.name).filter (·.accepts args.length), m.StandsIn ts :=
            fun m hm => hS.mixin (List.mem_of_mem_filter hm)
          have hcalls : CallsBlame ts (expand (without c.name callable)) :=
            ih _ (without_length (not_not.mp hname)) _ rfl
          exact (Mixin.yieldAll_ends hcalls hS selectors args hms).bind fun _ _ _ => trivial

namespace Sheet

theorem nodesOf_ends (hcalls : CallsBlame ts calls) {S : Scopes} (hS : S.StandsIn ts) {x : Statement}
    (hx : x.Meets (.within ts)) : Ends (fun _ => True) (·.Blames ts) (nodesOf calls S x) := by
  cases x with
  | directive | definition | mixin => trivial
  | call c =>
    refine (hcalls hS [] hx).bind fun y _ _ => ?_
    split
    · trivial
    · exact hx.1.blames fun h => ⟨_, h⟩
  | rule selectors body => exact (Item.yield_ends hcalls hS [] (i := .rule selectors body) hx).map fun _ _ => trivial
  | atRule name params body =>
    exact (Item.yield_ends hcalls hS [] (i := .atRule name params body) hx).map fun _ _ => trivial

theorem evaluate_ends {s : Sheet} (hs : ∀ x ∈ s, x.Meets (.within ts)) :
    Ends (fun _ => True) (·.Blames ts) s.evaluate := by
  have hscopes : Scopes.StandsIn ts [.ofItems s.items] :=
    List.forall_mem_singleton.mpr (Scope.standsIn_ofItems (meetsAll_items hs))
  exact (Ends.mapM fun x hx => nodesOf_ends (expand_ends _) hscopes (hs x hx)).map fun _ _ => trivial

end Sheet

theorem evaluate_ends (source : Text) :
    Ends (fun _ => True) (·.Blames (Token.ofText source)) (evaluate source) :=
  ((Sheet.ofTokens_placed (Token.ofText_ended source)).mono_error fun _ hd => hd.blames).bind
    fun _ _ hs => Sheet.evaluate_ends hs

/-- The name of a mixin that is called begins with a `.` or a `#`. -/
theorem Tokens.BeginsCall.head?_name {source name : Text} {t : Token} {after : List Token}
    (h : BeginsCall (Token.ofText source) name t after) : name.head? = some '.' ∨ name.head? = some '#' := by
  rcases h.first with ⟨-, hname⟩ | ⟨hk, rfl⟩
  · exact .inl hname
  · have ht : t ∈ Token.ofText source := h.visited.suffix.subset List.mem_cons_self
    obtain ⟨name, hname, -⟩ := (Token.isLexeme_of_mem ht (by rw [hk]; decide)).hash hk
    exact .inr (by rw [hname, List.head?_cons])

/-- What the token at the place of a report is, by the kind and the detail of the report. -/
def Report.PointsAt (ts : List Token) (t : Token) (after : List Token) (r : Report) : Prop :=
  match r.kind with
  | .undefinedReference =>
    (∀ name, r.detail = "variable @" ++ String.ofList name → t.kind = .atKeyword ∧ t.name = name) ∧
      ((∀ name, r.detail ≠ "variable @" ++ String.ofList name) → Tokens.BeginsCall ts r.detail.toList t after)
  | .runtime =>
    (r.detail = "Division by zero" ∨ r.detail = "Operation on an invalid type" → t.kind = .operator) ∧
      (∀ name, r.detail = "Recursive variable definition for @" ++ String.ofList name →
        t.kind = .atKeyword ∧ t.name = name) ∧
      (r.detail ≠ "Division by zero" → r.detail ≠ "Operation on an invalid type" →
        (∀ name, r.detail ≠ "Recursive variable definition for @" ++ String.ofList name) →
        ∃ name, Tokens.BeginsCall ts name t after)
  | .unbalanced | .malformed => True

/-- Details that begin differently differ. -/
theorem detail_ne {a b : String} (h : a.toList.head? ≠ b.toList.head?) : a ≠ b := by
  rintro rfl
  exact h rfl

theorem Fault.pointsAt {source : Text} {t : Token} {after : List Token} {f : Fault} {p : Option Position}
    (h : f.Concerns (Token.ofText source) t after) :
    (Diagnostic.mk f p).report.PointsAt (Token.ofText source) t after := by
  have hname : ∀ {before : String} {a b : Text}, before ++ String.ofList a = before ++ String.ofList b → a = b :=
    fun heq => String.ofList_injective ((String.append_right_inj _).mp heq)
  cases f with
  | undefinedVariable name => exact ⟨fun _ hd => hname hd ▸ h, fun hd => absurd rfl (hd name)⟩
  | undefinedMixin name =>
    have hcall : Tokens.BeginsCall (Token.ofText source) name t after := h
    show Report.PointsAt _ t after ⟨.undefinedReference, String.ofList name, p⟩
    refine ⟨fun _ hd => absurd hd (detail_ne ?_), fun _ => ?_⟩
    · rcases hcall.head?_name with hn | hn <;> simp [hn]
    · simpa using hcall
  | divisionByZero =>
    show Report.PointsAt _ t after ⟨.runtime, "Division by zero", p⟩
    exact ⟨fun _ => h, fun _ hd => absurd hd (detail_ne (by simp)), fun hne => absurd rfl hne⟩
  | invalidOperands =>
    show Report.PointsAt _ t after ⟨.runtime, "Operation on an invalid type", p⟩
    exact ⟨fun _ => h, fun _ hd => absurd hd (detail_ne (by simp)), fun _ hne => absurd rfl hne⟩
  | recursiveVariable name =>
    show Report.PointsAt _ t after ⟨.runtime, "Recursive variable definition for @" ++ String.ofList name, p⟩
    refine ⟨?_, fun _ hd => hname hd ▸ h, fun _ _ hne => absurd rfl (hne name)⟩
    rintro (hd | hd) <;> exact absurd hd (detail_ne (by simp))
  | recursiveMixin name =>
    have hcall : Tokens.BeginsCall (Token.ofText source) name t after := h
    show Report.PointsAt _ t after ⟨.runtime, String.ofList name ++ " is called recursively", p⟩
    refine ⟨?_, fun _ hd => absurd hd (detail_ne ?_), fun _ _ _ => ⟨name, hcall⟩⟩
    · rintro (hd | hd) <;> refine absurd hd (detail_ne ?_) <;> rcases hcall.head?_name with hn | hn <;> simp [hn]
    · rcases hcall.head?_name with hn | hn <;> simp [hn]
  | noMatchingMixin name =>
    show Report.PointsAt _ t after
      ⟨.runtime, "No matching definition was found for " ++ Fault.quoted name, p⟩
    refine ⟨?_, fun _ hd => absurd hd (detail_ne (by simp)), fun _ _ _ => ⟨name, h⟩⟩
    rintro (hd | hd) <;> exact absurd hd (detail_ne (by simp))
  | propertyOutsideRule =>
    show Report.PointsAt _ t after ⟨.runtime, "Properties must be inside selector blocks", p⟩
    refine ⟨?_, fun _ hd => absurd hd (detail_ne (by simp)), fun _ _ _ => h⟩
    rintro (hd | hd) <;> exact absurd hd (detail_ne (by simp))
  | _ => trivial

/-- Every place in a diagnostic is that of the token which the report is about. -/
theorem compile_blames {layout : Css.Layout} {source : Text} {d : Diagnostic} {p : Position}
    (h : compile layout source = .error d) (hp : d.position = some p) :
    ∃ before t after, Token.ofText source = before ++ t :: after ∧ t.position = p ∧
      d.report.PointsAt (Token.ofText source) t after := by
  have hends : Ends (fun _ => True) (·.Blames (Token.ofText source)) (compile layout source) :=
    (evaluate_ends source).map fun _ _ => trivial
  obtain ⟨before, t, after, hts, ht, hconcerns⟩ := (hends.of_error h).placed p hp
  exact ⟨before, t, after, hts, ht, Fault.pointsAt hconcerns⟩

/-- A variable in the body of a mixin is blamed where it stands, wherever the mixin is called. -/
theorem compile_blames_body :
    compile .pretty ".m(@a) \x7bb: @a @x\x7d\nc \x7b.m(d)\x7d".toList =
        .error ((Fault.undefinedVariable ['x']).blame ⟨1, 15⟩) ∧
      ∃ before t after, Token.ofText ".m(@a) \x7bb: @a @x\x7d\nc \x7b.m(d)\x7d".toList = before ++ t :: after ∧
        t.position = ⟨1, 15⟩ ∧ ((Fault.undefinedVariable ['x']).blame ⟨1, 15⟩).report.PointsAt
          (Token.ofText ".m(@a) \x7bb: @a @x\x7d\nc \x7b.m(d)\x7d".toList) t after := by
  have hfault : compile .pretty ".m(@a) \x7bb: @a @x\x7d\nc \x7b.m(d)\x7d".toList =
      .error ((Fault.undefinedVariable ['x']).blame ⟨1, 15⟩) := by decide +kernel
  exact ⟨hfault, compile_blames hfault rfl⟩

end LessCss
