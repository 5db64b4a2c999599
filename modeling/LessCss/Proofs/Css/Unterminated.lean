import LessCss.Proofs.Css.Steps
import LessCss.Compile
import LessCss.Proofs.Expr.Blame
import LessCss.Proofs.Sheet.Blame
/-!
Unterminated strings.

A sheet with an unterminated string is refused, unless the string stands where the readers take tokens without looking
at them: before the `{` of an at-rule, or between the parentheses of a mixin (`compile_unterminated`). The steps of the
readers take every token of the row, so it is enough to see what one step takes (`Tokens.GoesOn.takes`). A string
between the parentheses of a mixin is noticed when the argument or the parameter is evaluated, unless it stands between
the parentheses of a function there.
-/
namespace LessCss

namespace Tokens

open Token (Ended ended_cons)

/-- Where the readers of a sheet take a token without looking at it: before the `{` of an at-rule, in the value that a
parameter has otherwise, and in an argument of a call. -/
inductive Unchecked (ts : List Token) (u : Token) : Prop
  | prelude {t : Token} {after name params inside} (hvisits : Visits ts (t :: after))
      (hlead : lead? (t :: after) = .ok (some (.opened (.atRule name params), inside)))
      (hu : u ∈ after.takeWhile (·.kind ≠ .lbrace)) : Unchecked ts u
  | fallback {us name params inside} {p : Parameter} {v : List Token} (hvisits : Visits ts us)
      (hlead : lead? us = .ok (some (.opened (.mixin name params), inside))) (hp : p ∈ params) (hv : v ∈ p.fallback)
      (hu : u ∈ v) : Unchecked ts u
  | argument {us rest} {c : Call} {v : List Token} (hvisits : Visits ts us)
      (hlead : lead? us = .ok (some (.call c, rest))) (hv : v ∈ c.args) (hu : u ∈ v) : Unchecked ts u

/-- If the token is an unterminated string, the readers do not look at it. -/
def Overlooked (ts : List Token) (u : Token) : Prop := u.kind = .unterminated → Unchecked ts u

variable {ts us rest : List Token} {P : Token → Prop}

section Readers

variable (hP : ∀ u : Token, u.kind ≠ .unterminated → P u)

include hP

theorem of_kind {u : Token} {k : Token.Kind} (hk : u.kind = k) (h : k ≠ .unterminated) : P u :=
  hP u (by rwa [hk])

theorem skipSemicolon_takes (ts : List Token) : Takes P ts (skipSemicolon ts) := by
  cases ts with
  | nil => exact .refl _
  | cons t ts =>
    rw [skipSemicolon]
    split
    · next hk => exact .cons (of_kind hP hk (by decide)) (.refl _)
    · exact .refl _

theorem ValueAt.takes {value : List Token} (h : ValueAt ts value rest) : Takes P ts rest :=
  ⟨value, h.row, fun u hu => hP u (inValue_eq_true_iff.mp (h.fits u hu)).2⟩

theorem readDefinition_takes {t : Token} {d : Definition} (h : readDefinition t ts = .ok (d, rest)) :
    Takes P ts rest := by
  obtain @⟨value, rest, hvalue, -, -⟩ := definitionAt_of_readDefinition h
  exact (ValueAt.takes hP hvalue).trans (skipSemicolon_takes hP rest)

theorem readDirective_takes {t : Token} {d : Directive} (h : readDirective t ts = .ok (d, rest)) : Takes P ts rest := by
  obtain @⟨params, rest, hparams⟩ := directiveAt_of_readDirective h
  exact (ValueAt.takes hP hparams).trans (skipSemicolon_takes hP rest)

theorem takes_tail {k : Token.Kind} (hk : (next ts).kind = k) (h : k ≠ .unterminated) : Takes P ts ts.tail := by
  cases ts with
  | nil => exact .refl _
  | cons t ts => exact .cons (of_kind hP hk h) (.refl _)

theorem takes_brace (ts : List Token) :
    Takes P (ts.dropWhile (·.kind ≠ .lbrace)) (ts.dropWhile (·.kind ≠ .lbrace)).tail := by
  cases hdrop : ts.dropWhile (·.kind ≠ .lbrace) with
  | nil => exact .refl _
  | cons t rest =>
    have hbrace : t.kind = .lbrace := by
      have hhead := List.head?_dropWhile_not (·.kind ≠ .lbrace) ts
      rw [hdrop] at hhead
      simpa using hhead
    exact .cons (of_kind hP hbrace (by decide)) (.refl _)

theorem readDeclaration_takes {d : Declaration} (h : readDeclaration ts = .ok (d, rest)) : Takes P ts rest := by
  obtain @⟨name, colon, ts, written, rest, hname, hcolon, hvalue, -⟩ := declarationAt_of_readDeclaration h
  have hafter : Takes P ts (skipSemicolon rest) := (ValueAt.takes hP hvalue).trans (skipSemicolon_takes hP rest)
  exact .cons (of_kind hP hname (by decide)) (.cons (of_kind hP hcolon (by decide)) hafter)

theorem readSelectors_takes {group : List Token} {selectors : List Text}
    (h : readSelectors group ts = .ok (selectors, rest)) : Takes P ts rest := by
  fun_induction readSelectors group ts generalizing selectors rest with
  | case1 | case2 | case4 | case6 | case7 | case8 | case9 | case10 | case11 | case12 => cases h
  | case3 group t ts hk =>
    obtain ⟨-, rfl⟩ := Prod.mk.inj (Except.ok.inj h)
    exact .cons (of_kind hP hk (by decide)) (.refl _)
  | case5 group t ts hk hg ih =>
    obtain ⟨⟨others, after⟩, hread, h⟩ := bind_eq_ok h
    obtain ⟨-, rfl⟩ := Prod.mk.inj (Except.ok.inj h)
    exact .cons (of_kind hP hk (by decide)) (ih hread)
  | case13 group t ts _ _ _ _ _ hunterminated _ _ _ ih => exact .cons (hP t hunterminated) (ih h)

theorem name_takes (n : Written.Name) (ts : List Token) : Takes P (n.tokens ++ ts) ts := by
  cases n with
  | dotted dot word =>
    have hdot : dot.1.kind = .delim := (of_decide_eq_true dot.2).1
    exact .cons (of_kind hP hdot (by decide)) (.cons (of_kind hP word.2.1 (by decide)) (.refl _))
  | hash h => exact .cons (of_kind hP h.2 (by decide)) (.refl _)

theorem opening_takes (o : Written.Opening) (ts : List Token) : Takes P (o.tokens ++ ts) ts := by
  cases o with
  | paren name lparen =>
    rw [Written.Opening.tokens, List.append_assoc]
    exact (name_takes hP name _).trans (.cons (of_kind hP lparen.2 (by decide)) (.refl _))
  | function dot word =>
    have hdot : dot.1.kind = .delim := (of_decide_eq_true dot.2).1
    exact .cons (of_kind hP hdot (by decide)) (.cons (of_kind hP word.2.1 (by decide)) (.refl _))

theorem read?_takes {s : Signature} (h : Signature.read? ts = some s)
    (hargs : ∀ a ∈ s.argumentList, ∀ u ∈ a, P u) : Takes P ts s.rest := by
  cases Written.spells_of_read? h with
  | name n => exact name_takes hP n _
  | opening o args close rest =>
    refine (opening_takes hP o _).trans (.append (fun u hu => ?_) (.cons (of_kind hP close.2 (by decide)) (.refl _)))
    by_cases hk : u.kind = .unterminated
    · have hseparator : ∀ k : Token.Kind, k = .semicolon ∨ k = .comma → u.kind ≠ k := by
        rintro k (rfl | rfl) <;> rw [hk] <;> decide
      have hpieces : ∃ a ∈ pieces (if args.any (·.kind = .semicolon) then .semicolon else .comma) 0 args, u ∈ a :=
        mem_pieces (hseparator _ (by split <;> simp)) hu
      obtain ⟨a, ha, hua⟩ := hpieces
      refine hargs a (List.mem_filter.mpr ⟨ha, ?_⟩) u hua
      cases a with
      | nil => exact nomatch hua
      | cons => rfl
    · exact hP u hk

omit hP in
theorem next_of_isDefinition {s : Signature} (h : s.isDefinition = true) : (next s.rest).kind = .lbrace := by
  unfold Signature.isDefinition at h
  split at h
  · exact nomatch h
  · exact of_decide_eq_true (Bool.and_eq_true_iff.mp h).1

/-- After a call, its mark of importance is taken and a semicolon. -/
theorem readCall_takes {s : Signature} (h : s.isCall = true) (p : Position) : Takes P s.rest (readCall p s).2 := by
  suffices hmark : Takes P s.rest (if (next s.rest).isDelim '!' then s.rest.drop 2 else s.rest) from
    hmark.trans (skipSemicolon_takes hP _)
  split
  · next hmark =>
    have hk : (next s.rest).kind = .delim := kind_of_isDelim hmark
    have himportant : isImportant (s.rest.take 2) = true := by simpa [Signature.isCall, hk] using h
    rcases hrest : s.rest with _ | ⟨mark, _ | ⟨word, after⟩⟩
    · rw [hrest] at himportant
      cases himportant
    · rw [hrest] at himportant
      cases himportant
    · rw [hrest] at himportant
      obtain ⟨hdelim, hword⟩ := isDelim_of_isImportant himportant
      exact .cons (of_kind hP (kind_of_isDelim hdelim) (by decide)) (.cons (of_kind hP hword (by decide)) (.refl _))
  · exact .refl _

end Readers

theorem overlooked_of_kind_ne {u : Token} (h : u.kind ≠ .unterminated) : Overlooked ts u := fun hu => absurd hu h

/-- A parameter holds every unterminated string of its tokens in the value that it has otherwise. -/
theorem parameter_fallback {p : Parameter} (h : Signature.parameter us = .ok p) {u : Token} (hu : u ∈ us)
    (hk : u.kind = .unterminated) : ∃ v ∈ p.fallback, u ∈ v := by
  cases us with
  | nil => cases hu
  | cons t us =>
    unfold Signature.parameter at h
    dsimp only [next_cons, List.tail_cons] at h
    split at h
    · cases h
    · next hname =>
      rcases List.mem_cons.mp hu with rfl | hu
      · rw [hk] at hname
        exact absurd hname (by decide)
      · split at h
        · cases hu
        · split at h
          · cases h
          · next hcolon =>
            split at h
            · cases h
            · obtain rfl := Except.ok.inj h
              rcases List.mem_cons.mp hu with rfl | hu
              · rw [hk] at hcolon
                exact absurd hcolon (by decide)
              · exact ⟨_, rfl, hu⟩

/-- A step of the readers takes no unterminated string that they look at. -/
theorem GoesOn.takes (hvisits : Visits ts us) (h : GoesOn us rest) : Takes (Overlooked ts) us rest := by
  have hP : ∀ u : Token, u.kind ≠ .unterminated → Overlooked ts u := fun u => overlooked_of_kind_ne
  cases h with
  | mark hk =>
    refine .cons ?_ (.refl _)
    rcases hk with hk | hk <;> exact of_kind hP hk (by decide)
  | declaration h => exact readDeclaration_takes hP h
  | directive hk h => exact .cons (of_kind hP hk (by decide)) (readDirective_takes hP h)
  | @lead t us l rest h =>
    have hlead := leadsTo_of_lead? h
    cases hlead with
    | definition hk hcolon hread =>
      exact .cons (of_kind hP hk (by decide))
        ((takes_tail hP hcolon (by decide)).trans (readDefinition_takes hP hread))
    | atRule hk hcolon hopens =>
      refine .cons (of_kind hP hk (by decide)) ?_
      have hbefore : Takes (Overlooked ts) us (us.dropWhile (·.kind ≠ .lbrace)) :=
        ⟨us.takeWhile (·.kind ≠ .lbrace), List.takeWhile_append_dropWhile.symm,
          fun u hu _ => .prelude hvisits h hu⟩
      exact hbefore.trans (takes_brace hP us)
    | @mixin s params hk hread hs hparams =>
      refine (read?_takes hP hread ?_).trans (takes_tail hP (next_of_isDefinition hs) (by decide))
      intro a ha u hu hku
      obtain ⟨p, hp, hparameter⟩ := exists_of_mapM hparams ha
      obtain ⟨v, hv, huv⟩ := parameter_fallback hparameter hu hku
      exact .fallback hvisits h hp hv huv
    | @call s hk hread hs =>
      refine (read?_takes hP hread ?_).trans (readCall_takes hP hs t.position)
      exact fun a ha u hu _ => .argument hvisits h ha hu
    | rule hk hread => exact readSelectors_takes hP hread

/-- Where a row goes on with `eof` nothing follows. -/
theorem eq_singleton_of_ended (h : Ended rest) (hk : (next rest).kind = .eof) : ∃ t, rest = [t] ∧ t.kind = .eof := by
  cases rest with
  | nil => exact absurd h Token.not_ended_nil
  | cons t rest =>
    rcases ended_cons.mp h with ⟨ht, rfl⟩ | ⟨ht, -⟩
    · exact ⟨t, rfl, ht⟩
    · exact absurd hk ht

end Tokens

/-- In a row that is read as a sheet the readers look at no unterminated string. -/
theorem Sheet.overlooked_of_ofTokens {ts : List Token} {s : Sheet} (hts : Token.Ended ts)
    (h : ofTokens ts = .ok s) : ∀ u ∈ ts, Tokens.Overlooked ts u := by
  rw [ofTokens] at h
  split at h
  · cases h
  · have hfinds : Tokens.FindsOn {} ts :=
      ⟨fun _ _ _ _ _ => trivial, fun _ _ _ _ _ => trivial, fun _ _ _ _ _ => trivial, fun _ _ _ _ _ _ => trivial,
        fun _ _ _ _ _ _ _ _ => trivial⟩
    obtain ⟨-, rest, hvisits, hk⟩ := (Tokens.readStatements_ends hfinds (.any ts) .refl).of_ok h
    obtain ⟨last, rfl, hlast⟩ := Tokens.eq_singleton_of_ended (hvisits.ended hts) hk
    refine (hvisits.takes Tokens.GoesOn.takes).forall_mem (List.forall_mem_singleton.mpr ?_)
    exact Tokens.of_kind (fun _ => Tokens.overlooked_of_kind_ne) hlast (by decide)

/-- An unterminated string stands in a value outside of the parentheses of functions. -/
def Tokens.Exposed (value : List Token) : Prop := ∃ u ∈ value, u.kind = .unterminated ∧ ¬Expr.Enclosed value u

theorem Expr.ofTokens_exposed {value : List Token} (h : Tokens.Exposed value) : ∃ d, ofTokens value = .error d := by
  obtain ⟨u, hu, hk, henclosed⟩ := h
  cases hread : ofTokens value with
  | error d => exact ⟨d, rfl⟩
  | ok e =>
    have hchecked := (ofTokens_ends (List.ne_nil_of_mem hu)).of_ok hread
    exact absurd (hchecked.2 u hu hk) henclosed

theorem Scopes.evaluate_exposed {value : List Token} (h : Tokens.Exposed value) (S : Scopes) :
    ∃ d, S.evaluate value = .error d := by
  obtain ⟨d, hd⟩ := Expr.ofTokens_exposed h
  exact ⟨d, by rw [Scopes.evaluate, hd]; rfl⟩

/-- A call with such an argument yields nothing. -/
theorem expand_exposed {c : Call} (h : ∃ v ∈ c.args, Tokens.Exposed v) (callable : List Text) (S : Scopes)
    (selectors : List Text) : ∃ d, expand callable S selectors c = .error d := by
  cases hexpand : expand callable S selectors c with
  | error d => exact ⟨d, rfl⟩
  | ok y =>
    rw [expand_eq] at hexpand
    split at hexpand
    · exact nomatch hexpand
    · split at hexpand
      · exact nomatch hexpand
      · obtain ⟨args, hargs, -⟩ := bind_eq_ok hexpand
        obtain ⟨v, hv, hexposed⟩ := h
        obtain ⟨w, -, hw⟩ := exists_of_mapM hargs hv
        obtain ⟨d, hd⟩ := S.evaluate_exposed hexposed
        rw [hd] at hw
        exact nomatch hw

/-- Nor does one that leaves out a parameter with such a value. -/
theorem Mixin.bindFallbacks_exposed {S : Scopes} {ps : List Parameter}
    (h : ∃ p ∈ ps, ∃ v ∈ p.fallback, Tokens.Exposed v) (s : Scope) : ∃ d, bindFallbacks S s ps = .error d := by
  induction ps generalizing s with
  | nil =>
    obtain ⟨p, hp, -⟩ := h
    exact nomatch hp
  | cons p ps ih =>
    obtain ⟨q, hq, v, hv, hexposed⟩ := h
    rw [bindFallbacks]
    rcases List.mem_cons.mp hq with rfl | hq
    · have hfallback : q.fallback = some v := hv
      obtain ⟨d, hd⟩ := Scopes.evaluate_exposed hexposed (s :: S)
      rw [hfallback]
      exact ⟨d, by dsimp only; rw [hd]; rfl⟩
    · have hmore : ∀ s, ∃ d, bindFallbacks S s ps = .error d := ih ⟨q, hq, v, hv, hexposed⟩
      split
      · exact hmore s
      · next value hfallback =>
        cases hvalue : Scopes.evaluate (s :: S) value with
        | error d => exact ⟨d, rfl⟩
        | ok w =>
          obtain ⟨d, hd⟩ := hmore (s.bind p.name w)
          exact ⟨d, by rw [ok_bind, hd]; rfl⟩

theorem Mixin.parameterScope_exposed {S : Scopes} {params : List Parameter} {args : List Value}
    (h : ∃ p ∈ params.drop args.length, ∃ v ∈ p.fallback, Tokens.Exposed v) :
    ∃ d, parameterScope S params args = .error d := by
  obtain ⟨d, hd⟩ := bindFallbacks_exposed h (bindArguments params args)
  exact ⟨d, by rw [parameterScope, hd]; rfl⟩

/-- A sheet with an unterminated string is refused, unless the readers do not look at the string. Then it stands before
the `{` of an at-rule or in a value between the parentheses of a mixin. Unless it stands between the parentheses of a
function there, the call with such an argument is refused, and the call that leaves out a parameter with such a value. -/
theorem compile_unterminated (source : Text) :
    (∀ u ∈ Token.ofText source, u.kind = .unterminated → ¬Tokens.Unchecked (Token.ofText source) u →
      ∀ layout, ∃ d, compile layout source = .error d) ∧
    (∀ c : Call, (∃ v ∈ c.args, Tokens.Exposed v) → ∀ callable S selectors,
      ∃ d, expand callable S selectors c = .error d) ∧
    ∀ S params args, (∃ p ∈ params.drop args.length, ∃ v ∈ p.fallback, Tokens.Exposed v) →
      ∃ d, Mixin.parameterScope S params args = .error d := by
  refine ⟨fun u hu hk hunchecked layout => ?_, fun c h => expand_exposed h, fun S params args h =>
    Mixin.parameterScope_exposed h⟩
  cases hcompile : compile layout source with
  | error d => exact ⟨d, rfl⟩
  | ok css =>
    obtain ⟨nodes, hevaluate, -⟩ := map_eq_ok hcompile
    obtain ⟨s, hparse, -⟩ := bind_eq_ok hevaluate
    exact absurd (Sheet.overlooked_of_ofTokens (Token.ofText_ended source) hparse u hu hk) hunchecked

/-- In a directive an unterminated string is noticed: no row behind any of its tokens leads to a call or to a block. -/
theorem compile_unterminated_charset :
    (∃ u ∈ Token.ofText "@charset \"abc\n;".toList, u.kind = .unterminated ∧
      ¬Tokens.Unchecked (Token.ofText "@charset \"abc\n;".toList) u) ∧
    ∀ layout, ∃ d, compile layout "@charset \"abc\n;".toList = .error d := by
  have hleads : ∀ us, us <:+ Token.ofText "@charset \"abc\n;".toList → (Tokens.lead? us).toOption.join = none := by
    have hdrop : ∀ n < 5, (Tokens.lead? ((Token.ofText "@charset \"abc\n;".toList).drop n)).toOption.join = none := by
      decide +kernel
    have hlength : (Token.ofText "@charset \"abc\n;".toList).length = 4 := by decide +kernel
    intro us hus
    rw [List.suffix_iff_eq_drop.mp hus]
    exact hdrop _ (by omega)
  have hunchecked : ∀ u, ¬Tokens.Unchecked (Token.ofText "@charset \"abc\n;".toList) u := by
    rintro u (⟨hvisits, hlead, -⟩ | ⟨hvisits, hlead, -, -, -⟩ | ⟨hvisits, hlead, -, -⟩)
    all_goals
      have hnone := hleads _ hvisits.suffix
      rw [hlead] at hnone
      exact nomatch hnone
  obtain ⟨u, hu, hk⟩ : ∃ u ∈ Token.ofText "@charset \"abc\n;".toList, u.kind = .unterminated := by decide +kernel
  exact ⟨⟨u, hu, hk, hunchecked u⟩, (compile_unterminated _).1 u hu hk (hunchecked u)⟩

/-- Before the `{` of an at-rule an unterminated string gets through. -/
theorem compile_at_prelude : ¬∀ (layout : Css.Layout) (source : Text),
    (∃ u ∈ Token.ofText source, u.kind = .unterminated) → ∃ d, compile layout source = .error d := by
  intro h
  obtain ⟨d, hd⟩ := h .pretty "@media \"abc\n\x7b a \x7b b: c; \x7d \x7d".toList (by decide +kernel)
  have hsome : (compile .pretty "@media \"abc\n\x7b a \x7b b: c; \x7d \x7d".toList).toOption.isSome := by decide +kernel
  rw [hd] at hsome
  exact nomatch hsome

end LessCss
