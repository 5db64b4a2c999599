import LessCss.Proofs.Css.Texts
import LessCss.Proofs.Expr.Settled
/-!
Style sheets without variables.

A variable is left in a text of a style sheet in four ways only (`Leaks`), and in every other text none is
(`evaluate_resolved`). Values are made of stretches of the source in which solid texts are put in the place of the
variables, parameters are stretches as they stand. Both are firm, so no at-keyword is read from them unless a `url(…)` is
glued to a name or a comment has come about.
-/
namespace LessCss

open Token (Clear Leaves Row stream ofText)
open Tokens (Stretch Passes InPrelude)

variable {source : Text} {value : List Token}

namespace Token

variable {b : Option Kind} {p : Position} {t : Token}

theorem mem_of_mem_text (ht : t ∈ stream b p source) {c : Char} (hc : c ∈ t.text) : c ∈ source := by
  induction hn : source.length using Nat.strongRecOn generalizing b p source with
  | ind n ih =>
    subst hn
    cases hgap : (gap .outside source).rest with
    | nil =>
      rw [stream_nil hgap] at ht
      obtain rfl := List.mem_singleton.mp ht
      cases hc
    | cons d ds =>
      have hsource := gap_append .outside source
      rw [hgap, ← Lexeme.read_append b (!(gap .outside source).taken.isEmpty) d ds] at hsource
      have hlt := rest_length_lt hgap b (!(gap .outside source).taken.isEmpty)
      rw [stream_cons hgap] at ht
      rcases List.mem_cons.mp ht with rfl | ht
      · rw [← hsource]
        exact List.mem_append_right _ (List.mem_append_left _ hc)
      · rw [← hsource]
        exact List.mem_append_right _ (List.mem_append_right _ (ih _ hlt ht rfl))

/-- What a source must be like for its values to be stretches in which only variables are replaced. -/
structure Orderly (source : Text) : Prop where
  unescaped : '~' ∉ source
  terminated : ∀ t ∈ ofText source, t.kind ≠ .unterminated

/-- In the arguments of a function no variable makes a name with an `@` before it. -/
def Untied (source : Text) : Prop := ∀ args, Passes (ofText source) args → ¬Glues args

/-- In the arguments of a function no comment comes about, whatever is put in the place of the variables. -/
def Quiet (source : Text) : Prop := ∀ args, Passes (ofText source) args → ¬Slashed args

theorem Orderly.row (h : Orderly source) (hvalue : Stretch (ofText source) value) : Row value where
  lexeme t ht := isLexeme_of_mem (hvalue.unbroken.subset ht) (hvalue.inside t ht)
  terminated t ht := h.terminated t (hvalue.unbroken.subset ht)
  touch t u htu hs := by
    obtain ⟨before, after, heq⟩ := htu.trans hvalue.unbroken
    have hsuffix : t :: u :: after <:+ ofText source := ⟨before, by rw [← heq]; simp⟩
    exact touch_of_stream hsuffix (hvalue.inside u (htu.subset (.tail _ (.head _)))) hs

theorem Orderly.clear (h : Orderly source) (huntied : Untied source) (hvalue : Stretch (ofText source) value) :
    Clear (Quiet source) value where
  row := h.row hvalue
  plain t ht := by
    cases htilde : t.isDelim '~' with
    | false => rfl
    | true =>
      have hhead : '~' ∈ t.text := List.mem_of_head? (of_decide_eq_true htilde).2
      exact absurd (mem_of_mem_text (hvalue.unbroken.subset ht) hhead) h.unescaped
  calls args hargs := huntied args (hargs.mono hvalue.unbroken)
  quotients hquiet args hargs := hquiet args (hargs.mono hvalue.unbroken)

theorem firm_join {quiet : Prop} {ts : List Token} (h : Row ts) (hts : ∀ t ∈ ts, t.kind ≠ .atKeyword) :
    Firm quiet (join ts) := by
  have hleaves : List.Forall₂ (Leaves quiet) ts (ts.map piece) := by
    rw [List.forall₂_map_right_iff, List.forall₂_same]
    exact fun t ht => ⟨rfl, fun _ => rfl, fun hk => absurd hk (hts t ht)⟩
  refine firm_joinPieces hleaves h ?_ fun _ => ?_
  · rintro ⟨t, u, h, -, hu, -⟩
    exact hts u (h.subset (.tail _ (.head _))) hu
  · rintro ⟨t, u, w, h, -, hu, -⟩
    exact hts u (h.subset (.tail _ (.head _))) hu

end Token

open Token (Orderly Untied Quiet)

/-- The parameters of a block, in which a variable stands. -/
structure Token.Prelude (source : Text) (params : List Token) : Prop where
  stretch : Stretch (ofText source) params
  inside : ∀ t ∈ params, InPrelude (ofText source) t
  unresolved : ∃ t ∈ params, t.kind = .atKeyword

/-- How a variable may be left in a text that a source evaluates to: in parameters, which are written as they stand;
behind an `@` or in a comment, in the arguments of a function; or where a `url(…)` is glued. -/
inductive Leaks (source text : Text) : Prop
  | prelude {params} (h : Token.Prelude source params) (htext : text = Token.join params)
  | name (h : ¬Untied source) (htext : '@' ∈ text)
  | comment (h : ¬Quiet source) (htext : Commented none text)
  | url (htext : Glued text)

theorem Token.Orderly.passed (h : Orderly source) (huntied : Untied source) {Q : Text → Prop}
    (hQ : ∀ text, Firm (Quiet source) text → Q text) :
    Passed (Stretch (ofText source)) (Value.Settled (Quiet source)) Q where
  evaluate hvalue hlookup hv := Expr.settled_of_ofTokens (h.clear huntied hvalue) hlookup hv
  list := .list .space
  render hv := hQ _ hv.render.firm

/-- A text of a style sheet is firm, or the parameters of a block with a variable. -/
theorem evaluate_firm {ns : List Css.Node} (h : evaluate source = .ok ns) (hsource : Orderly source)
    (huntied : Untied source) : ∀ text ∈ Css.Node.textsAll ns,
      Firm (Quiet source) text ∨ ∃ params, Token.Prelude source params ∧ text = Token.join params := by
  obtain ⟨s, hs, h⟩ := bind_eq_ok h
  refine (Sheet.evaluate_texts (hsource.passed huntied fun _ => Or.inl) ?_).of_ok h
  refine Sheet.stretches_of_ofTokens hs fun params hparams hbefore => ?_
  by_cases hvariable : ∃ t ∈ params, t.kind = .atKeyword
  · exact .inr ⟨params, ⟨hparams, hbefore, hvariable⟩, rfl⟩
  · exact .inl (Token.firm_join (hsource.row hparams) fun t ht hk => hvariable ⟨t, ht, hk⟩)

/-- In a text of a style sheet no variable is left, unless in one of the four ways. -/
theorem evaluate_resolved {ns : List Css.Node} (h : evaluate source = .ok ns) (hsource : Orderly source) :
    ∀ text ∈ Css.Node.textsAll ns, ¬Leaks source text → ∀ t ∈ ofText text, t.kind ≠ .atKeyword := by
  intro text htext hleaks t ht hk
  have hat : '@' ∈ text := by
    obtain ⟨name, hname⟩ := (Token.isLexeme_of_mem ht (by simp [hk])).atKeyword hk
    exact Token.mem_of_mem_text ht (hname ▸ List.mem_cons_self)
  have huntied : Untied source := of_not_not fun h => hleaks (.name h hat)
  rcases evaluate_firm h hsource huntied text htext with hfirm | ⟨params, hparams, heq⟩
  · have hcomment : Commented none text → Quiet source := fun h => of_not_not fun hquiet => hleaks (.comment hquiet h)
    exact hfirm.stream (fun h => hleaks (.url h)) none hcomment .start t ht hk
  · exact hleaks (.prelude hparams heq)

theorem evaluate_resolved_arguments : ∃ (source : Text) (ns : List Css.Node),
    source = ("@a: red; .m(@b: 1px) \x7b c: f(image-url(@a) calc(8px/@b*2)) \"@a\" @arguments; \x7d " ++
      "@media print \x7b d \x7b .m(2px); \x7d \x7d").toList ∧
      evaluate source = .ok ns ∧ Orderly source ∧
      Css.Node.textsAll ns = ["print".toList, "f(image-url(red) calc(8px/2px*2)) \"@a\" 2px".toList] ∧
      ∀ text ∈ Css.Node.textsAll ns, ¬Leaks source text ∧ ∀ t ∈ ofText text, t.kind ≠ .atKeyword := by
  generalize hsource : ("@a: red; .m(@b: 1px) \x7b c: f(image-url(@a) calc(8px/@b*2)) \"@a\" @arguments; \x7d " ++
    "@media print \x7b d \x7b .m(2px); \x7d \x7d").toList = source
  have hevaluate : (evaluate source).toOption.map Css.Node.textsAll =
      some ["print".toList, "f(image-url(red) calc(8px/2px*2)) \"@a\" 2px".toList] := by
    rw [← hsource]
    decide +kernel
  obtain ⟨ns, hns, htexts⟩ := exists_evaluate_texts hevaluate
  have horderly : Orderly source := by
    refine ⟨?_, ?_⟩ <;> rw [← hsource] <;> decide +kernel
  have hmarks : ∀ t ∈ ofText source, t.isDelim '@' = false := by
    rw [← hsource]
    decide +kernel
  have huntied : Untied source := by
    rintro args hargs ⟨t, u, h, ht, -⟩
    exact absurd ht (by simp [hmarks t (hargs.unbroken.subset (h.subset List.mem_cons_self))])
  have hprelude : ∀ t, InPrelude (ofText source) t → t.kind ≠ .atKeyword := by
    have hheads : ∀ n < 60, (Tokens.next ((ofText source).drop n).tail).kind ≠ .colon →
        Tokens.opensBlock ((ofText source).drop n).tail = true → (Tokens.next ((ofText source).drop n)).kind = .atKeyword →
        ∀ t ∈ ((ofText source).drop n).tail.takeWhile (·.kind ≠ .lbrace), t.kind ≠ .atKeyword := by
      rw [← hsource]
      decide +kernel
    have hlength : (ofText source).length < 60 := by
      rw [← hsource]
      decide +kernel
    rintro t ⟨head, after, name, params, inside, hvisits, hlead, ht⟩
    have hdrop := List.suffix_iff_eq_drop.mp hvisits.suffix
    have hheads := hheads ((ofText source).length - (head :: after).length) (by omega)
    rw [← hdrop] at hheads
    cases Tokens.headedBy_of_lead? hlead with
    | atRule hk hcolon hopens => exact hheads hcolon hopens hk t ht
  have htext : ∀ text ∈ ["print".toList, "f(image-url(red) calc(8px/2px*2)) \"@a\" 2px".toList],
      ¬['/', '/'] <:+: text ∧ ¬['/', '*'] <:+: text ∧ text.length < 45 ∧
        -- the letter stands in one place only
        ∀ n < 45, (text.drop n).head?.map Char.toLower = some 'u' →
          (Lexeme.readUrl none (text.drop (n + 4))).text.all isIdle = true := by
    decide +kernel
  have hleaks : ∀ text ∈ Css.Node.textsAll ns, ¬Leaks source text := by
    rw [htexts]
    intro text hmem h
    obtain ⟨hline, hblock, hlength, hplaces⟩ := htext text hmem
    cases h with
    | prelude h =>
      obtain ⟨t, ht, hk⟩ := h.unresolved
      exact hprelude t (h.inside t ht) hk
    | name h => exact h huntied
    | comment _ h => exact h.mark.elim hline hblock
    | url h =>
      obtain ⟨n, hn, hletter, hfirm⟩ := h.place
      exact hfirm (Solid.of_idle (List.all_eq_true.mp (hplaces n (by omega) hletter))).firm
  exact ⟨source, ns, rfl, hns, horderly, htexts, fun text htext =>
    ⟨hleaks text htext, evaluate_resolved hns horderly text htext (hleaks text htext)⟩⟩

/-- In the parameters of a block a variable stays as it is. -/
theorem evaluate_at_prelude : ¬∀ (source : Text) (ns : List Css.Node), '~' ∉ source → evaluate source = .ok ns →
    ∀ text ∈ Css.Node.textsAll ns, ∀ t ∈ ofText text, t.kind ≠ .atKeyword := by
  intro h
  have hevaluate : (evaluate "@p: print; @media @p \x7b a \x7b b: c; \x7d \x7d".toList).toOption.map Css.Node.textsAll =
      some ["@p".toList, ['c']] := by decide +kernel
  obtain ⟨ns, hns, htexts⟩ := exists_evaluate_texts hevaluate
  have hkinds := h _ ns (by decide +kernel) hns "@p".toList (by simp [htexts])
  exact absurd hkinds (by decide +kernel)

end LessCss
