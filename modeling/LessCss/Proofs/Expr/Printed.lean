import LessCss.Proofs.Number.FourPlaces
import LessCss.Proofs.Expr.FormulaText
import LessCss.Proofs.Expr.Arithmetic
/-!
How results of arithmetic are read again.

Arithmetic on finite numbers may have a result that is not finite. A finite result is written as a measure with the unit
of the result, so its text is one token of kind `number` again. Any other result is written as a word, and its text
holds no number (`Expr.render_result`).
-/
namespace LessCss

namespace Token

variable {c : Char} {cs : Text} {kind : Kind}

theorem ofText_lexeme (hnext : GapState.outside.next? c cs = none)
    (hread : Lexeme.read none false c cs = ⟨kind, c :: cs, []⟩) :
    ofText (c :: cs) = [⟨kind, c :: cs, .start, false⟩, ⟨.eof, [], Position.start.after (c :: cs), false⟩] := by
  have hgap := gap_of_next?_eq_none hnext
  have hrest : (gap .outside (c :: cs)).rest = c :: cs := by rw [hgap]
  rw [ofText, stream_cons hrest, hgap, show (!List.isEmpty ([] : Text)) = false from rfl, hread]
  dsimp only
  rw [stream_nil rfl]
  rfl

theorem ofText_measure {m : Measure} (h : m.WellFormed) : ofText m.text =
    [⟨.number, m.text, .start, false⟩, ⟨.eof, [], Position.start.after m.text, false⟩] := by
  have hends : m.Ends [] := h.ends startsWith_nil
  obtain ⟨t, ht, hstarts⟩ := Lexeme.startsNumeral_of_wellFormed h.number m.unit
  change m.text = m.number.sign ++ t at ht
  have hnumber : ∀ {c cs}, m.text = c :: cs → Lexeme.readNumber c cs = ⟨.number, c :: cs, []⟩ := by
    intro c cs heq
    rw [Lexeme.readNumber_text h hends (by rw [List.append_nil, heq]), heq]
  rcases h.number.sign with hsign | hsign
  · cases t with
    | nil => exact nomatch hstarts
    | cons c cs =>
      rw [hsign, List.nil_append] at ht
      obtain ⟨hblank, hslash⟩ := Formula.startsNumeral_only hstarts
      rw [ht]
      refine ofText_lexeme (by simp [GapState.next?, hblank, hslash]) ?_
      rw [Lexeme.read_number _ _ hstarts, hnumber ht]
  · rw [hsign, List.singleton_append] at ht
    rw [ht]
    refine ofText_lexeme (by simp [GapState.next?, Text.isBlank]) ?_
    rw [Lexeme.read_negative hstarts rfl, hnumber ht]

theorem ofText_name (hnext : GapState.outside.next? c cs = none)
    (hread : Lexeme.read none false c cs = Lexeme.readName (c :: cs)) (hfits : ∀ d ∈ c :: cs, isNameChar d = true) :
    ofText (c :: cs) = [⟨.ident, c :: cs, .start, false⟩, ⟨.eof, [], Position.start.after (c :: cs), false⟩] := by
  have hname := Lexeme.readName_ident (r := []) hfits startsWith_nil startsWith_nil
  rw [List.append_nil] at hname
  exact ofText_lexeme hnext (hread.trans hname)

end Token

namespace FourPlaces

variable {v : Float} {unit : Text}

theorem measure_of_finite (h : (fields v).isFinite = true) (hunit : unit = ['%'] ∨ ∀ c ∈ unit, c.isAlpha = true) :
    ∃ m : Measure, m.WellFormed ∧ m.text = render v ++ unit ∧ m.unit = unit :=
  ⟨⟨numeral v, unit⟩, ⟨numeral_wellFormed v, hunit⟩, by rw [Measure.text, render_of_finite h], rfl⟩

theorem kind_of_not_finite (h : (fields v).isFinite = false) (hunit : unit = ['%'] ∨ ∀ c ∈ unit, c.isAlpha = true) :
    ∀ t ∈ Token.ofText (render v ++ unit), t.kind ≠ .number := by
  rcases hunit with rfl | hunit
  · rcases render_of_not_finite h with hv | hv | hv <;> rw [hv] <;> decide +kernel
  · have hname : ∀ word : Text, word.all isNameChar = true → ∀ c ∈ word ++ unit, isNameChar c = true := by
      intro word hword
      refine List.forall_mem_append.mpr ⟨List.all_eq_true.mp hword, fun c hc => ?_⟩
      simp [isNameChar, isNameStart, hunit c hc]
    have hword : ∃ c cs, render v ++ unit = c :: cs ∧ Token.ofText (c :: cs) =
        [⟨.ident, c :: cs, .start, false⟩, ⟨.eof, [], Position.start.after (c :: cs), false⟩] := by
      rcases render_of_not_finite h with hv | hv | hv <;> rw [hv]
      · exact ⟨_, _, rfl, Token.ofText_name rfl (Lexeme.read_name rfl) (hname "NaN".toList rfl)⟩
      · exact ⟨_, _, rfl, Token.ofText_name rfl (Lexeme.read_name rfl) (hname "inf".toList rfl)⟩
      · have hread : Lexeme.read none false '-' ('i' :: 'n' :: 'f' :: unit) =
            Lexeme.readName ('-' :: 'i' :: 'n' :: 'f' :: unit) :=
          Lexeme.read_hyphenated (fun h => Bool.false_ne_true h.1) rfl
        exact ⟨_, _, rfl, Token.ofText_name rfl hread (hname "-inf".toList rfl)⟩
    obtain ⟨c, cs, htext, htokens⟩ := hword
    simp [htext, htokens]

end FourPlaces

/-- A number with a unit as it is read. If it still has a spelling, it is finite and spelled as it is. -/
structure Dimension.Legible (d : Dimension) : Prop where
  unit : d.unit = ['%'] ∨ ∀ c ∈ d.unit, c.isAlpha = true
  text : ∀ text ∈ d.text, Measure.parse? text = some (d.value, d.unit) ∧ (FourPlaces.fields d.value).isFinite = true

theorem Dimension.Legible.operate {op : Operator} {a b d : Dimension} (ha : a.Legible) (hb : b.Legible)
    (h : operate? op a b = some d) : d.Legible := by
  obtain ⟨htext, hunit⟩ := of_operate? h
  refine ⟨?_, by simp [htext]⟩
  rcases commonUnit_eq a b with hcommon | hcommon <;> rw [hunit, hcommon]
  · exact ha.unit
  · exact hb.unit

namespace Expr

/-- Arithmetic on finite numbers as they are written, and on variables that are bound to results of such arithmetic. -/
inductive OnLiterals : Lookup → Expr → Prop
  | number {lookup value unit text} (hread : Measure.parse? text = some (value, unit))
    (hfinite : (FourPlaces.fields value).isFinite = true) : OnLiterals lookup (.number value unit text)
  | reference {lookup name p bound e d} (h : OnLiterals bound e) (hd : e.evaluate bound = .ok (.dimension d))
    (hname : lookup name p = .ok (.dimension d)) : OnLiterals lookup (.reference name p)
  | negate {lookup operand} (h : OnLiterals lookup operand) : OnLiterals lookup (.negate operand)
  | binary {lookup lhs rhs} (op p) (hlhs : OnLiterals lookup lhs) (hrhs : OnLiterals lookup rhs) :
    OnLiterals lookup (.binary op lhs rhs p)

variable {lookup : Lookup} {e : Expr} {d : Dimension}

theorem OnLiterals.legible (h : OnLiterals lookup e) (hd : e.evaluate lookup = .ok (.dimension d)) : d.Legible := by
  induction h generalizing d with
  | number hread hfinite =>
    obtain rfl := Value.dimension.inj (Except.ok.inj hd)
    obtain ⟨m, hm, -, -, hunit⟩ := Measure.wellFormed_of_parse? hread
    refine ⟨hunit ▸ hm.unit, fun text htext => ?_⟩
    obtain rfl := Option.some.inj htext
    exact ⟨hread, hfinite⟩
  | reference _ hbound hname ih =>
    obtain rfl := Value.dimension.inj (Except.ok.inj (hname.symm.trans hd))
    exact ih hbound
  | negate _ ih =>
    obtain ⟨v, hv, heq⟩ := bind_eq_ok hd
    cases v with
    | dimension a =>
      obtain rfl := Value.dimension.inj (Except.ok.inj heq)
      exact ⟨(ih hv).unit, nofun⟩
    | keyword | list => exact nomatch heq
  | binary op p _ _ ihl ihr =>
    obtain ⟨v, hv, hd⟩ := bind_eq_ok hd
    obtain ⟨w, hw, hd⟩ := bind_eq_ok hd
    obtain ⟨a, b, d', rfl, rfl, heq, hresult⟩ := Value.operate_eq_ok hd
    obtain rfl := Value.dimension.inj heq
    exact (ihl hv).operate (ihr hw) hresult

/-- A result of arithmetic on finite numbers. If it is finite, its text is one number again, and this number has the
unit of the result. If it is not, its text holds no number. -/
theorem render_result (h : OnLiterals lookup e) (hd : e.evaluate lookup = .ok (.dimension d)) :
    ((FourPlaces.fields d.value).isFinite = true →
      Token.ofText d.render =
        [⟨.number, d.render, .start, false⟩, ⟨.eof, [], Position.start.after d.render, false⟩] ∧
      ∃ v, Measure.parse? d.render = some (v, d.unit)) ∧
    ((FourPlaces.fields d.value).isFinite = false → ∀ t ∈ Token.ofText d.render, t.kind ≠ .number) := by
  have hlegible := h.legible hd
  cases htext : d.text with
  | none =>
    have hrender : d.render = FourPlaces.render d.value ++ d.unit := by rw [Dimension.render, htext]; rfl
    rw [hrender]
    refine ⟨fun hfinite => ?_, fun hfinite => FourPlaces.kind_of_not_finite hfinite hlegible.unit⟩
    obtain ⟨m, hm, hmtext, hunit⟩ := FourPlaces.measure_of_finite hfinite hlegible.unit
    rw [← hmtext, ← hunit]
    exact ⟨Token.ofText_measure hm, _, hm.parse?⟩
  | some text =>
    have hrender : d.render = text := by rw [Dimension.render, htext]; rfl
    obtain ⟨hread, hfinite⟩ := hlegible.text text htext
    obtain ⟨m, hm, rfl, -, -⟩ := Measure.wellFormed_of_parse? hread
    rw [hrender]
    exact ⟨fun _ => ⟨Token.ofText_measure hm, _, hread⟩, fun hnot => nomatch hfinite.symm.trans hnot⟩

def negatedEighth : Expr :=
  .negate (.binary .multiply (.reference ['a'] ⟨1, 3⟩) (.number 0.125 [] ".125".toList) ⟨1, 6⟩)

/-- If `@a` is `3px - 2`, then `-(@a * .125)` is written as `-0.125px`. -/
theorem render_result_eighth :
    let bound : Expr := .binary .subtract (.number 3 "px".toList "3px".toList) (.number 2 [] ['2']) ⟨1, 5⟩
    let lookup : Lookup := fun _ _ => bound.evaluate threePixels
    OnLiterals lookup negatedEighth ∧ ∃ d, negatedEighth.evaluate lookup = .ok (.dimension d) ∧
      d.render = "-0.125px".toList ∧
      Token.ofText d.render = [⟨.number, d.render, .start, false⟩, ⟨.eof, [], ⟨1, 9⟩, false⟩] ∧
      ∃ v, Measure.parse? d.render = some (v, d.unit) := by
  intro bound lookup
  have hbound : OnLiterals threePixels bound :=
    .binary _ _ (.number rfl (by decide +kernel)) (.number rfl (by decide +kernel))
  have hliterals : OnLiterals lookup negatedEighth :=
    .negate (.binary _ _ (.reference hbound rfl rfl) (.number rfl (by decide +kernel)))
  let d : Dimension := ⟨-((3 - 2) * 0.125), "px".toList, none⟩
  have hrender : d.render = "-0.125px".toList := by decide +kernel
  obtain ⟨htokens, hunit⟩ := (render_result (d := d) hliterals rfl).1 (by decide +kernel)
  refine ⟨hliterals, d, rfl, hrender, ?_, hunit⟩
  rw [htokens, hrender]
  rfl

/-- The product of two finite numbers that is not finite is written as a name. -/
theorem overflow_name :
    let product : Expr :=
      .binary .multiply (.number 1e308 "px".toList "1e308px".toList) (.number 10 [] "10".toList) ⟨1, 9⟩
    OnLiterals threePixels product ∧ ∃ d, product.evaluate threePixels = .ok (.dimension d) ∧
      (Token.ofText d.render).map (fun t => (t.kind, t.text)) = [(.ident, "infpx".toList), (.eof, [])] := by
  intro product
  have hliterals : OnLiterals threePixels product :=
    .binary _ _ (.number rfl (by decide +kernel)) (.number rfl (by decide +kernel))
  exact ⟨hliterals, ⟨1e308 * 10, "px".toList, none⟩, rfl, by decide +kernel⟩

end Expr
end LessCss
