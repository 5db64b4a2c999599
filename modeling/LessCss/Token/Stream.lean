import LessCss.Token.Lexeme
/-!
The tokens of a source text.

Reading never fails: every text is a row of gaps and lexemes, ended by one token of kind `eof`. Gaps and
lexemes split the text (`gap_append`, `Lexeme.read_append`) and a lexeme takes its first character
(`Lexeme.read_head?`), so what is left to read gets shorter.
-/
namespace LessCss

/-- A gap and what follows it make up the text. -/
theorem gap_append (s : GapState) (t : Text) : (gap s t).taken ++ (gap s t).rest = t := by
  fun_induction gap s t <;> simp_all [Cut.push]

namespace Lexeme

theorem readString_append (q : Char) (t : Text) : (readString q t).text ++ (readString q t).rest = t := by
  fun_induction readString q t <;> simp_all [push]

theorem readUrl_append (q : Option Char) (t : Text) : (readUrl q t).text ++ (readUrl q t).rest = t := by
  fun_induction readUrl q t <;> simp_all [push]

theorem readName_append (t : Text) : (readName t).text ++ (readName t).rest = t := by
  have h := List.takeWhile_append_dropWhile (p := isNameChar) (l := t)
  simp only [readName]
  split
  · simp_all
  · next c cs hr =>
    rw [hr] at h
    split
    · next hc =>
      split
      · simp [readUrl_append, h]
      · simpa using h
    · exact h

theorem readSigned_append (k : Token.Kind) (c : Char) (t : Text) :
    (readSigned k c t).text ++ (readSigned k c t).rest = c :: t := by
  simp only [readSigned]
  split <;> simp

theorem readNumber_append (c : Char) (cs : Text) :
    (readNumber c cs).text ++ (readNumber c cs).rest = c :: cs := by
  simp only [readNumber]
  split
  · next h => exact Measure.read?_append h
  · rfl

/-- A lexeme and what follows it make up the text. -/
theorem read_append (b : Option Token.Kind) (s : Bool) (c : Char) (cs : Text) :
    (read b s c cs).text ++ (read b s c cs).rest = c :: cs := by
  fun_cases read b s c cs <;>
    simp [push, readString_append, readSigned_append, readNumber_append, readName_append]

theorem readName_text_ne_nil {c : Char} (h : isNameChar c) (cs : Text) : (readName (c :: cs)).text ≠ [] := by
  simp only [readName, List.takeWhile_cons_of_pos h]
  split
  · simp
  · split
    · split <;> simp
    · simp

theorem read_text_ne_nil (b : Option Token.Kind) (s : Bool) (c : Char) (cs : Text) :
    (read b s c cs).text ≠ [] := by
  have hnumber : (readNumber c cs).text ≠ [] := by
    simp only [readNumber]
    split
    · next h => exact Measure.text_ne_nil_of_read? h
    · simp
  fun_cases read b s c cs
  · simp [push]
  · simp only [readSigned]; split <;> simp
  · simp only [readSigned]; split <;> simp
  · exact hnumber
  · exact hnumber
  · next h => exact readName_text_ne_nil (by simp [isNameChar, h.1]) cs
  · next h => exact readName_text_ne_nil (by simp [isNameChar, h]) cs
  · simp

/-- Every lexeme leaves less to read. -/
theorem read_rest_length (b : Option Token.Kind) (s : Bool) (c : Char) (cs : Text) :
    (read b s c cs).rest.length < (c :: cs).length := by
  have h := congrArg List.length (read_append b s c cs)
  have hne := List.length_pos_iff.2 (read_text_ne_nil b s c cs)
  simp only [List.length_append] at h
  omega

end Lexeme

namespace Token

/-- The tokens of a text that begins at `p`, after a token of kind `before` if there is one. -/
def stream (before : Option Kind) (p : Position) (t : Text) : List Token :=
  let g := gap .outside t
  let here := p.after g.taken
  let spaced := !g.taken.isEmpty
  match _h : g.rest with
  | [] => [⟨.eof, [], here, spaced⟩]
  | c :: cs =>
    let l := Lexeme.read before spaced c cs
    ⟨l.kind, l.text, here, spaced⟩ :: stream (some l.kind) (here.after l.text) l.rest
termination_by t.length
decreasing_by
  have hr : l.rest.length < (c :: cs).length := Lexeme.read_rest_length before spaced c cs
  have hg : (g.taken ++ g.rest).length = t.length := congrArg List.length (gap_append .outside t)
  rw [List.length_append, _h] at hg
  show l.rest.length < t.length
  omega

/-- The tokens of a source text, the last of which is of kind `eof`. -/
def ofText (t : Text) : List Token := stream none .start t

end Token
end LessCss
