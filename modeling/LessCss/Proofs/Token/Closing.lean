import LessCss.Proofs.Token.Runs
/-!
A text that ends with a parenthesis, and what comes after it.

No lexeme reaches beyond a parenthesis that is a token of its own: the gaps and lexemes before it are the same in a
longer text (`gap_before`, `Lexeme.read_before`). So the tokens of a text that ends with such a token go on with those
of what comes after it (`Token.spell_after_close`), if that does not begin with a digit.
-/
namespace LessCss

theorem GapState.outside_of_next? {s : GapState} {c : Char} {cs : Text} (h : s.next? c cs = none) : s = .outside := by
  cases s with
  | outside => rfl
  | lineComment | blockComment =>
    simp only [next?] at h
    split at h <;> cases h
  | starred | closing => cases h

theorem GapState.next?_append (s : GapState) (c : Char) {cs : Text} (h : cs ≠ []) (r : Text) :
    s.next? c (cs ++ r) = s.next? c cs := by
  cases cs with
  | nil => exact absurd rfl h
  | cons d ds => rfl

/-- A gap that ends within a text ends there in a longer text too, unless a comment begins with what comes then. -/
theorem gap_before {s : GapState} {t cs : Text} {c : Char} (h : (gap s t).rest = c :: cs) {r : Text}
    (hr : GapState.outside.next? c (cs ++ r) = none) : gap s (t ++ r) = ⟨(gap s t).taken, (gap s t).rest ++ r⟩ := by
  fun_induction gap s t with
  | case1 => cases h
  | case2 s d ds hn =>
    obtain ⟨rfl, rfl⟩ := List.cons.inj h
    rw [List.cons_append, gap, GapState.outside_of_next? hn, hr]
  | case3 s d ds s' hn ih =>
    have hne : ds ≠ [] := by
      rintro rfl
      cases h
    rw [List.cons_append, gap, GapState.next?_append s d hne, hn]
    dsimp only
    rw [ih h]
    rfl

namespace Lexeme

/-- A string that ends within a text ends there in a longer text too, even if only a newline ends it. -/
theorem readString_before {q : Char} {t : Text} (h : (readString q t).rest ≠ []) (r : Text) :
    readString q (t ++ r) = { readString q t with rest := (readString q t).rest ++ r } := by
  fun_induction readString q t with
  | case1 | case4 => exact absurd rfl h
  | case2 cs =>
    rw [List.cons_append, readString.eq_def]
    simp
  | case3 cs hn => exact readString_quote hn _
  | case5 d ds hn hq ih =>
    rw [List.cons_append, List.cons_append, readString, if_neg hn, if_neg hq, if_pos rfl]
    dsimp only
    rw [ih h]
    rfl
  | case6 c cs hn hq hb ih =>
    rw [List.cons_append, readString_plain hn hq hb, ih h]
    rfl

/-- A lexeme that ends within a text is the same in a longer text that goes on like it. -/
theorem read_before {b : Option Token.Kind} {s : Bool} {c : Char} {cs r : Text} (h : (read b s c cs).rest ≠ [])
    (hr : Ahead (read b s c cs).rest ((read b s c cs).rest ++ r)) :
    read b s c (cs ++ r) = { read b s c cs with rest := (read b s c cs).rest ++ r } := by
  by_cases hk : (read b s c cs).kind = .unterminated
  · obtain ⟨hquote, -⟩ := (read_unterminated hk).resolve_right h
    rw [read_quote hquote] at h ⊢
    rw [read_quote hquote, readString_before h r]
    rfl
  · have hsplit := read_append b s c cs
    have htail := tail_text hsplit (read_text_ne_nil b s c cs) (read b s c cs).rest
    rw [hsplit, List.cons.injEq] at htail
    have hread := read_ahead hk hr
    rw [← List.append_assoc, ← htail.2] at hread
    exact hread

end Lexeme

namespace Token

theorem ahead_close {r : Text} (hr : startsWith Char.isDigit r = false) (v : Text) :
    Ahead (v ++ [')']) (v ++ [')'] ++ r) := by
  have hclose : Ahead [')'] (')' :: r) := by
    intro d u heq _
    obtain ⟨rfl, rfl⟩ := List.cons.inj heq
    refine ⟨[], rfl, fun hdigit => ?_⟩
    rw [hr] at hdigit
    exact hdigit
  rw [List.append_assoc]
  exact hclose.append v

theorem stream_ne_nil (b : Option Kind) (p : Position) (t : Text) : stream b p t ≠ [] := by
  cases hg : (gap .outside t).rest with
  | nil =>
    rw [stream_nil hg]
    exact List.cons_ne_nil _ _
  | cons c cs =>
    rw [stream_cons hg]
    exact List.cons_ne_nil _ _

theorem nil_of_stream {b : Option Kind} {p : Position} {t : Text} {stop : Token} (h : stream b p t = [stop])
    (hstop : stop.spaced = false) : t = [] := by
  have hsplit := gap_append .outside t
  cases hg : (gap .outside t).rest with
  | nil =>
    rw [stream_nil hg, List.singleton_inj] at h
    rw [← h, Bool.not_eq_false', List.isEmpty_iff] at hstop
    rw [← hsplit, hg, hstop]
    rfl
  | cons c cs =>
    rw [stream_cons hg] at h
    exact absurd (List.cons.inj h).2 (stream_ne_nil _ _ _)

/-- The first token of a text is that of a longer text too, if something is left after it that goes on in the same way. -/
theorem spell_longer {b : Option Kind} {t cs r : Text} {c : Char} {spaced : Bool} {l : Lexeme}
    (hg : (gap .outside t).rest = c :: cs) (hspaced : (!(gap .outside t).taken.isEmpty) = spaced)
    (hl : Lexeme.read b spaced c cs = l) (hne : l.rest ≠ []) (hr : Ahead l.rest (l.rest ++ r)) :
    spell b false (t ++ r) = ⟨l.kind, l.text, .start, spaced⟩ :: spell (some l.kind) false (l.rest ++ r) := by
  have hcs : cs ≠ [] := by
    rintro rfl
    have hlength := Lexeme.read_rest_length b spaced c []
    rw [hl] at hlength
    exact hne (List.length_eq_zero_iff.mp (Nat.lt_one_iff.mp hlength))
  have hread : Lexeme.read b spaced c (cs ++ r) = { l with rest := l.rest ++ r } := by
    rw [← hl] at hne hr ⊢
    exact Lexeme.read_before hne hr
  have hgap : gap .outside (t ++ r) = ⟨(gap .outside t).taken, c :: (cs ++ r)⟩ := by
    have hnext : GapState.outside.next? c (cs ++ r) = none := by
      rw [GapState.next?_append _ _ hcs]
      exact next?_of_gap hg
    rw [gap_before hg hnext, hg]
    rfl
  have hrest : (gap .outside (t ++ r)).rest = c :: (cs ++ r) := by rw [hgap]
  rw [spell_cons hrest, hgap]
  dsimp only
  rw [Bool.false_or, hspaced, hread]

theorem spell_rparen {b : Option Kind} {t : Text} (hg : (gap .outside t).rest = [')']) (r : Text) :
    spell b false (t ++ r) = ⟨.rparen, [')'], .start, !(gap .outside t).taken.isEmpty⟩ :: spell (some .rparen) false r := by
  have hgap : gap .outside (t ++ r) = ⟨(gap .outside t).taken, ')' :: r⟩ := by
    rw [gap_before hg (by simp [GapState.next?, Text.isBlank]), hg]
    rfl
  have hread : Lexeme.read b (!(gap .outside t).taken.isEmpty) ')' r = ⟨.rparen, [')'], r⟩ :=
    Lexeme.read_single (by simp) (by simp) (by simp) (by simp [Lexeme.startsNumeral]) (by simp) (by simp) (by decide)
  have hrest : (gap .outside (t ++ r)).rest = ')' :: r := by rw [hgap]
  rw [spell_cons hrest, hgap]
  dsimp only
  rw [Bool.false_or, hread]

theorem rparen_of_stream {b : Option Kind} {c : Char} {cs : Text} {spaced : Bool} {l : Lexeme} {p : Position}
    {close stop : Token} (hl : Lexeme.read b spaced c cs = l) (hk : close.kind = l.kind) (ht : close.text = l.text)
    (hclose : close.kind = .rparen) (hrest : stream (some l.kind) p l.rest = [stop]) (hstop : stop.spaced = false) :
    c = ')' ∧ cs = [] ∧ l = ⟨.rparen, [')'], []⟩ := by
  have hlexeme : IsLexeme close := ⟨b, spaced, c, cs, by rw [hl, hk], by rw [hl, ht]⟩
  have htext : l.text = [')'] := by rw [← hlexeme.rparen hclose, ht]
  have hend : l.rest = [] := nil_of_stream hrest hstop
  have hread : l.text ++ l.rest = c :: cs := hl ▸ Lexeme.read_append b spaced c cs
  rw [htext, hend] at hread
  obtain ⟨rfl, rfl⟩ := List.cons.inj hread
  refine ⟨rfl, rfl, ?_⟩
  rw [← htext, ← hend, ← hclose, hk]

/-- The tokens of a text that ends with a parenthesis go on with those of what comes after it. -/
theorem spell_after_close {b : Option Kind} {p : Position} {t : Text} {ts : List Token} {close stop : Token}
    (h : stream b p t = ts ++ [close, stop]) (hclose : close.kind = .rparen) (hstop : stop.spaced = false)
    {r : Text} (hr : startsWith Char.isDigit r = false) : (∃ v, t = v ++ [')']) ∧
      ∃ us, spell b false t = us ++ [eof] ∧ spell b false (t ++ r) = us ++ spell (some .rparen) false r := by
  induction hn : t.length using Nat.strongRecOn generalizing b p t ts with
  | ind n ih =>
    subst hn
    cases hg : (gap .outside t).rest with
    | nil =>
      rw [stream_nil hg] at h
      have hlength := congrArg List.length h
      simp at hlength
    | cons c cs =>
      have hsplit := gap_append .outside t
      rw [hg] at hsplit
      generalize hspaced : (!(gap .outside t).taken.isEmpty) = spaced
      generalize hl : Lexeme.read b spaced c cs = l
      have hspell : spell b false t = ⟨l.kind, l.text, .start, spaced⟩ :: spell (some l.kind) false l.rest := by
        rw [spell_cons hg]
        dsimp only
        rw [Bool.false_or, hspaced, hl]
      rw [stream_cons hg] at h
      dsimp only at h
      rw [hspaced, hl] at h
      cases ts with
      | nil =>
        obtain ⟨htoken, hrest⟩ := List.cons.inj h
        obtain ⟨rfl, rfl, rfl⟩ := rparen_of_stream hl (htoken ▸ rfl) (htoken ▸ rfl) hclose hrest hstop
        refine ⟨⟨_, hsplit.symm⟩, [⟨.rparen, [')'], .start, spaced⟩], ?_, ?_⟩
        · rw [hspell, spell_nil rfl]
          rfl
        · rw [spell_rparen hg, hspaced]
          rfl
      | cons u ts =>
        obtain ⟨-, hrest⟩ := List.cons.inj h
        have hlt : l.rest.length < t.length := hl ▸ rest_length_lt hg b spaced
        obtain ⟨⟨v, hv⟩, us, hus, hlonger⟩ := ih _ hlt hrest rfl
        have hread : l.text ++ l.rest = c :: cs := hl ▸ Lexeme.read_append b spaced c cs
        refine ⟨⟨(gap .outside t).taken ++ (l.text ++ v), ?_⟩, ⟨l.kind, l.text, .start, spaced⟩ :: us, ?_, ?_⟩
        · rw [List.append_assoc, List.append_assoc, ← hv, hread, hsplit]
        · rw [hspell, hus]
          rfl
        · rw [spell_longer hg hspaced hl (by simp [hv]) (hv ▸ ahead_close hr v), hlonger]
          rfl

end Token
end LessCss
