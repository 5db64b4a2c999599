import LessCss.Proofs.Token.Printed
/-!
Runs of tokens of a text, written one after the other with one space in the place of each gap.

What is written of a run is read as the run again, whatever was around it, if a boundary follows and none of its
tokens is unterminated (`spell_flat`). The induction is on the run: what is written of the tokens that are left looks,
from in front, as the text that they are read from (`ahead_flat`), so the lexeme in front is read again.
-/
namespace LessCss

open Lexeme (mayBeSign)

theorem Lexeme.mayBeSign_none (s : Bool) : mayBeSign none s = true := Bool.or_true s

/-- A lexeme is the same wherever a minus in front would be a sign, unless it is a minus that is none. -/
theorem Lexeme.read_elsewhere {b b' : Option Token.Kind} {s s' : Bool} {c : Char} {cs : Text}
    (h : (read b s c cs).kind = .operator → (read b s c cs).text = ['-'] → mayBeSign b s = true)
    (h' : mayBeSign b' s' = true) :
    read b' s' c cs = read b s c cs := by
  cases hs : mayBeSign b s with
  | true => simp [read, h', hs]
  | false =>
    by_cases hc : c = '-' ∧ startsNumeral cs = true
    · obtain ⟨rfl, hcs⟩ := hc
      have hstart : startsWith (fun d => isNameStart d || d == '-') cs = false := by
        cases cs with
        | nil => rfl
        | cons d ds =>
          rw [startsWith_cons]
          simp only [startsNumeral, Bool.or_eq_true, Bool.and_eq_true, beq_iff_eq, isDigit_iff] at hcs
          rw [← Bool.not_eq_true, Bool.or_eq_true, isNameStart_iff, beq_iff_eq]
          simp only [eq_iff_toNat, Char.reduceToNat] at hcs ⊢
          omega
      have hread : read b s '-' cs = ⟨.operator, ['-'], cs⟩ :=
        read_single (by decide) (by decide) (by decide) (by simp [startsNumeral]) (by simp [hs]) (by simp [hstart])
          (by decide)
      have hsign := h (by rw [hread]) (by rw [hread])
      rw [hs] at hsign
      contradiction
    · have hnot : ∀ m : Bool, ¬(c = '-' ∧ startsNumeral cs = true ∧ m = true) := fun m hm => hc ⟨hm.1, hm.2.1⟩
      simp only [read, if_neg (hnot _)]

namespace Token

variable {b : Option Kind} {s : Bool} {t r : Text} {u : Token} {us vs : List Token}

def eof : Token := token .eof false []

/-- Every text is read as a run of tokens and its end. -/
theorem exists_spell_eof (b : Option Kind) (s : Bool) (t : Text) :
    ∃ ts, spell b s t = ts ++ [eof] ∧ ∀ u ∈ ts, u.kind ≠ .eof := by
  induction hn : t.length using Nat.strongRecOn generalizing b s t with
  | ind n ih =>
    subst hn
    cases h : (gap .outside t).rest with
    | nil => exact ⟨[], spell_nil h, nofun⟩
    | cons c cs =>
      rw [spell_cons h]
      dsimp only
      generalize (s || !(gap .outside t).taken.isEmpty) = spaced
      obtain ⟨ts, hts, hkind⟩ := ih _ (rest_length_lt h b spaced) (some (Lexeme.read b spaced c cs).kind) false _ rfl
      rw [hts]
      refine ⟨_ :: ts, rfl, List.forall_mem_cons.mpr ⟨?_, hkind⟩⟩
      exact Lexeme.read_kind_ne_eof b spaced c cs

/-- What is before a text only shows in its first token. -/
theorem spell_none (s s' : Bool) (t : Text) :
    ∃ u us r, spell none s t = u :: us ∧ spell none s' t = u.respaced r :: us := by
  cases h : (gap .outside t).rest with
  | nil => exact ⟨_, _, false, spell_nil h, spell_nil h⟩
  | cons c cs =>
    have hread : Lexeme.read none (s' || !(gap .outside t).taken.isEmpty) c cs =
        Lexeme.read none (s || !(gap .outside t).taken.isEmpty) c cs :=
      Lexeme.read_elsewhere (fun _ _ => Lexeme.mayBeSign_none _) (Lexeme.mayBeSign_none _)
    rw [spell_cons h, spell_cons h]
    dsimp only
    rw [hread]
    exact ⟨_, _, s' || !(gap .outside t).taken.isEmpty, rfl, rfl⟩

/-- A run that does not hold the end of the text is not all of it. -/
theorem rest_ne_nil (h : spell b s t = us ++ vs) (hus : ∀ u ∈ us, u.kind ≠ .eof) : vs ≠ [] := by
  rintro rfl
  obtain ⟨ts, hts, -⟩ := exists_spell_eof b s t
  rw [hts, List.append_nil] at h
  exact hus eof (by simp [← h]) rfl

/-- How a text begins that is read as several tokens. -/
theorem exists_lexeme (h : spell b s t = u :: us) (hne : us ≠ []) :
    ∃ c cs, (gap .outside t).rest = c :: cs ∧ u.spaced = (s || !(gap .outside t).taken.isEmpty) ∧
      u.position = .start ∧ (Lexeme.read b u.spaced c cs).kind = u.kind ∧
      (Lexeme.read b u.spaced c cs).text = u.text ∧
      spell (some u.kind) false (Lexeme.read b u.spaced c cs).rest = us := by
  cases hg : (gap .outside t).rest with
  | nil =>
    rw [spell_nil hg] at h
    obtain ⟨-, rfl⟩ := List.cons.inj h
    exact absurd rfl hne
  | cons c cs =>
    rw [spell_cons hg] at h
    dsimp only at h
    obtain ⟨rfl, rfl⟩ := List.cons.inj h
    exact ⟨c, cs, rfl, rfl, rfl, rfl, rfl, rfl⟩

/-- What is left of a row of tokens is read from what is left of the text. -/
theorem exists_spell_of_suffix (h : us <:+ spell b s t) (hne : us ≠ []) : ∃ b' s' t', spell b' s' t' = us := by
  obtain ⟨pre, hpre⟩ := h
  induction pre generalizing b s t with
  | nil => exact ⟨b, s, t, hpre.symm⟩
  | cons u pre ih =>
    obtain ⟨c, cs, -, -, -, -, -, hrest⟩ := exists_lexeme hpre.symm (by simp [hne])
    exact ih hrest.symm

theorem isLexeme_of_mem_spell (h : u ∈ spell b s t) (hk : u.kind ≠ .eof) : u.IsLexeme := by
  obtain ⟨v, hv, rfl⟩ := List.mem_map.mp h
  have hlexeme : v.IsLexeme := isLexeme_of_mem hv hk
  exact hlexeme

/-- The text of tokens, each gap a space. -/
def flat (ts : List Token) : Text := ts.flatMap fun t => t.piece.text

theorem piece_text (t : Token) : t.piece.text = space t.spaced ++ t.text := by
  cases h : t.spaced <;> simp [piece, Piece.text, space, h]

theorem flat_append (ts us : List Token) : flat (ts ++ us) = flat ts ++ flat us := by
  simp [flat]

theorem flat_cons (t : Token) (ts : List Token) : flat (t :: ts) = space t.spaced ++ (t.text ++ flat ts) := by
  rw [flat, List.flatMap_cons, piece_text, List.append_assoc]
  rfl

/-- What is written of a run looks from in front as the text that it is read from. -/
theorem ahead_flat (h : spell b false t = us ++ vs) (hvs : vs ≠ []) (hr : Bounded r) : Ahead t (flat us ++ r) := by
  induction us generalizing b t with
  | nil => exact .of_bounded hr t
  | cons u us ih =>
    obtain ⟨c, cs, hgap, hspaced, -, -, htext, hrest⟩ := exists_lexeme h (by simp [hvs])
    rw [flat_cons]
    cases hs : u.spaced with
    | true => exact .of_bounded (.cons (by decide) _) t
    | false =>
      have ht : t = c :: cs := by
        have hcut := gap_append .outside t
        have htaken : (gap .outside t).taken = [] := by simpa [hs] using hspaced
        rw [htaken, hgap] at hcut
        exact hcut.symm
      have hahead := (ih hrest).append u.text
      have hread := Lexeme.read_append b u.spaced c cs
      rw [htext, ← ht] at hread
      rw [hread] at hahead
      simpa [space] using hahead

/-- The lexeme in front of a run is the lexeme in front of what is written of it. -/
theorem read_flat (h : spell b s t = u :: (us ++ vs)) (hvs : vs ≠ []) (hu : u.kind ≠ .unterminated) (hr : Bounded r) :
    ∃ c cs, u.text ++ (flat us ++ r) = c :: cs ∧ GapState.outside.next? c cs = none ∧
      Lexeme.read b u.spaced c cs = ⟨u.kind, u.text, flat us ++ r⟩ := by
  obtain ⟨c, cs, hgap, -, -, hkind, htext, hrest⟩ := exists_lexeme h (by simp [hvs])
  have hahead := ahead_flat hrest hvs hr
  have hread := Lexeme.read_append b u.spaced c cs
  have hne := Lexeme.read_text_ne_nil b u.spaced c cs
  have hcs : Ahead cs (u.text.tail ++ (flat us ++ r)) := by
    have htail := Lexeme.tail_text hread hne (Lexeme.read b u.spaced c cs).rest
    rw [hread, List.cons.injEq] at htail
    have happend := hahead.append (Lexeme.read b u.spaced c cs).text.tail
    rwa [← htail.2, htext] at happend
  refine ⟨c, u.text.tail ++ (flat us ++ r), ?_, GapState.next?_ahead hcs (next?_of_gap hgap), ?_⟩
  · rw [← htext]
    exact Lexeme.tail_text hread hne _
  · have hagain := Lexeme.read_ahead (hkind ▸ hu) hahead
    rw [htext] at hagain
    rw [hagain, Lexeme.mk.injEq]
    exact ⟨hkind, htext, rfl⟩

theorem spell_flat (h : spell b s t = us ++ vs) (hvs : vs ≠ []) (hus : ∀ u ∈ us, u.kind ≠ .unterminated)
    (hr : Bounded r) : ∃ b', spell b false (flat us ++ r) = us ++ spell b' false r := by
  induction us generalizing b s t with
  | nil => exact ⟨b, rfl⟩
  | cons u us ih =>
    simp only [List.forall_mem_cons] at hus
    obtain ⟨_, _, -, -, hposition, -, -, hrest⟩ := exists_lexeme h (by simp [hvs])
    obtain ⟨c, cs, htext, hnext, hread⟩ := read_flat h hvs hus.1 hr
    obtain ⟨b', hspell⟩ := ih hrest hus.2
    refine ⟨b', ?_⟩
    rw [flat_cons, List.append_assoc, List.append_assoc, spell_space, htext, spell_lexeme hnext, hread]
    dsimp only
    rw [hspell, ← hposition]
    rfl

/-- The text of a run without what is before its first token. -/
def words : List Token → Text
  | [] => []
  | t :: ts => t.text ++ flat ts

theorem join_eq_words {ts : List Token} (h : ∀ t ∈ ts.head?, t.text ≠ []) : join ts = words ts := by
  cases ts with
  | nil => rfl
  | cons t ts =>
    have hdrop : ((t :: ts).map piece).dropWhile (·.2.isEmpty) = t.piece :: ts.map piece :=
      List.dropWhile_cons_of_neg (by simpa [piece] using h t rfl)
    rw [join, joinPieces, hdrop, words, flat]
    simp [piece, List.flatMap_map]

theorem mem_flat {c : Char} (hc : c ≠ ' ') : c ∈ flat us ↔ ∃ u ∈ us, c ∈ u.text := by
  have hspace : ∀ gap, c ∉ space gap := by
    rintro (_ | _) <;> simp [space, hc]
  simp [flat, piece_text, hspace]

theorem mem_words {c : Char} (hc : c ≠ ' ') : c ∈ words us ↔ ∃ u ∈ us, c ∈ u.text := by
  cases us with
  | nil => simp [words]
  | cons u us => simp [words, mem_flat hc]

theorem text_infix_flat (hu : u ∈ us) : u.text <:+: flat us := by
  obtain ⟨before, after, rfl⟩ := List.append_of_mem hu
  rw [flat_append, flat_cons]
  exact ⟨flat before ++ space u.spaced, flat after, by simp⟩

theorem text_infix_words (hu : u ∈ us) : u.text <:+: words us := by
  cases us with
  | nil => exact nomatch hu
  | cons v us =>
    rcases List.mem_cons.mp hu with rfl | hu
    · exact (List.prefix_append _ _).isInfix
    · exact (text_infix_flat hu).trans (List.suffix_append _ _).isInfix

theorem text_ne_nil_of_spell (h : spell b s t = us ++ vs) (hvs : vs ≠ []) : ∀ u ∈ us, u.text ≠ [] := by
  induction us generalizing b s t with
  | nil => exact nofun
  | cons u us ih =>
    obtain ⟨c, cs, -, -, -, -, htext, hrest⟩ := exists_lexeme h (by simp [hvs])
    exact List.forall_mem_cons.mpr ⟨htext ▸ Lexeme.read_text_ne_nil b u.spaced c cs, ih hrest⟩

/-- A run is read from its text wherever a minus in front would be a sign. -/
theorem readAs_words (h : spell b s t = u :: (us ++ vs)) (hvs : vs ≠ []) (hus : ∀ x ∈ u :: us, x.kind ≠ .unterminated)
    (hu : u.kind = .operator → u.text = ['-'] → mayBeSign b u.spaced = true) :
    ReadAs (words (u :: us)) fun s => token u.kind s u.text :: us := by
  intro b' s' r hsign hr
  simp only [List.forall_mem_cons] at hus
  obtain ⟨_, _, -, -, -, -, -, hrest⟩ := exists_lexeme h (by simp [hvs])
  obtain ⟨c, cs, htext, hnext, hread⟩ := read_flat h hvs hus.1 hr
  obtain ⟨b₁, hspell⟩ := spell_flat hrest hvs hus.2 hr
  refine ⟨b₁, ?_⟩
  have helsewhere : Lexeme.read b' s' c cs = Lexeme.read b u.spaced c cs :=
    Lexeme.read_elsewhere (by rw [hread]; exact hu) hsign
  rw [words, List.append_assoc, htext, spell_lexeme hnext, helsewhere, hread]
  dsimp only
  rw [hspell]
  rfl

end Token
end LessCss
