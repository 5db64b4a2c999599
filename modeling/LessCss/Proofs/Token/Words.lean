import LessCss.Proofs.Token.Blanks
import Mathlib.Data.List.Chain
/-!
The words of a text.

A word is a maximal run of characters that are not blank. `HasWords` says of a text which words it has, and `words`
finds them (`hasWords_iff`). To collapse a text is to write its words with one space between neighbours
(`collapse_words`).
-/
namespace LessCss.Text

/-- The parts of a text between its blanks, without the empty ones. -/
def words (t : Text) : List Text := (t.splitOnP isBlank).filter (!·.isEmpty)

def IsBlanks (t : Text) : Prop := ∀ c ∈ t, isBlank c = true

structure IsWord (w : Text) : Prop where
  ne_nil : w ≠ []
  plain : ∀ c ∈ w, isBlank c = false

/-- A text with the words `ws` in their order. No word can be made longer: what stands before it and after it is blank
or an end of the text. -/
inductive HasWords : Text → List Text → Prop
  | blanks {t : Text} (h : IsBlanks t) : HasWords t []
  | word (gap w rest : Text) {ws : List Text} (hgap : IsBlanks gap) (hw : IsWord w)
      (hends : ∀ c ∈ rest.head?, isBlank c = true) (hrest : HasWords rest ws) : HasWords (gap ++ w ++ rest) (w :: ws)

/-- A text with no blank at its ends, no blank other than a space and no two of them in a row. -/
structure Tight (t : Text) : Prop where
  first : ∀ c ∈ t.head?, isBlank c = false
  last : ∀ c ∈ t.getLast?, isBlank c = false
  spaces : ∀ c ∈ t, isBlank c = true → c = ' '
  single : t.IsChain fun c d => isBlank c = true → isBlank d = false

variable {c : Char} {t gap w rest : Text} {ws : List Text}

theorem words_blank (hc : isBlank c = true) (t : Text) : words (c :: t) = words t := by
  rw [words, List.splitOnP_cons_eq_if_modifyHead, if_pos hc, List.filter_cons_of_neg (by simp)]
  rfl

theorem words_blanks (hgap : IsBlanks gap) (t : Text) : words (gap ++ t) = words t := by
  induction gap with
  | nil => rfl
  | cons c gap ih =>
    rw [IsBlanks, List.forall_mem_cons] at hgap
    rw [List.cons_append, words_blank hgap.1]
    exact ih hgap.2

theorem IsWord.words (hw : IsWord w) : words w = [w] := by
  rw [Text.words, List.splitOnP_eq_singleton hw.plain, List.filter_cons_of_pos (by simpa using hw.ne_nil)]
  rfl

theorem words_word (hw : IsWord w) (hends : ∀ c ∈ rest.head?, isBlank c = true) :
    words (w ++ rest) = w :: words rest := by
  cases rest with
  | nil =>
    rw [List.append_nil, hw.words]
    rfl
  | cons c rest =>
    have hc : isBlank c = true := hends c rfl
    rw [words_blank hc, words, List.splitOnP_append_cons w rest hc, List.filter_append]
    exact congrArg (· ++ words rest) hw.words

theorem HasWords.words_eq (h : t.HasWords ws) : words t = ws := by
  induction h with
  | @blanks t h =>
    have hwords := words_blanks h []
    rwa [List.append_nil] at hwords
  | word gap w rest hgap hw hends _ ih => rw [List.append_assoc, words_blanks hgap, words_word hw hends, ih]

theorem HasWords.cons_blank (hc : isBlank c = true) (h : t.HasWords ws) : HasWords (c :: t) ws := by
  cases h with
  | blanks h => exact .blanks (List.forall_mem_cons.mpr ⟨hc, h⟩)
  | word gap w rest hgap hw hends hrest =>
    exact .word (c :: gap) w rest (List.forall_mem_cons.mpr ⟨hc, hgap⟩) hw hends hrest

/-- A character that is not blank begins the first word, or it is a word of its own before a gap. -/
theorem HasWords.cons_plain (hc : isBlank c = false) (h : t.HasWords ws) : ∃ ws', HasWords (c :: t) ws' := by
  have hword : IsWord [c] := ⟨List.cons_ne_nil c [], List.forall_mem_singleton.mpr hc⟩
  have hnone : IsBlanks [] := List.forall_mem_nil _
  cases h with
  | blanks h =>
    have hends : ∀ d ∈ t.head?, isBlank d = true := fun d hd => h d (List.mem_of_mem_head? hd)
    exact ⟨_, .word [] [c] t hnone hword hends (.blanks h)⟩
  | word gap w rest hgap hw hends hrest =>
    -- without a gap the first word goes on with it, and would not be maximal on its own
    cases gap with
    | nil =>
      have hlonger : IsWord (c :: w) := ⟨List.cons_ne_nil c w, List.forall_mem_cons.mpr ⟨hc, hw.plain⟩⟩
      exact ⟨_, .word [] (c :: w) rest hnone hlonger hends hrest⟩
    | cons d gap =>
      have hblank : ∀ e ∈ (d :: gap ++ w ++ rest).head?, isBlank e = true := by
        intro e he
        obtain rfl := Option.some.inj he
        exact hgap d List.mem_cons_self
      exact ⟨_, .word [] [c] (d :: gap ++ w ++ rest) hnone hword hblank (.word (d :: gap) w rest hgap hw hends hrest)⟩

theorem exists_hasWords (t : Text) : ∃ ws, t.HasWords ws := by
  induction t with
  | nil => exact ⟨[], .blanks nofun⟩
  | cons c t ih =>
    obtain ⟨ws, h⟩ := ih
    cases hc : isBlank c with
    | true => exact ⟨ws, h.cons_blank hc⟩
    | false => exact h.cons_plain hc

/-- A text has one list of words, which is found. -/
theorem hasWords_iff : t.HasWords ws ↔ ws = words t := by
  constructor
  · intro h
    exact h.words_eq.symm
  · rintro rfl
    obtain ⟨ws, h⟩ := exists_hasWords t
    rwa [h.words_eq]

theorem pack_blanks (hgap : IsBlanks gap) (t : Text) : pack true (gap ++ t) = pack true t := by
  induction gap with
  | nil => rfl
  | cons c gap ih =>
    rw [IsBlanks, List.forall_mem_cons] at hgap
    rw [List.cons_append, pack_skip hgap.1]
    exact ih hgap.2

theorem IsWord.pack (hw : IsWord w) (first : Bool) : pack first w = w := by
  have hplain := hw.plain
  clear hw
  induction w generalizing first with
  | nil => exact pack_nil first
  | cons c w ih =>
    rw [List.forall_mem_cons] at hplain
    rw [pack_plain hplain.1, ih false hplain.2]

/-- What follows a word is packed to a space and more words, if there are more. -/
theorem pack_false (hends : ∀ c ∈ rest.head?, isBlank c = true) :
    pack false rest = if pack true rest = [] then [] else ' ' :: pack true rest := by
  cases rest with
  | nil => rfl
  | cons c rest =>
    have hc : isBlank c = true := hends c rfl
    rw [pack_skip hc]
    split
    · next hrest => exact pack_last hc hrest false
    · next hrest => exact pack_space hc hrest

theorem HasWords.isWord (h : t.HasWords ws) : ∀ w ∈ ws, IsWord w := by
  induction h with
  | blanks => exact List.forall_mem_nil _
  | word _ _ _ _ hw _ _ ih => exact List.forall_mem_cons.mpr ⟨hw, ih⟩

theorem join_cons_ne_nil (glue : Text) (hw : w ≠ []) (ws : List Text) : join glue (w :: ws) ≠ [] := by
  cases ws with
  | nil => rwa [join, List.intercalate_singleton]
  | cons v ws =>
    rw [join, List.intercalate_cons_cons]
    simp [hw]

theorem HasWords.collapse (h : t.HasWords ws) : collapse t = join [' '] ws := by
  rw [collapse_eq_pack]
  induction h with
  | blanks h => exact pack_eq_nil_iff.mpr h
  | @word gap w rest ws hgap hw hends hrest ih =>
    rw [List.append_assoc, pack_blanks hgap, pack_append (hw.pack true) hw.ne_nil, pack_false hends, ih]
    -- the space after a word is there only if another word follows
    cases ws with
    | nil =>
      have hnone : join [' '] [] = [] := rfl
      rw [if_pos hnone, List.append_nil, join, List.intercalate_singleton]
    | cons v vs =>
      have hv := hrest.isWord v List.mem_cons_self
      rw [if_neg (join_cons_ne_nil [' '] hv.ne_nil vs), join, join, List.intercalate_cons_cons, List.append_assoc]
      rfl

theorem getLast?_pack {first : Bool} (hc : c ∈ (pack first t).getLast?) : isBlank c = false := by
  induction t generalizing first with
  | nil =>
    rw [pack_nil] at hc
    exact nomatch hc
  | cons d t ih =>
    cases hd : isBlank d with
    | true =>
      rcases pack_blank hd first t with h | ⟨-, hne, h⟩
      · rw [h] at hc
        exact ih hc
      · rw [h, List.getLast?_cons_of_ne_nil hne] at hc
        exact ih hc
    | false =>
      rw [pack_plain hd] at hc
      by_cases hrest : pack false t = []
      · rw [hrest] at hc
        obtain rfl := Option.some.inj hc
        exact hd
      · rw [List.getLast?_cons_of_ne_nil hrest] at hc
        exact ih hc

theorem isChain_pack (first : Bool) (t : Text) :
    (pack first t).IsChain fun c d => isBlank c = true → isBlank d = false := by
  induction t generalizing first with
  | nil =>
    rw [pack_nil]
    exact .nil
  | cons c t ih =>
    cases hc : isBlank c with
    | true =>
      rcases pack_blank hc first t with h | ⟨-, -, h⟩
      · rw [h]
        exact ih true
      · rw [h, List.isChain_cons]
        exact ⟨fun d hd _ => isBlank_head?_pack_true hd, ih true⟩
    | false =>
      rw [pack_plain hc, List.isChain_cons]
      refine ⟨fun d _ hblank => ?_, ih false⟩
      rw [hc] at hblank
      contradiction

theorem tight_collapse (t : Text) : (collapse t).Tight := by
  rw [collapse_eq_pack]
  exact ⟨fun _ hc => isBlank_head?_pack_true hc, fun _ hc => getLast?_pack hc, fun _ hc hb => isBlank_mem_pack hc hb,
    isChain_pack true t⟩

/-- To collapse a text is to write its words with one space between neighbours. Nothing is left of its other blanks,
all other characters stay in their order, and nothing is left to collapse. Texts with the same words are collapsed to
the same text. -/
theorem collapse_words (t : Text) :
    collapse t = join [' '] (words t) ∧ (∀ ws, t.HasWords ws ↔ ws = words t) ∧ (collapse t).Tight ∧
      (collapse t).filter (!isBlank ·) = t.filter (!isBlank ·) ∧ collapse (collapse t) = collapse t ∧
      ∀ u ws, t.HasWords ws → u.HasWords ws → collapse u = collapse t := by
  have hwords : collapse t = join [' '] (words t) := (hasWords_iff.mpr rfl).collapse
  refine ⟨hwords, fun _ => hasWords_iff, tight_collapse t, ?_, collapse_collapse t, ?_⟩
  · rw [collapse_eq_pack, filter_pack]
  · intro u ws ht hu
    rw [ht.collapse, hu.collapse]

end LessCss.Text
