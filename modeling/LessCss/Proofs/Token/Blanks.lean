import LessCss.Proofs.Token.Lexeme
/-!
Texts with at most one space between two words.

`Text.pack` says in one pass what `Text.collapse` does in three (`Text.collapse_eq_pack`). Characters other than blanks
stay in their order, so the gap at the head of a packed text is that of the text: only a line comment, which loses the
newline that ends it, goes on to the end (`gap_pack`).
-/
namespace LessCss

namespace Text

/-- The words of a text with one space between neighbours. The flag says that no space comes before the first one. -/
def pack : Bool → Text → Text
  | _, [] => []
  | first, c :: cs =>
    if isBlank c then if first || (pack true cs).isEmpty then pack true cs else ' ' :: pack true cs
    else c :: pack false cs

variable {c d : Char} {cs t a r : Text}

@[simp] theorem pack_nil (first : Bool) : pack first [] = [] := by
  cases first <;> rfl

theorem pack_plain (h : isBlank c = false) (first : Bool) (cs : Text) : pack first (c :: cs) = c :: pack false cs := by
  rw [pack, h, if_neg (by simp)]

theorem pack_skip (h : isBlank c = true) (cs : Text) : pack true (c :: cs) = pack true cs := by
  rw [pack, if_pos h, Bool.true_or, if_pos rfl]

theorem pack_last (h : isBlank c = true) (hcs : pack true cs = []) (first : Bool) : pack first (c :: cs) = [] := by
  rw [pack, if_pos h, hcs]
  simp

theorem pack_space (h : isBlank c = true) (hcs : pack true cs ≠ []) : pack false (c :: cs) = ' ' :: pack true cs := by
  rw [pack, if_pos h, Bool.false_or, if_neg (by simpa using hcs)]

/-- A blank is left out, or one space stands in its place. -/
theorem pack_blank (h : isBlank c = true) (first : Bool) (cs : Text) : pack first (c :: cs) = pack true cs ∨
    (first = false ∧ pack true cs ≠ [] ∧ pack first (c :: cs) = ' ' :: pack true cs) := by
  cases first with
  | true => exact .inl (pack_skip h cs)
  | false =>
    by_cases hcs : pack true cs = []
    · exact .inl (by rw [pack_last h hcs, hcs])
    · exact .inr ⟨rfl, hcs, pack_space h hcs⟩

theorem isBlank_head?_pack_true (hc : c ∈ (pack true t).head?) : isBlank c = false := by
  induction t with
  | nil => exact nomatch hc
  | cons d t ih =>
    cases hd : isBlank d with
    | true =>
      rw [pack_skip hd] at hc
      exact ih hc
    | false =>
      rw [pack_plain hd] at hc
      obtain rfl := Option.some.inj hc
      exact hd

theorem trimStart_squeeze (t : Text) : trimStart (squeeze false t) = squeeze true t := by
  have hstart : ∀ t : Text, trimStart (squeeze true t) = squeeze true t := by
    intro t
    induction t with
    | nil => rfl
    | cons c t ih =>
      cases hc : isBlank c with
      | true =>
        rw [squeeze, if_pos hc, if_pos rfl]
        exact ih
      | false =>
        rw [squeeze, hc, if_neg (by simp), trimStart, List.dropWhile_cons_of_neg (by simp [hc])]
  cases t with
  | nil => rfl
  | cons c t =>
    cases hc : isBlank c with
    | true =>
      rw [squeeze, if_pos hc, if_neg (by simp), squeeze, if_pos hc, if_pos rfl, trimStart,
        List.dropWhile_cons_of_pos (by rfl)]
      exact hstart t
    | false =>
      rw [squeeze, hc, if_neg (by simp), squeeze, hc, if_neg (by simp), trimStart,
        List.dropWhile_cons_of_neg (by simp [hc])]

theorem trimEnd_cons (c : Char) (t : Text) :
    trimEnd (c :: t) = if isBlank c ∧ trimEnd t = [] then [] else c :: trimEnd t := by
  rw [trimEnd, trimEnd, List.reverse_cons, List.dropWhile_append]
  cases hrest : t.reverse.dropWhile isBlank with
  | nil => cases hc : isBlank c <;> simp [hc]
  | cons d u => simp

theorem trimStart_append_cons (hc : isBlank c = false) (t u : Text) :
    trimStart (t ++ c :: u) = trimStart t ++ c :: u := by
  rw [trimStart, trimStart, List.dropWhile_append, List.dropWhile_cons_of_neg (by simp [hc])]
  split
  · next hempty => rw [List.isEmpty_iff.mp hempty, List.nil_append]
  · rfl

theorem trimEnd_append_cons (hc : isBlank c = false) (t u : Text) : trimEnd (t ++ c :: u) = t ++ c :: trimEnd u := by
  induction t with
  | nil => rw [List.nil_append, trimEnd_cons, if_neg (by simp [hc]), List.nil_append]
  | cons d t ih => rw [List.cons_append, trimEnd_cons, ih, if_neg (by simp), List.cons_append]

theorem mem_of_mem_trim (h : c ∈ trim t) : c ∈ t := by
  rw [trim, trimEnd, List.mem_reverse] at h
  have hstart := (List.dropWhile_suffix _).subset h
  exact (List.dropWhile_suffix _).subset (List.mem_reverse.mp hstart)

theorem trimEnd_squeeze (first : Bool) (t : Text) : trimEnd (squeeze first t) = pack first t := by
  induction t generalizing first with
  | nil => cases first <;> rfl
  | cons c t ih =>
    cases hc : isBlank c with
    | true =>
      rw [squeeze, if_pos hc]
      cases first with
      | true => rw [if_pos rfl, ih, pack_skip hc]
      | false =>
        rw [if_neg (by simp), trimEnd_cons, ih]
        by_cases ht : pack true t = []
        · rw [pack_last hc ht, if_pos ⟨by rfl, ht⟩]
        · rw [pack_space hc ht, if_neg fun h => ht h.2]
    | false =>
      rw [squeeze, hc, if_neg (by simp), trimEnd_cons, ih, pack_plain hc, hc, if_neg (by simp)]

/-- To collapse a text is to pack it. -/
theorem collapse_eq_pack (t : Text) : collapse t = pack true t := by
  rw [collapse, trim, trimStart_squeeze, trimEnd_squeeze]

theorem isBlank_mem_pack {first : Bool} (hc : c ∈ pack first t) (hb : isBlank c = true) : c = ' ' := by
  induction t generalizing first with
  | nil =>
    rw [pack_nil] at hc
    exact nomatch hc
  | cons d t ih =>
    cases hd : isBlank d with
    | true =>
      rcases pack_blank hd first t with h | ⟨-, -, h⟩
      · rw [h] at hc
        exact ih hc
      · rw [h] at hc
        rcases List.mem_cons.mp hc with rfl | hc
        · rfl
        · exact ih hc
    | false =>
      rw [pack_plain hd] at hc
      rcases List.mem_cons.mp hc with rfl | hc
      · rw [hd] at hb
        contradiction
      · exact ih hc

theorem newline_not_mem_pack (first : Bool) (t : Text) : '\n' ∉ pack first t :=
  fun h => absurd (isBlank_mem_pack h (by rfl)) (by decide)

/-- The characters of the words stay as they are. -/
theorem filter_pack (first : Bool) (t : Text) :
    (pack first t).filter (!isBlank ·) = t.filter (!isBlank ·) := by
  induction t generalizing first with
  | nil => rw [pack_nil]
  | cons c t ih =>
    cases hc : isBlank c with
    | true =>
      rw [List.filter_cons_of_neg (by simp [hc])]
      rcases pack_blank hc first t with h | ⟨-, -, h⟩
      · rw [h, ih]
      · rw [h, List.filter_cons_of_neg (by simp [show isBlank ' ' = true by rfl]), ih]
    | false =>
      rw [pack_plain hc, List.filter_cons_of_pos (by simp [hc]), List.filter_cons_of_pos (by simp [hc]), ih]

theorem pack_eq_nil_iff {first : Bool} : pack first t = [] ↔ ∀ c ∈ t, isBlank c = true := by
  constructor
  · intro h
    have hfilter := filter_pack first t
    rw [h] at hfilter
    simpa using List.filter_eq_nil_iff.mp hfilter.symm
  · intro h
    induction t generalizing first with
    | nil => exact pack_nil first
    | cons c t ih =>
      rw [List.forall_mem_cons] at h
      exact pack_last h.1 (ih h.2) first

theorem head?_pack (hd : isBlank d = false) : (pack false t).head? = some d ↔ t.head? = some d := by
  cases t with
  | nil => rw [pack_nil]
  | cons c t =>
    cases hc : isBlank c with
    | false => rw [pack_plain hc, List.head?_cons, List.head?_cons]
    | true =>
      constructor
      · intro h
        by_cases hnil : pack true t = []
        · rw [pack_last hc hnil] at h
          exact nomatch h
        · rw [pack_space hc hnil] at h
          obtain rfl := Option.some.inj h
          exact absurd hd (by decide)
      · intro h
        obtain rfl := Option.some.inj h
        rw [hc] at hd
        contradiction

/-- A part in which there is nothing to pack stays, and packing goes on after it. -/
theorem pack_append {first : Bool} (h : pack first a = a) (hne : a ≠ []) :
    pack first (a ++ r) = a ++ pack false r := by
  induction a generalizing first with
  | nil => exact absurd rfl hne
  | cons c a ih =>
    rw [List.cons_append]
    cases hc : isBlank c with
    | false =>
      rw [pack_plain hc] at h ⊢
      cases a with
      | nil => rfl
      | cons d a => exact congrArg (c :: ·) (ih (List.cons.inj h).2 (by simp))
    | true =>
      rcases pack_blank hc first a with hpack | ⟨rfl, ha, hpack⟩
      · have hhead : c ∈ (pack true a).head? := by
          rw [← hpack, h]
          rfl
        rw [isBlank_head?_pack_true hhead] at hc
        contradiction
      · rw [hpack] at h
        obtain ⟨rfl, ha'⟩ := List.cons.inj h
        have hrest : pack true (a ++ r) = a ++ pack false r := ih ha' (by rwa [ha'] at ha)
        rw [pack_space hc (by rw [hrest, ← ha']; simp [ha]), hrest, List.cons_append]

/-- There is nothing to pack in what a packed text begins with, if it does not end with a space. -/
theorem pack_of_append {first : Bool} {x : Text} (h : pack first (a ++ r) = a ++ x) (hlast : a.getLast? ≠ some ' ') :
    pack first a = a := by
  induction a generalizing first with
  | nil => exact pack_nil first
  | cons c a ih =>
    rw [List.cons_append] at h
    cases hc : isBlank c with
    | false =>
      rw [pack_plain hc] at h ⊢
      cases a with
      | nil => rw [pack_nil]
      | cons d a =>
        rw [List.getLast?_cons_cons] at hlast
        rw [ih (List.cons.inj h).2 hlast]
    | true =>
      rcases pack_blank hc first (a ++ r) with hpack | ⟨rfl, -, hpack⟩
      · have hhead : c ∈ (pack true (a ++ r)).head? := by
          rw [← hpack, h]
          rfl
        rw [isBlank_head?_pack_true hhead] at hc
        contradiction
      · rw [hpack, List.cons_append] at h
        obtain ⟨rfl, hrest⟩ := List.cons.inj h
        cases a with
        | nil => exact absurd rfl hlast
        | cons d a =>
          rw [List.getLast?_cons_cons] at hlast
          have ha : pack true (d :: a) = d :: a := ih hrest hlast
          rw [pack_space hc (by rw [ha]; simp), ha]

/-- There is nothing left to pack. -/
theorem pack_pack (first : Bool) (t : Text) : pack first (pack first t) = pack first t := by
  induction t generalizing first with
  | nil => rw [pack_nil, pack_nil]
  | cons c t ih =>
    cases hc : isBlank c with
    | false => rw [pack_plain hc, pack_plain hc, ih]
    | true =>
      cases first with
      | true => rw [pack_skip hc, ih]
      | false =>
        by_cases ht : pack true t = []
        · rw [pack_last hc ht, pack_nil]
        · rw [pack_space hc ht, pack_space (by rfl) (by rwa [ih]), ih]

theorem collapse_collapse (t : Text) : collapse (collapse t) = collapse t := by
  rw [collapse_eq_pack, collapse_eq_pack, pack_pack]

/-- Blanks at the end are left out. -/
theorem pack_append_blanks (hr : ∀ c ∈ r, isBlank c = true) (first : Bool) (a : Text) :
    pack first (a ++ r) = pack first a := by
  induction a generalizing first with
  | nil => rw [List.nil_append, pack_nil, pack_eq_nil_iff.mpr hr]
  | cons c a ih => simp only [List.cons_append, pack, ih]

end Text

namespace GapState

/-- Whether a line comment begins in the gap at the head of a text. -/
def opensLine : GapState → Text → Bool
  | _, [] => false
  | s, c :: cs =>
    match s.next? c cs with
    | none => false
    | some lineComment => true
    | some s => opensLine s cs

/-- Where a reader of gaps may stand that is in no line comment. What it has seen of `/*` or `*/` is completed. -/
def Fits (s : GapState) (t : Text) : Prop :=
  s ≠ lineComment ∧ (s = starred → t.head? = some '*') ∧ (s = closing → t.head? = some '/')

theorem fits_outside (t : Text) : outside.Fits t := ⟨by decide, nofun, nofun⟩

variable {s s' : GapState} {c : Char} {cs t : Text}

theorem Fits.next (h : s.next? c t = some s') (hs : s' ≠ lineComment) : s'.Fits t := by
  refine ⟨hs, ?_, ?_⟩
  · rintro rfl
    cases s with
    | outside =>
      unfold next? at h
      dsimp only at h
      split at h
      · exact nomatch h
      · split at h
        · exact nomatch h
        · split at h
          · next hstar => exact hstar.2
          · exact nomatch h
    | lineComment | blockComment =>
      unfold next? at h
      dsimp only at h
      split at h <;> exact nomatch h
    | starred | closing => exact nomatch h
  · rintro rfl
    cases s with
    | blockComment =>
      unfold next? at h
      dsimp only at h
      split at h
      · next hslash => exact hslash.2
      · exact nomatch h
    | outside =>
      unfold next? at h
      dsimp only at h
      repeat' split at h
      all_goals exact nomatch h
    | lineComment =>
      unfold next? at h
      dsimp only at h
      split at h <;> exact nomatch h
    | starred | closing => exact nomatch h

/-- Outside of line comments a blank leads nowhere else. -/
theorem next?_blank (hs : s.Fits (c :: t)) (hc : Text.isBlank c = true) {d : Char} (hd : Text.isBlank d = true)
    (cs : Text) : s.next? d cs = some s := by
  cases s with
  | outside => rw [next?, if_pos hd]
  | lineComment => exact absurd rfl hs.1
  | starred =>
    obtain rfl := Option.some.inj (hs.2.1 rfl)
    exact absurd hc (by decide)
  | blockComment =>
    refine if_neg fun h => ?_
    rw [h.1] at hd
    exact absurd hd (by decide)
  | closing =>
    obtain rfl := Option.some.inj (hs.2.2 rfl)
    exact absurd hc (by decide)

/-- What follows is packed: that makes no difference for a character that is no blank. -/
theorem next?_pack (s : GapState) (c : Char) (t : Text) : s.next? c (Text.pack false t) = s.next? c t := by
  have hslash : (Text.pack false t).head? = some '/' ↔ t.head? = some '/' := Text.head?_pack (by decide)
  have hstar : (Text.pack false t).head? = some '*' ↔ t.head? = some '*' := Text.head?_pack (by decide)
  simp only [next?, hslash, hstar]

/-- Without a newline a line comment goes on to the end. -/
theorem gap_lineComment (h : '\n' ∉ t) : (gap lineComment t).rest = [] := by
  induction t with
  | nil => rfl
  | cons c t ih =>
    rw [List.mem_cons, not_or] at h
    have hnext : lineComment.next? c t = some lineComment := if_neg (Ne.symm h.1)
    rw [gap, hnext]
    exact ih h.2

theorem gap_next (h : s.next? c t = some s') : (gap s (c :: t)).rest = (gap s' t).rest := by
  rw [gap, h]
  rfl

/-- The gap at the head of a packed text ends where that of the text does, unless a line comment begins in it. By
induction on the text: each character of the gap leads to the same state, and what is left out leads nowhere else. -/
theorem gap_pack (hs : s.Fits t) (first : Bool) : (gap s (Text.pack first t)).rest =
    if s.opensLine t then [] else Text.pack true (gap s t).rest := by
  induction t generalizing s first with
  | nil => simp [gap, opensLine]
  | cons c t ih =>
    cases hc : Text.isBlank c with
    | true =>
      have hstep : s.next? c t = some s := next?_blank hs hc hc t
      have hrest := ih (Fits.next hstep hs.1)
      have hopens : s.opensLine (c :: t) = s.opensLine t := by
        rw [opensLine, hstep]
        cases s with
        | lineComment => exact absurd rfl hs.1
        | _ => rfl
      rw [hopens, gap_next hstep]
      rcases Text.pack_blank hc first t with hpack | ⟨-, -, hpack⟩
      · rw [hpack, hrest]
      · rw [hpack, gap_next (next?_blank hs hc (by rfl) _), hrest]
    | false =>
      have hstep := next?_pack s c t
      rw [Text.pack_plain hc]
      cases hnext : s.next? c t with
      | none =>
        rw [hnext] at hstep
        rw [gap, hstep, gap, hnext, opensLine, hnext]
        exact (Text.pack_plain hc true t).symm
      | some s' =>
        rw [hnext] at hstep
        rw [gap_next hstep, gap_next hnext, opensLine, hnext]
        cases s' with
        | lineComment => exact gap_lineComment (Text.newline_not_mem_pack false t)
        | _ => exact ih (Fits.next hnext (by decide)) false

/-- Blanks are gaps. -/
theorem gap_blanks (h : ∀ c ∈ t, Text.isBlank c = true) : (gap outside t).rest = [] := by
  induction t with
  | nil => rfl
  | cons c t ih =>
    rw [List.forall_mem_cons] at h
    rw [gap_blank h.1]
    exact ih h.2

/-- Between two words a gap is left, if there is one. -/
theorem taken_pack (h : (gap outside t).rest ≠ []) :
    (gap outside (Text.pack false t)).taken.isEmpty = (gap outside t).taken.isEmpty := by
  cases t with
  | nil => rw [Text.pack_nil]
  | cons c t =>
    cases hc : Text.isBlank c with
    | true =>
      have hrest : Text.pack true t ≠ [] := by
        intro ht
        rw [gap_blank hc] at h
        exact h (gap_blanks (Text.pack_eq_nil_iff.mp ht))
      rw [Text.pack_space hc hrest, gap_blank (by rfl), gap_blank hc]
      rfl
    | false =>
      have hstep := next?_pack outside c t
      rw [Text.pack_plain hc]
      cases hnext : outside.next? c t with
      | none =>
        rw [hnext] at hstep
        rw [gap, hstep, gap, hnext]
      | some s' =>
        rw [hnext] at hstep
        rw [gap, hstep, gap, hnext]
        rfl

end GapState

end LessCss
