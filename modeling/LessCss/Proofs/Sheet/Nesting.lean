import LessCss.Sheet.Reader
/-!
Rows of tokens whose braces pair up.

`Nested n ts` says that they do and that no block in `ts` is nested deeper than `n`. Such rows pass the look
at the braces that comes before reading (`fault?_eq_none`).
-/
namespace LessCss.Braces

def isBrace (t : Token) : Bool := t.kind = .lbrace ∨ t.kind = .rbrace

inductive Nested : Nat → List Token → Prop
  | nil (n : Nat) : Nested n []
  | token {n : Nat} {t : Token} {ts : List Token} : isBrace t = false → Nested n ts → Nested n (t :: ts)
  | block {n : Nat} {lbrace rbrace : Token} {inner ts : List Token} : lbrace.kind = .lbrace →
      rbrace.kind = .rbrace → Nested n inner → Nested (n + 1) ts →
      Nested (n + 1) (lbrace :: (inner ++ rbrace :: ts))

variable {n m : Nat} {ts us : List Token}

theorem Nested.mono (h : Nested n ts) (hm : n ≤ m) : Nested m ts := by
  induction h generalizing m with
  | nil n => exact .nil m
  | token hb _ ih => exact .token hb (ih hm)
  | block hl hr _ _ ihi iht =>
    cases m with
    | zero => omega
    | succ m => exact .block hl hr (ihi (by omega)) (iht hm)

theorem Nested.append (ht : Nested n ts) (hu : Nested n us) : Nested n (ts ++ us) := by
  induction ht with
  | nil n => exact hu
  | token hb _ ih => exact .token hb (ih hu)
  | block hl hr hi _ _ iht =>
    rw [List.cons_append, List.append_assoc, List.cons_append]
    exact .block hl hr hi (iht hu)

theorem Nested.of_no_brace (h : ∀ t ∈ ts, isBrace t = false) : Nested n ts := by
  induction ts with
  | nil => exact .nil n
  | cons t ts ih =>
    simp only [List.forall_mem_cons] at h
    exact .token h.1 (ih h.2)

theorem Nested.unpaired? (h : Nested n ts) (opened : Nat) (rest : List Token) :
    Braces.unpaired? opened (ts ++ rest) = Braces.unpaired? opened rest := by
  induction h generalizing opened rest with
  | nil => rfl
  | token hb _ ih =>
    simp only [isBrace, decide_eq_false_iff_not, not_or] at hb
    obtain ⟨hl, hr⟩ := hb
    rw [List.cons_append, Braces.unpaired?]
    split
    · contradiction
    · contradiction
    · exact ih opened rest
  | block hl hr _ _ ihi iht =>
    rw [List.cons_append, List.append_assoc, List.cons_append, Braces.unpaired?, hl]
    simp only [ihi]
    rw [Braces.unpaired?, hr]
    simpa using iht opened rest

/-- Below the limit by as many blocks as a row nests, no brace of the row goes too deep. -/
theorem Nested.tooDeep? (h : Nested n ts) {opened : Nat} (ho : opened + n ≤ maxNesting) (rest : List Token) :
    Braces.tooDeep? opened (ts ++ rest) = Braces.tooDeep? opened rest := by
  induction h generalizing opened rest with
  | nil => rfl
  | token hb _ ih =>
    simp only [isBrace, decide_eq_false_iff_not, not_or] at hb
    obtain ⟨hl, hr⟩ := hb
    rw [List.cons_append, Braces.tooDeep?]
    split
    · contradiction
    · contradiction
    · exact ih ho rest
  | block hl hr _ _ ihi iht =>
    rw [List.cons_append, List.append_assoc, List.cons_append, Braces.tooDeep?, hl]
    simp only [if_neg (show ¬maxNesting ≤ opened by omega)]
    rw [ihi (by omega), Braces.tooDeep?, hr]
    simpa using iht ho rest

theorem fault?_eq_none (h : Nested maxNesting ts) : fault? ts = none := by
  have hu := h.unpaired? 0 []
  have hd := h.tooDeep? (show 0 + maxNesting ≤ maxNesting by simp) []
  rw [List.append_nil] at hu hd
  simp [fault?, hu, hd, Braces.unpaired?, Braces.tooDeep?]

end LessCss.Braces
