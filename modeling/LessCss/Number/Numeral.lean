import LessCss.Text
/-!
Decimal numerals as they are written: an optional minus, digits with an optional fraction or a fraction alone,
and an optional power of ten. A measure is a numeral with an optional unit.

`Numeral.read?` takes the longest numeral at the head of a text, and `Measure.read?` the longest measure.
Both say what is left over. `text` writes back what was read, and `Numeral.value` is the nearest double.
-/
namespace LessCss

/-- The power of ten of a numeral: the letter, the sign and the digits as they are written. -/
structure Exponent where
  letter : Char
  sign : Text
  digits : Text
deriving DecidableEq, Repr

/-- A decimal numeral as it is written. A missing fraction has no point either. -/
structure Numeral where
  sign : Text
  whole : Text
  fraction : Option Text
  exponent : Option Exponent
deriving DecidableEq, Repr

/-- A numeral and its unit, which is empty, a percent sign or letters. -/
structure Measure where
  number : Numeral
  unit : Text
deriving DecidableEq, Repr

namespace Exponent

def text (e : Exponent) : Text := e.letter :: (e.sign ++ e.digits)

def isSign (c : Char) : Bool := c = '+' ∨ c = '-'

/-- An exponent needs a digit, so the `e` of `1em` begins a unit. -/
def read? : Text → Option (Exponent × Text)
  | [] => none
  | c :: cs =>
    if c = 'e' ∨ c = 'E' then
      let unsigned := Text.tailIf isSign cs
      let digits := unsigned.takeWhile Char.isDigit
      if digits.isEmpty then none
      else some (⟨c, Text.headIf isSign cs, digits⟩, unsigned.dropWhile Char.isDigit)
    else none

theorem read?_append {t rest : Text} {e : Exponent} (h : read? t = some (e, rest)) : e.text ++ rest = t := by
  cases t with
  | nil => simp [read?] at h
  | cons c cs =>
    by_cases hc : c = 'e' ∨ c = 'E'
    · simp only [read?, if_pos hc] at h
      split at h
      · simp at h
      · simp only [Option.some.injEq, Prod.mk.injEq] at h
        obtain ⟨rfl, rfl⟩ := h
        simp [text]
    · simp [read?, hc] at h

end Exponent

/-- The number that a row of digits denotes. -/
def digitsValue (ds : Text) : Nat := ds.foldl (fun n d => 10 * n + (d.toNat - '0'.toNat)) 0

def Exponent.value (e : Exponent) : Int :=
  if e.sign = ['-'] then -(digitsValue e.digits : Int) else digitsValue e.digits

namespace Numeral

def text (n : Numeral) : Text :=
  n.sign ++ n.whole ++ (n.fraction.elim [] fun f => '.' :: f) ++ n.exponent.elim [] Exponent.text

def readFraction? : Text → Option (Text × Text)
  | [] => none
  | c :: cs =>
    let digits := cs.takeWhile Char.isDigit
    if c = '.' ∧ digits ≠ [] then some (digits, cs.dropWhile Char.isDigit) else none

/-- An optional part of a numeral at the head of a text. -/
def readPart {α : Type} (read? : Text → Option (α × Text)) (t : Text) : Option α × Text :=
  match read? t with
  | some (a, rest) => (some a, rest)
  | none => (none, t)

/-- The longest numeral at the head of a text. Digits are needed before or after the point. -/
def read? (t : Text) : Option (Numeral × Text) :=
  let unsigned := Text.tailIf (· = '-') t
  let whole := unsigned.takeWhile Char.isDigit
  let fraction := readPart readFraction? (unsigned.dropWhile Char.isDigit)
  let exponent := readPart Exponent.read? fraction.2
  if whole.isEmpty ∧ fraction.1.isNone then none
  else some (⟨Text.headIf (· = '-') t, whole, fraction.1, exponent.1⟩, exponent.2)

theorem readPart_append {α : Type} {read? : Text → Option (α × Text)} {text : α → Text}
    (h : ∀ {t a rest}, read? t = some (a, rest) → text a ++ rest = t) (t : Text) :
    (readPart read? t).1.elim [] text ++ (readPart read? t).2 = t := by
  rw [readPart]
  split
  · next heq => exact h heq
  · rfl

theorem readFraction?_append {t rest f : Text} (h : readFraction? t = some (f, rest)) :
    '.' :: f ++ rest = t := by
  cases t with
  | nil => simp [readFraction?] at h
  | cons c cs =>
    simp only [readFraction?] at h
    split at h
    · next hc =>
      simp only [Option.some.injEq, Prod.mk.injEq] at h
      obtain ⟨rfl, rfl⟩ := h
      simp [hc.1]
    · simp at h

theorem read?_append {t rest : Text} {n : Numeral} (h : read? t = some (n, rest)) : n.text ++ rest = t := by
  simp only [read?] at h
  split at h
  · simp at h
  · simp only [Option.some.injEq, Prod.mk.injEq] at h
    obtain ⟨rfl, rfl⟩ := h
    simp only [text, List.append_assoc, readPart_append Exponent.read?_append,
      readPart_append readFraction?_append, List.takeWhile_append_dropWhile, Text.headIf_append_tailIf]

theorem text_ne_nil_of_read? {t rest : Text} {n : Numeral} (h : read? t = some (n, rest)) : n.text ≠ [] := by
  simp only [read?] at h
  split at h
  · simp at h
  · next hd =>
    simp only [Option.some.injEq, Prod.mk.injEq] at h
    obtain ⟨rfl, rfl⟩ := h
    simp only [text, ne_eq, List.append_eq_nil_iff, not_and]
    intro hw
    refine absurd ⟨by simp [hw.1.2], ?_⟩ hd
    cases hf : (readPart readFraction? ((Text.tailIf (· = '-') t).dropWhile Char.isDigit)).1 with
    | none => rfl
    | some f => simp [hf] at hw

def mantissa (n : Numeral) : Nat := digitsValue (n.whole ++ n.fraction.getD [])

/-- The power of ten that scales the mantissa. -/
def scale (n : Numeral) : Int := n.exponent.elim 0 Exponent.value - ((n.fraction.getD []).length : Int)

/-- The double nearest to `m * 10 ^ e`. Powers beyond the range of doubles are settled by the count of digits
alone, so that no huge power is computed. -/
def nearest (m : Nat) (e : Int) : Float :=
  let size := (Nat.toDigits 10 m).length + e
  if m = 0 ∨ size < -400 then 0
  else if size > 400 then Float.ofBits 0x7FF0000000000000
  else if e < 0 then Float.ofScientific m true e.natAbs
  else Float.ofScientific m false e.natAbs

def value (n : Numeral) : Float :=
  let v := nearest n.mantissa n.scale
  if n.sign.isEmpty then v else -v

end Numeral

namespace Measure

def text (m : Measure) : Text := m.number.text ++ m.unit

/-- The longest unit at the head of a text, and what follows it. -/
def readUnit (t : Text) : Text × Text :=
  match t with
  | [] => ([], [])
  | c :: cs => if c = '%' then ([c], cs) else (t.takeWhile Char.isAlpha, t.dropWhile Char.isAlpha)

/-- The longest measure at the head of a text. -/
def read? (t : Text) : Option (Measure × Text) :=
  match Numeral.read? t with
  | none => none
  | some (n, rest) => some (⟨n, (readUnit rest).1⟩, (readUnit rest).2)

theorem readUnit_append (t : Text) : (readUnit t).1 ++ (readUnit t).2 = t := by
  fun_cases readUnit t <;> simp [*]

theorem read?_append {t rest : Text} {m : Measure} (h : read? t = some (m, rest)) : m.text ++ rest = t := by
  simp only [read?] at h
  split at h
  · simp at h
  · next n r hn =>
    simp only [Option.some.injEq, Prod.mk.injEq] at h
    obtain ⟨rfl, rfl⟩ := h
    rw [text, List.append_assoc, readUnit_append, Numeral.read?_append hn]

theorem text_ne_nil_of_read? {t rest : Text} {m : Measure} (h : read? t = some (m, rest)) : m.text ≠ [] := by
  simp only [read?] at h
  split at h
  · simp at h
  · next n r hn =>
    simp only [Option.some.injEq, Prod.mk.injEq] at h
    obtain ⟨rfl, rfl⟩ := h
    simp [text, Numeral.text_ne_nil_of_read? hn]

/-- The value and the unit of a text that is a measure from end to end. -/
def parse? (t : Text) : Option (Float × Text) :=
  match read? t with
  | some (m, []) => some (m.number.value, m.unit)
  | _ => none

end Measure
end LessCss
