import LessCss.Number.FourPlaces
import LessCss.Proofs.Number.Numeral
/-!
The text of a double as a numeral.

A finite double is written as a numeral without an exponent (`render_of_finite`), which is well formed
(`numeral_wellFormed`). The other doubles are written as words (`render_of_not_finite`).
-/
namespace LessCss.FourPlaces

theorem isDigit_digits (n : Nat) : ∀ c ∈ digits n, c.isDigit = true :=
  fun _ hc => Nat.isDigit_of_mem_toDigits (by decide) (by decide) hc

theorem isDigit_fractionDigits (n : Nat) : ∀ c ∈ fractionDigits n, c.isDigit = true := by
  intro c hc
  have hmem := List.mem_reverse.mp ((List.dropWhile_sublist _).subset (List.mem_reverse.mp hc))
  rcases List.mem_append.mp hmem with h | h
  · exact List.eq_of_mem_replicate h ▸ by decide
  · exact isDigit_digits n c h

variable {v : Float}

/-- The numeral that a finite double is written as. A fraction that is zero is left out. -/
def numeral (v : Float) : Numeral :=
  let f := fields v
  let n := tenThousandths f
  let fraction := fractionDigits (n % 10000)
  ⟨if f.negative && !f.isNegligible then ['-'] else [], digits (n / 10000),
    if fraction.isEmpty then none else some fraction, none⟩

theorem numeral_wellFormed (v : Float) : (numeral v).WellFormed where
  sign := by
    unfold numeral
    dsimp only
    split
    · exact .inr rfl
    · exact .inl rfl
  whole := isDigit_digits _
  fraction := by
    intro f hf
    unfold numeral at hf
    dsimp only at hf
    split at hf
    · exact nomatch hf
    · next hne =>
      obtain rfl := Option.some.inj hf
      exact ⟨by simpa using hne, isDigit_fractionDigits _⟩
  digits := .inl Nat.toDigits_ne_nil
  exponent := nofun

theorem render_of_finite (h : (fields v).isFinite = true) : render v = (numeral v).text := by
  have hfraction : ∀ n, decimal n = digits (n / 10000) ++
      (if (fractionDigits (n % 10000)).isEmpty then none else some (fractionDigits (n % 10000))).elim []
        fun f => '.' :: f := by
    intro n
    unfold decimal
    dsimp only
    split <;> rfl
  rw [render, if_pos h, hfraction]
  simp [numeral, Numeral.text]

theorem render_of_not_finite (h : (fields v).isFinite = false) :
    render v = "NaN".toList ∨ render v = "inf".toList ∨ render v = "-inf".toList := by
  rw [render, if_neg (by simp [h])]
  split
  · exact .inl rfl
  · split
    · exact .inr (.inr rfl)
    · exact .inr (.inl rfl)

end LessCss.FourPlaces
