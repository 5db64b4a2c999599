import LessCss.Proofs.Token.Lexeme
import Mathlib.Computability.RegularExpressions
/-!
The regular expression of measures.

A text is a measure from end to end if and only if `Measure.expression` matches it (`Measure.matches_expression_iff`).
What `Measure.read?` takes from the head of a text is the longest prefix that is matched (`Measure.read?_longest`), and
where it reads nothing no prefix is (`Measure.not_matches_of_read?`).
-/
namespace LessCss

section Expressions

open RegularExpression

/-- The characters from `a` to `b`. -/
def charRange (a b : Char) : RegularExpression Char :=
  ((List.range (b.toNat + 1 - a.toNat)).map fun i => char (Char.ofNat (a.toNat + i))).sum

def optionally (P : RegularExpression Char) : RegularExpression Char := P + 1

def oneOrMore (P : RegularExpression Char) : RegularExpression Char := P * P.star

/-- An expression that matches the characters of a class, one at a time. -/
def IsClass (P : RegularExpression Char) (p : Char → Bool) : Prop :=
  ∀ t, t ∈ P.matches' ↔ ∃ c, p c = true ∧ t = [c]

variable {P Q : RegularExpression Char} {p q : Char → Bool} {t : Text}

theorem mem_sum {Ps : List (RegularExpression Char)} : t ∈ Ps.sum.matches' ↔ ∃ P ∈ Ps, t ∈ P.matches' := by
  induction Ps with
  | nil => simp [Language.notMem_zero]
  | cons P Ps ih => rw [List.sum_cons, matches'_add, Language.mem_add, ih, List.exists_mem_cons_iff]

theorem isClass_char (c : Char) : IsClass (char c) (· == c) := by
  intro t
  constructor
  · rintro rfl
    exact ⟨c, beq_self_eq_true c, rfl⟩
  · rintro ⟨d, hd, rfl⟩
    rw [eq_of_beq hd]
    rfl

theorem IsClass.add (hP : IsClass P p) (hQ : IsClass Q q) : IsClass (P + Q) (fun c => p c || q c) := by
  intro t
  rw [matches'_add, Language.mem_add, hP, hQ, ← exists_or]
  simp only [Bool.or_eq_true, or_and_right]

theorem isClass_charRange {a b : Char} (hb : b.toNat < 0xD800) :
    IsClass (charRange a b) (fun c => a.toNat ≤ c.toNat && c.toNat ≤ b.toNat) := by
  intro t
  rw [charRange, mem_sum]
  simp only [List.mem_map, List.mem_range, Bool.and_eq_true, decide_eq_true_eq]
  constructor
  · rintro ⟨_, ⟨i, hi, rfl⟩, rfl⟩
    have hvalid : (a.toNat + i).isValidChar := .inl (by omega)
    have hvalue : (Char.ofNat (a.toNat + i)).toNat = a.toNat + i := by
      rw [Char.ofNat, dif_pos hvalid]
      rfl
    refine ⟨_, ?_, rfl⟩
    rw [hvalue]
    omega
  · rintro ⟨c, hc, rfl⟩
    refine ⟨_, ⟨c.toNat - a.toNat, by omega, rfl⟩, ?_⟩
    rw [Nat.add_sub_cancel' hc.1, Char.ofNat_toNat]
    rfl

theorem IsClass.mem_oneOrMore (hP : IsClass P p) :
    t ∈ (oneOrMore P).matches' ↔ t ≠ [] ∧ ∀ c ∈ t, p c = true := by
  rw [oneOrMore, matches'_mul, matches'_star, Language.mem_mul]
  constructor
  · rintro ⟨_, ha, _, hb, rfl⟩
    obtain ⟨c, hc, rfl⟩ := (hP _).mp ha
    obtain ⟨L, rfl, hL⟩ := Language.mem_kstar.mp hb
    refine ⟨List.cons_ne_nil _ _, List.forall_mem_cons.mpr ⟨hc, fun d hd => ?_⟩⟩
    obtain ⟨u, hu, hmem⟩ := List.mem_flatten.mp hd
    obtain ⟨e, he, rfl⟩ := (hP u).mp (hL u hu)
    exact List.mem_singleton.mp hmem ▸ he
  · rintro ⟨hne, ht⟩
    obtain ⟨c, cs, rfl⟩ := List.exists_cons_of_ne_nil hne
    rw [List.forall_mem_cons] at ht
    refine ⟨[c], (hP _).mpr ⟨c, ht.1, rfl⟩, cs, Language.mem_kstar.mpr ⟨cs.map ([·]), ?_, ?_⟩, rfl⟩
    · exact (List.flatMap_singleton' cs).symm
    · intro u hu
      obtain ⟨d, hd, rfl⟩ := List.mem_map.mp hu
      exact (hP _).mpr ⟨d, ht.2 d hd, rfl⟩

/-- An optional part is one that may be missing. -/
theorem mem_optionally {α : Type} {WF : α → Prop} {text : α → Text}
    (hP : ∀ t, t ∈ P.matches' ↔ ∃ a, WF a ∧ text a = t) :
    t ∈ (optionally P).matches' ↔ ∃ o : Option α, (∀ a ∈ o, WF a) ∧ o.elim [] text = t := by
  rw [optionally, matches'_add, Language.mem_add, matches'_epsilon, Language.mem_one, hP]
  constructor
  · rintro (⟨a, ha, rfl⟩ | rfl)
    · exact ⟨some a, fun _ h => Option.some.inj h ▸ ha, rfl⟩
    · exact ⟨none, nofun, rfl⟩
  · rintro ⟨_ | a, ha, rfl⟩
    · exact .inr rfl
    · exact .inl ⟨a, ha a rfl, rfl⟩

/-- An optional character. -/
theorem IsClass.mem_optionally (hP : IsClass P p) :
    t ∈ (optionally P).matches' ↔ t = [] ∨ ∃ c, p c = true ∧ t = [c] := by
  rw [optionally, matches'_add, Language.mem_add, matches'_epsilon, Language.mem_one, hP, or_comm]

def digit : RegularExpression Char := charRange '0' '9'

def letter : RegularExpression Char := charRange 'a' 'z' + charRange 'A' 'Z'

theorem isClass_digit : IsClass digit Char.isDigit := by
  intro t
  rw [digit, isClass_charRange (by decide)]
  refine exists_congr fun c => and_congr_left fun _ => ?_
  rw [isDigit_iff, Bool.and_eq_true, decide_eq_true_eq, decide_eq_true_eq]
  rfl

theorem isClass_letter : IsClass letter Char.isAlpha := by
  intro t
  rw [letter, (isClass_charRange (by decide)).add (isClass_charRange (by decide))]
  refine exists_congr fun c => and_congr_left fun _ => ?_
  simp only [isAlpha_iff, Bool.or_eq_true, Bool.and_eq_true, decide_eq_true_eq, Char.reduceToNat]
  exact or_comm

end Expressions

open RegularExpression (char)

/-- An `e`, an optional sign and digits. -/
def Exponent.expression : RegularExpression Char :=
  (char 'e' + char 'E') * (optionally (char '+' + char '-') * oneOrMore digit)

theorem Exponent.matches_expression_iff {t : Text} :
    t ∈ expression.matches' ↔ ∃ e : Exponent, e.WellFormed ∧ e.text = t := by
  have hletter := (isClass_char 'e').add (isClass_char 'E')
  have hsign := (isClass_char '+').add (isClass_char '-')
  simp only [expression, RegularExpression.matches'_mul, Language.mem_mul, hletter _, hsign.mem_optionally,
    isClass_digit.mem_oneOrMore, Bool.or_eq_true, beq_iff_eq]
  constructor
  · rintro ⟨_, ⟨c, hc, rfl⟩, _, ⟨sign, hs, digits, hdigits, rfl⟩, rfl⟩
    refine ⟨⟨c, sign, digits⟩, ⟨hc, ?_, hdigits.1, hdigits.2⟩, rfl⟩
    exact hs.imp_right fun ⟨d, hd, h⟩ => ⟨d, decide_eq_true hd, h⟩
  · rintro ⟨e, he, rfl⟩
    refine ⟨_, ⟨e.letter, he.letter, rfl⟩, _, ⟨e.sign, ?_, e.digits, ⟨he.ne_nil, he.digits⟩, rfl⟩, rfl⟩
    exact he.sign.imp_right fun ⟨d, hd, h⟩ => ⟨d, of_decide_eq_true hd, h⟩

/-- Digits after a point. -/
def Numeral.fractionExpression : RegularExpression Char := char '.' * oneOrMore digit

theorem Numeral.matches_fractionExpression_iff {t : Text} : t ∈ fractionExpression.matches' ↔
    ∃ f : Text, (f ≠ [] ∧ ∀ c ∈ f, c.isDigit = true) ∧ '.' :: f = t := by
  simp only [fractionExpression, RegularExpression.matches'_mul, Language.mem_mul, isClass_digit.mem_oneOrMore]
  constructor
  · rintro ⟨_, rfl, f, hf, rfl⟩
    exact ⟨f, hf, rfl⟩
  · rintro ⟨f, hf, rfl⟩
    exact ⟨['.'], rfl, f, hf, rfl⟩

/-- An optional minus, digits with an optional fraction or a fraction alone, and an optional exponent. -/
def Numeral.expression : RegularExpression Char :=
  optionally (char '-') * ((oneOrMore digit * optionally fractionExpression + fractionExpression) *
    optionally Exponent.expression)

theorem Numeral.matches_expression_iff {t : Text} :
    t ∈ expression.matches' ↔ ∃ n : Numeral, n.WellFormed ∧ n.text = t := by
  have hfraction := fun t => @matches_fractionExpression_iff t
  have hexponent := fun t => @Exponent.matches_expression_iff t
  have hsign : ∀ sign : Text, (sign = [] ∨ ∃ c, (c == '-') = true ∧ sign = [c]) ↔ sign = [] ∨ sign = ['-'] := by simp
  simp only [expression, RegularExpression.matches'_mul, RegularExpression.matches'_add, Language.mem_mul,
    Language.mem_add, (isClass_char '-').mem_optionally, isClass_digit.mem_oneOrMore, mem_optionally hfraction,
    mem_optionally hexponent, hfraction, hsign]
  constructor
  · rintro ⟨sign, hs, _, ⟨_, ⟨whole, hwhole, _, ⟨f, hf, rfl⟩, rfl⟩ | ⟨f, hf, rfl⟩, _, ⟨e, he, rfl⟩, rfl⟩, rfl⟩
    · exact ⟨⟨sign, whole, f, e⟩, ⟨hs, hwhole.2, hf, .inl hwhole.1, he⟩, by simp [text]⟩
    · have hf' : ∀ g ∈ some f, g ≠ [] ∧ ∀ c ∈ g, c.isDigit = true := fun _ h => Option.some.inj h ▸ hf
      exact ⟨⟨sign, [], some f, e⟩, ⟨hs, List.forall_mem_nil _, hf', .inr rfl, he⟩, by simp [text]⟩
  · rintro ⟨n, hn, rfl⟩
    refine ⟨n.sign, hn.sign, n.whole ++ (n.fraction.elim [] fun f => '.' :: f) ++ n.exponent.elim [] Exponent.text,
      ⟨n.whole ++ n.fraction.elim [] fun f => '.' :: f, ?_, _, ⟨n.exponent, hn.exponent, rfl⟩, rfl⟩, by simp [text]⟩
    by_cases hwhole : n.whole = []
    · obtain ⟨f, hf⟩ := Option.isSome_iff_exists.mp (hn.digits.resolve_left (absurd hwhole))
      exact .inr ⟨f, hn.fraction f hf, by simp [hwhole, hf]⟩
    · exact .inl ⟨n.whole, ⟨hwhole, hn.whole⟩, _, ⟨n.fraction, hn.fraction, rfl⟩, rfl⟩

namespace Measure

/-- A numeral and an optional unit. -/
def expression : RegularExpression Char := Numeral.expression * optionally (oneOrMore letter + char '%')

theorem matches_unit_iff {t : Text} : t ∈ (optionally (oneOrMore letter + char '%')).matches' ↔
    t = ['%'] ∨ ∀ c ∈ t, c.isAlpha = true := by
  rw [optionally, RegularExpression.matches'_add, Language.mem_add, RegularExpression.matches'_add, Language.mem_add,
    isClass_letter.mem_oneOrMore, RegularExpression.matches'_epsilon, Language.mem_one]
  constructor
  · rintro ((⟨-, ht⟩ | ht) | rfl)
    · exact .inr ht
    · exact .inl ht
    · exact .inr nofun
  · rintro (ht | ht)
    · exact .inl (.inr ht)
    · rcases eq_or_ne t [] with hnil | hne
      · exact .inr hnil
      · exact .inl (.inl ⟨hne, ht⟩)

theorem matches_expression {t : Text} : t ∈ expression.matches' ↔ ∃ m : Measure, m.WellFormed ∧ m.text = t := by
  have hnumeral := fun t => @Numeral.matches_expression_iff t
  simp only [expression, RegularExpression.matches'_mul, Language.mem_mul, hnumeral, matches_unit_iff]
  constructor
  · rintro ⟨_, ⟨n, hn, rfl⟩, unit, hunit, rfl⟩
    exact ⟨⟨n, unit⟩, ⟨hn, hunit⟩, rfl⟩
  · rintro ⟨m, hm, rfl⟩
    exact ⟨_, ⟨m.number, hm.number, rfl⟩, m.unit, hm.unit, rfl⟩

/-- The expression matches the texts that are measures from end to end. -/
theorem matches_expression_iff {t : Text} : t ∈ expression.matches' ↔ (parse? t).isSome := by
  rw [matches_expression]
  constructor
  · rintro ⟨m, hm, rfl⟩
    rw [hm.parse?]
    rfl
  · intro h
    obtain ⟨⟨v, unit⟩, hparse⟩ := Option.isSome_iff_exists.mp h
    obtain ⟨m, hm, rfl, -⟩ := wellFormed_of_parse? hparse
    exact ⟨m, hm, rfl⟩

/-- The longest prefix that the expression matches is read. -/
theorem read?_longest {m : Measure} {t rest : Text} (h : read? t = some (m, rest)) :
    m.text ∈ expression.matches' ∧ ∀ u, u <+: t → u ∈ expression.matches' → u.length ≤ m.text.length := by
  obtain ⟨hm, hends⟩ := wellFormed_of_read? h
  refine ⟨matches_expression.mpr ⟨m, hm, rfl⟩, fun u hu hmatches => ?_⟩
  by_contra hlt
  have happend := read?_append h
  -- a longer prefix goes on where the measure ends, and does not see more than what follows it
  obtain ⟨w, rfl⟩ : m.text <+: u := List.prefix_of_prefix_length_le ⟨rest, happend⟩ hu (by omega)
  obtain ⟨v, hv⟩ := hu
  rw [← happend, List.append_assoc, List.append_cancel_left_eq] at hv
  subst hv
  have hahead : Ahead (w ++ v) w := by
    rintro d u rfl -
    refine ⟨u ++ v, rfl, fun hdigit => ?_⟩
    cases u with
    | nil => exact nomatch hdigit
    | cons e u => exact hdigit
  obtain ⟨m', hm', htext⟩ := matches_expression.mp hmatches
  have hread := hm'.read?
  rw [htext, read?_text hm (hends.ahead hm hahead)] at hread
  obtain ⟨-, rfl⟩ := Prod.mk.inj (Option.some.inj hread)
  simp at hlt

/-- Where nothing is read the expression matches no prefix. -/
theorem not_matches_of_read? {t u : Text} (h : read? t = none) (hu : u <+: t) : u ∉ expression.matches' := by
  intro hmatches
  obtain ⟨m, hm, rfl⟩ := matches_expression.mp hmatches
  obtain ⟨rest, rfl⟩ := hu
  obtain ⟨unsigned, htext, hstarts⟩ := Lexeme.startsNumeral_of_wellFormed hm.number (m.unit ++ rest)
  have htail : Text.tailIf (fun c => decide (c = '-')) (m.text ++ rest) = unsigned := by
    rw [text, List.append_assoc, htext]
    rcases hm.number.sign with hs | hs
    · rw [hs, List.nil_append]
      refine (Exponent.tailIf_of_stop ?_).1
      cases unsigned with
      | nil => rfl
      | cons c cs =>
        refine decide_eq_false ?_
        rintro rfl
        simp [Lexeme.startsNumeral_cons] at hstarts
    · rw [hs]
      rfl
  rw [← htail] at hstarts
  obtain ⟨m', r, hread⟩ := Lexeme.measure_of_startsNumeral hstarts
  rw [h] at hread
  cases hread

end Measure
end LessCss
