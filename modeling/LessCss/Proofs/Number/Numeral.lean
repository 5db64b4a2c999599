import Mathlib.Data.List.TakeWhile
import LessCss.Token.Lexeme
/-!
Which numerals and measures are read, and what ends them.

`WellFormed` says how a numeral or a measure is written, `Ends` that nothing after it would be read along with
it. What is read is well formed and ended by what follows (`Measure.wellFormed_of_read?`), and conversely
(`Measure.read?_text`).
-/
namespace LessCss

section Rows

variable {p : Char → Bool} {a r t : Text}

@[simp] theorem startsWith_nil : startsWith p [] = false := rfl

@[simp] theorem startsWith_cons (c : Char) (t : Text) : startsWith p (c :: t) = p c := rfl

theorem startsWith_append_of_ne_nil (h : a ≠ []) : startsWith p (a ++ r) = startsWith p a := by
  cases a with
  | nil => exact absurd rfl h
  | cons c a => rfl

theorem takeWhile_append_of_stop (ha : ∀ c ∈ a, p c = true) (hr : startsWith p r = false) :
    (a ++ r).takeWhile p = a := by
  rw [List.takeWhile_append_of_pos ha]
  cases r with
  | nil => simp
  | cons c r => simp [show p c = false from hr]

theorem dropWhile_append_of_stop (ha : ∀ c ∈ a, p c = true) (hr : startsWith p r = false) :
    (a ++ r).dropWhile p = r := by
  rw [List.dropWhile_append_of_pos ha]
  cases r with
  | nil => rfl
  | cons c r => simp [show p c = false from hr]

theorem startsWith_dropWhile (p : Char → Bool) (t : Text) : startsWith p (t.dropWhile p) = false := by
  induction t with
  | nil => rfl
  | cons c t ih => cases hc : p c <;> simp [hc, ih]

theorem takeWhile_isEmpty (p : Char → Bool) (t : Text) : (t.takeWhile p).isEmpty = !startsWith p t := by
  cases t with
  | nil => rfl
  | cons c t => cases hc : p c <;> simp [hc]

end Rows

namespace Exponent

structure WellFormed (e : Exponent) : Prop where
  letter : e.letter = 'e' ∨ e.letter = 'E'
  sign : e.sign = [] ∨ ∃ c, isSign c = true ∧ e.sign = [c]
  ne_nil : e.digits ≠ []
  digits : ∀ c ∈ e.digits, c.isDigit = true

theorem isSign_of_isDigit {c : Char} (h : c.isDigit = true) : isSign c = false := by
  simp only [isSign, decide_eq_false_iff_not, not_or]
  constructor <;> (rintro rfl; simp at h)

/-- The digits of an exponent begin with no sign. -/
theorem startsWith_isSign {e : Exponent} (h : e.WellFormed) (r : Text) : startsWith isSign (e.digits ++ r) = false := by
  have hd := h.digits
  cases hds : e.digits with
  | nil => exact absurd hds h.ne_nil
  | cons c ds => exact isSign_of_isDigit (hd c (by simp [hds]))

theorem tailIf_of_stop {p : Char → Bool} {t : Text} (h : startsWith p t = false) :
    Text.tailIf p t = t ∧ Text.headIf p t = [] := by
  cases t with
  | nil => exact ⟨rfl, rfl⟩
  | cons c t => simp [Text.tailIf, Text.headIf, show p c = false from h]

theorem read?_text {e : Exponent} {r : Text} (h : e.WellFormed) (hr : startsWith Char.isDigit r = false) :
    read? (e.text ++ r) = some (e, r) := by
  have htail : Text.tailIf isSign (e.sign ++ e.digits ++ r) = e.digits ++ r ∧
      Text.headIf isSign (e.sign ++ e.digits ++ r) = e.sign := by
    rcases h.sign with hs | ⟨c, hc, hs⟩
    · rw [hs]
      exact tailIf_of_stop (startsWith_isSign h r)
    · simp [hs, Text.tailIf, Text.headIf, hc]
  have hne : e.digits.isEmpty = false := by simpa using h.ne_nil
  simp only [text, List.cons_append, read?, if_pos h.letter, htail, takeWhile_append_of_stop h.digits hr,
    dropWhile_append_of_stop h.digits hr, hne]
  rfl

theorem read?_eq_none (c : Char) (cs : Text) : read? (c :: cs) = none ↔
    ¬(c = 'e' ∨ c = 'E') ∨ startsWith Char.isDigit (Text.tailIf isSign cs) = false := by
  by_cases hc : c = 'e' ∨ c = 'E'
  · simp [read?, hc, takeWhile_isEmpty]
  · simp [read?, hc]

theorem wellFormed_of_read? {e : Exponent} {t r : Text} (h : read? t = some (e, r)) :
    e.WellFormed ∧ startsWith Char.isDigit r = false := by
  cases t with
  | nil => simp [read?] at h
  | cons c cs =>
    by_cases hc : c = 'e' ∨ c = 'E'
    · simp only [read?, if_pos hc] at h
      split at h
      · simp at h
      · next hne =>
        simp only [Option.some.injEq, Prod.mk.injEq] at h
        obtain ⟨rfl, rfl⟩ := h
        refine ⟨⟨hc, ?_, by simpa using hne, fun _ hd => List.mem_takeWhile_imp hd⟩, startsWith_dropWhile _ _⟩
        cases cs with
        | nil => exact .inl rfl
        | cons s cs =>
          cases hs : isSign s with
          | true => exact .inr ⟨s, hs, by simp [Text.headIf, hs]⟩
          | false => exact .inl (by simp [Text.headIf, hs])
    · simp [read?, hc] at h

end Exponent

namespace Numeral

structure WellFormed (n : Numeral) : Prop where
  sign : n.sign = [] ∨ n.sign = ['-']
  whole : ∀ c ∈ n.whole, c.isDigit = true
  fraction : ∀ f ∈ n.fraction, f ≠ [] ∧ ∀ c ∈ f, c.isDigit = true
  digits : n.whole ≠ [] ∨ n.fraction.isSome
  exponent : ∀ e ∈ n.exponent, e.WellFormed

/-- Nothing in `r` would be read along with the numeral before it. -/
structure Ends (n : Numeral) (r : Text) : Prop where
  digit : startsWith Char.isDigit r = false
  exponent : n.exponent = none → Exponent.read? r = none
  fraction : n.exponent = none → n.fraction = none → readFraction? r = none

theorem readFraction?_append_text {f r : Text} (hne : f ≠ []) (hf : ∀ c ∈ f, c.isDigit = true)
    (hr : startsWith Char.isDigit r = false) : readFraction? ('.' :: f ++ r) = some (f, r) := by
  rw [List.cons_append, readFraction?, takeWhile_append_of_stop hf hr, dropWhile_append_of_stop hf hr]
  simp [hne]

theorem readFraction?_eq_none (c : Char) (cs : Text) : readFraction? (c :: cs) = none ↔
    c ≠ '.' ∨ startsWith Char.isDigit cs = false := by
  have h := takeWhile_isEmpty Char.isDigit cs
  by_cases hc : c = '.'
  · cases hd : startsWith Char.isDigit cs <;> simp_all [readFraction?]
  · simp [readFraction?, hc]

theorem wellFormed_of_readFraction? {f t r : Text} (h : readFraction? t = some (f, r)) :
    (f ≠ [] ∧ ∀ c ∈ f, c.isDigit = true) ∧ startsWith Char.isDigit r = false := by
  cases t with
  | nil => simp [readFraction?] at h
  | cons c cs =>
    simp only [readFraction?] at h
    split at h
    · next hc =>
      simp only [Option.some.injEq, Prod.mk.injEq] at h
      obtain ⟨rfl, rfl⟩ := h
      exact ⟨⟨hc.2, fun _ hd => List.mem_takeWhile_imp hd⟩, startsWith_dropWhile _ _⟩
    · simp at h

theorem readPart_exponent {o : Option Exponent} {r : Text} (h : ∀ e ∈ o, e.WellFormed)
    (hr : startsWith Char.isDigit r = false) (hnone : o = none → Exponent.read? r = none) :
    readPart Exponent.read? (o.elim [] Exponent.text ++ r) = (o, r) ∧
      startsWith Char.isDigit (o.elim [] Exponent.text ++ r) = false := by
  cases o with
  | none => exact ⟨by simp [readPart, hnone rfl], hr⟩
  | some e =>
    have he := h e rfl
    refine ⟨by simp [readPart, Exponent.read?_text he hr], ?_⟩
    rcases he.letter with hl | hl <;> simp [Exponent.text, hl]

theorem readPart_fraction {o : Option Text} {r : Text} (h : ∀ f ∈ o, f ≠ [] ∧ ∀ c ∈ f, c.isDigit = true)
    (hr : startsWith Char.isDigit r = false) (hnone : o = none → readFraction? r = none) :
    readPart readFraction? ((o.elim [] fun f => '.' :: f) ++ r) = (o, r) ∧
      startsWith Char.isDigit ((o.elim [] fun f => '.' :: f) ++ r) = false := by
  cases o with
  | none => exact ⟨by simp [readPart, hnone rfl], hr⟩
  | some f =>
    obtain ⟨hne, hf⟩ := h f rfl
    have hread := readFraction?_append_text hne hf hr
    rw [List.cons_append] at hread
    exact ⟨by simp [readPart, hread], by simp⟩

theorem readFraction?_exponent {o : Option Exponent} {r : Text} (h : ∀ e ∈ o, e.WellFormed)
    (hnone : o = none → readFraction? r = none) : readFraction? (o.elim [] Exponent.text ++ r) = none := by
  cases o with
  | none => exact hnone rfl
  | some e =>
    have hl : e.letter ≠ '.' := by
      rcases (h e rfl).letter with hl | hl <;> simp [hl]
    simp [Exponent.text, readFraction?, hl]

theorem read?_text {n : Numeral} {r : Text} (h : n.WellFormed) (hr : n.Ends r) :
    read? (n.text ++ r) = some (n, r) := by
  obtain ⟨hexponent, hdigit⟩ := readPart_exponent h.exponent hr.digit hr.exponent
  obtain ⟨hfraction, hstop⟩ := readPart_fraction h.fraction hdigit fun hf =>
    readFraction?_exponent h.exponent fun he => hr.fraction he hf
  have hunsigned : startsWith (fun c => decide (c = '-'))
      (n.whole ++ ((n.fraction.elim [] fun f => '.' :: f) ++ (n.exponent.elim [] Exponent.text ++ r))) = false := by
    cases hw : n.whole with
    | cons c cs =>
      have hc := h.whole c (by simp [hw])
      simp only [List.cons_append, startsWith_cons, decide_eq_false_iff_not]
      rintro rfl
      simp at hc
    | nil =>
      have hf := h.digits.resolve_left (absurd hw)
      obtain ⟨f, hf⟩ := Option.isSome_iff_exists.mp hf
      simp [hf]
  have hsign : Text.tailIf (fun c => decide (c = '-')) (n.text ++ r) =
      n.whole ++ ((n.fraction.elim [] fun f => '.' :: f) ++ (n.exponent.elim [] Exponent.text ++ r)) ∧
      Text.headIf (fun c => decide (c = '-')) (n.text ++ r) = n.sign := by
    rcases h.sign with hs | hs
    · simpa [text, hs] using Exponent.tailIf_of_stop hunsigned
    · simp [text, hs, Text.tailIf, Text.headIf]
  have hdigits : ¬(n.whole.isEmpty = true ∧ n.fraction.isNone = true) := by
    intro hnone
    rcases h.digits with hw | hf
    · exact hw (by simpa using hnone.1)
    · cases hn : n.fraction <;> simp_all
  simp only [read?, hsign, takeWhile_append_of_stop h.whole hstop, dropWhile_append_of_stop h.whole hstop,
    hfraction, hexponent, if_neg hdigits]

/-- What an optional part of a numeral is when `P` holds of every part that is read. -/
theorem readPart_spec {α : Type} {read? : Text → Option (α × Text)} {P : α → Prop} {t : Text}
    (hread : ∀ a r, read? t = some (a, r) → P a ∧ startsWith Char.isDigit r = false)
    (ht : startsWith Char.isDigit t = false) :
    (∀ a ∈ (readPart read? t).1, P a) ∧ startsWith Char.isDigit (readPart read? t).2 = false ∧
      ((readPart read? t).1 = none → read? t = none ∧ (readPart read? t).2 = t) := by
  cases h : read? t with
  | none => simp [readPart, h, ht]
  | some p =>
    have hp := hread p.1 p.2 h
    simp [readPart, h, hp]

theorem wellFormed_of_read? {n : Numeral} {t r : Text} (h : read? t = some (n, r)) : n.WellFormed ∧ n.Ends r := by
  simp only [read?] at h
  split at h
  · simp at h
  · next hd =>
    simp only [Option.some.injEq, Prod.mk.injEq] at h
    obtain ⟨rfl, rfl⟩ := h
    have hwhole := startsWith_dropWhile Char.isDigit (Text.tailIf (fun c => decide (c = '-')) t)
    generalize hu : (Text.tailIf (fun c => decide (c = '-')) t).dropWhile Char.isDigit = u at hd hwhole ⊢
    have hsign : Text.headIf (fun c => decide (c = '-')) t = [] ∨ Text.headIf (fun c => decide (c = '-')) t = ['-'] := by
      cases t with
      | nil => exact .inl rfl
      | cons c t => by_cases hc : c = '-' <;> simp [Text.headIf, hc]
    have hdigits : (Text.tailIf (fun c => decide (c = '-')) t).takeWhile Char.isDigit ≠ [] ∨
        (readPart readFraction? u).1.isSome := by
      by_cases hw : (Text.tailIf (fun c => decide (c = '-')) t).takeWhile Char.isDigit = []
      · refine .inr ?_
        cases hf : (readPart readFraction? u).1 with
        | none => exact absurd ⟨by simp [hw], by simp [hf]⟩ hd
        | some f => rfl
      · exact .inl hw
    obtain ⟨hfraction, hstop, hnone⟩ := readPart_spec (fun _ _ => wellFormed_of_readFraction?) hwhole
    obtain ⟨hexponent, hdigit, hnone'⟩ := readPart_spec (fun _ _ => Exponent.wellFormed_of_read?) hstop
    refine ⟨⟨hsign, fun _ hc => List.mem_takeWhile_imp hc, hfraction, hdigits, hexponent⟩, hdigit, ?_, ?_⟩
    · intro he
      obtain ⟨hr, h2⟩ := hnone' he
      rw [h2]
      exact hr
    · intro he hf
      obtain ⟨hr, h2⟩ := hnone hf
      rw [(hnone' he).2, h2]
      exact hr

end Numeral

namespace Measure

structure WellFormed (m : Measure) : Prop where
  number : m.number.WellFormed
  unit : m.unit = ['%'] ∨ ∀ c ∈ m.unit, c.isAlpha = true

/-- Nothing in `r` would be read along with the measure before it. -/
structure Ends (m : Measure) (r : Text) : Prop where
  number : m.number.Ends (m.unit ++ r)
  letter : m.unit ≠ ['%'] → startsWith Char.isAlpha r = false
  percent : m.unit = [] → startsWith (· == '%') r = false

theorem isAlpha_ne_percent {c : Char} (h : c.isAlpha = true) : c ≠ '%' := by
  rintro rfl
  simp at h

theorem readUnit_text {m : Measure} {r : Text} (h : m.WellFormed) (hr : m.Ends r) :
    readUnit (m.unit ++ r) = (m.unit, r) := by
  rcases h.unit with hu | hu
  · simp [hu, readUnit]
  · have hletter := hr.letter (by rintro hp; simp [hp] at hu)
    cases hs : m.unit ++ r with
    | nil =>
      obtain ⟨hu, hr⟩ := List.append_eq_nil_iff.mp hs
      simp [readUnit, hu, hr]
    | cons c cs =>
      have hc : c ≠ '%' := by
        cases hm : m.unit with
        | nil =>
          rw [hm, List.nil_append] at hs
          simpa [hs] using hr.percent hm
        | cons d ds =>
          rw [hm, List.cons_append, List.cons.injEq] at hs
          exact hs.1 ▸ isAlpha_ne_percent (hu d (by simp [hm]))
      rw [readUnit, if_neg hc, ← hs, takeWhile_append_of_stop hu hletter, dropWhile_append_of_stop hu hletter]

theorem read?_text {m : Measure} {r : Text} (h : m.WellFormed) (hr : m.Ends r) :
    read? (m.text ++ r) = some (m, r) := by
  rw [read?, text, List.append_assoc, Numeral.read?_text h.number hr.number]
  simp [readUnit_text h hr]

theorem wellFormed_of_read? {m : Measure} {t r : Text} (h : read? t = some (m, r)) : m.WellFormed ∧ m.Ends r := by
  simp only [read?] at h
  split at h
  · simp at h
  · next n u hn =>
    simp only [Option.some.injEq, Prod.mk.injEq] at h
    obtain ⟨rfl, rfl⟩ := h
    obtain ⟨hwf, hends⟩ := Numeral.wellFormed_of_read? hn
    have happend := readUnit_append u
    cases u with
    | nil =>
      exact ⟨⟨hwf, .inr (by simp [readUnit])⟩, ⟨by simpa [readUnit] using hends, fun _ => rfl, fun _ => rfl⟩⟩
    | cons c cs =>
      by_cases hc : c = '%'
      · refine ⟨⟨hwf, .inl (by simp [readUnit, hc])⟩, ⟨by rwa [happend], ?_, ?_⟩⟩ <;> simp [readUnit, hc]
      · have hunit : readUnit (c :: cs) = ((c :: cs).takeWhile Char.isAlpha, (c :: cs).dropWhile Char.isAlpha) := by
          simp [readUnit, hc]
        refine ⟨⟨hwf, .inr ?_⟩, ⟨by rwa [happend], ?_, ?_⟩⟩
        · rw [hunit]
          intro d hd
          exact List.mem_takeWhile_imp hd
        · intro _
          rw [hunit]
          exact startsWith_dropWhile _ _
        · rw [hunit]
          intro hnil
          cases ha : c.isAlpha <;> simp_all

theorem wellFormed_of_parse? {text unit : Text} {v : Float} (h : parse? text = some (v, unit)) :
    ∃ m : Measure, m.WellFormed ∧ m.text = text ∧ m.number.value = v ∧ m.unit = unit := by
  unfold parse? at h
  split at h
  · next m hm =>
    obtain ⟨rfl, rfl⟩ := Prod.mk.inj (Option.some.inj h)
    exact ⟨m, (wellFormed_of_read? hm).1, by simpa using read?_append hm, rfl, rfl⟩
  · cases h

end Measure

/-- The characters with which no reader of names and numerals goes on. -/
def boundaries : List Char := [' ', ',', ';', ':', '{', '}', '!']

theorem not_of_boundary {p : Char → Bool} (hp : boundaries.all (!p ·) = true) {c : Char} (hc : c ∈ boundaries) :
    p c = false := by
  simpa using List.all_eq_true.mp hp c hc

/-- A reader that stops before `r` sees no more in `r'`: its first character is a boundary or that of `r`, and no
digit follows it that does not follow it there. -/
def Ahead (r r' : Text) : Prop :=
  ∀ d u', r' = d :: u' → d ∉ boundaries →
    ∃ u, r = d :: u ∧ (startsWith Char.isDigit u' = true → startsWith Char.isDigit u = true)

/-- A text that is empty or begins with a boundary. -/
def Bounded (r : Text) : Prop := ∀ c ∈ r.head?, c ∈ boundaries

theorem Bounded.nil : Bounded [] := nofun

theorem Bounded.cons {c : Char} (h : c ∈ boundaries) (r : Text) : Bounded (c :: r) := by
  simpa [Bounded] using h

theorem Bounded.startsWith_false {p : Char → Bool} {r : Text} (h : Bounded r) (hp : ∀ c ∈ boundaries, p c = false) :
    startsWith p r = false := by
  cases r with
  | nil => rfl
  | cons c r => exact hp c (h c rfl)

namespace Ahead

variable {r r' : Text}

/-- Nothing goes on with a boundary. -/
theorem of_bounded (h : Bounded r') (r : Text) : Ahead r r' := by
  intro d u' hd hne
  subst hd
  exact absurd (h d rfl) hne

theorem startsWith_false {p : Char → Bool} (h : Ahead r r') (hp : boundaries.all (!p ·) = true)
    (hr : startsWith p r = false) : startsWith p r' = false := by
  cases r' with
  | nil => rfl
  | cons d u' =>
    by_cases hd : d ∈ boundaries
    · exact not_of_boundary hp hd
    · obtain ⟨u, rfl, -⟩ := h d u' rfl hd
      exact hr

/-- The same characters may be put before both. -/
theorem append (h : Ahead r r') (a : Text) : Ahead (a ++ r) (a ++ r') := by
  intro d u' hd hne
  cases a with
  | nil => exact h d u' hd hne
  | cons c a =>
    simp only [List.cons_append, List.cons.injEq] at hd
    obtain ⟨rfl, rfl⟩ := hd
    refine ⟨a ++ r, rfl, ?_⟩
    intro hdigit
    cases a with
    | nil =>
      cases hr : startsWith Char.isDigit r with
      | true => exact hr
      | false =>
        have := h.startsWith_false (by decide) hr
        rw [List.nil_append, this] at hdigit
        contradiction
    | cons e a => exact hdigit

theorem readFraction? (h : Ahead r r') (hr : Numeral.readFraction? r = none) : Numeral.readFraction? r' = none := by
  cases r' with
  | nil => rfl
  | cons d u' =>
    rw [Numeral.readFraction?_eq_none]
    by_cases hd : d = '.'
    · obtain ⟨u, rfl, hu⟩ := h d u' rfl (by rw [hd]; decide)
      have hstop := ((Numeral.readFraction?_eq_none d u).mp hr).resolve_left (by simp [hd])
      refine .inr ?_
      cases hu' : startsWith Char.isDigit u' with
      | false => rfl
      | true => rw [hu hu'] at hstop; contradiction
    · exact .inl hd

/-- After a sign that may follow an `e` there is no digit if there is none in `r`. -/
theorem tailIf_isSign (h : Ahead r r') (hr : startsWith Char.isDigit (Text.tailIf Exponent.isSign r) = false) :
    startsWith Char.isDigit (Text.tailIf Exponent.isSign r') = false := by
  cases r' with
  | nil => rfl
  | cons d u' =>
    by_cases hd : d ∈ boundaries
    · have hsign : Exponent.isSign d = false := not_of_boundary (by decide) hd
      have hdigit : d.isDigit = false := not_of_boundary (by decide) hd
      rw [Text.tailIf, hsign]
      exact hdigit
    · obtain ⟨u, rfl, hu⟩ := h d u' rfl hd
      cases hs : Exponent.isSign d with
      | false => simpa [Text.tailIf, hs] using hr
      | true =>
        simp only [Text.tailIf, hs, if_true] at hr ⊢
        cases hu' : startsWith Char.isDigit u' with
        | false => rfl
        | true => rw [hu hu'] at hr; contradiction

theorem exponent (h : Ahead r r') {unit : Text} (hu : unit = ['%'] ∨ ∀ c ∈ unit, c.isAlpha = true)
    (hletter : unit ≠ ['%'] → startsWith Char.isAlpha r = false) (hr : Exponent.read? (unit ++ r) = none) :
    Exponent.read? (unit ++ r') = none := by
  cases unit with
  | nil =>
    have hstop := h.startsWith_false (p := Char.isAlpha) (by decide) (hletter (by simp))
    cases r' with
    | nil => rfl
    | cons d u' =>
      refine (Exponent.read?_eq_none d u').mpr (.inl ?_)
      rintro (rfl | rfl) <;> simp at hstop
  | cons c unit =>
    rw [List.cons_append, Exponent.read?_eq_none] at hr ⊢
    refine hr.imp_right fun hr => ?_
    cases unit with
    | nil => exact h.tailIf_isSign hr
    | cons d unit =>
      have hd : d.isAlpha = true := hu.resolve_left (by simp) d (by simp)
      have hs : Exponent.isSign d = false := by
        simp only [Exponent.isSign, decide_eq_false_iff_not, not_or]
        constructor <;> (rintro rfl; simp at hd)
      simpa [Text.tailIf, hs] using hr

end Ahead

theorem Measure.Ends.ahead {m : Measure} {r r' : Text} (hm : m.WellFormed) (hr : m.Ends r) (h : Ahead r r') :
    m.Ends r' where
  number :=
    { digit := (h.append m.unit).startsWith_false (by decide) hr.number.digit
      exponent := fun he => h.exponent hm.unit hr.letter (hr.number.exponent he)
      fraction := fun he hf => (h.append m.unit).readFraction? (hr.number.fraction he hf) }
  letter := fun hu => h.startsWith_false (by decide) (hr.letter hu)
  percent := fun hu => h.startsWith_false (by decide) (hr.percent hu)

end LessCss
