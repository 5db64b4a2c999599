import LessCss.Proofs.Number.Accuracy
/-!
When two doubles have the same text.

The texts of finite doubles that denote the same number are the same, except for zero. A negative double that rounds
to zero loses its minus only if it is negligible, and a `SignedZero` keeps it (`render_eq_iff`).
-/
namespace LessCss

/-- A text is a numeral from end to end, and this numeral denotes the number. -/
def Text.Denotes (t : Text) (q : ℚ) : Prop := ∃ n : Numeral, Numeral.read? t = some (n, []) ∧ n.rational = q

theorem Text.Denotes.unique {t : Text} {p q : ℚ} (hp : t.Denotes p) (hq : t.Denotes q) : p = q := by
  obtain ⟨n, hn, rfl⟩ := hp
  obtain ⟨m, hm, rfl⟩ := hq
  obtain ⟨rfl, -⟩ := Prod.mk.inj (Option.some.inj (hn.symm.trans hm))
  rfl

namespace FourPlaces

variable {v w : Float} {q : ℚ}

/-- A negative double that rounds to zero at four decimal places and is no less than a thousand-millionth in
magnitude. -/
structure SignedZero (v : Float) : Prop where
  negative : rational v < 0
  least : rational 1e-9 ≤ |rational v|
  most : |rational v| ≤ 1 / 20000

theorem abs_rational (h : (fields v).isFinite = true) : |rational v| = (fields v).magnitude / unitsOfOne := by
  rw [rational_eq v h, abs_mul, Fields.abs_factor, one_mul, abs_of_nonneg]
  positivity

theorem rational_eq_factor_mul (h : (fields v).isFinite = true) : rational v = (fields v).factor * |rational v| := by
  rw [abs_rational h, ← rational_eq v h]

theorem cast_unitsOfOne_pos : (0 : ℚ) < unitsOfOne := Nat.cast_pos.mpr unitsOfOne_pos

theorem rational_leastSigned : rational 1e-9 = Fields.leastSigned.magnitude / unitsOfOne := by
  have hfields : fields 1e-9 = Fields.leastSigned := by decide +kernel
  rw [rational_eq 1e-9 (by rw [hfields]; rfl), hfields]
  exact one_mul _

/-- The doubles that are negligible are those below a thousand-millionth. -/
theorem isNegligible_iff (h : (fields v).isFinite = true) :
    (fields v).isNegligible = true ↔ |rational v| < rational 1e-9 := by
  rw [Fields.isNegligible, decide_eq_true_iff, abs_rational h, rational_leastSigned,
    div_lt_div_iff_of_pos_right cast_unitsOfOne_pos, Nat.cast_lt]

/-- The doubles that round to zero are those up to half a ten-thousandth. -/
theorem tenThousandths_eq_zero_iff (h : (fields v).isFinite = true) :
    tenThousandths (fields v) = 0 ↔ |rational v| ≤ 1 / 20000 := by
  rw [abs_rational h]
  constructor
  · intro hzero
    have hnear := tenThousandths_near (fields v)
    rw [hzero, Nat.cast_zero, zero_div, zero_sub, abs_neg] at hnear
    exact (le_abs_self _).trans hnear
  · intro hle
    rw [div_le_div_iff₀ cast_unitsOfOne_pos (by norm_num), one_mul] at hle
    have hunits : (fields v).magnitude * 20000 ≤ unitsOfOne := by exact_mod_cast hle
    rw [tenThousandths_eq]
    exact roundDiv_eq_zero unitsOfOne_pos (by omega)

theorem not_isNegligible {f : Fields} (h : tenThousandths f ≠ 0) : f.isNegligible = false :=
  Bool.eq_false_iff.mpr (mt tenThousandths_of_isNegligible h)

theorem signedZero_iff (h : (fields v).isFinite = true) (hzero : tenThousandths (fields v) = 0) :
    SignedZero v ↔ ((fields v).negative && !(fields v).isNegligible) = true := by
  -- zero itself is negligible, so a double with a minus that is not negligible is below zero
  have hpos : (0 : ℚ) < rational 1e-9 := by
    rw [rational_leastSigned]
    exact div_pos (Nat.cast_pos.mpr (by decide +kernel)) cast_unitsOfOne_pos
  rw [Bool.and_eq_true, Bool.not_eq_true', Bool.eq_false_iff, ne_eq, isNegligible_iff h, not_lt]
  have hsign := rational_eq_factor_mul h
  unfold Fields.factor at hsign
  constructor
  · intro hs
    refine ⟨?_, hs.least⟩
    by_contra hnegative
    rw [if_neg hnegative, one_mul] at hsign
    exact absurd hs.negative (not_lt.mpr (hsign ▸ abs_nonneg _))
  · rintro ⟨hnegative, hleast⟩
    rw [if_pos hnegative, neg_one_mul] at hsign
    exact ⟨by linarith, hleast, (tenThousandths_eq_zero_iff h).mp hzero⟩

theorem SignedZero.tenThousandths (hs : SignedZero v) (h : (fields v).isFinite = true) :
    tenThousandths (fields v) = 0 := (tenThousandths_eq_zero_iff h).mpr hs.most

theorem read?_numeral (v : Float) : Numeral.read? (numeral v).text = some (numeral v, []) := by
  rw [← List.append_nil (numeral v).text]
  exact Numeral.read?_text (numeral_wellFormed v) ⟨rfl, fun _ => rfl, fun _ _ => rfl⟩

theorem denotes_render (h : (fields v).isFinite = true) :
    (render v).Denotes ((fields v).factor * (tenThousandths (fields v) / 10000)) := by
  refine ⟨numeral v, ?_, numeral_rational v⟩
  rw [render_of_finite h, read?_numeral]

theorem render_eq (h : (fields v).isFinite = true) : render v =
    (if (fields v).negative && !(fields v).isNegligible then ['-'] else []) ++ decimal (tenThousandths (fields v)) := by
  rw [render, if_pos h]

theorem denotes_zero (h : (fields v).isFinite = true) (hzero : tenThousandths (fields v) = 0) :
    (render v).Denotes 0 := by
  have hd := denotes_render h
  rwa [hzero, Nat.cast_zero, zero_div, mul_zero] at hd

/-- The text of a double denotes zero exactly if the double rounds to zero. -/
theorem denotes_zero_iff (h : (fields v).isFinite = true) (hd : (render v).Denotes q) :
    q = 0 ↔ tenThousandths (fields v) = 0 := by
  have hfactor : (fields v).factor ≠ 0 := by
    rw [← abs_pos, Fields.abs_factor]
    exact one_pos
  rw [hd.unique (denotes_render h), mul_eq_zero, or_iff_right hfactor, div_eq_zero_iff, Nat.cast_eq_zero]
  exact or_iff_left (by norm_num)

theorem render_zero (h : (fields v).isFinite = true) (hzero : tenThousandths (fields v) = 0) :
    (SignedZero v → render v = "-0".toList) ∧ (¬SignedZero v → render v = "0".toList) := by
  rw [render_eq h, hzero, signedZero_iff h hzero]
  constructor
  · intro hs
    rw [if_pos hs]
    rfl
  · intro hs
    rw [if_neg hs]
    rfl

/-- Two doubles that round to zero have the same text if both keep their minus or none does. -/
theorem render_eq_iff_of_zero (hv : (fields v).isFinite = true) (hw : (fields w).isFinite = true)
    (hzero : tenThousandths (fields v) = 0) (hzero' : tenThousandths (fields w) = 0) :
    render v = render w ↔ (SignedZero v ↔ SignedZero w) := by
  obtain ⟨hminus, hplain⟩ := render_zero hv hzero
  obtain ⟨hminus', hplain'⟩ := render_zero hw hzero'
  by_cases hs : SignedZero v <;> by_cases hs' : SignedZero w
  · rw [hminus hs, hminus' hs']
    exact iff_of_true rfl (iff_of_true hs hs')
  · rw [hminus hs, hplain' hs']
    exact iff_of_false (by decide) fun h => hs' (h.mp hs)
  · rw [hplain hs, hminus' hs']
    exact iff_of_false (by decide) fun h => hs (h.mpr hs')
  · rw [hplain hs, hplain' hs']
    exact iff_of_true rfl (iff_of_false hs hs')

/-- A number other than zero has one sign and one magnitude. -/
theorem Fields.eq_of_factor_mul {f g : Fields} {m n : ℚ} (hm : 0 < m) (hn : 0 < n)
    (h : f.factor * m = g.factor * n) : f.negative = g.negative ∧ m = n := by
  unfold Fields.factor at h
  cases hf : f.negative <;> cases hg : g.negative <;>
    simp only [hf, hg, if_true, if_false, Bool.false_eq_true] at h
  · exact ⟨rfl, by linarith⟩
  · linarith
  · linarith
  · exact ⟨rfl, by linarith⟩

/-- Two doubles that do not round to zero have the same text if their texts denote the same number. -/
theorem render_eq_of_ne_zero (hv : (fields v).isFinite = true) (hw : (fields w).isFinite = true)
    (hdv : (render v).Denotes q) (hdw : (render w).Denotes q) (hq : q ≠ 0) : render v = render w := by
  have hne := mt (denotes_zero_iff hv hdv).mpr hq
  have hne' := mt (denotes_zero_iff hw hdw).mpr hq
  have hpos : ∀ {f : Fields}, tenThousandths f ≠ 0 → (0 : ℚ) < tenThousandths f / 10000 := by
    intro f hf
    exact div_pos (Nat.cast_pos.mpr (Nat.pos_of_ne_zero hf)) (by norm_num)
  have hnumber := (hdv.unique (denotes_render hv)).symm.trans (hdw.unique (denotes_render hw))
  obtain ⟨hsign, hmagnitude⟩ := Fields.eq_of_factor_mul (hpos hne) (hpos hne') hnumber
  have hsame : tenThousandths (fields v) = tenThousandths (fields w) := by
    rwa [div_left_inj' (by norm_num), Nat.cast_inj] at hmagnitude
  rw [render_eq hv, render_eq hw, not_isNegligible hne, not_isNegligible hne', hsign, hsame]

/-- Two finite doubles whose texts denote the same number have the same text unless only one of them is a
`SignedZero`, which is written as `-0`. Every other double that rounds to zero is written as `0`. -/
theorem render_eq_iff (hv : v.isFinite = true) (hw : w.isFinite = true) (hdv : (render v).Denotes q)
    (hdw : (render w).Denotes q) :
    (render v = render w ↔ (SignedZero v ↔ SignedZero w)) ∧
      (SignedZero v → q = 0 ∧ render v = "-0".toList) ∧
      (|rational v| ≤ 1 / 20000 → ¬SignedZero v → render v = "0".toList) := by
  rw [isFinite_eq] at hv hw
  have hzero := denotes_zero_iff hv hdv
  have hzero' := denotes_zero_iff hw hdw
  refine ⟨?_, ?_, ?_⟩
  -- only a text that denotes zero leaves open whether there is a minus
  · by_cases hq : q = 0
    · exact render_eq_iff_of_zero hv hw (hzero.mp hq) (hzero'.mp hq)
    · have hunsigned : ¬SignedZero v := fun hs => hq (hzero.mpr (hs.tenThousandths hv))
      have hunsigned' : ¬SignedZero w := fun hs => hq (hzero'.mpr (hs.tenThousandths hw))
      exact iff_of_true (render_eq_of_ne_zero hv hw hdv hdw hq) (iff_of_false hunsigned hunsigned')
  · intro hs
    have hround := hs.tenThousandths hv
    exact ⟨hzero.mpr hround, (render_zero hv hround).1 hs⟩
  · intro hmost hs
    exact (render_zero hv ((tenThousandths_eq_zero_iff hv).mpr hmost)).2 hs

/-- The double nearest to minus a thousand-millionth has the text `-0`, and its neighbour on the side of zero has the
text `0`. -/
theorem render_eq_iff_neighbours :
    let v := Float.ofBits 0xBE112E0BE826D695
    let w := Float.ofBits 0xBE112E0BE826D694
    v.isFinite = true ∧ w.isFinite = true ∧ (render v).Denotes 0 ∧ (render w).Denotes 0 ∧
      SignedZero v ∧ ¬SignedZero w ∧
      (render v = render w ↔ (SignedZero v ↔ SignedZero w)) ∧
      (SignedZero v → (0 : ℚ) = 0 ∧ render v = "-0".toList) ∧
      (|rational v| ≤ 1 / 20000 → ¬SignedZero v → render v = "0".toList) := by
  intro v w
  have hv : v.isFinite = true := by decide +kernel
  have hw : w.isFinite = true := by decide +kernel
  have hfinite : (fields v).isFinite = true := (isFinite_eq v).symm.trans hv
  have hfinite' : (fields w).isFinite = true := (isFinite_eq w).symm.trans hw
  have hzero : tenThousandths (fields v) = 0 := by decide +kernel
  have hzero' : tenThousandths (fields w) = 0 := by decide +kernel
  have hdv := denotes_zero hfinite hzero
  have hdw := denotes_zero hfinite' hzero'
  refine ⟨hv, hw, hdv, hdw, ?_, ?_, render_eq_iff hv hw hdv hdw⟩
  · rw [signedZero_iff hfinite hzero]
    decide +kernel
  · rw [signedZero_iff hfinite' hzero']
    decide +kernel

/-- The double nearest to minus a hundred-thousandth rounds to zero, and its text denotes zero, but it is not the text
of zero. -/
theorem render_signedZero :
    let v := Float.ofBits 0xBEE4F8B588E368F1
    v.isFinite = true ∧ (0 : Float).isFinite = true ∧ |rational v| ≤ 1 / 20000 ∧ (render v).Denotes 0 ∧
      (render 0).Denotes 0 ∧ render v = "-0".toList ∧ render 0 = "0".toList ∧ render v ≠ render 0 := by
  intro v
  have hv : v.isFinite = true := by decide +kernel
  have hw : (0 : Float).isFinite = true := by decide +kernel
  have hfinite : (fields v).isFinite = true := (isFinite_eq v).symm.trans hv
  have hfinite' : (fields 0).isFinite = true := (isFinite_eq 0).symm.trans hw
  have hzero : tenThousandths (fields v) = 0 := by decide +kernel
  have hzero' : tenThousandths (fields 0) = 0 := by decide +kernel
  have hmost : |rational v| ≤ 1 / 20000 := (tenThousandths_eq_zero_iff hfinite).mp hzero
  have hminus : render v = "-0".toList := by decide +kernel
  have hplain : render 0 = "0".toList := by decide +kernel
  have hne : render v ≠ render 0 := by
    rw [hminus, hplain]
    decide
  exact ⟨hv, hw, hmost, denotes_zero hfinite hzero, denotes_zero hfinite' hzero', hminus, hplain, hne⟩

end FourPlaces
end LessCss
