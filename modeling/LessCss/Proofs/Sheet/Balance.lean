import LessCss.Proofs.Sheet.Nesting
/-!
Braces that pair up, seen by counting them.

`depth` is the number of blocks that a row of tokens opens less the number that it closes. A `}` is stray where
no block is open, and a `{` is unclosed if nothing after it closes its block. The look at the braces reports the
first stray `}`, else an unclosed `{`, else the first `{` that opens a block beyond the limit.
-/
namespace LessCss.Braces

/-- What a token adds to the number of open blocks. -/
def step (t : Token) : Int := if t.kind = .lbrace then 1 else if t.kind = .rbrace then -1 else 0

/-- The number of `{` in a row of tokens less the number of `}`. -/
def depth (ts : List Token) : Int := ts.countP (·.kind = .lbrace) - ts.countP (·.kind = .rbrace)

/-- A `}` where no block is open, `d` being the number of open blocks before it. -/
def Stray (d : Int) (t : Token) : Prop := t.kind = .rbrace ∧ d ≤ 0

/-- A `{` where as many blocks are open as may be. -/
def TooDeep (d : Int) (t : Token) : Prop := t.kind = .lbrace ∧ maxNesting ≤ d

/-- A `{` with nothing after it that closes its block. -/
def Unclosed (t : Token) (after : List Token) : Prop := t.kind = .lbrace ∧ ∀ p, p <+: after → 0 ≤ depth p

/-- The first token of a row that has a property at its depth, when the row begins at depth `d`. -/
def IsFirst (R : Int → Token → Prop) (d : Int) (ts : List Token) (t : Token) : Prop :=
  ∃ before after, ts = before ++ t :: after ∧ R (d + depth before) t ∧
    ∀ b u a, before = b ++ u :: a → ¬R (d + depth b) u

/-- No token of a row that begins at depth `d` has a property at its depth. -/
def Lacks (R : Int → Token → Prop) (d : Int) (ts : List Token) : Prop :=
  ∀ before t after, ts = before ++ t :: after → ¬R (d + depth before) t

/-- Every `}` closes a block, and every block is closed. -/
structure Balanced (ts : List Token) : Prop where
  lacks_stray : Lacks Stray 0 ts
  closed : ∀ before t after, ts = before ++ t :: after → ¬Unclosed t after

variable {R : Int → Token → Prop} {d : Int} {opened : Nat} {t u : Token} {ts : List Token}

/-- A token opens a block, closes one or does neither. -/
theorem brace_cases (t : Token) : t.kind = .lbrace ∨ t.kind = .rbrace ∨ isBrace t = false := by
  by_cases hl : t.kind = .lbrace
  · exact .inl hl
  · by_cases hr : t.kind = .rbrace
    · exact .inr (.inl hr)
    · exact .inr (.inr (by simp [isBrace, hl, hr]))

theorem step_lbrace (h : t.kind = .lbrace) : step t = 1 := by simp [step, h]

theorem step_rbrace (h : t.kind = .rbrace) : step t = -1 := by simp [step, h]

theorem step_other (h : isBrace t = false) : step t = 0 := by
  simp only [isBrace, decide_eq_false_iff_not, not_or] at h
  simp [step, h]

theorem depth_cons (t : Token) (ts : List Token) : depth (t :: ts) = step t + depth ts := by
  rcases brace_cases t with h | h | h
  · simp [depth, step, h]
    omega
  · simp [depth, step, h]
    omega
  · rw [step_other h]
    simp only [isBrace, decide_eq_false_iff_not, not_or] at h
    simp [depth, h]

theorem depth_append (ts us : List Token) : depth (ts ++ us) = depth ts + depth us := by
  simp only [depth, List.countP_append]
  omega

theorem isFirst_cons :
    IsFirst R d (t :: ts) u ↔ (R d t ∧ t = u) ∨ (¬R d t ∧ IsFirst R (d + step t) ts u) := by
  have hdepth : ∀ b : List Token, d + depth (t :: b) = d + step t + depth b := by
    intro b
    rw [depth_cons, Int.add_assoc]
  have hnil : d + depth [] = d := Int.add_zero d
  constructor
  · rintro ⟨before, after, hts, hu, hfirst⟩
    cases before with
    | nil =>
      obtain ⟨rfl, -⟩ := List.cons.inj hts
      exact .inl ⟨hnil ▸ hu, rfl⟩
    | cons v before =>
      obtain ⟨rfl, rfl⟩ := List.cons.inj hts
      refine .inr ⟨hnil ▸ hfirst [] t before rfl, before, after, rfl, hdepth before ▸ hu, ?_⟩
      intro b w a hb
      exact hdepth b ▸ hfirst (t :: b) w a (by rw [hb, List.cons_append])
  · rintro (⟨ht, rfl⟩ | ⟨ht, before, after, rfl, hu, hfirst⟩)
    · exact ⟨[], ts, rfl, hnil.symm ▸ ht, by simp⟩
    · refine ⟨t :: before, after, rfl, (hdepth before).symm ▸ hu, ?_⟩
      intro b w a hb
      cases b with
      | nil =>
        obtain ⟨rfl, -⟩ := List.cons.inj hb
        exact hnil.symm ▸ ht
      | cons v b =>
        obtain ⟨rfl, rfl⟩ := List.cons.inj hb
        exact (hdepth b).symm ▸ hfirst b w a rfl

theorem not_isFirst_nil : ¬IsFirst R d [] u := by
  rintro ⟨before, after, hts, -⟩
  simp at hts

theorem lacks_nil : Lacks R d [] := by
  intro before t after hts
  simp at hts

theorem lacks_cons : Lacks R d (t :: ts) ↔ ¬R d t ∧ Lacks R (d + step t) ts := by
  have hdepth : ∀ b : List Token, d + depth (t :: b) = d + step t + depth b := by
    intro b
    rw [depth_cons, Int.add_assoc]
  have hnil : d + depth [] = d := Int.add_zero d
  constructor
  · intro h
    refine ⟨hnil ▸ h [] t ts rfl, ?_⟩
    intro before u after hts
    exact hdepth before ▸ h (t :: before) u after (by rw [hts, List.cons_append])
  · rintro ⟨ht, h⟩ before u after hts
    cases before with
    | nil =>
      obtain ⟨rfl, -⟩ := List.cons.inj hts
      exact hnil.symm ▸ ht
    | cons v before =>
      obtain ⟨rfl, rfl⟩ := List.cons.inj hts
      exact (hdepth before).symm ▸ h before u after rfl

/-- A row lacks a property, or one of its tokens is the first to have it. -/
theorem lacks_or_isFirst (R : Int → Token → Prop) (d : Int) (ts : List Token) :
    Lacks R d ts ∨ ∃ t, IsFirst R d ts t := by
  induction ts generalizing d with
  | nil => exact .inl lacks_nil
  | cons t ts ih =>
    by_cases ht : R d t
    · exact .inr ⟨t, isFirst_cons.mpr (.inl ⟨ht, rfl⟩)⟩
    · rcases ih (d + step t) with h | ⟨u, hu⟩
      · exact .inl (lacks_cons.mpr ⟨ht, h⟩)
      · exact .inr ⟨u, isFirst_cons.mpr (.inr ⟨ht, hu⟩)⟩

theorem unpaired?_lbrace (h : t.kind = .lbrace) : unpaired? opened (t :: ts) = unpaired? (opened + 1) ts := by
  simp [unpaired?, h]

theorem unpaired?_rbrace (h : t.kind = .rbrace) : unpaired? (opened + 1) (t :: ts) = unpaired? opened ts := by
  simp [unpaired?, h]

theorem unpaired?_other (h : isBrace t = false) : unpaired? opened (t :: ts) = unpaired? opened ts := by
  simp only [isBrace, decide_eq_false_iff_not, not_or] at h
  rw [unpaired?]
  split
  · exact absurd ‹_› h.1
  · exact absurd ‹_› h.2
  · rfl

theorem tooDeep?_rbrace (h : t.kind = .rbrace) : tooDeep? (opened + 1) (t :: ts) = tooDeep? opened ts := by
  simp [tooDeep?, h]

theorem tooDeep?_other (h : isBrace t = false) : tooDeep? opened (t :: ts) = tooDeep? opened ts := by
  simp only [isBrace, decide_eq_false_iff_not, not_or] at h
  rw [tooDeep?]
  split
  · exact absurd ‹_› h.1
  · exact absurd ‹_› h.2
  · rfl

theorem add_step_lbrace (h : t.kind = .lbrace) : (opened : Int) + step t = (opened + 1 : Nat) := by
  rw [step_lbrace h]
  rfl

theorem add_step_rbrace (h : t.kind = .rbrace) : ((opened + 1 : Nat) : Int) + step t = opened := by
  rw [step_rbrace h]
  omega

theorem add_step_other (h : isBrace t = false) : (opened : Int) + step t = opened := by
  rw [step_other h, Int.add_zero]

/-- Where a `}` is not stray, a block is open. -/
theorem exists_opened (h : t.kind = .rbrace) (hs : ¬Stray opened t) : ∃ n, opened = n + 1 := by
  cases opened with
  | zero => exact absurd ⟨h, Int.le_refl 0⟩ hs
  | succ n => exact ⟨n, rfl⟩

theorem unpaired?_of_isFirst (h : IsFirst Stray opened ts t) :
    unpaired? opened ts = some (Fault.unexpectedClose.blame t.position) := by
  induction ts generalizing opened with
  | nil => exact absurd h not_isFirst_nil
  | cons u ts ih =>
    rcases isFirst_cons.mp h with ⟨⟨hk, hd⟩, rfl⟩ | ⟨hs, hrest⟩
    · obtain rfl : opened = 0 := by omega
      simp [unpaired?, hk]
    · rcases brace_cases u with hk | hk | hk
      · rw [unpaired?_lbrace hk]
        exact ih (add_step_lbrace hk ▸ hrest)
      · obtain ⟨n, rfl⟩ := exists_opened hk hs
        rw [unpaired?_rbrace hk]
        exact ih (add_step_rbrace hk ▸ hrest)
      · rw [unpaired?_other hk]
        exact ih (add_step_other hk ▸ hrest)

/-- Without stray braces all that counts is whether a block is open in the end. -/
theorem unpaired?_of_lacks (h : Lacks Stray opened ts) :
    unpaired? opened ts = if opened + depth ts = 0 then none else some ⟨.missingClose, none⟩ := by
  induction ts generalizing opened with
  | nil => simp [unpaired?, depth]
  | cons u ts ih =>
    obtain ⟨hs, hrest⟩ := lacks_cons.mp h
    rw [depth_cons, ← Int.add_assoc]
    rcases brace_cases u with hk | hk | hk
    · rw [add_step_lbrace hk] at hrest ⊢
      rw [unpaired?_lbrace hk, ih hrest]
    · obtain ⟨n, rfl⟩ := exists_opened hk hs
      rw [add_step_rbrace hk] at hrest ⊢
      rw [unpaired?_rbrace hk, ih hrest]
    · rw [add_step_other hk] at hrest ⊢
      rw [unpaired?_other hk, ih hrest]

theorem tooDeep?_of_isFirst (hs : Lacks Stray opened ts) (h : IsFirst TooDeep opened ts t) :
    tooDeep? opened ts = some (Fault.blocksTooDeep.blame t.position) := by
  induction ts generalizing opened with
  | nil => exact absurd h not_isFirst_nil
  | cons u ts ih =>
    obtain ⟨hu, hs⟩ := lacks_cons.mp hs
    rcases isFirst_cons.mp h with ⟨⟨hk, hd⟩, rfl⟩ | ⟨hd, hrest⟩
    · have hle : maxNesting ≤ opened := by omega
      simp [tooDeep?, hk, hle]
    · rcases brace_cases u with hk | hk | hk
      · have hle : ¬maxNesting ≤ opened := fun hle => hd ⟨hk, by omega⟩
        rw [add_step_lbrace hk] at hs hrest
        simpa [tooDeep?, hk, hle] using ih hs hrest
      · obtain ⟨n, rfl⟩ := exists_opened hk hu
        rw [add_step_rbrace hk] at hs hrest
        rw [tooDeep?_rbrace hk, ih hs hrest]
      · rw [add_step_other hk] at hs hrest
        rw [tooDeep?_other hk, ih hs hrest]

theorem tooDeep?_of_lacks (hs : Lacks Stray opened ts) (h : Lacks TooDeep opened ts) :
    tooDeep? opened ts = none := by
  induction ts generalizing opened with
  | nil => rfl
  | cons u ts ih =>
    obtain ⟨hu, hs⟩ := lacks_cons.mp hs
    obtain ⟨hd, hrest⟩ := lacks_cons.mp h
    rcases brace_cases u with hk | hk | hk
    · have hle : ¬maxNesting ≤ opened := fun hle => hd ⟨hk, by omega⟩
      rw [add_step_lbrace hk] at hs hrest
      simpa [tooDeep?, hk, hle] using ih hs hrest
    · obtain ⟨n, rfl⟩ := exists_opened hk hu
      rw [add_step_rbrace hk] at hs hrest
      rw [tooDeep?_rbrace hk, ih hs hrest]
    · rw [add_step_other hk] at hs hrest
      rw [tooDeep?_other hk, ih hs hrest]

/-- Without stray braces no more blocks are closed than opened, wherever one stops. -/
theorem depth_nonneg (h : Lacks Stray d ts) (hd : 0 ≤ d) {p : List Token} (hp : p <+: ts) : 0 ≤ d + depth p := by
  induction p generalizing d ts with
  | nil => simpa [depth] using hd
  | cons t p ih =>
    obtain ⟨us, rfl⟩ := hp
    obtain ⟨ht, hrest⟩ := lacks_cons.mp h
    rw [depth_cons, ← Int.add_assoc]
    refine ih hrest ?_ (List.prefix_append p us)
    rcases brace_cases t with hk | hk | hk
    · rw [step_lbrace hk]
      omega
    · have hpos : ¬d ≤ 0 := fun hle => ht ⟨hk, hle⟩
      rw [step_rbrace hk]
      omega
    · rwa [step_other hk, Int.add_zero]

/-- Where a block is open in the end, one that is opened in the row is never closed, or else there is always an open
block. -/
theorem unclosed_or_depth_pos (hp : ∀ p, p <+: ts → 0 ≤ d + depth p) (hd : 0 < d + depth ts) :
    (∃ before t after, ts = before ++ t :: after ∧ Unclosed t after) ∨ ∀ p, p <+: ts → 0 < d + depth p := by
  induction ts generalizing d with
  | nil =>
    refine .inr ?_
    intro p hp
    rwa [List.prefix_nil.mp hp]
  | cons t ts ih =>
    have hshift : ∀ p : List Token, d + depth (t :: p) = d + step t + depth p := by
      intro p
      rw [depth_cons, Int.add_assoc]
    have hprefix : ∀ p, p <+: ts → 0 ≤ d + step t + depth p :=
      fun p hpre => hshift p ▸ hp (t :: p) (List.cons_prefix_cons.mpr ⟨rfl, hpre⟩)
    have hrest := ih hprefix (hshift ts ▸ hd)
    rcases hrest with ⟨before, u, after, rfl, hu⟩ | hpos
    · exact .inl ⟨t :: before, u, after, rfl, hu⟩
    · by_cases hd : 0 < d
      · refine .inr ?_
        intro p hpre
        cases p with
        | nil => simpa [depth] using hd
        | cons v p =>
          obtain ⟨rfl, hrest⟩ := List.cons_prefix_cons.mp hpre
          exact (hshift p).symm ▸ hpos p hrest
      · -- the row begins with no open block, so what stays open is the block of `t`
        have hstart := hp [] List.nil_prefix
        have hone := hpos [] List.nil_prefix
        simp only [depth, List.countP_nil, Int.natCast_zero, Int.sub_zero, Int.add_zero] at hstart hone
        have hk : t.kind = .lbrace := by
          rcases brace_cases t with hk | hk | hk
          · exact hk
          · rw [step_rbrace hk] at hone
            omega
          · rw [step_other hk] at hone
            omega
        refine .inl ⟨[], t, ts, rfl, hk, ?_⟩
        intro p hpre
        have := hpos p hpre
        rw [step_lbrace hk] at this
        omega

/-- Without stray braces a block is open in the end if and only if one is never closed. -/
theorem exists_unclosed_iff (h : Lacks Stray 0 ts) :
    (∃ before t after, ts = before ++ t :: after ∧ Unclosed t after) ↔ depth ts ≠ 0 := by
  have hp : ∀ p, p <+: ts → 0 ≤ 0 + depth p := fun p hp => depth_nonneg h (Int.le_refl 0) hp
  constructor
  · rintro ⟨before, t, after, rfl, hk, hafter⟩
    have hbefore := hp before (List.prefix_append before (t :: after))
    have hrest := hafter after (List.prefix_refl after)
    rw [depth_append, depth_cons, step_lbrace hk]
    omega
  · intro hd
    have hnonneg := hp ts (List.prefix_refl ts)
    rcases unclosed_or_depth_pos hp (by omega) with hu | hpos
    · exact hu
    · exact absurd (hpos [] List.nil_prefix) (by simp [depth])

theorem balanced_iff : Balanced ts ↔ Lacks Stray 0 ts ∧ depth ts = 0 := by
  constructor
  · intro h
    refine ⟨h.lacks_stray, Decidable.byContradiction fun hd => ?_⟩
    obtain ⟨before, t, after, hts, hu⟩ := (exists_unclosed_iff h.lacks_stray).mpr hd
    exact h.closed before t after hts hu
  · rintro ⟨hs, hd⟩
    exact ⟨hs, fun before t after hts hu => (exists_unclosed_iff hs).mp ⟨before, t, after, hts, hu⟩ hd⟩

theorem fault?_of_stray (h : IsFirst Stray 0 ts t) : fault? ts = some (Fault.unexpectedClose.blame t.position) := by
  rw [fault?, unpaired?_of_isFirst h]
  rfl

theorem fault?_of_unclosed (hs : Lacks Stray 0 ts)
    (h : ∃ before t after, ts = before ++ t :: after ∧ Unclosed t after) :
    fault? ts = some ⟨.missingClose, none⟩ := by
  have hd := (exists_unclosed_iff hs).mp h
  rw [fault?, unpaired?_of_lacks hs, if_neg (by simpa using hd)]
  rfl

theorem fault?_of_balanced (h : Balanced ts) : fault? ts = tooDeep? 0 ts := by
  obtain ⟨hs, hd⟩ := balanced_iff.mp h
  rw [fault?, unpaired?_of_lacks hs, if_pos (by simpa using hd)]
  rfl

/-- Where the braces do not pair up, the fault is one of the two faults of braces. -/
theorem fault?_of_not_balanced (h : ¬Balanced ts) : ∃ f, fault? ts = some f ∧ f.fault.kind = .unbalanced := by
  rcases lacks_or_isFirst Stray 0 ts with hs | ⟨t, ht⟩
  · have hd : depth ts ≠ 0 := fun hd => h (balanced_iff.mpr ⟨hs, hd⟩)
    exact ⟨_, fault?_of_unclosed hs ((exists_unclosed_iff hs).mpr hd), rfl⟩
  · exact ⟨_, fault?_of_stray ht, rfl⟩

end LessCss.Braces
