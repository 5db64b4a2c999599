import LessCss.Proofs.Expr.Constants
import LessCss.Proofs.Sheet.Blame
/-!
What the readers of expressions blame, and what evaluation does.

An expression that is read from a row of tokens refers to tokens of the row (`Expr.StandsIn`), and so does every fault
of its readers. No row with an unterminated string is read, unless the string stands between the parentheses of a
function (`Expr.ofTokens_ends`). Evaluation blames an operator of the expression, or whatever the look-up of a
variable blames that stands in it (`Expr.evaluate_ends`).
-/
namespace LessCss

/-- The faults of the readers of values, apart from those about what a number says. -/
def Fault.ofValue : Fault → Bool
  | valueTooDeep | missingOperand | unexpectedInValue _ | missingParen | missingCallParen _ | notParen _
  | missingEscapedString => true
  | _ => false

namespace Expr

mutual

/-- The variables, the operators and the arguments in an expression are tokens of a row. -/
def StandsIn (ts : List Token) : Expr → Prop
  | .number .. => True
  | .keyword _ => True
  | .reference name p => ∃ t ∈ ts, t.kind = .atKeyword ∧ t.name = name ∧ t.position = p
  | .function _ args => args ⊆ ts
  | .negate operand => StandsIn ts operand
  | .binary _ lhs rhs p =>
    StandsIn ts lhs ∧ StandsIn ts rhs ∧ ∃ t ∈ ts, t.kind = .operator ∧ t.position = p
  | .list items _ => StandInAll ts items

def StandInAll (ts : List Token) : List Expr → Prop
  | [] => True
  | e :: es => StandsIn ts e ∧ StandInAll ts es

end

variable {ts us : List Token}

theorem standsIn_collapse {separator : Separator} {es : List Expr} (h : StandInAll ts es) :
    (collapse separator es).StandsIn ts := by
  rcases es with _ | ⟨e, _ | ⟨e', es⟩⟩
  · exact h
  · exact h.1
  · exact h

mutual

theorem StandsIn.mono (h : us ⊆ ts) {e : Expr} (he : e.StandsIn us) : e.StandsIn ts := by
  cases e with
  | number | keyword => trivial
  | reference =>
    obtain ⟨t, ht, hname⟩ := he
    exact ⟨t, h ht, hname⟩
  | function => exact fun _ hu => h (he hu)
  | negate operand =>
    show operand.StandsIn ts
    exact StandsIn.mono h he
  | binary =>
    obtain ⟨hlhs, hrhs, t, ht, hk⟩ := he
    exact ⟨StandsIn.mono h hlhs, StandsIn.mono h hrhs, t, h ht, hk⟩
  | list => exact StandInAll.mono h he

theorem StandInAll.mono (h : us ⊆ ts) {es : List Expr} (hes : StandInAll us es) : StandInAll ts es := by
  cases es with
  | nil => trivial
  | cons => exact ⟨StandsIn.mono h hes.1, StandInAll.mono h hes.2⟩

end

/-- What the readers of values blame on a token of a row: a number that is none, or a token that does not fit. -/
inductive Malformed (ts : List Token) : Diagnostic → Prop
  | number {t} (ht : t ∈ ts) (hk : t.kind = .number) (hparse : Measure.parse? t.text = none) :
      Malformed ts ((Fault.invalidNumber t.text).blame t.position)
  | misfit {f : Fault} {t} (ht : t ∈ ts) (hf : f.ofValue = true) : Malformed ts (f.blame t.position)

theorem Malformed.mono {d : Diagnostic} (h : Malformed us d) (hus : us ⊆ ts) : Malformed ts d := by
  cases h with
  | number ht hk hparse => exact .number (hus ht) hk hparse
  | misfit ht hf => exact .misfit (hus ht) hf

/-- The token stands between the parentheses of a function. -/
def Enclosed (ts : List Token) (u : Token) : Prop := ∃ f us args rest, f :: us <:+ ts ∧ f.kind = .function ∧
  Tokens.closeParen? (fun _ => false) 0 us = some (args, rest) ∧ u ∈ args

/-- The token is an unterminated string only between the parentheses of a function. -/
def Checked (ts : List Token) (u : Token) : Prop := u.kind = .unterminated → Enclosed ts u

theorem checked_of_kind {u : Token} {k : Token.Kind} (hk : u.kind = k) (h : k ≠ .unterminated) : Checked ts u :=
  fun hu => absurd (hk.symm.trans hu) h

/-- From a row within another one a reader reads an expression that stands there, and blames a token of it. -/
def StaysIn (ts : List Token) (r : Reader) : Prop := ∀ us, us <:+ ts →
  Ends (fun p => p.1.StandsIn ts ∧ Tokens.Takes (Checked ts) us p.2) (Malformed ts) (run r us)

variable {r : Reader}

/-- A shorthand is a word, and takes a number. -/
theorem shorthand?_takes {inParens : Bool} {lhs e : Expr} {op : Operator} {slash : Token}
    (h : shorthand? inParens lhs op slash us = some e) : e.StandsIn ts ∧ Tokens.Takes (Checked ts) us us.tail := by
  unfold shorthand? at h
  split at h
  · cases h
  · split at h
    · split at h
      · next hnumber =>
        obtain rfl := Option.some.inj h
        exact ⟨trivial, .cons (checked_of_kind hnumber.2.2.2.2 (by decide)) (.refl _)⟩
      · cases h
    · cases h

theorem factors_staysIn (h : StaysIn ts r) (inParens : Bool) {lhs : Expr} (hlhs : lhs.StandsIn ts) (hus : us <:+ ts) :
    Ends (fun p => p.1.StandsIn ts ∧ Tokens.Takes (Checked ts) us p.2) (Malformed ts) (factors r inParens lhs us) := by
  induction hn : us.length using Nat.strongRecOn generalizing lhs us with
  | ind n ih =>
    subst hn
    cases us with
    | nil =>
      rw [factors_nil]
      exact ⟨hlhs, .refl _⟩
    | cons t us =>
      have htail : us <:+ ts := (List.suffix_cons t us).trans hus
      rw [factors_cons]
      cases hop : productOperator? t with
      | none => exact ⟨hlhs, .refl _⟩
      | some op =>
        have hk : t.kind = .operator := kind_of_operator? (Option.filter_eq_some_iff.mp hop).1
        have ht : Checked ts t := checked_of_kind hk (by decide)
        dsimp only
        cases hshort : shorthand? inParens lhs op t us with
        | some e =>
          have hplaced : e.StandsIn ts ∧ Tokens.Takes (Checked ts) us us.tail := shorthand?_takes hshort
          obtain ⟨he, htakes⟩ := hplaced
          have hlt : us.tail.length < (t :: us).length := Nat.lt_succ_of_le (List.tail_sublist us).length_le
          exact (ih _ hlt he (htakes.suffix.trans htail) rfl).mono_ok
            fun p hp => ⟨hp.1, .cons ht (htakes.trans hp.2)⟩
        | none =>
          refine (h us htail).bind ?_
          rintro ⟨rhs, rest⟩ hrun ⟨hrhs, htakes⟩
          have hbinary : (Expr.binary op lhs rhs t.position).StandsIn ts :=
            ⟨hlhs, hrhs, t, hus.subset List.mem_cons_self, hk, rfl⟩
          exact (ih _ (Nat.lt_succ_of_lt (run_length hrun)) hbinary (htakes.suffix.trans htail) rfl).mono_ok
            fun p hp => ⟨hp.1, .cons ht (htakes.trans hp.2)⟩

theorem StaysIn.product (h : StaysIn ts r) (inParens : Bool) : StaysIn ts (product r inParens) := by
  intro us hus
  rw [run_product]
  refine (h us hus).bind fun p _ hp => ?_
  exact (factors_staysIn h inParens hp.1 (hp.2.suffix.trans hus)).mono_ok
    fun q hq => ⟨hq.1, hp.2.trans hq.2⟩

theorem terms_staysIn (h : StaysIn ts r) {lhs : Expr} (hlhs : lhs.StandsIn ts) (hus : us <:+ ts) :
    Ends (fun p => p.1.StandsIn ts ∧ Tokens.Takes (Checked ts) us p.2) (Malformed ts) (terms r lhs us) := by
  induction hn : us.length using Nat.strongRecOn generalizing lhs us with
  | ind n ih =>
    subst hn
    cases us with
    | nil =>
      rw [terms_nil]
      exact ⟨hlhs, .refl _⟩
    | cons t us =>
      have htail : us <:+ ts := (List.suffix_cons t us).trans hus
      rw [terms_cons]
      cases hop : sumOperator? t with
      | none => exact ⟨hlhs, .refl _⟩
      | some op =>
        have hk : t.kind = .operator := kind_of_operator? (Option.filter_eq_some_iff.mp hop).1
        dsimp only
        split
        · exact ⟨hlhs, .refl _⟩
        · refine (h us htail).bind ?_
          rintro ⟨rhs, rest⟩ hrun ⟨hrhs, htakes⟩
          have hbinary : (Expr.binary op lhs rhs t.position).StandsIn ts :=
            ⟨hlhs, hrhs, t, hus.subset List.mem_cons_self, hk, rfl⟩
          exact (ih _ (Nat.lt_succ_of_lt (run_length hrun)) hbinary (htakes.suffix.trans htail) rfl).mono_ok
            fun p hp => ⟨hp.1, .cons (checked_of_kind hk (by decide)) (htakes.trans hp.2)⟩

theorem StaysIn.sum (h : StaysIn ts r) : StaysIn ts (sum r) := by
  intro us hus
  rw [run_sum]
  refine (h us hus).bind fun p _ hp => ?_
  exact (terms_staysIn h hp.1 (hp.2.suffix.trans hus)).mono_ok fun q hq => ⟨hq.1, hp.2.trans hq.2⟩

theorem items_staysIn (h : StaysIn ts r) (hus : us <:+ ts) :
    Ends (fun p => StandInAll ts p.1 ∧ Tokens.Takes (Checked ts) us p.2) (Malformed ts) (items r us) := by
  induction hn : us.length using Nat.strongRecOn generalizing us with
  | ind n ih =>
    subst hn
    cases us with
    | nil =>
      rw [items_nil]
      exact ⟨trivial, .refl _⟩
    | cons t us =>
      rw [items_cons]
      split
      · refine (h _ hus).bind fun p hrun hp => ?_
        exact (ih _ (run_length hrun) (hp.2.suffix.trans hus) rfl).map fun q hq =>
          ⟨⟨hp.1, hq.1⟩, hp.2.trans hq.2⟩
      · exact ⟨trivial, .refl _⟩

theorem StaysIn.spaceList (h : StaysIn ts r) : StaysIn ts (spaceList r) := by
  intro us hus
  rw [run_spaceList]
  refine (h us hus).bind fun p _ hp => ?_
  exact (items_staysIn h (hp.2.suffix.trans hus)).map fun q hq =>
    ⟨standsIn_collapse ⟨hp.1, hq.1⟩, hp.2.trans hq.2⟩

theorem groups_staysIn (h : StaysIn ts r) (hus : us <:+ ts) :
    Ends (fun p => StandInAll ts p.1 ∧ Tokens.Takes (Checked ts) us p.2) (Malformed ts) (groups r us) := by
  induction hn : us.length using Nat.strongRecOn generalizing us with
  | ind n ih =>
    subst hn
    cases us with
    | nil =>
      rw [groups_nil]
      exact ⟨trivial, .refl _⟩
    | cons t us =>
      have htail : us <:+ ts := (List.suffix_cons t us).trans hus
      rw [groups_cons]
      split
      · next hk =>
        refine (h us htail).bind fun p hrun hp => ?_
        exact (ih _ (Nat.lt_succ_of_lt (run_length hrun)) (hp.2.suffix.trans htail) rfl).map fun q hq =>
          ⟨⟨hp.1, hq.1⟩, .cons (checked_of_kind hk (by decide)) (hp.2.trans hq.2)⟩
      · exact ⟨trivial, .refl _⟩

theorem StaysIn.commaList (h : StaysIn ts r) : StaysIn ts (commaList r) := by
  intro us hus
  rw [run_commaList]
  refine (h us hus).bind fun p _ hp => ?_
  exact (groups_staysIn h (hp.2.suffix.trans hus)).map fun q hq =>
    ⟨standsIn_collapse ⟨hp.1, hq.1⟩, hp.2.trans hq.2⟩

theorem StaysIn.value (h : StaysIn ts r) (inParens : Bool) : StaysIn ts (value r inParens) :=
  (h.product inParens).sum.spaceList.commaList

/-- Of the tokens of a leaf only those between the parentheses of a function may be unterminated strings. -/
theorem Leaf.staysIn {t : Token} {rest : List Token} {e : Expr} (h : Leaf t us e rest) (hus : t :: us <:+ ts) :
    e.StandsIn ts ∧ Tokens.Takes (Checked ts) (t :: us) rest := by
  have ht : t ∈ ts := hus.subset List.mem_cons_self
  cases h with
  | number hk => exact ⟨trivial, .cons (checked_of_kind hk (by decide)) (.refl _)⟩
  | keyword hk =>
    refine ⟨trivial, .cons ?_ (.refl _)⟩
    rcases hk with hk | hk | hk | hk <;> exact checked_of_kind hk (by decide)
  | reference hk => exact ⟨⟨t, ht, hk, rfl, rfl⟩, .cons (checked_of_kind hk (by decide)) (.refl _)⟩
  | @function _ args _ hk hclose =>
    obtain ⟨close, hk', rfl, -⟩ := Tokens.closeParen?_eq_some hclose
    refine ⟨fun u hu => hus.subset (.tail _ (List.mem_append_left _ hu)), ?_⟩
    refine .cons (checked_of_kind hk (by decide)) (.append ?_ (.cons (checked_of_kind hk' (by decide)) (.refl _)))
    exact fun u hu _ => ⟨t, _, args, rest, hus, hk, hclose, hu⟩
  | escaped hd hk =>
    have hdelim : t.kind = .delim := (of_decide_eq_true hd).1
    exact ⟨trivial, .cons (checked_of_kind hdelim (by decide)) (.cons (checked_of_kind hk (by decide)) (.refl _))⟩

theorem runLeaf_error {t : Token} {d : Diagnostic} (ht : t ∈ ts) (h : runLeaf t us = .error d) : Malformed ts d := by
  rw [runLeaf_eq] at h
  split at h
  · next hk =>
    split at h
    · exact nomatch h
    · next hparse => exact Except.error.inj h ▸ .number ht hk hparse
  iterate 5 exact nomatch h
  · split at h
    · exact nomatch h
    · exact Except.error.inj h ▸ .misfit ht rfl
  · split at h
    · split at h
      · split at h
        · exact nomatch h
        · exact Except.error.inj h ▸ .misfit ht rfl
      · exact Except.error.inj h ▸ .misfit ht rfl
    · exact Except.error.inj h ▸ .misfit ht rfl

theorem runLeaf_ends {t : Token} (hus : t :: us <:+ ts) :
    Ends (fun p => p.1.StandsIn ts ∧ Tokens.Takes (Checked ts) (t :: us) p.2) (Malformed ts) (runLeaf t us) := by
  cases hrun : runLeaf t us with
  | error d => exact runLeaf_error (hus.subset List.mem_cons_self) hrun
  | ok p => exact (runLeaf_eq_ok.mp hrun).staysIn hus

theorem closeParen_ends {t : Token} {p : Expr × List Token} (ht : t ∈ ts) (hp : p.1.StandsIn ts) (hrest : p.2 <:+ ts) :
    Ends (fun q => q.1.StandsIn ts ∧ Tokens.Takes (Checked ts) p.2 q.2) (Malformed ts) (closeParen t p) := by
  obtain ⟨e, _ | ⟨close, rest⟩⟩ := p
  · exact .misfit ht rfl
  · unfold closeParen
    dsimp only
    split
    · next hk => exact ⟨hp, .cons (checked_of_kind hk (by decide)) (.refl _)⟩
    · exact .misfit (hrest.subset List.mem_cons_self) rfl

/-- By recursion on the budget: whatever is nested is read with a smaller one. -/
theorem operand_staysIn {last : Token} (hlast : last ∈ ts) (budget : Nat) (inParens : Bool) :
    StaysIn ts (operand last.position budget inParens) := by
  intro us hus
  cases us with
  | nil =>
    rw [run_operand_nil]
    exact .misfit hlast rfl
  | cons t us =>
    have ht : t ∈ ts := hus.subset List.mem_cons_self
    have htail : us <:+ ts := (List.suffix_cons t us).trans hus
    rw [run_operand_cons]
    split
    · next hminus =>
      have hk : t.kind = .operator := (of_decide_eq_true hminus).1
      cases budget with
      | zero => exact .misfit ht rfl
      | succ budget =>
        exact (operand_staysIn hlast budget inParens us htail).map fun p hp =>
          ⟨hp.1, .cons (checked_of_kind hk (by decide)) hp.2⟩
    · split
      · next hk =>
        cases budget with
        | zero => exact .misfit ht rfl
        | succ budget =>
          refine ((operand_staysIn hlast budget true).value true us htail).bind fun p _ hp => ?_
          exact (closeParen_ends ht hp.1 (hp.2.suffix.trans htail)).mono_ok
            fun q hq => ⟨hq.1, .cons (checked_of_kind hk (by decide)) (hp.2.trans hq.2)⟩
      · exact runLeaf_ends hus

/-- The expression of a row stands in the row, and no unterminated string outside of functions does. -/
theorem ofTokens_ends {value : List Token} (hne : value ≠ []) :
    Ends (fun e => e.StandsIn value ∧ ∀ u ∈ value, Checked value u) (Malformed value) (ofTokens value) := by
  rw [ofTokens_eq, List.getLast?_eq_some_getLast hne]
  refine ((operand_staysIn (List.getLast_mem hne) maxNesting false).value false value (List.suffix_refl _)).bind ?_
  rintro ⟨e, _ | ⟨t, rest⟩⟩ - ⟨he, htakes⟩
  · exact ⟨he, htakes.forall_mem (List.forall_mem_nil _)⟩
  · exact .misfit (htakes.suffix.subset List.mem_cons_self) rfl

/-- What evaluation may blame: an operator of a row, or what the look-up of a variable of the row blames. -/
structure Answers (Q : Diagnostic → Prop) (ts : List Token) (lookup : Lookup) : Prop where
  operator : ∀ t ∈ ts, t.kind = .operator →
    Q (Fault.divisionByZero.blame t.position) ∧ Q (Fault.invalidOperands.blame t.position)
  reference : ∀ t ∈ ts, t.kind = .atKeyword → Ends (fun _ => True) Q (lookup t.name t.position)

variable {Q : Diagnostic → Prop} {lookup : Lookup}

theorem argumentPiece_ends (h : Answers Q ts lookup) {t : Token} (ht : t ∈ ts) :
    Ends (fun _ => True) Q (argumentPiece lookup t) := by
  unfold argumentPiece
  split
  · next hk => exact (h.reference t ht hk).map fun _ _ => trivial
  · trivial

theorem operate_ends (h : Answers Q ts lookup) {t : Token} (ht : t ∈ ts) (hk : t.kind = .operator) (op : Operator)
    (a b : Value) : Ends (fun _ => True) Q (Value.operate op t.position a b) := by
  unfold Value.operate
  split
  · split
    · trivial
    · exact (h.operator t ht hk).1
  · exact (h.operator t ht hk).2

mutual

theorem evaluate_ends (h : Answers Q ts lookup) (e : Expr) (he : e.StandsIn ts) :
    Ends (fun _ => True) Q (e.evaluate lookup) := by
  cases e with
  | number | keyword => trivial
  | reference name p =>
    obtain ⟨t, ht, hk, rfl, rfl⟩ := he
    exact h.reference t ht hk
  | function name args =>
    rw [evaluate]
    exact (Ends.mapM fun t ht => argumentPiece_ends h (he ht)).bind fun _ _ _ => trivial
  | negate operand =>
    rw [evaluate]
    exact (evaluate_ends h operand he).bind fun _ _ _ => trivial
  | binary op lhs rhs p =>
    obtain ⟨hlhs, hrhs, t, ht, hk, rfl⟩ := he
    rw [evaluate]
    exact (evaluate_ends h lhs hlhs).bind fun a _ _ => (evaluate_ends h rhs hrhs).bind fun b _ _ =>
      operate_ends h ht hk op a b
  | list es separator =>
    rw [evaluate]
    exact (evaluateAll_ends h es he).bind fun _ _ _ => trivial

theorem evaluateAll_ends (h : Answers Q ts lookup) (es : List Expr) (hes : StandInAll ts es) :
    Ends (fun _ => True) Q (evaluateAll lookup es) := by
  cases es with
  | nil => trivial
  | cons e es =>
    rw [evaluateAll]
    exact (evaluate_ends h e hes.1).bind fun _ _ _ => (evaluateAll_ends h es hes.2).bind fun _ _ _ => trivial

end

end Expr
end LessCss
