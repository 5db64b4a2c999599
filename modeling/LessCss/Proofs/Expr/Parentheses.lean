import LessCss.Proofs.Expr.Formula
/-!
A value between parentheses does not depend on what comes after them.

`Shut depth ts` says that the last token of `ts` closes the outermost of `depth + 1` open parentheses. A reader that
begins in such a row stops before that token, so it makes of a longer row what it makes of this one (`Seals`), and the
same holds with a larger budget unless the smaller one is used up. Every layer of the grammar hands this on from its
operands (`seals_operand`), and so the operand in a pair of parentheses is read the same in every row
(`run_parenthesized`).
-/
namespace LessCss

/-- The last token closes the outermost of `depth + 1` open parentheses. -/
def Tokens.Shut (depth : Nat) (ts : List Token) : Prop := ∃ inner, closeParen? (fun _ => false) depth ts = some (inner, [])

namespace Tokens.Shut

variable {depth : Nat} {t : Token} {ts : List Token}

theorem of_paired {inner : List Token} {close : Token} (h : depthAfter? (fun _ => false) 0 inner = some 0)
    (hclose : close.kind = .rparen) : Shut 0 (inner ++ [close]) :=
  ⟨inner, closeParen?_append hclose rfl h⟩

theorem ne_nil (h : Shut depth ts) : ts ≠ [] := by
  rintro rfl
  obtain ⟨_, h⟩ := h
  cases h

theorem cons_open (h : Shut depth (t :: ts)) (hk : t.kind = .lparen ∨ t.kind = .function) : Shut (depth + 1) ts := by
  obtain ⟨inner, h⟩ := h
  rcases hk with hk | hk <;>
    · simp only [closeParen?, hk, Bool.false_eq_true, if_false, Option.map_eq_some_iff, Prod.mk.injEq] at h
      obtain ⟨⟨inner, rest⟩, h, -, rfl⟩ := h
      exact ⟨inner, h⟩

theorem cons_close (h : Shut (depth + 1) (t :: ts)) (hk : t.kind = .rparen) : Shut depth ts := by
  obtain ⟨inner, h⟩ := h
  simp only [closeParen?, hk, Bool.false_eq_true, if_false, Option.map_eq_some_iff, Prod.mk.injEq] at h
  obtain ⟨⟨inner, rest⟩, h, -, rfl⟩ := h
  exact ⟨inner, h⟩

theorem nil_of_close (h : Shut 0 (t :: ts)) (hk : t.kind = .rparen) : ts = [] := by
  obtain ⟨inner, h⟩ := h
  simp only [closeParen?, hk, Bool.false_eq_true, if_false, Option.some.injEq, Prod.mk.injEq] at h
  exact h.2

theorem cons_other (h : Shut depth (t :: ts)) (hopen : t.kind ≠ .lparen ∧ t.kind ≠ .function) (hclose : t.kind ≠ .rparen) :
    Shut depth ts := by
  obtain ⟨inner, h⟩ := h
  rw [closeParen?_cons_other rfl hopen hclose, Option.map_eq_some_iff] at h
  obtain ⟨⟨inner, rest⟩, h, heq⟩ := h
  obtain ⟨-, rfl⟩ := Prod.mk.inj heq
  exact ⟨inner, h⟩

/-- The arguments of a call end within the row, and what follows them closes the parentheses around the call. -/
theorem arguments {k : Nat} (h : Shut (k + depth + 1) ts) : ∃ args rest, Shut depth rest ∧
    ∀ us, closeParen? (fun _ => false) k (ts ++ us) = some (args, rest ++ us) := by
  induction ts generalizing k with
  | nil => exact absurd rfl h.ne_nil
  | cons t ts ih =>
    by_cases hopen : t.kind = .lparen ∨ t.kind = .function
    · have htail : Shut (k + 1 + depth + 1) ts := by
        have hnext := h.cons_open hopen
        rwa [show k + depth + 1 + 1 = k + 1 + depth + 1 by omega] at hnext
      obtain ⟨args, rest, hrest, hargs⟩ := ih htail
      refine ⟨t :: args, rest, hrest, fun us => ?_⟩
      rcases hopen with hk | hk <;> simp [closeParen?, hk, hargs us]
    · rw [not_or] at hopen
      by_cases hclose : t.kind = .rparen
      · cases k with
        | zero =>
          refine ⟨[], ts, ?_, fun us => by simp [closeParen?, hclose]⟩
          rw [Nat.zero_add] at h
          exact h.cons_close hclose
        | succ k =>
          rw [show k + 1 + depth + 1 = k + depth + 1 + 1 by omega] at h
          obtain ⟨args, rest, hrest, hargs⟩ := ih (h.cons_close hclose)
          exact ⟨t :: args, rest, hrest, fun us => by simp [closeParen?, hclose, hargs us]⟩
      · obtain ⟨args, rest, hrest, hargs⟩ := ih (h.cons_other hopen hclose)
        refine ⟨t :: args, rest, hrest, fun us => ?_⟩
        rw [List.cons_append, closeParen?_cons_other rfl hopen hclose, hargs us]
        rfl

end Tokens.Shut

namespace Expr

open Tokens (Shut)

/-- What is read is the same before more tokens, and what it leaves of its own row satisfies `P`. The faults are the same
if `exact`. -/
structure Alike {α : Type} (exact : Prop) (P : List Token → Prop) (us : List Token)
    (e e' : Except Diagnostic (α × List Token)) : Prop where
  ok : ∀ a rest, e = .ok (a, rest) → P rest ∧ e' = .ok (a, rest ++ us)
  error : exact → ∀ d, e = .error d → e' = .error d

/-- What a reader takes from a row that ends with its last parenthesis, the other one takes from every longer row. -/
def Seals (exact : Prop) (r r' : Reader) : Prop :=
  ∀ ⦃depth ts⦄, Shut depth ts → ∀ us, Alike exact (Shut depth) us (run r ts) (run r' (ts ++ us))

namespace Alike

variable {α β : Type} {exact : Prop} {P P' : List Token → Prop} {us rest : List Token}

theorem of_ok (h : P rest) (a : α) : Alike exact P us (.ok (a, rest)) (.ok (a, rest ++ us)) where
  ok a' rest' heq := by
    obtain ⟨rfl, rfl⟩ := Prod.mk.inj (Except.ok.inj heq)
    exact ⟨h, rfl⟩
  error _ d hd := nomatch hd

theorem of_error (d : Diagnostic) : Alike exact P us (.error d : Except Diagnostic (α × List Token)) (.error d) where
  ok := nofun
  error _ _ hd := hd

/-- Where faults may differ, a fault is like any outcome. -/
theorem of_inexact (h : ¬exact) (d : Diagnostic) (e : Except Diagnostic (α × List Token)) :
    Alike exact P us (.error d) e where
  ok := nofun
  error hexact := absurd hexact h

variable {e e' : Except Diagnostic (α × List Token)}

theorem bind {k k' : α × List Token → Except Diagnostic (β × List Token)} (h : Alike exact P us e e')
    (hk : ∀ a rest, e = .ok (a, rest) → P rest → Alike exact P' us (k (a, rest)) (k' (a, rest ++ us))) :
    Alike exact P' us (e >>= k) (e' >>= k') := by
  cases e with
  | error d =>
    refine ⟨nofun, fun hexact d' hd => ?_⟩
    rw [h.error hexact d rfl]
    exact hd
  | ok p =>
    obtain ⟨hrest, heq⟩ := h.ok p.1 p.2 rfl
    rw [heq]
    exact hk p.1 p.2 rfl hrest

theorem map (h : Alike exact P us e e') (f : α → β) :
    Alike exact P us (e.map fun p => (f p.1, p.2)) (e'.map fun p => (f p.1, p.2)) := by
  let k (p : α × List Token) : Except Diagnostic (β × List Token) := .ok (f p.1, p.2)
  have hbind : Alike exact P us (e >>= k) (e' >>= k) := h.bind fun a rest _ hrest => of_ok hrest (f a)
  cases e <;> cases e' <;> exact hbind

end Alike

variable {exact : Prop} {r r' : Reader} {depth : Nat} {t : Token} {ts : List Token}

theorem shut_operator {op : Operator} (h : Shut depth (t :: ts)) (hop : operator? t = some op) : Shut depth ts := by
  have hk := kind_of_operator? hop
  exact h.cons_other (by simp [hk]) (by simp [hk])

/-- Whether a slash is between two numbers is seen within the parentheses, and so is what is left then. -/
theorem shorthand?_append (t : Token) (inParens : Bool) (lhs : Expr) (op : Operator) (hts : Shut depth ts) (us : List Token) :
    shorthand? inParens lhs op t (ts ++ us) = shorthand? inParens lhs op t ts ∧
      ∀ e, shorthand? inParens lhs op t ts = some e → Shut depth ts.tail ∧ (ts ++ us).tail = ts.tail ++ us := by
  cases ts with
  | nil => exact absurd rfl hts.ne_nil
  | cons u ts =>
    refine ⟨by simp only [List.cons_append, shorthand?], fun e he => ⟨?_, rfl⟩⟩
    unfold shorthand? at he
    dsimp only at he
    split at he
    · split at he
      · next hall =>
        have hk : u.kind = .number := hall.2.2.2.2
        exact hts.cons_other (by simp [hk]) (by simp [hk])
      · cases he
    · cases he

theorem Seals.factors (h : Seals exact r r') (inParens : Bool) (hts : Shut depth ts) (lhs : Expr) (us : List Token) :
    Alike exact (Shut depth) us (factors r inParens lhs ts) (factors r' inParens lhs (ts ++ us)) := by
  induction hn : ts.length using Nat.strongRecOn generalizing lhs ts with
  | ind n ih =>
    subst hn
    cases ts with
    | nil => exact absurd rfl hts.ne_nil
    | cons t ts =>
      rw [List.cons_append, factors_cons, factors_cons]
      cases hop : productOperator? t with
      | none => exact .of_ok hts lhs
      | some op =>
        have htail : Shut depth ts := shut_operator hts (Option.filter_eq_some_iff.mp hop).1
        obtain ⟨hshort, hrest⟩ := shorthand?_append t inParens lhs op htail us
        dsimp only
        rw [hshort]
        cases he : shorthand? inParens lhs op t ts with
        | some e =>
          obtain ⟨hshut, heq⟩ := hrest e he
          dsimp only
          rw [heq]
          exact ih _ (Nat.lt_succ_of_le (List.tail_sublist ts).length_le) hshut e rfl
        | none =>
          refine (h htail us).bind fun rhs rest hrun hshut => ?_
          exact ih _ (Nat.lt_succ_of_lt (run_length hrun)) hshut _ rfl

theorem Seals.product (h : Seals exact r r') (inParens : Bool) : Seals exact (product r inParens) (product r' inParens) := by
  intro depth ts hts us
  rw [run_product, run_product]
  exact (h hts us).bind fun lhs rest _ hrest => h.factors inParens hrest lhs us

theorem endsSum_append {op : Operator} (hts : Shut depth ts) (us : List Token) :
    endsSum op t (ts ++ us) = endsSum op t ts := by
  cases ts with
  | nil => exact absurd rfl hts.ne_nil
  | cons u ts => rfl

theorem Seals.terms (h : Seals exact r r') (hts : Shut depth ts) (lhs : Expr) (us : List Token) :
    Alike exact (Shut depth) us (terms r lhs ts) (terms r' lhs (ts ++ us)) := by
  induction hn : ts.length using Nat.strongRecOn generalizing lhs ts with
  | ind n ih =>
    subst hn
    cases ts with
    | nil => exact absurd rfl hts.ne_nil
    | cons t ts =>
      rw [List.cons_append, terms_cons, terms_cons]
      cases hop : sumOperator? t with
      | none => exact .of_ok hts lhs
      | some op =>
        have htail : Shut depth ts := shut_operator hts (Option.filter_eq_some_iff.mp hop).1
        dsimp only
        rw [endsSum_append htail]
        split
        · exact .of_ok hts lhs
        · refine (h htail us).bind fun rhs rest hrun hshut => ?_
          exact ih _ (Nat.lt_succ_of_lt (run_length hrun)) hshut _ rfl

theorem Seals.sum (h : Seals exact r r') : Seals exact (sum r) (sum r') := by
  intro depth ts hts us
  rw [run_sum, run_sum]
  exact (h hts us).bind fun lhs rest _ hrest => h.terms hrest lhs us

theorem Seals.items (h : Seals exact r r') (hts : Shut depth ts) (us : List Token) :
    Alike exact (Shut depth) us (items r ts) (items r' (ts ++ us)) := by
  induction hn : ts.length using Nat.strongRecOn generalizing ts with
  | ind n ih =>
    subst hn
    cases ts with
    | nil => exact absurd rfl hts.ne_nil
    | cons t ts =>
      rw [List.cons_append, items_cons, items_cons]
      split
      · refine (h hts us).bind fun e rest hrun hrest => ?_
        exact (ih _ (run_length hrun) hrest rfl).map (e :: ·)
      · exact .of_ok hts []

theorem Seals.spaceList (h : Seals exact r r') : Seals exact (spaceList r) (spaceList r') := by
  intro depth ts hts us
  rw [run_spaceList, run_spaceList]
  exact (h hts us).bind fun e rest _ hrest => (h.items hrest us).map fun es => collapse .space (e :: es)

theorem Seals.groups (h : Seals exact r r') (hts : Shut depth ts) (us : List Token) :
    Alike exact (Shut depth) us (groups r ts) (groups r' (ts ++ us)) := by
  induction hn : ts.length using Nat.strongRecOn generalizing ts with
  | ind n ih =>
    subst hn
    cases ts with
    | nil => exact absurd rfl hts.ne_nil
    | cons t ts =>
      rw [List.cons_append, groups_cons, groups_cons]
      split
      · next hk =>
        have htail : Shut depth ts := hts.cons_other (by simp [hk]) (by simp [hk])
        refine (h htail us).bind fun e rest hrun hrest => ?_
        exact (ih _ (Nat.lt_succ_of_lt (run_length hrun)) hrest rfl).map (e :: ·)
      · exact .of_ok hts []

theorem Seals.commaList (h : Seals exact r r') : Seals exact (commaList r) (commaList r') := by
  intro depth ts hts us
  rw [run_commaList, run_commaList]
  exact (h hts us).bind fun e rest _ hrest => (h.groups hrest us).map fun es => collapse .comma (e :: es)

theorem Seals.value (h : Seals exact r r') (inParens : Bool) : Seals exact (value r inParens) (value r' inParens) :=
  (h.product inParens).sum.spaceList.commaList

variable {e : Expr} {rest : List Token} {inParens : Bool}

/-- A value that is followed by what closes a parenthesis, if its first operand is. -/
theorem run_value_of_closes (h : run r ts = .ok (e, rest)) (hrest : Formula.Closes rest) :
    run (value r inParens) ts = .ok (e, rest) := by
  rw [value, run_commaList, run_spaceList, run_sum, run_product, h, ok_bind,
    Formula.factors_of_endsProduct hrest.endsProduct, ok_bind, terms_of_stops hrest.stops, ok_bind,
    Formula.items_of_closes hrest]
  simp only [Except.map, ok_bind, Formula.groups_of_closes hrest]
  rfl

/-- The expression that a row of tokens spells, with at most `limit` parentheses and minus signs nested in it. -/
def ofTokensWithin (limit : Nat) (ts : List Token) : Except Diagnostic Expr :=
  run (value (operand ((ts.getLast?.map Token.position).getD .start) limit false) false) ts >>=
    fun p => match p.2 with
      | [] => .ok p.1
      | t :: _ => .error ((Fault.unexpectedInValue t.text).blame t.position)

theorem ofTokensWithin_maxNesting (ts : List Token) : ofTokensWithin maxNesting ts = ofTokens ts := (ofTokens_eq ts).symm

/-- An operand by itself is a value. -/
theorem ofTokensWithin_of_operand {limit : Nat} (h : ∀ last, run (operand last limit false) ts = .ok (e, [])) :
    ofTokensWithin limit ts = .ok e := by
  rw [ofTokensWithin, run_value_of_closes (h _) Formula.Closes.nil]
  rfl

theorem ofTokens_of_operand (h : ∀ last, run (operand last maxNesting false) ts = .ok (e, [])) : ofTokens ts = .ok e :=
  (ofTokensWithin_maxNesting ts).symm.trans (ofTokensWithin_of_operand h)

theorem run_value_of_error {d : Diagnostic} (h : run r ts = .error d) : run (value r inParens) ts = .error d := by
  rw [value, run_commaList, run_spaceList, run_sum, run_product, h]
  rfl

/-- An operand in parentheses is an operand. -/
theorem run_operand_parens {last : Position} {budget : Nat} {lp rp : Token} (hopen : lp.kind = .lparen)
    (hclose : rp.kind = .rparen) (h : run (operand last budget true) ts = .ok (e, rp :: rest)) :
    run (operand last (budget + 1) inParens) (lp :: ts) = .ok (e, rest) := by
  have hvalue : run (value (operand last budget true) true) ts = .ok (e, rp :: rest) :=
    run_value_of_closes h fun t ht => Option.some.inj ht ▸ hclose
  exact run_operand_eq_ok.mpr (.parens hopen hvalue hclose)

/-- A leaf is read within the parentheses. -/
theorem alike_leaf (hts : Shut depth (t :: ts)) (us : List Token) :
    Alike exact (Shut depth) us (runLeaf t ts) (runLeaf t (ts ++ us)) := by
  rw [runLeaf_eq, runLeaf_eq]
  split
  · next hk =>
    split
    · exact .of_ok (hts.cons_other (by simp [hk]) (by simp [hk])) _
    · exact .of_error _
  iterate 5
    · next hk => exact .of_ok (hts.cons_other (by simp [hk]) (by simp [hk])) _
  · next hk =>
    have hargs : Shut (0 + depth + 1) ts := by
      rw [Nat.zero_add]
      exact hts.cons_open (.inr hk)
    obtain ⟨args, rest, hrest, heq⟩ := hargs.arguments
    have hnil := heq []
    rw [List.append_nil, List.append_nil] at hnil
    rw [heq us, hnil]
    exact .of_ok hrest _
  · split
    · next hd =>
      have hk : t.kind = .delim := (of_decide_eq_true hd).1
      have htail : Shut depth ts := hts.cons_other (by simp [hk]) (by simp [hk])
      cases ts with
      | nil => exact absurd rfl htail.ne_nil
      | cons s ts =>
        rw [List.cons_append]
        dsimp only
        split
        · next hs => exact .of_ok (htail.cons_other (by simp [hs]) (by simp [hs])) _
        · exact .of_error _
    · exact .of_error _

/-- A parenthesis within others is closed before them. -/
theorem alike_closeParen (hts : Shut (depth + 1) ts) (us : List Token) :
    Alike exact (Shut depth) us (closeParen t (e, ts)) (closeParen t (e, ts ++ us)) := by
  cases ts with
  | nil => exact absurd rfl hts.ne_nil
  | cons close ts =>
    unfold closeParen
    dsimp only [List.cons_append]
    split
    · next hk => exact .of_ok (hts.cons_close hk) e
    · exact .of_error _

/-- The last parenthesis of a row ends it. -/
theorem alike_lastParen (t t' : Token) (hts : Shut 0 ts) (us : List Token) :
    Alike exact (· = []) us (closeParen t (e, ts)) (closeParen t' (e, ts ++ us)) := by
  cases ts with
  | nil => exact absurd rfl hts.ne_nil
  | cons close ts =>
    unfold closeParen
    dsimp only [List.cons_append]
    split
    · next hk =>
      apply Alike.of_ok
      exact hts.nil_of_close hk
    · exact .of_error _

/-- By induction on the budget: whatever is nested is read with a smaller one. -/
theorem seals_operand (last last' : Position) {budget budget' : Nat} (h : budget ≤ budget') (inParens : Bool) :
    Seals (budget = budget') (operand last budget inParens) (operand last' budget' inParens) := by
  induction budget generalizing budget' inParens with
  | zero =>
    intro depth ts hts us
    cases ts with
    | nil => exact absurd rfl hts.ne_nil
    | cons t ts =>
      rw [List.cons_append, run_operand_cons, run_operand_cons]
      split
      · cases budget' with
        | zero => exact .of_error _
        | succ budget' => exact .of_inexact (Nat.succ_ne_zero budget').symm _ _
      · split
        · cases budget' with
          | zero => exact .of_error _
          | succ budget' => exact .of_inexact (Nat.succ_ne_zero budget').symm _ _
        · exact alike_leaf hts us
  | succ budget ih =>
    cases budget' with
    | zero => exact absurd h (Nat.not_succ_le_zero budget)
    | succ budget' =>
      have hexact : (budget + 1 = budget' + 1) = (budget = budget') := propext Nat.succ_inj
      rw [hexact]
      have ih := ih (Nat.le_of_succ_le_succ h)
      intro depth ts hts us
      cases ts with
      | nil => exact absurd rfl hts.ne_nil
      | cons t ts =>
        rw [List.cons_append, run_operand_cons, run_operand_cons]
        split
        · next hminus =>
          have hk : t.kind = .operator := (of_decide_eq_true hminus).1
          exact (ih inParens (hts.cons_other (by simp [hk]) (by simp [hk])) us).map Expr.negate
        · split
          · next hopen =>
            refine ((ih true).value true (hts.cons_open (.inl hopen)) us).bind fun e rest _ hrest => ?_
            exact alike_closeParen hrest us
          · exact alike_leaf hts us

/-- A pair of parentheses is an operand by itself, and what comes after it does not matter, nor does a gap before it. A
larger budget does not either, unless the smaller one is used up. -/
theorem run_parenthesized {lp lp' rp : Token} {inner : List Token} (hopen : lp.kind = .lparen)
    (hopen' : lp'.kind = .lparen) (hposition : lp.position = lp'.position)
    (hpaired : Tokens.depthAfter? (fun _ => false) 0 inner = some 0) (hclose : rp.kind = .rparen) (last last' : Position)
    {budget budget' : Nat} (h : budget ≤ budget') (inParens inParens' : Bool) (us : List Token) :
    Alike (budget = budget') (· = []) us (run (operand last budget inParens) (lp :: (inner ++ [rp])))
      (run (operand last' budget' inParens') (lp' :: (inner ++ rp :: us))) := by
  have hminus : lp.isOperator '-' = false := by simp [Token.isOperator, hopen]
  have hminus' : lp'.isOperator '-' = false := by simp [Token.isOperator, hopen']
  rw [run_operand_cons, run_operand_cons, hminus, hminus', if_neg (by simp), if_pos hopen, if_neg (by simp), if_pos hopen',
    hposition]
  cases budget with
  | zero =>
    cases budget' with
    | zero => exact .of_error _
    | succ budget' => exact .of_inexact (Nat.succ_ne_zero budget').symm _ _
  | succ budget =>
    cases budget' with
    | zero => exact absurd h (Nat.not_succ_le_zero budget)
    | succ budget' =>
      have hexact : (budget + 1 = budget' + 1) = (budget = budget') := propext Nat.succ_inj
      have hvalue := (seals_operand last last' (Nat.le_of_succ_le_succ h) true).value true (.of_paired hpaired hclose) us
      rw [hexact]
      rw [List.append_assoc] at hvalue
      exact hvalue.bind fun e rest _ hrest => alike_lastParen lp lp' hrest us

end Expr
end LessCss
