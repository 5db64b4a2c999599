import LessCss.Expr.Reader
import LessCss.Proofs.Outcome
/-!
What one step of the readers of expressions does, without the lengths that make them end.

`run` gives what a reader takes and what it leaves. Each layer has an equation for its first item and one for
what follows, and every statement about expressions rests on these.
-/
namespace LessCss.Expr

/-- What a reader takes, and the tokens that it leaves. -/
def run (r : Reader) (ts : List Token) : Except Diagnostic (Expr × List Token) := (r ts).map fun p => (p.1, p.2.1)

def factors (operand : Reader) (inParens : Bool) (lhs : Expr) (ts : List Token) :
    Except Diagnostic (Expr × List Token) :=
  (moreFactors operand inParens lhs ts).map fun p => (p.1, p.2.1)

def terms (term : Reader) (lhs : Expr) (ts : List Token) : Except Diagnostic (Expr × List Token) :=
  (moreTerms term lhs ts).map fun p => (p.1, p.2.1)

def items (item : Reader) (ts : List Token) : Except Diagnostic (List Expr × List Token) :=
  (moreItems item ts).map fun p => (p.1, p.2.1)

def groups (group : Reader) (ts : List Token) : Except Diagnostic (List Expr × List Token) :=
  (moreGroups group ts).map fun p => (p.1, p.2.1)

variable {r : Reader} {t : Token} {ts rest : List Token} {e : Expr}

theorem run_length (h : run r ts = .ok (e, rest)) : rest.length < ts.length := by
  rw [run] at h
  cases hr : r ts with
  | error d => simp [hr, Except.map] at h
  | ok p =>
    simp only [hr, Except.map, Except.ok.injEq, Prod.mk.injEq] at h
    exact h.2 ▸ p.2.2

theorem kind_of_operator? {op : Operator} (h : operator? t = some op) : t.kind = .operator := by
  unfold operator? at h
  split at h
  · assumption
  · cases h

theorem run_product (inParens : Bool) (ts : List Token) :
    run (product r inParens) ts = run r ts >>= fun p => factors r inParens p.1 p.2 := by
  rw [run, run, product]
  cases r ts with
  | error d => rfl
  | ok p =>
    obtain ⟨lhs, rest, hr⟩ := p
    simp only [bind, Except.bind, Except.map, factors]
    cases moreFactors r inParens lhs rest <;> rfl

theorem factors_nil (inParens : Bool) (lhs : Expr) : factors r inParens lhs [] = .ok (lhs, []) := by
  simp [factors, moreFactors, Except.map, NoMore.all]

theorem factors_cons (inParens : Bool) (lhs : Expr) (t : Token) (ts : List Token) :
    factors r inParens lhs (t :: ts) =
      match productOperator? t with
      | none => .ok (lhs, t :: ts)
      | some op =>
        match shorthand? inParens lhs op t ts with
        | some e => factors r inParens e ts.tail
        | none => run r ts >>= fun p => factors r inParens (.binary op lhs p.1 t.position) p.2 := by
  rw [factors, moreFactors]
  cases productOperator? t with
  | none => rfl
  | some op =>
    dsimp only
    cases shorthand? inParens lhs op t ts with
    | some e =>
      simp only [bind, Except.bind, factors]
      cases moreFactors r inParens e ts.tail <;> rfl
    | none =>
      simp only [bind, Except.bind, factors, run]
      cases r ts with
      | error d => rfl
      | ok p =>
        obtain ⟨rhs, rest, hr⟩ := p
        simp only [Except.map]
        cases moreFactors r inParens (.binary op lhs rhs t.position) rest <;> rfl

theorem run_sum (ts : List Token) : run (sum r) ts = run r ts >>= fun p => terms r p.1 p.2 := by
  rw [run, run, sum]
  cases r ts with
  | error d => rfl
  | ok p =>
    obtain ⟨lhs, rest, hr⟩ := p
    simp only [bind, Except.bind, Except.map, terms]
    cases moreTerms r lhs rest <;> rfl

theorem terms_nil (lhs : Expr) : terms r lhs [] = .ok (lhs, []) := by
  simp [terms, moreTerms, Except.map, NoMore.all]

theorem terms_cons (lhs : Expr) (t : Token) (ts : List Token) :
    terms r lhs (t :: ts) =
      match sumOperator? t with
      | none => .ok (lhs, t :: ts)
      | some op =>
        if endsSum op t ts then .ok (lhs, t :: ts)
        else run r ts >>= fun p => terms r (.binary op lhs p.1 t.position) p.2 := by
  rw [terms, moreTerms]
  cases sumOperator? t with
  | none => rfl
  | some op =>
    dsimp only
    split
    · rfl
    · simp only [bind, Except.bind, terms, run]
      cases r ts with
      | error d => rfl
      | ok p =>
        obtain ⟨rhs, rest, hr⟩ := p
        simp only [Except.map]
        cases moreTerms r (.binary op lhs rhs t.position) rest <;> rfl

theorem run_spaceList (ts : List Token) : run (spaceList r) ts =
    run r ts >>= fun p => (items r p.2).map fun q => (collapse .space (p.1 :: q.1), q.2) := by
  rw [run, run, spaceList]
  cases r ts with
  | error d => rfl
  | ok p =>
    obtain ⟨e, rest, hr⟩ := p
    simp only [bind, Except.bind, Except.map, items]
    cases moreItems r rest <;> rfl

theorem items_nil : items r [] = .ok ([], []) := by
  simp [items, moreItems, Except.map, NoMore.all]

theorem items_cons (t : Token) (ts : List Token) : items r (t :: ts) =
    if startsOperand t then run r (t :: ts) >>= fun p => (items r p.2).map fun q => (p.1 :: q.1, q.2)
    else .ok ([], t :: ts) := by
  rw [items, moreItems]
  split
  · simp only [bind, Except.bind, items, run]
    cases r (t :: ts) with
    | error d => rfl
    | ok p =>
      obtain ⟨e, rest, hr⟩ := p
      simp only [Except.map]
      cases moreItems r rest <;> rfl
  · rfl

theorem run_commaList (ts : List Token) : run (commaList r) ts =
    run r ts >>= fun p => (groups r p.2).map fun q => (collapse .comma (p.1 :: q.1), q.2) := by
  rw [run, run, commaList]
  cases r ts with
  | error d => rfl
  | ok p =>
    obtain ⟨e, rest, hr⟩ := p
    simp only [bind, Except.bind, Except.map, groups]
    cases moreGroups r rest <;> rfl

theorem groups_nil : groups r [] = .ok ([], []) := by
  simp [groups, moreGroups, Except.map, NoMore.all]

theorem groups_cons (t : Token) (ts : List Token) : groups r (t :: ts) =
    if t.kind = .comma then run r ts >>= fun p => (groups r p.2).map fun q => (p.1 :: q.1, q.2)
    else .ok ([], t :: ts) := by
  rw [groups, moreGroups]
  split
  · simp only [bind, Except.bind, groups, run]
    cases r ts with
    | error d => rfl
    | ok p =>
      obtain ⟨e, rest, hr⟩ := p
      simp only [Except.map]
      cases moreGroups r rest <;> rfl
  · rfl

/-- What follows the parenthesis around a value. -/
def closeParen (t : Token) (p : Expr × List Token) : Except Diagnostic (Expr × List Token) :=
  match p.2 with
  | [] => .error (Fault.missingParen.blame t.position)
  | close :: rest =>
    if close.kind = .rparen then .ok (p.1, rest) else .error ((Fault.notParen close.text).blame close.position)

/-- A leaf, and the tokens after it. -/
def runLeaf (t : Token) (ts : List Token) : Except Diagnostic (Expr × List Token) :=
  (leaf t ts).map fun p => (p.1, p.2.1)

theorem runLeaf_eq (t : Token) (ts : List Token) : runLeaf t ts =
    match t.kind with
    | .number =>
      match Measure.parse? t.text with
      | some (v, unit) => .ok (.number v unit t.text, ts)
      | none => .error ((Fault.invalidNumber t.text).blame t.position)
    | .ident | .hash | .string | .url => .ok (.keyword t.text, ts)
    | .atKeyword => .ok (.reference t.name t.position, ts)
    | .function =>
      match Tokens.closeParen? (fun _ => false) 0 ts with
      | some (args, rest) => .ok (.function t.name args, rest)
      | none => .error ((Fault.missingCallParen t.text).blame t.position)
    | _ =>
      if t.isDelim '~' then
        match ts with
        | s :: rest =>
          if s.kind = .string then .ok (.keyword s.text.tail.dropLast, rest)
          else .error (Fault.missingEscapedString.blame t.position)
        | [] => .error (Fault.missingEscapedString.blame t.position)
      else .error ((Fault.unexpectedInValue t.text).blame t.position) := by
  obtain ⟨kind, text, position, spaced⟩ := t
  cases kind with
  | number =>
    simp only [runLeaf, leaf]
    cases Measure.parse? text <;> rfl
  | function =>
    simp only [runLeaf, leaf]
    split <;> simp_all [Except.map]
  | ident | hash | string | url | atKeyword => rfl
  | delim =>
    by_cases hd : text.head? = some '~'
    · cases ts with
      | nil => simp [runLeaf, leaf, Token.isDelim, hd, Except.map]
      | cons s rest =>
        by_cases hk : s.kind = .string <;> simp [runLeaf, leaf, Token.isDelim, hd, hk, Except.map]
    · simp [runLeaf, leaf, Token.isDelim, hd, Except.map]
  | _ => simp [runLeaf, leaf, Token.isDelim, Except.map]

/-- How a leaf is spelled by a token and those after it, and what it leaves. -/
inductive Leaf (t : Token) : List Token → Expr → List Token → Prop
  | number {after v unit} (hk : t.kind = .number) (hm : Measure.parse? t.text = some (v, unit)) :
    Leaf t after (.number v unit t.text) after
  | keyword {after} (hk : t.kind = .ident ∨ t.kind = .hash ∨ t.kind = .string ∨ t.kind = .url) :
    Leaf t after (.keyword t.text) after
  | reference {after} (hk : t.kind = .atKeyword) : Leaf t after (.reference t.name t.position) after
  | function {us args after} (hk : t.kind = .function)
    (hclose : Tokens.closeParen? (fun _ => false) 0 us = some (args, after)) : Leaf t us (.function t.name args) after
  | escaped {s after} (ht : t.isDelim '~' = true) (hk : s.kind = .string) :
    Leaf t (s :: after) (.keyword s.text.tail.dropLast) after

theorem runLeaf_eq_ok {t : Token} : runLeaf t ts = .ok (e, rest) ↔ Leaf t ts e rest := by
  constructor
  · intro h
    rw [runLeaf_eq] at h
    split at h
    · next hk =>
      split at h
      · next hm =>
        obtain ⟨rfl, rfl⟩ := Prod.mk.inj (Except.ok.inj h)
        exact .number hk hm
      · exact nomatch h
    iterate 4
      · next hk =>
        obtain ⟨rfl, rfl⟩ := Prod.mk.inj (Except.ok.inj h)
        exact .keyword (by simp [hk])
    · next hk =>
      obtain ⟨rfl, rfl⟩ := Prod.mk.inj (Except.ok.inj h)
      exact .reference hk
    · next hk =>
      split at h
      · next hclose =>
        obtain ⟨rfl, rfl⟩ := Prod.mk.inj (Except.ok.inj h)
        exact .function hk hclose
      · exact nomatch h
    · split at h
      · next ht =>
        split at h
        · split at h
          · next hs =>
            obtain ⟨rfl, rfl⟩ := Prod.mk.inj (Except.ok.inj h)
            exact .escaped ht hs
          · exact nomatch h
        · exact nomatch h
      · exact nomatch h
  · intro h
    rw [runLeaf_eq]
    cases h with
    | number hk hm => rw [hk, hm]
    | keyword hk => rcases hk with hk | hk | hk | hk <;> rw [hk]
    | reference hk => rw [hk]
    | function hk hclose => rw [hk, hclose]
    | escaped ht hs =>
      have hk : t.kind = .delim := (of_decide_eq_true ht).1
      rw [hk, ht]
      simp [hs]

variable {last : Position} {budget : Nat} {inParens : Bool}

theorem run_operand_nil : run (operand last budget inParens) [] = .error (Fault.missingOperand.blame last) := by
  simp [run, operand, Except.map]

theorem run_operand_cons (t : Token) (ts : List Token) : run (operand last budget inParens) (t :: ts) =
    if t.isOperator '-' then
      match budget with
      | 0 => .error (Fault.valueTooDeep.blame t.position)
      | budget + 1 => (run (operand last budget inParens) ts).map fun p => (.negate p.1, p.2)
    else if t.kind = .lparen then
      match budget with
      | 0 => .error (Fault.valueTooDeep.blame t.position)
      | budget + 1 => run (value (operand last budget true) true) ts >>= closeParen t
    else runLeaf t ts := by
  cases budget with
  | zero =>
    rw [run, operand]
    split
    · rfl
    · split
      · rfl
      · simp only [bind, Except.bind, runLeaf]
        cases leaf t ts <;> rfl
  | succ budget =>
    rw [run, operand]
    split
    · simp only [bind, Except.bind, run]
      cases operand last budget inParens ts <;> rfl
    · split
      · simp only [bind, Except.bind, run]
        cases value (operand last budget true) true ts with
        | error d => rfl
        | ok p =>
          obtain ⟨e, rest, hr⟩ := p
          cases rest with
          | nil => rfl
          | cons close rest =>
            by_cases hk : close.kind = .rparen <;> simp [Except.map, closeParen, hk]
      · simp only [bind, Except.bind, runLeaf]
        cases leaf t ts <;> rfl

theorem closeParen_eq_ok {t : Token} {p : Expr × List Token} (h : closeParen t p = .ok (e, rest)) :
    ∃ close, close.kind = .rparen ∧ p = (e, close :: rest) := by
  obtain ⟨e', after⟩ := p
  unfold closeParen at h
  cases after with
  | nil => cases h
  | cons close after =>
    dsimp only at h
    split at h
    · next hk =>
      obtain ⟨rfl, rfl⟩ := Prod.mk.inj (Except.ok.inj h)
      exact ⟨close, hk, rfl⟩
    · cases h

/-- How an operand is read from a row: a negative, a value between parentheses, or a leaf. -/
inductive OperandRead (last : Position) (inParens : Bool) : Nat → List Token → Expr → List Token → Prop
  | negative {left minus us inner after} (hminus : minus.isOperator '-' = true)
    (h : run (operand last left inParens) us = .ok (inner, after)) :
    OperandRead last inParens (left + 1) (minus :: us) (.negate inner) after
  | parens {left lp us inner rp after} (hopen : lp.kind = .lparen)
    (h : run (value (operand last left true) true) us = .ok (inner, rp :: after)) (hclose : rp.kind = .rparen) :
    OperandRead last inParens (left + 1) (lp :: us) inner after
  | leaf {left first us word after} (hminus : first.isOperator '-' = false) (hopen : first.kind ≠ .lparen)
    (h : Leaf first us word after) : OperandRead last inParens left (first :: us) word after

theorem operandRead_of_run (h : run (operand last budget inParens) ts = .ok (e, rest)) :
    OperandRead last inParens budget ts e rest := by
  cases ts with
  | nil =>
    rw [run_operand_nil] at h
    cases h
  | cons t ts =>
    rw [run_operand_cons] at h
    split at h
    · next hminus =>
      cases budget with
      | zero => cases h
      | succ budget =>
        obtain ⟨⟨e', after⟩, hrun, heq⟩ := map_eq_ok h
        obtain ⟨rfl, rfl⟩ := Prod.mk.inj heq
        exact .negative hminus hrun
    · next hminus =>
      split at h
      · next hopen =>
        cases budget with
        | zero => cases h
        | succ budget =>
          obtain ⟨p, hrun, hclose⟩ := bind_eq_ok h
          obtain ⟨close, hk, rfl⟩ := closeParen_eq_ok hclose
          exact .parens hopen hrun hk
      · next hopen => exact .leaf (by simpa using hminus) hopen (runLeaf_eq_ok.mp h)

theorem run_operand_eq_ok :
    run (operand last budget inParens) ts = .ok (e, rest) ↔ OperandRead last inParens budget ts e rest := by
  refine ⟨operandRead_of_run, fun h => ?_⟩
  cases h with
  | negative hminus h =>
    rw [run_operand_cons, if_pos hminus]
    dsimp only
    rw [h]
    rfl
  | @parens budget t ts e close rest hopen h hclose =>
    rw [run_operand_cons, if_neg (by simp [Token.isOperator, hopen]), if_pos hopen]
    dsimp only
    rw [h]
    exact if_pos hclose
  | leaf hminus hopen h =>
    rw [run_operand_cons, hminus, if_neg (by simp), if_neg hopen]
    exact runLeaf_eq_ok.mpr h

/-- A token that begins neither a negative nor a parenthesis is a leaf. -/
theorem run_operand_leaf {t : Token} (last : Position) (hminus : t.isOperator '-' = false) (hopen : t.kind ≠ .lparen)
    (ts : List Token) : run (operand last budget inParens) (t :: ts) = runLeaf t ts := by
  rw [run_operand_cons, hminus, if_neg (by simp), if_neg hopen]

theorem run_operand_of_leaf {t : Token} {ts rest : List Token} {e : Expr} (hminus : t.isOperator '-' = false)
    (hopen : t.kind ≠ .lparen) (h : Leaf t ts e rest) :
    run (operand last budget inParens) (t :: ts) = .ok (e, rest) :=
  run_operand_eq_ok.mpr (.leaf hminus hopen h)

/-- A value that is read from end to end. -/
theorem ofTokens_eq (ts : List Token) : ofTokens ts =
    run (value (operand ((ts.getLast?.map Token.position).getD .start) maxNesting false) false) ts >>=
      fun p => match p.2 with
        | [] => .ok p.1
        | t :: _ => .error ((Fault.unexpectedInValue t.text).blame t.position) := by
  simp only [ofTokens, bind, Except.bind, run]
  cases value (operand ((ts.getLast?.map Token.position).getD .start) maxNesting false) false ts <;> rfl

end LessCss.Expr
