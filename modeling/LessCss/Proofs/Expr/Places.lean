import LessCss.Expr.Value
import LessCss.Proofs.Expr.Steps
import LessCss.Proofs.Token.Places
/-!
The readers of expressions keep places for diagnostics alone, and so does evaluation.

`Mirrors r' r` says that one reader makes of a row without places what another makes of the row with them.
Every layer of the grammar hands this on from its operands, so it holds of whole values.
-/
namespace LessCss.Expr

open Token (unplaced)

mutual

/-- An expression whose tokens and operators stand at the start of the text. -/
def unplaced : Expr → Expr
  | .number value unit text => .number value unit text
  | .keyword text => .keyword text
  | .reference name _ => .reference name .start
  | .function name args => .function name (args.map Token.unplaced)
  | .negate operand => .negate (unplaced operand)
  | .binary op lhs rhs _ => .binary op (unplaced lhs) (unplaced rhs) .start
  | .list items separator => .list (unplacedAll items) separator

def unplacedAll : List Expr → List Expr
  | [] => []
  | e :: es => unplaced e :: unplacedAll es

end

theorem unplaced_collapse (separator : Separator) (es : List Expr) :
    (collapse separator es).unplaced = collapse separator (unplacedAll es) := by
  rcases es with _ | ⟨e, _ | ⟨e', es⟩⟩ <;> simp [collapse, unplaced, unplacedAll]

/-- A step that gives an expression and the tokens after it, without their places. -/
abbrev forgetStep (r : Except Diagnostic (Expr × List Token)) : Except Diagnostic (Expr × List Token) :=
  forget (Prod.map Expr.unplaced (List.map Token.unplaced)) r

abbrev forgetSteps (r : Except Diagnostic (List Expr × List Token)) :
    Except Diagnostic (List Expr × List Token) :=
  forget (Prod.map unplacedAll (List.map Token.unplaced)) r

/-- What `r` makes of a row of tokens, `r'` makes of the row without places. -/
def Mirrors (r' r : Reader) : Prop := ∀ ts, run r' (ts.map Token.unplaced) = forgetStep (run r ts)

variable {r r' : Reader}

theorem shorthand?_unplaced (inParens : Bool) (lhs : Expr) (op : Operator) (slash : Token) (ts : List Token) :
    shorthand? inParens lhs.unplaced op slash.unplaced (ts.map Token.unplaced) =
      (shorthand? inParens lhs op slash ts).map Expr.unplaced := by
  cases ts with
  | nil => rfl
  | cons t ts =>
    cases lhs <;> simp only [Expr.unplaced, List.map_cons, shorthand?, Option.map_none]
    by_cases hs : op = .divide ∧ !inParens ∧ !slash.spaced ∧ !t.spaced ∧ t.kind = .number
    · rw [if_pos hs]
      exact if_pos hs
    · rw [if_neg hs]
      exact if_neg hs

theorem endsSum_unplaced (op : Operator) (t : Token) (ts : List Token) :
    endsSum op t.unplaced (ts.map Token.unplaced) = endsSum op t ts := by
  cases ts <;> rfl

theorem factors_unplaced (h : Mirrors r' r) (inParens : Bool) (lhs : Expr) (ts : List Token) :
    factors r' inParens lhs.unplaced (ts.map Token.unplaced) = forgetStep (factors r inParens lhs ts) := by
  induction hn : ts.length using Nat.strongRecOn generalizing lhs ts with
  | ind n ih =>
    subst hn
    cases ts with
    | nil =>
      rw [List.map_nil, factors_nil, factors_nil]
      rfl
    | cons t ts =>
      rw [List.map_cons, factors_cons, factors_cons]
      have hop : productOperator? t.unplaced = productOperator? t := rfl
      rw [hop]
      cases productOperator? t with
      | none => rfl
      | some op =>
        dsimp only
        rw [shorthand?_unplaced]
        cases shorthand? inParens lhs op t ts with
        | some e =>
          have hlt : ts.tail.length < (t :: ts).length := Nat.lt_succ_of_le (List.tail_sublist ts).length_le
          rw [← List.map_tail]
          exact ih _ hlt e ts.tail rfl
        | none =>
          dsimp only [Option.map_none]
          rw [h ts]
          refine forget_bind fun p hp => ?_
          exact ih _ (Nat.lt_succ_of_lt (run_length hp)) (.binary op lhs p.1 t.position) p.2 rfl

theorem Mirrors.product (h : Mirrors r' r) (inParens : Bool) :
    Mirrors (product r' inParens) (product r inParens) := by
  intro ts
  rw [run_product, run_product, h ts]
  exact forget_bind fun p _ => factors_unplaced h inParens p.1 p.2

theorem terms_unplaced (h : Mirrors r' r) (lhs : Expr) (ts : List Token) :
    terms r' lhs.unplaced (ts.map Token.unplaced) = forgetStep (terms r lhs ts) := by
  induction hn : ts.length using Nat.strongRecOn generalizing lhs ts with
  | ind n ih =>
    subst hn
    cases ts with
    | nil =>
      rw [List.map_nil, terms_nil, terms_nil]
      rfl
    | cons t ts =>
      rw [List.map_cons, terms_cons, terms_cons]
      have hop : sumOperator? t.unplaced = sumOperator? t := rfl
      rw [hop]
      cases sumOperator? t with
      | none => rfl
      | some op =>
        dsimp only
        rw [endsSum_unplaced]
        split
        · rfl
        · rw [h ts]
          refine forget_bind fun p hp => ?_
          exact ih _ (Nat.lt_succ_of_lt (run_length hp)) (.binary op lhs p.1 t.position) p.2 rfl

theorem Mirrors.sum (h : Mirrors r' r) : Mirrors (sum r') (sum r) := by
  intro ts
  rw [run_sum, run_sum, h ts]
  exact forget_bind fun p _ => terms_unplaced h p.1 p.2

theorem items_unplaced (h : Mirrors r' r) (ts : List Token) :
    items r' (ts.map Token.unplaced) = forgetSteps (items r ts) := by
  induction hn : ts.length using Nat.strongRecOn generalizing ts with
  | ind n ih =>
    subst hn
    cases ts with
    | nil =>
      rw [List.map_nil, items_nil, items_nil]
      rfl
    | cons t ts =>
      rw [List.map_cons, items_cons, items_cons]
      have hs : startsOperand t.unplaced = startsOperand t := rfl
      rw [hs, ← List.map_cons, h (t :: ts)]
      split
      · refine forget_bind fun p hp => ?_
        rw [Prod.map_snd, ih _ (run_length hp) p.2 rfl, map_forget, forget_map]
        rfl
      · rfl

theorem Mirrors.spaceList (h : Mirrors r' r) : Mirrors (spaceList r') (spaceList r) := by
  intro ts
  rw [run_spaceList, run_spaceList, h ts]
  refine forget_bind fun p _ => ?_
  rw [Prod.map_snd, items_unplaced h, map_forget]
  rw [forget_map]
  simp [unplaced_collapse, unplacedAll]

theorem groups_unplaced (h : Mirrors r' r) (ts : List Token) :
    groups r' (ts.map Token.unplaced) = forgetSteps (groups r ts) := by
  induction hn : ts.length using Nat.strongRecOn generalizing ts with
  | ind n ih =>
    subst hn
    cases ts with
    | nil =>
      rw [List.map_nil, groups_nil, groups_nil]
      rfl
    | cons t ts =>
      rw [List.map_cons, groups_cons, groups_cons, Token.unplaced_kind, h ts]
      split
      · refine forget_bind fun p hp => ?_
        rw [Prod.map_snd, ih _ (Nat.lt_succ_of_lt (run_length hp)) p.2 rfl, map_forget, forget_map]
        rfl
      · rfl

theorem Mirrors.commaList (h : Mirrors r' r) : Mirrors (commaList r') (commaList r) := by
  intro ts
  rw [run_commaList, run_commaList, h ts]
  refine forget_bind fun p _ => ?_
  rw [Prod.map_snd, groups_unplaced h, map_forget]
  rw [forget_map]
  simp [unplaced_collapse, unplacedAll]

theorem Mirrors.value (h : Mirrors r' r) (inParens : Bool) : Mirrors (value r' inParens) (value r inParens) :=
  (h.product inParens).sum.spaceList.commaList

theorem runLeaf_unplaced (t : Token) (ts : List Token) :
    runLeaf t.unplaced (ts.map Token.unplaced) = forgetStep (runLeaf t ts) := by
  rw [runLeaf_eq, runLeaf_eq, Token.unplaced_kind]
  split
  · rw [Token.unplaced_text]
    cases Measure.parse? t.text <;> rfl
  · rfl
  · rfl
  · rfl
  · rfl
  · rfl
  · rw [Tokens.closeParen?_map (f := Token.unplaced) (fun _ => rfl) (fun _ => rfl)]
    cases Tokens.closeParen? (fun _ => false) 0 ts <;> rfl
  · rw [Token.unplaced_isDelim]
    split
    · cases ts with
      | nil => rfl
      | cons s ts => by_cases hk : s.kind = .string <;> simp [hk, Expr.unplaced]
    · rfl

theorem closeParen_unplaced (t : Token) (p : Expr × List Token) :
    closeParen t.unplaced (Prod.map Expr.unplaced (List.map Token.unplaced) p) = forgetStep (closeParen t p) := by
  obtain ⟨e, ts⟩ := p
  cases ts with
  | nil => rfl
  | cons close ts => by_cases hk : close.kind = .rparen <;> simp [closeParen, hk]

theorem operand_mirrors (last : Position) (budget : Nat) (inParens : Bool) :
    Mirrors (operand .start budget inParens) (operand last budget inParens) := by
  intro ts
  induction budget generalizing inParens ts with
  | zero =>
    cases ts with
    | nil =>
      rw [List.map_nil, run_operand_nil, run_operand_nil]
      rfl
    | cons t ts =>
      rw [List.map_cons, run_operand_cons, run_operand_cons, Token.unplaced_isOperator, Token.unplaced_kind,
        runLeaf_unplaced]
      split
      · rfl
      · split <;> rfl
  | succ budget ih =>
    cases ts with
    | nil =>
      rw [List.map_nil, run_operand_nil, run_operand_nil]
      rfl
    | cons t ts =>
      rw [List.map_cons, run_operand_cons, run_operand_cons, Token.unplaced_isOperator, Token.unplaced_kind,
        runLeaf_unplaced]
      split
      · dsimp only
        unfold forgetStep
        rw [ih inParens ts, map_forget, forget_map]
        rfl
      · split
        · have hvalue : Mirrors (value (operand .start budget true) true) (value (operand last budget true) true) :=
            Mirrors.value (fun us => ih true us) true
          dsimp only
          rw [hvalue ts]
          exact forget_bind fun p _ => closeParen_unplaced t p
        · rfl

/-- The expression of a row of tokens does not depend on their places. -/
theorem ofTokens_unplaced (ts : List Token) :
    ofTokens (ts.map Token.unplaced) = forget Expr.unplaced (ofTokens ts) := by
  have hlast : ((ts.map Token.unplaced).getLast?.map Token.position).getD .start = .start := by
    rw [List.getLast?_map, Option.map_map]
    cases ts.getLast? <;> rfl
  rw [ofTokens_eq, ofTokens_eq, hlast, (operand_mirrors _ maxNesting false).value false ts]
  refine forget_bind fun p _ => ?_
  obtain ⟨e, rest⟩ := p
  cases rest <;> rfl

/-- What a look-up at the start of the text finds, the other one finds anywhere. -/
def SameLookup (lookup' lookup : Lookup) : Prop := ∀ name p, lookup' name .start = forget id (lookup name p)

variable {lookup lookup' : Lookup}

theorem argumentPiece_unplaced (h : SameLookup lookup' lookup) (t : Token) :
    argumentPiece lookup' t.unplaced = forget id (argumentPiece lookup t) := by
  rw [argumentPiece, argumentPiece, Token.unplaced_kind]
  split
  · rw [Token.unplaced_name, Token.unplaced_position, h t.name t.position, map_forget, forget_map]
    rfl
  · rfl

theorem operate_start (op : Operator) (p : Position) (a b : Value) :
    Value.operate op .start a b = forget id (Value.operate op p a b) := by
  cases a <;> cases b <;> try rfl
  next a b => cases h : Dimension.operate? op a b <;> simp [Value.operate, h]

mutual

theorem evaluate_unplaced (h : SameLookup lookup' lookup) (e : Expr) :
    e.unplaced.evaluate lookup' = forget id (e.evaluate lookup) := by
  cases e with
  | number | keyword => rfl
  | reference name p => exact h name p
  | function name args =>
    rw [Expr.unplaced, evaluate, evaluate, forget_mapM (argumentPiece_unplaced h), List.map_id_fun]
    exact forget_bind fun ps _ => rfl
  | negate operand =>
    rw [Expr.unplaced, evaluate, evaluate, evaluate_unplaced h operand]
    exact forget_bind fun v _ => rfl
  | binary op lhs rhs p =>
    rw [Expr.unplaced, evaluate, evaluate, evaluate_unplaced h lhs, evaluate_unplaced h rhs]
    exact forget_bind fun a _ => forget_bind fun b _ => operate_start op p a b
  | list es separator =>
    rw [Expr.unplaced, evaluate, evaluate, evaluateAll_unplaced h es]
    exact forget_bind fun vs _ => rfl

theorem evaluateAll_unplaced (h : SameLookup lookup' lookup) (es : List Expr) :
    evaluateAll lookup' (unplacedAll es) = forget id (evaluateAll lookup es) := by
  cases es with
  | nil => rfl
  | cons e es =>
    rw [unplacedAll, evaluateAll, evaluateAll, evaluate_unplaced h e, evaluateAll_unplaced h es]
    exact forget_bind fun v _ => forget_bind fun vs _ => rfl

end

end LessCss.Expr
