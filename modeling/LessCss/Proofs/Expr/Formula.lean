import LessCss.Proofs.Expr.Literal
import LessCss.Proofs.Expr.Places
/-!
Formulas: sums, products and negatives of numbers and variables, and how they are written.

An operand of an operator stands in parentheses only where it binds less tightly than the operator, or no more tightly
on the right, and the operand of a minus always does. A reader of sums goes on after a formula as it does after any
other first term, and so does a reader of products (`Formula.Reading`). That is what makes an operator group to the
left.
-/
namespace LessCss

/-- A number as it is written, without a sign. -/
structure Unsigned where
  measure : Measure
  wellFormed : measure.WellFormed
  sign_nil : measure.number.sign = []

/-- A whole number without a unit. -/
def Unsigned.whole (digits : Text) (hne : digits ≠ []) (h : digits.all Char.isDigit = true) : Unsigned where
  measure := ⟨⟨[], digits, none, none⟩, []⟩
  wellFormed := ⟨⟨.inl rfl, List.all_eq_true.mp h, nofun, .inl hne, nofun⟩, .inr nofun⟩
  sign_nil := rfl

theorem Unsigned.parse? (n : Unsigned) :
    Measure.parse? n.measure.text = some (n.measure.number.value, n.measure.unit) := n.wellFormed.parse?

/-- The name of a variable, without its `@`. -/
structure VariableName where
  text : Text
  ne_nil : text ≠ []
  fits : ∀ c ∈ text, isNameChar c = true

inductive Formula
  | number (n : Unsigned)
  | reference (v : VariableName)
  | negate (operand : Formula)
  | binary (op : Operator) (lhs rhs : Formula)

/-- A token, and how many parentheses and minus signs are open with it if it opens one. -/
structure NestedToken where
  token : Token
  depth : Nat
deriving DecidableEq, Repr

def NestedToken.unplaced (n : NestedToken) : NestedToken := { n with token := n.token.unplaced }

/-- How tightly an operator binds. -/
def Operator.tightness : Operator → Nat
  | add | subtract => 1
  | multiply | divide => 2

def Operator.char : Operator → Char
  | add => '+'
  | subtract => '-'
  | multiply => '*'
  | divide => '/'

namespace Formula

def tightness : Formula → Nat
  | number _ | reference _ | negate _ => 3
  | binary op _ _ => op.tightness

/-- The expression that a formula is, without places. -/
def expr : Formula → Expr
  | number n => .number n.measure.number.value n.measure.unit n.measure.text
  | reference v => .reference v.text .start
  | negate operand => .negate operand.expr
  | binary op lhs rhs => .binary op lhs.expr rhs.expr .start

/-- A layout between parentheses. A layout is given the number of parentheses and signs around it, and whether there is
a gap before it. -/
def parenthesized (layout : Nat → Bool → List NestedToken) (depth : Nat) (gap : Bool) : List NestedToken :=
  ⟨⟨.lparen, ['('], .start, gap⟩, depth + 1⟩ ::
    (layout (depth + 1) false ++ [⟨⟨.rparen, [')'], .start, false⟩, 0⟩])

/-- An operand of an operator, in parentheses or not. -/
def side (inParens : Bool) (layout : Nat → Bool → List NestedToken) (depth : Nat) (gap : Bool) : List NestedToken :=
  if inParens then parenthesized layout depth gap else layout depth gap

/-- The tokens of a formula that stands between `depth` parentheses and signs. -/
def layout : Formula → Nat → Bool → List NestedToken
  | number n, _, gap => [⟨⟨.number, n.measure.text, .start, gap⟩, 0⟩]
  | reference v, _, gap => [⟨⟨.atKeyword, '@' :: v.text, .start, gap⟩, 0⟩]
  | negate operand, depth, gap =>
    ⟨⟨.operator, ['-'], .start, gap⟩, depth + 1⟩ :: parenthesized operand.layout (depth + 1) false
  | binary op lhs rhs, depth, gap =>
    side (lhs.tightness < op.tightness) lhs.layout depth gap ++
      ⟨⟨.operator, [op.char], .start, true⟩, 0⟩ :: side (rhs.tightness ≤ op.tightness) rhs.layout depth true

end Formula

namespace NestedToken

/-- The tokens of a row. -/
def row (ns : List NestedToken) : List Token := ns.map NestedToken.token

/-- Nothing in a row is nested deeper than the limit. Otherwise the first token that is gets the blame. -/
def within (limit : Nat) : List NestedToken → Except Diagnostic Unit
  | [] => .ok ()
  | n :: ns => if limit < n.depth then .error (Fault.valueTooDeep.blame n.token.position) else within limit ns

variable {limit : Nat} {ns ms : List NestedToken} {n : NestedToken}

theorem row_append (ns ms : List NestedToken) : row (ns ++ ms) = row ns ++ row ms := List.map_append

theorem within_append (limit : Nat) (ns ms : List NestedToken) :
    within limit (ns ++ ms) = within limit ns >>= fun _ => within limit ms := by
  induction ns with
  | nil => rfl
  | cons n ns ih =>
    rw [List.cons_append, within, within, ih]
    split <;> rfl

theorem within_cons_of_le (h : n.depth ≤ limit) (ns : List NestedToken) : within limit (n :: ns) = within limit ns := by
  rw [within, if_neg (by omega)]

theorem within_cons_of_lt (h : limit < n.depth) (ns : List NestedToken) :
    within limit (n :: ns) = .error (Fault.valueTooDeep.blame n.token.position) := by
  rw [within, if_pos h]

theorem within_of_le (h : ∀ n ∈ ns, n.depth ≤ limit) : within limit ns = .ok () := by
  induction ns with
  | nil => rfl
  | cons n ns ih =>
    rw [List.forall_mem_cons] at h
    rw [within_cons_of_le h.1, ih h.2]

end NestedToken

namespace Formula

open LessCss.Expr (Reader run)
open NestedToken (row within row_append within_append within_cons_of_le within_cons_of_lt)

/-- Nothing follows but what closes a parenthesis. -/
def Closes (ts : List Token) : Prop := ∀ t ∈ ts.head?, t.kind = .rparen

theorem Closes.nil : Closes [] := nofun

/-- No factor follows. -/
def EndsProduct (ts : List Token) : Prop := ∀ t ∈ ts.head?, Expr.productOperator? t = none

section Rest

variable {r : Reader} {rest : List Token}

theorem Closes.stops (h : Closes rest) : Expr.Stops rest := by
  cases rest with
  | nil => exact .nil
  | cons t after => exact .of_kind (by simp [h t rfl]) after

theorem Closes.endsProduct (h : Closes rest) : EndsProduct rest := by
  intro t ht
  simp [Expr.productOperator?, Expr.operator?, h t ht]

theorem factors_of_endsProduct (h : EndsProduct rest) (inParens : Bool) (e : Expr) :
    Expr.factors r inParens e rest = .ok (e, rest) := by
  cases rest with
  | nil => exact Expr.factors_nil inParens e
  | cons t rest => rw [Expr.factors_cons, h t rfl]

theorem items_of_closes (h : Closes rest) : Expr.items r rest = .ok ([], rest) :=
  Expr.items_of_head fun t ht => by simp [Expr.startsOperand, Token.isDelim, Token.isOperator, h t ht]

theorem groups_of_closes (h : Closes rest) : Expr.groups r rest = .ok ([], rest) := by
  cases rest with
  | nil => exact Expr.groups_nil
  | cons t rest =>
    have ht : t.kind = .rparen := h t rfl
    rw [Expr.groups_cons, if_neg (by simp [ht])]

end Rest

/-- How a row that binds with the given tightness is read: with `budget` parentheses and signs left, it is taken as the
expression `e` by every reader for what may bind as loosely, unless it goes too deep. The readers for what may bind more
loosely go on with what follows. -/
structure Reading (limit : Nat) (last : Position) (budget : Nat) (inParens : Bool) (ns : List NestedToken) (e : Expr)
    (tightness : Nat) : Prop where
  operand : 3 ≤ tightness → ∀ rest, run (Expr.operand last budget inParens) (row ns ++ rest) =
    within limit ns >>= fun _ => .ok (e, rest)
  product : 2 ≤ tightness → ∀ rest, run (Expr.product (Expr.operand last budget inParens) inParens) (row ns ++ rest) =
    within limit ns >>= fun _ => Expr.factors (Expr.operand last budget inParens) inParens e rest
  sum : ∀ rest, EndsProduct rest →
    run (Expr.sum (Expr.product (Expr.operand last budget inParens) inParens)) (row ns ++ rest) =
      within limit ns >>= fun _ => Expr.terms (Expr.product (Expr.operand last budget inParens) inParens) e rest
  value : ∀ rest, Closes rest → run (Expr.value (Expr.operand last budget inParens) inParens) (row ns ++ rest) =
    within limit ns >>= fun _ => .ok (e, rest)

namespace Reading

variable {limit : Nat} {last : Position} {budget : Nat} {inParens : Bool} {ns : List NestedToken} {e : Expr}

theorem of_sum (hsum : ∀ rest, EndsProduct rest →
    run (Expr.sum (Expr.product (Expr.operand last budget inParens) inParens)) (row ns ++ rest) =
      within limit ns >>= fun _ => Expr.terms (Expr.product (Expr.operand last budget inParens) inParens) e rest) :
    Reading limit last budget inParens ns e 1 where
  operand h := by omega
  product h := by omega
  sum := hsum
  value rest hrest := by
    rw [Expr.value, Expr.run_commaList, Expr.run_spaceList, hsum rest hrest.endsProduct,
      Expr.terms_of_stops hrest.stops]
    cases within limit ns with
    | error d => rfl
    | ok _ =>
      simp only [ok_bind, items_of_closes hrest, groups_of_closes hrest, Except.map]
      rfl

theorem of_product (hproduct : ∀ rest,
    run (Expr.product (Expr.operand last budget inParens) inParens) (row ns ++ rest) =
      within limit ns >>= fun _ => Expr.factors (Expr.operand last budget inParens) inParens e rest) :
    Reading limit last budget inParens ns e 2 :=
  have hsum : Reading limit last budget inParens ns e 1 := of_sum fun rest hrest => by
    rw [Expr.run_sum, hproduct, factors_of_endsProduct hrest]
    cases within limit ns <;> rfl
  { hsum with
    operand := fun h => by omega
    product := fun _ => hproduct }

theorem of_operand (hoperand : ∀ rest, run (Expr.operand last budget inParens) (row ns ++ rest) =
    within limit ns >>= fun _ => .ok (e, rest)) : Reading limit last budget inParens ns e 3 :=
  have hproduct : Reading limit last budget inParens ns e 2 := of_product fun rest => by
    rw [Expr.run_product, hoperand]
    cases within limit ns <;> rfl
  { hproduct with
    operand := fun _ => hoperand
    product := fun _ => hproduct.product (Nat.le_refl 2) }

end Reading

variable {limit : Nat} {last : Position} {budget depth : Nat} {inParens gap : Bool} {ns : List NestedToken}

theorem expr_unplaced (f : Formula) : f.expr.unplaced = f.expr := by
  induction f with
  | number | reference => rfl
  | negate f ih => rw [expr, Expr.unplaced, ih]
  | binary op lhs rhs ihl ihr => rw [expr, Expr.unplaced, ihl, ihr]

theorem side_head {layout : Nat → Bool → List NestedToken}
    (h : ∀ depth gap, ∃ n ns, layout depth gap = n :: ns ∧ n.token.spaced = gap) (inParens : Bool) (depth : Nat)
    (gap : Bool) : ∃ n ns, side inParens layout depth gap = n :: ns ∧ n.token.spaced = gap := by
  cases inParens with
  | true => exact ⟨_, _, rfl, rfl⟩
  | false => exact h depth gap

/-- The gap before a formula is the gap before its first token. -/
theorem layout_head (f : Formula) (depth : Nat) (gap : Bool) :
    ∃ n ns, f.layout depth gap = n :: ns ∧ n.token.spaced = gap := by
  induction f generalizing depth gap with
  | number | reference | negate => exact ⟨_, _, rfl, rfl⟩
  | binary op lhs rhs ihl =>
    obtain ⟨n, ns, hns, hgap⟩ := side_head ihl (lhs.tightness < op.tightness) depth gap
    rw [layout, hns]
    exact ⟨n, _, rfl, hgap⟩

/-- What the readers are to do with a formula that stands between `depth` parentheses and signs. -/
def Reads (f : Formula) (layout : Nat → Bool → List NestedToken) (tightness : Nat) : Prop :=
  ∀ (last : Position) (inParens : Bool) {limit budget depth gap ns}, budget + depth = limit →
    ns.map NestedToken.unplaced = layout depth gap →
    ∃ e : Expr, e.unplaced = f.expr ∧ Reading limit last budget inParens ns e tightness

theorem operator?_char {op : Operator} {t : Token} (hk : t.kind = .operator) (ht : t.text = [op.char]) :
    Expr.operator? t = some op := by
  rw [Expr.operator?, if_pos hk, ht]
  cases op <;> rfl

/-- A parenthesis is an operand, whatever stands in it. -/
theorem Reads.parenthesized {f : Formula} {tightness : Nat} (h : f.Reads f.layout tightness) :
    f.Reads (Formula.parenthesized f.layout) 3 := by
  intro last inParens limit budget depth gap ns hbudget hns
  obtain ⟨lp, after, rfl, hlp, hafter⟩ := List.map_eq_cons_iff.mp hns
  obtain ⟨inner, close, rfl, hinner, hclose⟩ := List.map_eq_append_iff.mp hafter
  obtain ⟨rp, rfl, hrp⟩ := List.map_eq_singleton_iff.mp hclose
  have hopen : lp.token.kind = .lparen := congrArg (·.token.kind) hlp
  have hdepth : lp.depth = depth + 1 := congrArg NestedToken.depth hlp
  have hshut : rp.token.kind = .rparen := congrArg (·.token.kind) hrp
  have hflat : rp.depth = 0 := congrArg NestedToken.depth hrp
  have hminus : lp.token.isOperator '-' = false := by simp [Token.isOperator, hopen]
  cases budget with
  | zero =>
    refine ⟨f.expr, expr_unplaced f, .of_operand fun rest => ?_⟩
    rw [within_cons_of_lt (by omega), row, List.map_cons, List.cons_append, Expr.run_operand_cons,
      if_neg (by simp [hminus]), if_pos hopen]
    rfl
  | succ budget =>
    obtain ⟨e, he, hread⟩ := h last true (by omega : budget + (depth + 1) = limit) hinner
    refine ⟨e, he, .of_operand fun rest => ?_⟩
    have hvalue := hread.value (rp.token :: rest) (by rintro t ht; cases ht; exact hshut)
    rw [within_cons_of_le (by omega), within_append, within_cons_of_le (by omega)]
    rw [row, List.map_cons, List.cons_append, Expr.run_operand_cons, if_neg (by simp [hminus]), if_pos hopen]
    simp only [List.map_append, List.append_assoc]
    change run _ (row inner ++ rp.token :: rest) >>= _ = _
    rw [hvalue]
    cases within limit inner with
    | error d => rfl
    | ok _ => simp [Expr.closeParen, hshut, within, bind, Except.bind]

theorem Reads.negate {f : Formula} {tightness : Nat} (h : f.Reads f.layout tightness) :
    (negate f).Reads (negate f).layout 3 := by
  intro last inParens limit budget depth gap ns hbudget hns
  obtain ⟨minus, inner, rfl, hminus, hinner⟩ := List.map_eq_cons_iff.mp hns
  have hsign : minus.token.isOperator '-' = true := by
    have hkind : minus.token.kind = .operator := congrArg (·.token.kind) hminus
    have htext : minus.token.text = ['-'] := congrArg (·.token.text) hminus
    simp [Token.isOperator, hkind, htext]
  have hdepth : minus.depth = depth + 1 := congrArg NestedToken.depth hminus
  cases budget with
  | zero =>
    refine ⟨(Formula.negate f).expr, expr_unplaced _, .of_operand fun rest => ?_⟩
    rw [within_cons_of_lt (by omega), row, List.map_cons, List.cons_append, Expr.run_operand_cons,
      if_pos hsign]
    rfl
  | succ budget =>
    obtain ⟨e, he, hread⟩ := h.parenthesized last inParens
      (by omega : budget + (depth + 1) = limit) hinner
    refine ⟨.negate e, by rw [Expr.unplaced, he, expr], .of_operand fun rest => ?_⟩
    rw [within_cons_of_le (by omega), row, List.map_cons, List.cons_append, Expr.run_operand_cons,
      if_pos hsign]
    have hoperand := hread.operand (Nat.le_refl 3) rest
    rw [row] at hoperand
    dsimp only
    rw [hoperand]
    cases within limit inner <;> rfl

/-- An operand of an operator binds as tightly as the operator asks, with the help of parentheses if it must. -/
theorem Reads.side {f : Formula} (h : f.Reads f.layout f.tightness) {t : Nat} (ht : t ≤ 3) (paren : Bool)
    (hparen : paren = false → t ≤ f.tightness) :
    ∃ tightness, t ≤ tightness ∧ f.Reads (Formula.side paren f.layout) tightness := by
  cases paren with
  | true => exact ⟨3, ht, h.parenthesized⟩
  | false => exact ⟨f.tightness, hparen rfl, h⟩

/-- A product or a quotient of what binds as a product on the left and as an operand on the right. -/
theorem Reading.factor {op : Operator} {opt : NestedToken} {ls rs : List NestedToken} {l r : Expr} {tl tr : Nat}
    (hop : Expr.productOperator? opt.token = some op) (hgap : opt.token.spaced = true) (hflat : opt.depth = 0)
    (hl : Reading limit last budget inParens ls l tl) (htl : 2 ≤ tl)
    (hr : Reading limit last budget inParens rs r tr) (htr : 3 ≤ tr) :
    Reading limit last budget inParens (ls ++ opt :: rs) (.binary op l r opt.token.position) 2 := by
  refine .of_product fun rest => ?_
  have hshort : Expr.shorthand? inParens l op opt.token (row rs ++ rest) = none := by
    cases row rs ++ rest with
    | nil => rfl
    | cons t ts => cases l <;> simp [Expr.shorthand?, hgap]
  have hfactor : Expr.factors (Expr.operand last budget inParens) inParens l (opt.token :: (row rs ++ rest)) =
      within limit rs >>= fun _ => Expr.factors (Expr.operand last budget inParens) inParens
        (.binary op l r opt.token.position) rest := by
    rw [Expr.factors_cons, hop]
    dsimp only
    rw [hshort]
    dsimp only
    rw [hr.operand htr, bind_assoc]
    rfl
  rw [row_append, List.append_assoc, hl.product htl, within_append, within_cons_of_le (by omega),
    bind_assoc]
  exact congrArg _ (funext fun _ => hfactor)

/-- A sum or a difference of what binds as a sum on the left and as a product on the right. -/
theorem Reading.term {op : Operator} {opt n : NestedToken} {ls rs : List NestedToken} {l r : Expr} {tl tr : Nat}
    (hop : Expr.sumOperator? opt.token = some op) (hn : n.token.spaced = true) (hflat : opt.depth = 0)
    (hl : Reading limit last budget inParens ls l tl)
    (hr : Reading limit last budget inParens (n :: rs) r tr) (htr : 2 ≤ tr) :
    Reading limit last budget inParens (ls ++ opt :: n :: rs) (.binary op l r opt.token.position) 1 := by
  refine .of_sum fun rest hrest => ?_
  have hends : Expr.endsSum op opt.token (row (n :: rs) ++ rest) = false := by
    simp [Expr.endsSum, row, hn]
  have hfactor : EndsProduct (row (opt :: n :: rs) ++ rest) := by
    rintro t ht
    cases ht
    simp only [Expr.sumOperator?, Option.filter_eq_some_iff, decide_eq_true_eq] at hop
    simp only [Expr.productOperator?, hop.1, Option.filter_some]
    rcases hop.2 with rfl | rfl <;> rfl
  have hterm : Expr.terms (Expr.product (Expr.operand last budget inParens) inParens) l
      (opt.token :: (row (n :: rs) ++ rest)) = within limit (n :: rs) >>= fun _ =>
        Expr.terms (Expr.product (Expr.operand last budget inParens) inParens)
          (.binary op l r opt.token.position) rest := by
    rw [Expr.terms_cons, hop]
    dsimp only
    rw [hends, if_neg (by simp), hr.product htr, factors_of_endsProduct hrest, bind_assoc]
    rfl
  rw [row_append, List.append_assoc, hl.sum _ hfactor, within_append, within_cons_of_le (by omega),
    bind_assoc]
  exact congrArg _ (funext fun _ => hterm)

theorem Reads.binary (op : Operator) {lhs rhs : Formula} (hl : lhs.Reads lhs.layout lhs.tightness)
    (hr : rhs.Reads rhs.layout rhs.tightness) :
    (binary op lhs rhs).Reads (binary op lhs rhs).layout op.tightness := by
  intro last inParens limit budget depth gap ns hbudget hns
  have htight : op.tightness < 3 := by cases op <;> decide
  obtain ⟨tl, htl, hl⟩ := hl.side (t := op.tightness) (by omega) (lhs.tightness < op.tightness) (by simp)
  obtain ⟨tr, htr, hr⟩ := hr.side (t := op.tightness + 1) (by omega) (rhs.tightness ≤ op.tightness)
    fun hloose => Nat.lt_of_not_le (of_decide_eq_false hloose)
  obtain ⟨ls, others, rfl, hls, hothers⟩ := List.map_eq_append_iff.mp hns
  obtain ⟨opt, rs, rfl, hopt, hrs⟩ := List.map_eq_cons_iff.mp hothers
  obtain ⟨l, hle, hlread⟩ := hl last inParens hbudget hls
  obtain ⟨r, hre, hrread⟩ := hr last inParens hbudget hrs
  have hoperator : Expr.operator? opt.token = some op :=
    operator?_char (congrArg (·.token.kind) hopt) (congrArg (·.token.text) hopt)
  have hgap : opt.token.spaced = true := congrArg (·.token.spaced) hopt
  have hflat : opt.depth = 0 := congrArg NestedToken.depth hopt
  refine ⟨.binary op l r opt.token.position, by rw [Expr.unplaced, hle, hre, expr], ?_⟩
  cases op with
  | multiply | divide => exact .factor (by simp [Expr.productOperator?, hoperator]) hgap hflat hlread htl hrread htr
  | add | subtract =>
    obtain ⟨n', ns', hns', hn'⟩ := side_head rhs.layout_head (rhs.tightness ≤ 1) depth true
    obtain ⟨n, rs, rfl, hn, -⟩ := List.map_eq_cons_iff.mp (hrs.trans hns')
    have hspaced : n.token.spaced = true := (congrArg (·.token.spaced) hn).trans hn'
    exact .term (by simp [Expr.sumOperator?, hoperator]) hspaced hflat hlread hrread htr

/-- A leaf is an operand of one token. -/
theorem Reading.leaf {n : NestedToken} {e : Expr} (hflat : n.depth = 0)
    (hk : n.token.kind = .number ∨ n.token.kind = .atKeyword) (he : ∀ rest, Expr.Leaf n.token rest e rest) :
    Reading limit last budget inParens [n] e 3 := by
  refine .of_operand fun rest => ?_
  have hminus : n.token.isOperator '-' = false := by rcases hk with hk | hk <;> simp [Token.isOperator, hk]
  have hparen : n.token.kind ≠ .lparen := by rcases hk with hk | hk <;> simp [hk]
  rw [within_cons_of_le (by omega)]
  exact Expr.run_operand_of_leaf hminus hparen (he rest)

/-- Every formula is read as it is. -/
theorem reads (f : Formula) : f.Reads f.layout f.tightness := by
  induction f with
  | number n =>
    intro last inParens limit budget depth gap ns hbudget hns
    obtain ⟨t, rfl, ht⟩ := List.map_eq_singleton_iff.mp hns
    have hk : t.token.kind = .number := congrArg (·.token.kind) ht
    have htext : t.token.text = n.measure.text := congrArg (·.token.text) ht
    refine ⟨(number n).expr, expr_unplaced _, .leaf (congrArg NestedToken.depth ht) (.inl hk) fun rest => ?_⟩
    rw [expr, ← htext]
    exact .number hk (by rw [htext, n.parse?])
  | reference v =>
    intro last inParens limit budget depth gap ns hbudget hns
    obtain ⟨t, rfl, ht⟩ := List.map_eq_singleton_iff.mp hns
    have hk : t.token.kind = .atKeyword := congrArg (·.token.kind) ht
    have hname : t.token.name = v.text := by
      have htext : t.token.text = '@' :: v.text := congrArg (·.token.text) ht
      simp [Token.name, hk, htext]
    exact ⟨.reference v.text t.token.position, rfl, .leaf (congrArg NestedToken.depth ht) (.inr hk) fun rest =>
      hname ▸ .reference hk⟩
  | negate f ih => exact ih.negate
  | binary op lhs rhs ihl ihr => exact ihl.binary op ihr

end Formula
end LessCss
