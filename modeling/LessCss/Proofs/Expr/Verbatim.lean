import LessCss.Proofs.Expr.Constants
import LessCss.Proofs.Expr.Literal
/-!
Values without arithmetic, whatever their gaps are.

A value is made of groups with commas between them, and a group of items that follow one another: words, and calls with
paired parentheses and no variable among their arguments. Such a row is read as the lists that it looks like, and
whatever the variables are they evaluate to the items as they are written, with single spaces in a group and a comma and
a space between groups (`Row.passes`).
-/
namespace LessCss.Verbatim

open LessCss.Expr (Stops NextGroup run Reader)
open LessCss.Literal (isWord run_item)

/-- A word, or a call. The parentheses of the arguments are paired, and there is no variable among them. -/
inductive Item
  | word (t : Token) (hword : isWord t) (hnumber : t.kind = .number → ∃ source, t ∈ Token.ofText source)
  | call (function : Token) (args : List Token) (close : Token) (hfunction : function.kind = .function)
    (hpaired : Tokens.depthAfter? (fun _ => false) 0 args = some 0) (hargs : ∀ a ∈ args, a.kind ≠ .atKeyword)
    (hclose : close.kind = .rparen)

/-- Items that follow one another. -/
structure Group where
  first : Item
  others : List Item

/-- A comma, whatever is before it. -/
abbrev Comma := { t : Token // t.kind = .comma }

/-- Groups with a comma between neighbours. -/
structure Row where
  first : Group
  others : List (Comma × Group)

/-- A list of values, unless it has a single item. -/
def collapse (separator : Separator) : List Value → Value
  | [v] => v
  | vs => .list vs separator

namespace Item

def tokens : Item → List Token
  | word t _ _ => [t]
  | call function args close _ _ _ _ => function :: (args ++ [close])

def text : Item → Text
  | word t _ _ => t.text
  | call function args _ _ _ _ _ => function.name ++ '(' :: Token.join args ++ [')']

/-- The expression of an item. -/
def expr : Item → Expr
  | word t _ _ => .ofConstant t
  | call function args _ _ _ _ _ => .function function.name args

/-- The value of an item. -/
def value : Item → Value
  | word t _ _ => .ofConstant t
  | i => .keyword i.text

end Item

namespace Group

def items (g : Group) : List Item := g.first :: g.others

def tokens (g : Group) : List Token := g.items.flatMap Item.tokens

def text (g : Group) : Text := Text.join [' '] (g.items.map Item.text)

def expr (g : Group) : Expr := .collapse .space (g.items.map Item.expr)

def value (g : Group) : Value := collapse .space (g.items.map Item.value)

end Group

namespace Row

def groups (r : Row) : List Group := r.first :: r.others.map Prod.snd

def tokens (r : Row) : List Token := r.first.tokens ++ r.others.flatMap fun p => p.1.1 :: p.2.tokens

def text (r : Row) : Text := Text.join [',', ' '] (r.groups.map Group.text)

def expr (r : Row) : Expr := .collapse .comma (r.groups.map Group.expr)

def value (r : Row) : Value := collapse .comma (r.groups.map Group.value)

end Row

theorem render_collapse (separator : Separator) (vs : List Value) :
    (collapse separator vs).render = Text.join separator.text (vs.map Value.render) := by
  rcases vs with _ | ⟨v, _ | ⟨v', vs⟩⟩
  · rfl
  · simp [collapse, Text.join]
  · rw [collapse, Value.render, Value.renderAll_eq_map]
    simp

theorem evaluateAll_map {α : Type} {expr : α → Expr} {value : α → Value} {lookup : Lookup}
    (h : ∀ a, (expr a).evaluate lookup = .ok (value a)) (as : List α) :
    Expr.evaluateAll lookup (as.map expr) = .ok (as.map value) := by
  induction as with
  | nil => rfl
  | cons a as ih =>
    rw [List.map_cons, Expr.evaluateAll, h, ih]
    rfl

/-- The list of some expressions evaluates to the list of their values. -/
theorem evaluate_collapse {α : Type} {expr : α → Expr} {value : α → Value} {lookup : Lookup}
    (h : ∀ a, (expr a).evaluate lookup = .ok (value a)) (separator : Separator) (as : List α) :
    (Expr.collapse separator (as.map expr)).evaluate lookup = .ok (collapse separator (as.map value)) := by
  have hall := evaluateAll_map h as
  rcases as with _ | ⟨a, _ | ⟨a', as⟩⟩
  · rfl
  · exact h a
  · rw [List.map_cons, List.map_cons] at hall ⊢
    rw [Expr.collapse, Expr.evaluate, hall]
    · rfl
    · simp

theorem Item.evaluate_expr (i : Item) (lookup : Lookup) : i.expr.evaluate lookup = .ok i.value := by
  cases i with
  | word t => exact Expr.evaluate_ofConstant lookup t
  | call function args close hfunction hpaired hargs hclose =>
    exact Expr.evaluate_function function.name hargs lookup

theorem Item.render_value (i : Item) : i.value.render = i.text := by
  cases i with
  | word t => exact Value.render_ofConstant t
  | call => rfl

theorem Group.evaluate_expr (g : Group) (lookup : Lookup) : g.expr.evaluate lookup = .ok g.value :=
  evaluate_collapse (fun i => i.evaluate_expr lookup) .space g.items

theorem Group.render_value (g : Group) : g.value.render = g.text := by
  rw [Group.value, render_collapse, List.map_map, Group.text]
  exact congrArg _ (List.map_congr_left fun i _ => i.render_value)

variable {last : Position} {budget : Nat} {rest : List Token}

theorem Item.begins (i : Item) : ∃ t ts, i.tokens = t :: ts ∧ Expr.startsOperand t = true ∧ t.kind ≠ .operator := by
  cases i with
  | word t hword => exact ⟨t, [], rfl, by rcases hword with h | h | h | h | h <;> simp [Expr.startsOperand, h]⟩
  | call function args close hfunction => exact ⟨function, _, rfl, by simp [Expr.startsOperand, hfunction]⟩

/-- An item ends the one before it. -/
theorem Item.stops (i : Item) (rest : List Token) : Stops (i.tokens ++ rest) := by
  obtain ⟨t, ts, hts, -, hk⟩ := i.begins
  rw [hts]
  exact .of_kind hk _

theorem leaf_word {t : Token} (hword : isWord t) (hnumber : t.kind = .number → ∃ source, t ∈ Token.ofText source) :
    Expr.Leaf t rest (.ofConstant t) rest := by
  rcases hword with hk | hk
  · obtain ⟨source, hsource⟩ := hnumber hk
    have hlexeme : t.IsLexeme := Token.isLexeme_of_mem hsource (by simp [hk])
    obtain ⟨v, unit, hm⟩ := hlexeme.measure hk
    have hexpr : Expr.ofConstant t = .number v unit t.text := by rw [Expr.ofConstant, hk, hm]
    exact hexpr ▸ .number hk hm
  · have hexpr : Expr.ofConstant t = .keyword t.text := by
      unfold Expr.ofConstant
      rcases hk with hk | hk | hk | hk <;> rw [hk]
    exact hexpr ▸ .keyword hk

theorem Item.read (i : Item) (hrest : Stops rest) :
    run (Expr.sum (Expr.product (Expr.operand last budget false) false)) (i.tokens ++ rest) = .ok (i.expr, rest) := by
  apply run_item _ hrest
  cases i with
  | word t hword hnumber =>
    have hminus : t.isOperator '-' = false := by rcases hword with h | h | h | h | h <;> simp [Token.isOperator, h]
    have hparen : t.kind ≠ .lparen := by rcases hword with h | h | h | h | h <;> simp [h]
    exact Expr.run_operand_of_leaf hminus hparen (leaf_word hword hnumber)
  | call function args close hfunction hpaired hargs hclose =>
    have hleaf : Expr.Leaf function (args ++ close :: rest) (.function function.name args) rest :=
      .function hfunction (Tokens.closeParen?_append hclose rfl hpaired)
    have hrow : (Item.call function args close hfunction hpaired hargs hclose).tokens ++ rest =
        function :: (args ++ close :: rest) := by simp [Item.tokens]
    rw [hrow]
    exact Expr.run_operand_of_leaf (by simp [Token.isOperator, hfunction]) (by simp [hfunction]) hleaf

/-- The items after the first one are read up to the next group. -/
theorem read_items {r : Reader} (hr : ∀ (i : Item) {rest}, Stops rest → run r (i.tokens ++ rest) = .ok (i.expr, rest))
    (hrest : NextGroup rest) (is : List Item) :
    Stops (is.flatMap Item.tokens ++ rest) ∧
      Expr.items r (is.flatMap Item.tokens ++ rest) = .ok (is.map Item.expr, rest) := by
  induction is with
  | nil => exact ⟨hrest.stops, Expr.items_of_nextGroup hrest⟩
  | cons i is ih =>
    obtain ⟨t, ts, hts, hstart, -⟩ := i.begins
    rw [List.flatMap_cons, List.append_assoc]
    refine ⟨i.stops _, ?_⟩
    have hitem := hr i ih.1
    rw [hts, List.cons_append] at hitem ⊢
    rw [Expr.items_cons, if_pos hstart, hitem, ok_bind, ih.2]
    rfl

theorem Group.read (g : Group) (hrest : NextGroup rest) :
    run (Expr.spaceList (Expr.sum (Expr.product (Expr.operand last budget false) false))) (g.tokens ++ rest) =
      .ok (g.expr, rest) := by
  obtain ⟨hstops, hothers⟩ := read_items (fun i _ h => i.read h) hrest g.others
  have htokens : g.tokens ++ rest = g.first.tokens ++ (g.others.flatMap Item.tokens ++ rest) := by
    simp [Group.tokens, Group.items]
  rw [htokens, Expr.run_spaceList, g.first.read hstops, ok_bind, hothers]
  rfl

/-- The groups after the first one are read to the end. -/
theorem read_groups {r : Reader}
    (hr : ∀ (g : Group) {rest}, NextGroup rest → run r (g.tokens ++ rest) = .ok (g.expr, rest))
    (gs : List (Comma × Group)) :
    NextGroup (gs.flatMap fun p => p.1.1 :: p.2.tokens) ∧
      Expr.groups r (gs.flatMap fun p => p.1.1 :: p.2.tokens) = .ok (gs.map fun p => p.2.expr, []) := by
  induction gs with
  | nil => exact ⟨nofun, Expr.groups_nil⟩
  | cons p gs ih =>
    rw [List.flatMap_cons, List.cons_append]
    refine ⟨?_, ?_⟩
    · intro t ht
      exact Option.some.inj ht ▸ p.1.2
    · rw [Expr.groups_cons, if_pos p.1.2, hr p.2 ih.1, ok_bind, ih.2]
      rfl

theorem Row.read (r : Row) : Expr.ofTokens r.tokens = .ok r.expr := by
  rw [Expr.ofTokens_eq]
  generalize ((r.tokens.getLast?.map Token.position).getD .start) = last
  have hgroup : ∀ (g : Group) {rest}, NextGroup rest → run (Expr.spaceList (Expr.sum (Expr.product
      (Expr.operand last maxNesting false) false))) (g.tokens ++ rest) = .ok (g.expr, rest) := fun g _ h => g.read h
  obtain ⟨hnext, hothers⟩ := read_groups hgroup r.others
  have hvalue : run (Expr.value (Expr.operand last maxNesting false) false) r.tokens = .ok (r.expr, []) := by
    rw [Expr.value, Expr.run_commaList, Row.tokens, r.first.read hnext, ok_bind, hothers]
    simp [Row.expr, Row.groups, Except.map, Function.comp_def]
  rw [hvalue]
  rfl

/-- A value without arithmetic is read, it has the same value whatever its variables are, and what is shown of that are
the words and calls of the row as they are written. -/
theorem Row.passes (r : Row) : ∃ e v, Expr.ofTokens r.tokens = .ok e ∧ (∀ lookup, e.evaluate lookup = .ok v) ∧
    v.render = r.text := by
  refine ⟨r.expr, r.value, r.read, fun lookup => ?_, ?_⟩
  · exact evaluate_collapse (fun g => g.evaluate_expr lookup) .comma r.groups
  · rw [Row.value, render_collapse, List.map_map, Row.text]
    exact congrArg _ (List.map_congr_left fun g _ => g.render_value)

/-- The row of a text with gaps of its own. -/
example : ∃ r : Row, r.tokens = (Token.ofText "1px  f(a,2)\n,red".toList).dropLast ∧ r.text = "1px f(a,2), red".toList :=
  let number : Token := ⟨.number, "1px".toList, ⟨1, 1⟩, false⟩
  let function : Token := ⟨.function, "f(".toList, ⟨1, 6⟩, true⟩
  let args : List Token := [⟨.ident, ['a'], ⟨1, 8⟩, false⟩, ⟨.comma, [','], ⟨1, 9⟩, false⟩, ⟨.number, ['2'], ⟨1, 10⟩, false⟩]
  let word : Item := .word number (.inl rfl) fun _ => ⟨"1px  f(a,2)\n,red".toList, by decide +kernel⟩
  let call : Item := .call function args ⟨.rparen, [')'], ⟨1, 11⟩, false⟩ rfl (by decide) (by decide) rfl
  let red : Item := .word ⟨.ident, "red".toList, ⟨2, 2⟩, false⟩ (.inr (.inl rfl)) nofun
  ⟨⟨⟨word, [call]⟩, [(⟨⟨.comma, [','], ⟨2, 1⟩, true⟩, rfl⟩, ⟨red, []⟩)]⟩, by decide +kernel, by decide +kernel⟩

end LessCss.Verbatim
