import LessCss.Proofs.Css.PlainRead
import LessCss.Proofs.Expr.Literal
import LessCss.Proofs.Css.Gaps
/-!
What plain sheets evaluate to.

A plain value is a literal (`value_literal`), which evaluates to its text. So a plain node yields itself
(`Node.yield`), whatever has been defined around it, and the pretty text of a plain sheet evaluates to that sheet
(`Sheet.evaluate_pretty`).
-/
namespace LessCss.Plain

open Css (Layout)

theorem Item.operand (s : Bool) (i : Item) : Literal.Operand [i.token s] := by
  cases i with
  | number => exact .word (.inl rfl)
  | word => exact .word (.inr (.inl rfl))
  | hash => exact .word (.inr (.inr (.inl rfl)))
  | string => exact .word (.inr (.inr (.inr (.inl rfl))))

theorem group_literal (s : Bool) (g : Group) : Literal.Group (groupTokens s g) := by
  obtain ⟨first, others⟩ := g
  induction others generalizing s first with
  | nil => exact .last (first.operand s)
  | cons i others ih => exact .more (first.operand s) rfl (ih true i)

theorem value_literal (s : Bool) (v : Value) : Literal.Value (valueTokens s v) := by
  obtain ⟨first, others⟩ := v
  induction others generalizing s first with
  | nil =>
    have htokens : valueTokens s ⟨first, []⟩ = groupTokens s first := List.append_nil _
    exact htokens ▸ .last (group_literal s first)
  | cons g others ih =>
    have hothers := ih true g
    obtain ⟨t, ts, hts, -, ht⟩ := (value_joins ⟨g, others⟩).head true
    rw [hts] at hothers
    have htokens : valueTokens s ⟨first, g :: others⟩ =
        groupTokens s first ++ token .comma false [','] :: valueTokens true ⟨g, others⟩ := by
      simp [valueTokens, Row.tokens]
    rw [htokens, hts]
    exact .more (group_literal s first) rfl rfl ht hothers

theorem value_isLexeme (s : Bool) (v : Value) : ∀ t ∈ valueTokens s v, t.IsLexeme := by
  intro t ht
  obtain ⟨b', hread⟩ := value_readAs v none s [] (Lexeme.mayBeSign_none s) .nil
  have hmem : t ∈ Token.spell none s (valueText v ++ []) := hread ▸ List.mem_append_left _ ht
  refine Token.isLexeme_of_mem_spell hmem fun hk => ?_
  have hfits := value_fits s v t ht
  simp [inPlainValue, hk] at hfits

theorem Declaration.evaluate (l : Layout) (scopes : Scopes) (d : Declaration) :
    (d.syntactic l).evaluate scopes = .ok d.css := by
  obtain ⟨v, hv, hrender⟩ := (value_literal (gap l) d.value).evaluate (value_isLexeme (gap l) d.value) scopes
  have htext : v.render = valueText d.value := by
    rw [hrender, ← (value_joins d.value).join (gap l), Token.join_eq_words]
    exact fun t ht => (value_isLexeme (gap l) d.value t (List.mem_of_mem_head? ht)).text_ne_nil
  rw [LessCss.Declaration.evaluate, syntactic, hv]
  simp [Except.map, htext, css]

section Yield

variable (calls : Expansion)

/-- Declarations yield their properties before what follows them. -/
theorem yieldAll_declarations {scopes : Scopes} {selectors : List Text} {is : List LessCss.Item} {y : Yield}
    (h : LessCss.Item.yieldAll calls scopes selectors is = .ok y) (l : Layout) (ds : List Declaration) :
    LessCss.Item.yieldAll calls scopes selectors (ds.map (fun d => .declaration (d.syntactic l)) ++ is) =
      .ok ⟨ds.map Declaration.css ++ y.properties, y.nodes⟩ := by
  induction ds with
  | nil => exact h
  | cons d ds ih =>
    rw [List.map_cons, List.cons_append, LessCss.Item.yieldAll, LessCss.Item.yield, d.evaluate, ih]
    rfl

namespace Node

mutual

/-- A plain node yields itself alone. -/
theorem yield (scopes : Scopes) (l : Layout) (n : Node) :
    LessCss.Item.yield calls scopes [] (n.header.toItem (n.body l)) = .ok ⟨[], [n.css]⟩ := by
  cases n with
  | rule selectors declarations =>
    have hnone : LessCss.Item.yieldAll calls (.ofItems ((rule selectors declarations).body l) :: scopes)
        (selectors.map selectorText).toList [] = .ok .none := rfl
    have hbody := yieldAll_declarations calls hnone l declarations.toList
    have hmap : declarations.toList.map Declaration.css = (declarations.map Declaration.css).toList := rfl
    rw [List.append_nil, hmap, Yield.none, List.append_nil] at hbody
    rw [header, Header.toItem, LessCss.Item.yield]
    refine (congrArg (· >>= _) hbody).trans ?_
    rfl
  | atRule name params declarations children =>
    have hbody := yieldAll_declarations calls
      (yieldAll (.ofItems ((atRule name params declarations children).body l) :: scopes) l children) l declarations
    rw [List.append_nil] at hbody
    rw [header, Header.toItem, LessCss.Item.yield]
    refine (congrArg (· >>= _) hbody).trans ?_
    rfl

theorem yieldAll (scopes : Scopes) (l : Layout) (ns : List Node) :
    LessCss.Item.yieldAll calls scopes [] (items l ns) = .ok ⟨[], cssAll ns⟩ := by
  cases ns with
  | nil => rfl
  | cons n ns =>
    rw [items, LessCss.Item.yieldAll, yield scopes l n, yieldAll scopes l ns]
    rfl

end

end Node

variable (scopes : Scopes)

theorem Statement.nodesOf (l : Layout) (x : Statement) :
    LessCss.Sheet.nodesOf calls scopes (x.syntactic l) = .ok [x.css] := by
  cases x with
  | directive name params => rfl
  | node n =>
    have h := Node.yield calls scopes l n
    cases n with
    | rule selectors declarations =>
      rw [syntactic, Node.header, Header.toStatement, LessCss.Sheet.nodesOf]
      exact congrArg (Except.map Yield.nodes) h
    | atRule name params declarations children =>
      rw [syntactic, Node.header, Header.toStatement, LessCss.Sheet.nodesOf]
      exact congrArg (Except.map Yield.nodes) h

theorem mapM_nodesOf (l : Layout) (xs : List Statement) :
    (xs.map (Statement.syntactic l)).mapM (LessCss.Sheet.nodesOf calls scopes) = .ok (xs.map fun x => [x.css]) := by
  induction xs with
  | nil => rfl
  | cons x xs ih =>
    rw [List.map_cons, List.mapM_cons, x.nodesOf, ih]
    rfl

end Yield

/-- The syntax of a plain sheet evaluates to the sheet that it was printed from. -/
theorem Sheet.evaluate (l : Layout) (t : Sheet) :
    LessCss.Sheet.evaluate (t.statements.map (Statement.syntactic l)) = .ok t.css := by
  have hflat : (t.statements.map fun x => [x.css]).flatten = t.css := by
    rw [← List.flatMap_def, css, List.map_eq_flatMap]
  rw [LessCss.Sheet.evaluate, mapM_nodesOf, Except.map, hflat]

/-- A printed sheet evaluates to itself if the layout keeps its declarations and blocks apart. -/
theorem Sheet.evaluate_render (l : Layout) (t : Sheet) (ht : l = .minified → t.Separated) :
    LessCss.evaluate (Css.render l t.css) = .ok t.css := by
  rw [evaluate_eq_ok_iff false, t.spell l ht, t.read l ht]
  exact t.evaluate l

/-- The pretty text of a plain sheet evaluates to the sheet, so compiling it gives the text of the sheet in the
layout that is asked for. -/
theorem Sheet.evaluate_pretty (t : Sheet) :
    LessCss.evaluate (Css.render .pretty t.css) = .ok t.css ∧
      ∀ l, compile l (Css.render .pretty t.css) = .ok (Css.render l t.css) := by
  have h := t.evaluate_render .pretty nofun
  refine ⟨h, ?_⟩
  intro l
  rw [compile, h]
  rfl

end LessCss.Plain
