import LessCss.Proofs.Outcome
import LessCss.Proofs.Expr.Steps
import LessCss.Proofs.Sheet.Written
import LessCss.Proofs.Token.Runs
import LessCss.Scope
/-!
Literal values: rows of tokens in which nothing is left to compute.

A literal has no variables, no parentheses and no operators, but for the slash between two measures that touch it
and a minus before a string or a hash. Function calls may hold operators, since they are not computed. If the gaps of
a literal are where a value is printed with spaces, it is read as an expression that evaluates to the text of the
literal (`Literal.Value.evaluate`).
-/
namespace LessCss

open Token (flat words)

namespace Expr

/-- Whatever its variables are, the expression evaluates to a value with this text. -/
def Spells (e : Expr) (text : Text) : Prop :=
  ∀ lookup, ∃ v, e.evaluate lookup = .ok v ∧ v.render = text

def SpellsAll (es : List Expr) (texts : List Text) : Prop :=
  ∀ lookup, ∃ vs, Expr.evaluateAll lookup es = .ok vs ∧ Value.renderAll vs = texts

variable {e : Expr} {es : List Expr} {text : Text} {texts : List Text}

theorem SpellsAll.nil : SpellsAll [] [] := fun _ => ⟨[], rfl, rfl⟩

theorem SpellsAll.cons (h : Spells e text) (hs : SpellsAll es texts) : SpellsAll (e :: es) (text :: texts) := by
  intro lookup
  obtain ⟨v, hv, hrender⟩ := h lookup
  obtain ⟨vs, hvs, hrenders⟩ := hs lookup
  refine ⟨v :: vs, ?_, ?_⟩
  · rw [Expr.evaluateAll, hv, hvs]
    rfl
  · rw [Value.renderAll, hrender, hrenders]

/-- A list spells its items with the separator between them, and so does an item that stands alone. -/
theorem Spells.collapse (separator : Separator) (h : Spells e text) (hs : SpellsAll es texts) :
    Spells (Expr.collapse separator (e :: es)) (Text.join separator.text (text :: texts)) := by
  intro lookup
  cases es with
  | nil =>
    obtain ⟨vs, hvs, rfl⟩ := hs lookup
    obtain rfl : [] = vs := Except.ok.inj hvs
    simpa [Expr.collapse, Text.join, Value.renderAll] using h lookup
  | cons e' es =>
    obtain ⟨vs, hvs, hrenders⟩ := SpellsAll.cons h hs lookup
    refine ⟨.list vs separator, ?_, ?_⟩
    · rw [show Expr.collapse separator (e :: e' :: es) = .list (e :: e' :: es) separator from rfl, Expr.evaluate, hvs]
      rfl
    · rw [Value.render, hrenders]

theorem Spells.keyword (text : Text) : Spells (.keyword text) text := fun _ => ⟨_, rfl, rfl⟩

/-- A function without variables among its arguments has its own text as its value. -/
theorem evaluate_function (name : Text) {args : List Token} (hargs : ∀ a ∈ args, a.kind ≠ .atKeyword) (lookup : Lookup) :
    (Expr.function name args).evaluate lookup = .ok (.keyword (name ++ '(' :: Token.join args ++ [')'])) := by
  have hpieces : args.mapM (argumentPiece lookup) = .ok (args.map Token.piece) := by
    induction args with
    | nil => rfl
    | cons a args ih =>
      simp only [List.forall_mem_cons] at hargs
      have ha : argumentPiece lookup a = .ok a.piece := if_neg hargs.1
      rw [List.mapM_cons, ha, ih hargs.2]
      rfl
  rw [Expr.evaluate, hpieces]
  rfl

theorem Spells.function (name : Text) {args : List Token} (hargs : ∀ a ∈ args, a.kind ≠ .atKeyword) :
    Spells (.function name args) (name ++ '(' :: Token.join args ++ [')']) :=
  fun lookup => ⟨_, evaluate_function name hargs lookup, rfl⟩

/-- The item before goes no further. -/
def Stops (ts : List Token) : Prop := ∀ t rest, ts = t :: rest →
  productOperator? t = none ∧ ∀ op, sumOperator? t = some op → endsSum op t rest = true

theorem Stops.nil : Stops [] := nofun

theorem Stops.cons {t : Token} {ts : List Token} (hproduct : productOperator? t = none)
    (hsum : ∀ op, sumOperator? t = some op → endsSum op t ts = true) : Stops (t :: ts) := by
  rintro _ _ heq
  obtain ⟨rfl, rfl⟩ := List.cons.inj heq
  exact ⟨hproduct, hsum⟩

/-- An item ends where no operator comes. -/
theorem Stops.of_kind {t : Token} (h : t.kind ≠ .operator) (ts : List Token) : Stops (t :: ts) :=
  .cons (by simp [productOperator?, operator?, h]) (by simp [sumOperator?, operator?, h])

/-- What follows is the next group or nothing. -/
def NextGroup (ts : List Token) : Prop := ∀ t ∈ ts.head?, t.kind = .comma

theorem NextGroup.stops {ts : List Token} (h : NextGroup ts) : Stops ts := by
  cases ts with
  | nil => exact .nil
  | cons t ts =>
    have ht : t.kind = .comma := h t rfl
    exact .of_kind (by simp [ht]) ts

variable {r : Reader} {ts : List Token}

theorem factors_of_stops (h : Stops ts) (inParens : Bool) (lhs : Expr) : factors r inParens lhs ts = .ok (lhs, ts) := by
  cases ts with
  | nil => exact factors_nil inParens lhs
  | cons t ts => rw [factors_cons, (h t ts rfl).1]

theorem terms_of_stops (h : Stops ts) (lhs : Expr) : terms r lhs ts = .ok (lhs, ts) := by
  cases ts with
  | nil => exact terms_nil lhs
  | cons t ts =>
    rw [terms_cons]
    cases hop : sumOperator? t with
    | none => rfl
    | some op => exact if_pos ((h t ts rfl).2 op hop)

theorem items_of_head (h : ∀ t ∈ ts.head?, startsOperand t = false) : items r ts = .ok ([], ts) := by
  cases ts with
  | nil => exact items_nil
  | cons t ts => rw [items_cons, if_neg (by simp [h t rfl])]

theorem items_of_nextGroup (h : NextGroup ts) : items r ts = .ok ([], ts) :=
  items_of_head fun t ht => by simp [startsOperand, Token.isDelim, Token.isOperator, h t ht]

/-- Tokens that are read as an expression with this text, before whatever satisfies `P`. -/
def Read (r : Reader) (tokens : List Token) (text : Text) (P : List Token → Prop) : Prop :=
  ∃ e, Spells e text ∧ ∀ ts, P ts → run r (tokens ++ ts) = .ok (e, ts)

end Expr

namespace Literal

open LessCss.Expr (Spells SpellsAll Stops NextGroup Read run Reader)

/-- The kinds of the tokens that are operands by themselves. -/
def isWord (t : Token) : Prop :=
  t.kind = .number ∨ t.kind = .ident ∨ t.kind = .hash ∨ t.kind = .string ∨ t.kind = .url

/-- What stands between the spaces of a literal. -/
inductive Operand : List Token → Prop
  | word {t} (h : isWord t) : Operand [t]
  | ratio {a slash c : Token} (ha : a.kind = .number) (hslash : slash.isOperator '/' = true)
    (hs : slash.spaced = false) (hc : c.kind = .number) (hcs : c.spaced = false) : Operand [a, slash, c]
  | minus {m t : Token} (hm : m.isOperator '-' = true) (ht : t.kind = .hash ∨ t.kind = .string)
    (hs : t.spaced = false) : Operand [m, t]
  | call {f args close} (hf : f.kind = .function) (hargs : ∀ a ∈ args, Tokens.inValue a = true ∧ a.kind ≠ .atKeyword)
    (hpaired : Tokens.depthAfter? (fun _ => false) 0 args = some 0) (hhead : ∀ a ∈ args.head?, a.spaced = false)
    (hclose : close.kind = .rparen) (hs : close.spaced = false) : Operand (f :: (args ++ [close]))

/-- Operands with gaps between them. -/
inductive Group : List Token → Prop
  | last {ts} (h : Operand ts) : Group ts
  | more {ts t us} (h : Operand ts) (ht : t.spaced = true) (hs : Group (t :: us)) : Group (ts ++ t :: us)

/-- Groups with a comma directly after each but the last. -/
inductive Value : List Token → Prop
  | last {ts} (h : Group ts) : Value ts
  | more {ts comma t us} (h : Group ts) (hcomma : comma.kind = .comma) (hs : comma.spaced = false)
    (ht : t.spaced = true) (hvs : Value (t :: us)) : Value (ts ++ comma :: t :: us)

variable {ts us rest : List Token} {t : Token}

theorem words_append (t : Token) (hts : ts ≠ []) :
    words (ts ++ t :: us) = words ts ++ (space t.spaced ++ words (t :: us)) := by
  cases ts with
  | nil => exact absurd rfl hts
  | cons u ts =>
    rw [List.cons_append, words, words, Token.flat_append, Token.flat_cons, List.append_assoc]
    rfl

theorem Operand.begins (h : Operand ts) : ∃ t us, ts = t :: us ∧ Expr.startsOperand t = true := by
  cases h with
  | word h => exact ⟨_, [], rfl, by rcases h with h | h | h | h | h <;> simp [Expr.startsOperand, h]⟩
  | ratio ha => exact ⟨_, _, rfl, by simp [Expr.startsOperand, ha]⟩
  | minus hm => exact ⟨_, _, rfl, by simp [Expr.startsOperand, hm]⟩
  | call hf => exact ⟨_, _, rfl, by simp [Expr.startsOperand, hf]⟩

/-- A gap and an operand end the item before. -/
theorem Operand.stops (h : Operand (t :: us)) (ht : t.spaced = true) (hl : t.IsLexeme) (rest : List Token) :
    Stops (t :: us ++ rest) := by
  cases h with
  | word h => exact .of_kind (by rcases h with h | h | h | h | h <;> simp [h]) _
  | ratio ha => exact .of_kind (by simp [ha]) _
  | call hf => exact .of_kind (by simp [hf]) _
  | minus hm hk hs =>
    obtain ⟨hkind, htext⟩ := hl.operator hm
    exact .cons (by simp [Expr.productOperator?, Expr.operator?, hkind, htext])
      (by simp [Expr.sumOperator?, Expr.operator?, hkind, htext, Expr.endsSum, ht, hs])

variable {last : Position} {budget : Nat}

theorem run_item {e : Expr} (h : run (Expr.operand last budget false) ts = .ok (e, rest)) (hrest : Stops rest) :
    run (Expr.sum (Expr.product (Expr.operand last budget false) false)) ts = .ok (e, rest) := by
  rw [Expr.run_sum, Expr.run_product, h, ok_bind, Expr.factors_of_stops hrest, ok_bind, Expr.terms_of_stops hrest]

/-- A measure or a name by itself. -/
theorem read_word (h : isWord t) (hl : t.IsLexeme) (last : Position) (budget : Nat) :
    Read (Expr.sum (Expr.product (Expr.operand last (budget + 1) false) false)) [t] (words [t]) Stops := by
  have hminus : t.isOperator '-' = false := by rcases h with h | h | h | h | h <;> simp [Token.isOperator, h]
  have hparen : t.kind ≠ .lparen := by rcases h with h | h | h | h | h <;> simp [h]
  have htext : words [t] = t.text := List.append_nil _
  rw [htext]
  rcases h with hk | hk
  · obtain ⟨v, unit, hm⟩ := hl.measure hk
    exact ⟨.number v unit t.text, fun _ => ⟨_, rfl, rfl⟩,
      fun rest hrest => run_item (Expr.run_operand_of_leaf hminus hparen (.number hk hm)) hrest⟩
  · exact ⟨.keyword t.text, .keyword t.text,
      fun rest hrest => run_item (Expr.run_operand_of_leaf hminus hparen (.keyword hk)) hrest⟩

/-- Two measures with a slash that touches both are one keyword. -/
theorem read_ratio {a slash c : Token} (ha : a.kind = .number) (hslash : slash.isOperator '/' = true)
    (hs : slash.spaced = false) (hc : c.kind = .number) (hcs : c.spaced = false) (hl : ∀ t ∈ [a, slash, c], t.IsLexeme)
    (last : Position) (budget : Nat) :
    Read (Expr.sum (Expr.product (Expr.operand last (budget + 1) false) false)) [a, slash, c] (words [a, slash, c])
      Stops := by
  obtain ⟨v, unit, hm⟩ := (hl a (by simp)).measure ha
  obtain ⟨hkind, htext⟩ := (hl slash (by simp)).operator hslash
  have hwords : words [a, slash, c] = a.text ++ '/' :: c.text := by
    simp [words, flat, Token.piece_text, hs, hcs, htext, space]
  refine ⟨.keyword (a.text ++ '/' :: c.text), hwords ▸ .keyword _, ?_⟩
  intro rest hrest
  have hoperand : run (Expr.operand last (budget + 1) false) (a :: slash :: c :: rest) =
      .ok (.number v unit a.text, slash :: c :: rest) :=
    Expr.run_operand_of_leaf (by simp [Token.isOperator, ha]) (by simp [ha]) (.number ha hm)
  have hfactors : Expr.factors (Expr.operand last (budget + 1) false) false (.number v unit a.text)
      (slash :: c :: rest) = .ok (.keyword (a.text ++ '/' :: c.text), rest) := by
    have hop : Expr.productOperator? slash = some .divide := by
      simp [Expr.productOperator?, Expr.operator?, hkind, htext]
    have hshort : Expr.shorthand? false (.number v unit a.text) .divide slash (c :: rest) =
        some (.keyword (a.text ++ '/' :: c.text)) := by
      simp [Expr.shorthand?, hs, hcs, hc]
    rw [Expr.factors_cons, hop]
    dsimp only
    rw [hshort]
    exact Expr.factors_of_stops hrest false _
  show run _ (a :: slash :: c :: rest) = _
  rw [Expr.run_sum, Expr.run_product, hoperand, ok_bind, hfactors, ok_bind, Expr.terms_of_stops hrest]

/-- A minus before a string or a hash is kept. -/
theorem read_minus {m : Token} (hm : m.isOperator '-' = true) (ht : t.kind = .hash ∨ t.kind = .string)
    (hs : t.spaced = false) (hl : m.IsLexeme) (last : Position) (budget : Nat) :
    Read (Expr.sum (Expr.product (Expr.operand last (budget + 1) false) false)) [m, t] (words [m, t]) Stops := by
  obtain ⟨-, htext⟩ := hl.operator hm
  have hwords : words [m, t] = '-' :: t.text := by
    simp [words, flat, Token.piece_text, hs, htext, space]
  refine ⟨.negate (.keyword t.text), fun _ => ⟨_, rfl, hwords.symm⟩, ?_⟩
  intro rest hrest
  refine run_item ?_ hrest
  have hleaf : run (Expr.operand last budget false) (t :: rest) = .ok (.keyword t.text, rest) :=
    Expr.run_operand_of_leaf (by rcases ht with h | h <;> simp [Token.isOperator, h])
      (by rcases ht with h | h <;> simp [h]) (.keyword (by rcases ht with h | h <;> simp [h]))
  exact Expr.run_operand_eq_ok.mpr (.negative hm hleaf)

/-- The text of a call whose parentheses touch what is in them. -/
theorem words_call {f close : Token} {args : List Token} (hf : f.kind = .function)
    (hhead : ∀ a ∈ args.head?, a.spaced = false) (hclose : close.kind = .rparen) (hs : close.spaced = false)
    (hl : ∀ t ∈ f :: (args ++ [close]), t.IsLexeme) :
    words (f :: (args ++ [close])) = f.name ++ '(' :: Token.join args ++ [')'] := by
  have hftext := (hl f (by simp)).function hf
  have hctext := (hl close (by simp)).rparen hclose
  have hjoin : Token.join args = flat args := by
    rw [Token.join_eq_words fun a ha => (hl a (by simp [List.mem_of_mem_head? ha])).text_ne_nil]
    cases args with
    | nil => rfl
    | cons a args =>
      rw [words, Token.flat_cons, hhead a rfl]
      rfl
  rw [words, Token.flat_append, hjoin, hftext, Token.flat_cons, hs, hctext]
  simp [space, flat]

/-- Every kind of operand is read as an item with its own text. -/
theorem Operand.read (h : Operand ts) (hl : ∀ t ∈ ts, t.IsLexeme) (last : Position) (budget : Nat) :
    Read (Expr.sum (Expr.product (Expr.operand last (budget + 1) false) false)) ts (words ts) Stops := by
  cases h with
  | @word t h => exact read_word h (hl t List.mem_cons_self) last budget
  | ratio ha hslash hs hc hcs => exact read_ratio ha hslash hs hc hcs hl last budget
  | @minus m t hm ht hs => exact read_minus hm ht hs (hl m List.mem_cons_self) last budget
  | @call f args close hf hargs hpaired hhead hclose hs =>
    refine ⟨.function f.name args, ?_, fun rest hrest => run_item ?_ hrest⟩
    · rw [words_call hf hhead hclose hs hl]
      exact .function f.name fun a ha => (hargs a ha).2
    · rw [List.cons_append, List.append_assoc]
      exact Expr.run_operand_of_leaf (by simp [Token.isOperator, hf]) (by simp [hf])
        (.function hf (Tokens.closeParen?_append hclose rfl hpaired))

theorem Group.begins (h : Group ts) : ∃ t us, ts = t :: us ∧ Expr.startsOperand t = true := by
  cases h with
  | last h => exact h.begins
  | more h =>
    obtain ⟨t, us, rfl, hstarts⟩ := h.begins
    exact ⟨t, _, rfl, hstarts⟩

theorem Group.stops (h : Group (t :: us)) (ht : t.spaced = true) (hl : t.IsLexeme) (rest : List Token) :
    Stops (t :: us ++ rest) := by
  generalize hts : t :: us = ts at h
  cases h with
  | last h =>
    subst hts
    exact h.stops ht hl rest
  | more h _ _ =>
    obtain ⟨u, vs, rfl, -⟩ := h.begins
    obtain ⟨rfl, rfl⟩ := List.cons.inj hts
    rw [List.append_assoc]
    exact h.stops ht hl _

variable {r : Reader}

/-- The first item of a group is read, and then the others, up to the next group. -/
theorem Group.readItems (hr : ∀ {ts}, Operand ts → (∀ t ∈ ts, t.IsLexeme) → Read r ts (words ts) Stops) (h : Group ts)
    (hl : ∀ t ∈ ts, t.IsLexeme) : ∃ e es text texts others, Spells e text ∧ SpellsAll es texts ∧
      Text.join [' '] (text :: texts) = words ts ∧ ∀ rest, NextGroup rest →
        run r (ts ++ rest) = .ok (e, others ++ rest) ∧ Expr.items r (others ++ rest) = .ok (es, rest) := by
  induction h with
  | @last ts h =>
    obtain ⟨e, hspells, hread⟩ := hr h hl
    refine ⟨e, [], words ts, [], [], hspells, .nil, by simp [Text.join], ?_⟩
    intro rest hrest
    exact ⟨hread rest hrest.stops, Expr.items_of_nextGroup hrest⟩
  | @more ts t us h ht hs ih =>
    simp only [List.forall_mem_append] at hl
    obtain ⟨e, hspells, hread⟩ := hr h hl.1
    obtain ⟨e', es, text, texts, others, hspells', hspellsAll, htext, hothers⟩ := ih hl.2
    refine ⟨e, e' :: es, words ts, text :: texts, t :: us, hspells, .cons hspells' hspellsAll, ?_, ?_⟩
    · obtain ⟨u, vs, rfl, -⟩ := h.begins
      rw [words_append t (List.cons_ne_nil _ _), ← htext, ht]
      simp [Text.join, List.intercalate_cons_cons, space]
    · intro rest hrest
      obtain ⟨hitem, hitems⟩ := hothers rest hrest
      obtain ⟨v, vs, heq, hstarts⟩ := hs.begins
      obtain ⟨rfl, rfl⟩ := List.cons.inj heq
      refine ⟨?_, ?_⟩
      · rw [List.append_assoc]
        exact hread _ (hs.stops ht (hl.2 t (by simp)) rest)
      · rw [List.cons_append, Expr.items_cons, if_pos hstarts]
        rw [List.cons_append] at hitem
        rw [hitem, ok_bind, hitems]
        rfl

theorem Group.read (hr : ∀ {ts}, Operand ts → (∀ t ∈ ts, t.IsLexeme) → Read r ts (words ts) Stops) (h : Group ts)
    (hl : ∀ t ∈ ts, t.IsLexeme) : Read (Expr.spaceList r) ts (words ts) NextGroup := by
  obtain ⟨e, es, text, texts, others, hspells, hspellsAll, htext, hread⟩ := h.readItems hr hl
  refine ⟨Expr.collapse .space (e :: es), htext ▸ hspells.collapse .space hspellsAll, ?_⟩
  intro rest hrest
  obtain ⟨hitem, hitems⟩ := hread rest hrest
  rw [Expr.run_spaceList, hitem, ok_bind, hitems]
  rfl

theorem Value.readGroups (hr : ∀ {ts}, Group ts → (∀ t ∈ ts, t.IsLexeme) → Read r ts (words ts) NextGroup)
    (h : Value ts) (hl : ∀ t ∈ ts, t.IsLexeme) : ∃ e es text texts others, Spells e text ∧ SpellsAll es texts ∧
      Text.join [',', ' '] (text :: texts) = words ts ∧ run r ts = .ok (e, others) ∧
        Expr.groups r others = .ok (es, []) := by
  induction h with
  | @last ts h =>
    obtain ⟨e, hspells, hread⟩ := hr h hl
    have hrun := hread [] nofun
    rw [List.append_nil] at hrun
    exact ⟨e, [], words ts, [], [], hspells, .nil, by simp [Text.join], hrun, Expr.groups_nil⟩
  | @more ts comma t us h hcomma hs ht hvs ih =>
    simp only [List.forall_mem_append, List.forall_mem_cons] at hl
    obtain ⟨hts, hlcomma, hlt, hlus⟩ := hl
    obtain ⟨e, hspells, hread⟩ := hr h hts
    obtain ⟨e', es, text, texts, others, hspells', hspellsAll, htext, hrun, hgroups⟩ :=
      ih (List.forall_mem_cons.mpr ⟨hlt, hlus⟩)
    refine ⟨e, e' :: es, words ts, text :: texts, comma :: t :: us, hspells, .cons hspells' hspellsAll, ?_, ?_, ?_⟩
    · have hwords : words (comma :: t :: us) = ',' :: ' ' :: words (t :: us) := by
        rw [words, hlcomma.comma hcomma, Token.flat_cons, ht]
        rfl
      obtain ⟨u, vs, rfl, -⟩ := h.begins
      rw [words_append comma (List.cons_ne_nil _ _), hs, hwords, ← htext]
      simp [Text.join, List.intercalate_cons_cons, space]
    · exact hread _ fun u hu => Option.some.inj hu ▸ hcomma
    · rw [Expr.groups_cons, if_pos hcomma, hrun, ok_bind, hgroups]
      rfl

/-- A literal is read from end to end as an expression that spells it. -/
theorem Value.spells (h : Value ts) (hl : ∀ t ∈ ts, t.IsLexeme) :
    ∃ e, Spells e (words ts) ∧ Expr.ofTokens ts = .ok e := by
  generalize hlast : (ts.getLast?.map Token.position).getD .start = last
  have hgroup : ∀ {ts}, Group ts → (∀ t ∈ ts, t.IsLexeme) → Read (Expr.spaceList
      (Expr.sum (Expr.product (Expr.operand last maxNesting false) false))) ts (words ts) NextGroup :=
    fun h hl => h.read (fun h hl => h.read hl last 127) hl
  obtain ⟨e, es, text, texts, others, hspells, hspellsAll, htext, hrun, hgroups⟩ := h.readGroups hgroup hl
  refine ⟨Expr.collapse .comma (e :: es), htext ▸ hspells.collapse .comma hspellsAll, ?_⟩
  have hvalue : run (Expr.value (Expr.operand last maxNesting false) false) ts =
      .ok (Expr.collapse .comma (e :: es), []) := by
    rw [Expr.value, Expr.run_commaList, hrun, ok_bind, hgroups]
    rfl
  rw [Expr.ofTokens_eq, hlast, hvalue]
  rfl

/-- In any scopes a literal evaluates to its text. -/
theorem Value.evaluate (h : Value ts) (hl : ∀ t ∈ ts, t.IsLexeme) (scopes : Scopes) :
    ∃ v, scopes.evaluate ts = .ok v ∧ v.render = words ts := by
  obtain ⟨e, hspells, hread⟩ := h.spells hl
  obtain ⟨v, hv, hrender⟩ := hspells scopes.resolve
  refine ⟨v, ?_, hrender⟩
  rw [Scopes.evaluate, hread]
  exact hv

theorem inValue_of_isWord (h : isWord t) : Tokens.inValue t = true := by
  rcases h with h | h | h | h | h <;> simp [Tokens.inValue, Tokens.isStop, h]

theorem inValue_of_isOperator {c : Char} (h : t.isOperator c = true) : Tokens.inValue t = true := by
  have hk : t.kind = .operator := (of_decide_eq_true h).1
  simp [Tokens.inValue, Tokens.isStop, hk]

theorem Operand.inValue (h : Operand ts) : ∀ t ∈ ts, Tokens.inValue t = true := by
  cases h with
  | word h => exact List.forall_mem_singleton.mpr (inValue_of_isWord h)
  | ratio ha hslash hs hc hcs =>
    simp [inValue_of_isWord (.inl ha), inValue_of_isOperator hslash, inValue_of_isWord (.inl hc)]
  | minus hm ht hs =>
    simp [inValue_of_isOperator hm, inValue_of_isWord (.inr (.inr (ht.imp_right .inl)))]
  | @call f args close hf hargs hpaired hhead hclose hs =>
    have hfvalue : Tokens.inValue f = true := by simp [Tokens.inValue, Tokens.isStop, hf]
    have hcvalue : Tokens.inValue close = true := by simp [Tokens.inValue, Tokens.isStop, hclose]
    simp only [List.forall_mem_cons, List.forall_mem_append]
    exact ⟨hfvalue, fun a ha => (hargs a ha).1, hcvalue, List.forall_mem_nil _⟩

/-- No token of a literal ends a value. -/
theorem Value.inValue (h : Value ts) : ∀ t ∈ ts, Tokens.inValue t = true := by
  have hgroup : ∀ {ts}, Group ts → ∀ t ∈ ts, Tokens.inValue t = true := by
    intro ts h
    induction h with
    | last h => exact h.inValue
    | more h _ _ ih => exact List.forall_mem_append.mpr ⟨h.inValue, ih⟩
  induction h with
  | last h => exact hgroup h
  | @more ts comma t us h hcomma _ _ _ ih =>
    have hcvalue : Tokens.inValue comma = true := by simp [Tokens.inValue, Tokens.isStop, hcomma]
    exact List.forall_mem_append.mpr ⟨hgroup h, List.forall_mem_cons.mpr ⟨hcvalue, ih⟩⟩

/-- Every character that stands for nothing in particular is between parentheses. -/
def Enclosed (ts : List Token) : Prop :=
  ∀ init t rest, ts = init ++ t :: rest → t.kind = .delim → ∃ close ∈ rest, close.kind = .rparen

theorem Enclosed.of_kind (h : ∀ t ∈ ts, t.kind ≠ .delim) : Enclosed ts := by
  rintro init t rest rfl ht
  exact absurd ht (h t (by simp))

theorem Enclosed.append (h : Enclosed ts) (hs : Enclosed us) : Enclosed (ts ++ us) := by
  intro init t rest heq ht
  rcases List.append_eq_append_iff.mp heq with ⟨vs, rfl, hus⟩ | ⟨vs, hts, hrest⟩
  · exact hs vs t rest hus ht
  · cases vs with
    | nil => exact hs [] t rest (by simpa using hrest.symm) ht
    | cons v vs =>
      obtain ⟨rfl, rfl⟩ := List.cons.inj hrest
      obtain ⟨close, hmem, hclose⟩ := h init t vs hts ht
      exact ⟨close, List.mem_append_left _ hmem, hclose⟩

theorem Enclosed.close {close : Token} (hclose : close.kind = .rparen) (ts : List Token) : Enclosed (ts ++ [close]) := by
  intro init t rest heq ht
  rcases List.append_eq_append_iff.mp heq with ⟨vs, rfl, hus⟩ | ⟨vs, hts, hrest⟩
  · cases vs with
    | nil =>
      obtain ⟨rfl, -⟩ := List.cons.inj hus
      exact nomatch hclose.symm.trans ht
    | cons v vs => simp at hus
  · cases vs with
    | nil =>
      obtain ⟨rfl, -⟩ := List.cons.inj hrest
      exact nomatch hclose.symm.trans ht
    | cons v vs =>
      obtain ⟨rfl, rfl⟩ := List.cons.inj hrest
      exact ⟨close, by simp, hclose⟩

theorem Operand.enclosed (h : Operand ts) : Enclosed ts := by
  cases h with
  | word h => exact .of_kind (List.forall_mem_singleton.mpr (by rcases h with h | h | h | h | h <;> simp [h]))
  | ratio ha hslash hs hc hcs => exact .of_kind (by simp [ha, (of_decide_eq_true hslash).1, hc])
  | minus hm ht hs => exact .of_kind (by rcases ht with h | h <;> simp [(of_decide_eq_true hm).1, h])
  | call hf hargs hpaired hhead hclose hs => exact Enclosed.close hclose (_ :: _)

theorem Value.enclosed (h : Value ts) : Enclosed ts := by
  have hgroup : ∀ {ts}, Group ts → Enclosed ts := by
    intro ts h
    induction h with
    | last h => exact h.enclosed
    | more h _ _ ih => exact h.enclosed.append ih
  induction h with
  | last h => exact hgroup h
  | @more ts comma t us h hcomma _ _ _ ih =>
    have hmark : Enclosed [comma] := .of_kind (by simp [hcomma])
    exact (hgroup h).append (hmark.append ih)

/-- A literal does not end in a mark of importance. -/
theorem Value.unmarked (h : Value ts) (init : List Token) (i : Written.Importance) : ts ≠ init ++ i.tokens := by
  intro hts
  obtain ⟨hmark, hword⟩ := Tokens.isDelim_of_isImportant i.spells
  obtain ⟨close, hmem, hclose⟩ := h.enclosed init i.mark [i.word] hts (Tokens.kind_of_isDelim hmark)
  rw [List.mem_singleton.mp hmem, hword] at hclose
  contradiction

theorem Value.ne_nil (h : Value ts) : ts ≠ [] := by
  cases h with
  | last h =>
    obtain ⟨t, us, rfl, -⟩ := h.begins
    exact List.cons_ne_nil t us
  | more => simp

end Literal
end LessCss
