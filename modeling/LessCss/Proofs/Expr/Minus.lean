import LessCss.Proofs.Expr.FormulaText
import LessCss.Proofs.Expr.Parentheses
import LessCss.Proofs.Token.Closing
import LessCss.Proofs.Token.Printed
/-!
What a minus between two operands means.

Between operands a minus subtracts, unless there is a gap before it and none after it. Then it is the sign of the
second operand, and the two are items of a list. Two parts of the library decide about this: the lexer, which reads the
minus as the beginning of a number (`spell_minus`, `spell_negative`), and the readers of expressions, which look at the
gaps around an operator (`ofTokens_subtract`, `ofTokens_items`). They follow one law for all operands (`minus_read`).
-/
namespace LessCss

namespace Unsigned

variable (n : Unsigned)

def negated : Measure := ⟨{ n.measure.number with sign := ['-'] }, n.measure.unit⟩

theorem negated_text : n.negated.text = '-' :: n.measure.text := by
  simp [negated, Measure.text, Numeral.text, n.sign_nil]

theorem negated_value : n.negated.number.value = -n.measure.number.value := by
  rw [Numeral.value, Numeral.value, n.sign_nil]
  rfl

theorem negated_wellFormed : n.negated.WellFormed where
  number := { n.wellFormed.number with sign := .inr rfl }
  unit := n.wellFormed.unit

theorem negated_ends : n.negated.Ends [] := n.negated_wellFormed.ends startsWith_nil

theorem parse?_negated : Measure.parse? ('-' :: n.measure.text) = some (-n.measure.number.value, n.measure.unit) := by
  rw [← negated_text, n.negated_wellFormed.parse?, negated_value]
  rfl

theorem startsNumeral : Lexeme.startsNumeral n.measure.text = true := by
  obtain ⟨t, ht, hstarts⟩ := Lexeme.startsNumeral_of_wellFormed n.wellFormed.number n.measure.unit
  rw [n.sign_nil, List.nil_append] at ht
  rw [Measure.text, ht]
  exact hstarts

variable {n}

/-- A number whose unit is not `e` ends before a space or a minus. -/
theorem ends_minus (hunit : n.measure.unit ≠ ['e'] ∧ n.measure.unit ≠ ['E']) {c : Char} (hc : c = ' ' ∨ c = '-')
    (r : Text) : n.measure.Ends (c :: r) := by
  refine n.wellFormed.ends_before fun d hd hinner => ?_
  obtain rfl := Option.some.inj hd
  rcases hc with rfl | rfl
  · exact absurd hinner (by decide)
  · exact ⟨rfl, hunit⟩

end Unsigned

namespace Minus

open LessCss.Expr (run)
open LessCss.Literal (run_item)
open Token (spell)
open Formula (spell_number spell_reference spell_paren)

/-- The text of an expression in parentheses, from the one to the other, that leaves a level of nesting to spare. -/
structure Parenthesized where
  body : Text
  opening : Token
  inner : List Token
  closing : Token
  stop : Token
  expr : Expr
  tokens : Token.ofText ('(' :: body) = opening :: (inner ++ [closing, stop])
  paired : Tokens.depthAfter? (fun _ => false) 0 inner = some 0
  closes : closing.kind = .rparen
  touches : stop.spaced = false
  reads : Expr.ofTokensWithin (maxNesting - 1) (opening :: (inner ++ [closing])) = .ok expr

/-- What may stand before the minus. After a number with the unit `e` the minus would be part of an exponent. -/
inductive Left
  | number (n : Unsigned) (hunit : n.measure.unit ≠ ['e'] ∧ n.measure.unit ≠ ['E'])
  | parens (p : Parenthesized)

/-- What may stand after it. -/
inductive Right
  | number (n : Unsigned)
  | reference (v : VariableName)
  | parens (p : Parenthesized)

namespace Left

def text : Left → Text
  | number n _ => n.measure.text
  | parens p => '(' :: p.body

/-- The expression that the operand is by itself, without places. -/
def expr : Left → Expr
  | number n _ => .number n.measure.number.value n.measure.unit n.measure.text
  | parens p => p.expr.unplaced

end Left

namespace Right

def text : Right → Text
  | number n => n.measure.text
  | reference v => '@' :: v.text
  | parens p => '(' :: p.body

def expr : Right → Expr
  | number n => .number n.measure.number.value n.measure.unit n.measure.text
  | reference v => .reference v.text .start
  | parens p => p.expr.unplaced

/-- The negative of the operand: a number with a minus in front, or a negative of the expression. -/
def negative : Right → Expr
  | number n => .number (-n.measure.number.value) n.measure.unit ('-' :: n.measure.text)
  | b => .negate b.expr

end Right

section Rows

variable {as bs : List Token} {a b : Expr} {t : Token}

/-- A row that is read as an operand, whatever comes after it. -/
def IsOperand (budget : Nat) (ts : List Token) (e : Expr) : Prop :=
  ∀ last us, run (Expr.operand last budget false) (ts ++ us) = .ok (e, us)

theorem IsOperand.leaf {budget : Nat} {e : Expr} (hminus : t.isOperator '-' = false) (hopen : t.kind ≠ .lparen)
    (h : ∀ us, Expr.Leaf t us e us) : IsOperand budget [t] e :=
  fun _ us => Expr.run_operand_of_leaf hminus hopen (h us)

theorem IsOperand.number {budget : Nat} (n : Unsigned) (s : Bool) :
    IsOperand budget [⟨.number, n.measure.text, .start, s⟩]
      (.number n.measure.number.value n.measure.unit n.measure.text) :=
  .leaf rfl nofun fun _ => .number rfl n.parse?

/-- An operand, a minus that is not the sign of what comes after it, and an operand. -/
theorem ofTokens_subtract (ha : IsOperand maxNesting as a) (hb : IsOperand maxNesting bs b) (hk : t.kind = .operator)
    (htext : t.text = ['-']) (hgaps : Expr.endsSum .subtract t bs = false) :
    Expr.ofTokens (as ++ t :: bs) = .ok (.binary .subtract a b t.position) := by
  have hproduct : Expr.productOperator? t = none := by
    simp [Expr.productOperator?, Expr.operator?, hk, htext]
  have hsum : Expr.sumOperator? t = some .subtract := by
    simp [Expr.sumOperator?, Expr.operator?, hk, htext]
  rw [Expr.ofTokens_eq]
  generalize (((as ++ t :: bs).getLast?.map Token.position).getD .start) = last
  have hright := hb last []
  rw [List.append_nil] at hright
  rw [Expr.value, Expr.run_commaList, Expr.run_spaceList, Expr.run_sum, Expr.run_product, ha last]
  simp only [ok_bind, Expr.factors_cons, hproduct, Expr.terms_cons, hsum, hgaps, Bool.false_eq_true, if_false,
    Expr.run_product, hright, Expr.factors_nil, Expr.terms_nil, Expr.items_nil, Except.map, Expr.groups_nil]
  rfl

theorem ofTokens_items (ha : IsOperand maxNesting as a)
    (hb : ∀ last, run (Expr.operand last maxNesting false) (t :: bs) = .ok (b, []))
    (hstarts : Expr.startsOperand t = true) (hstops : Expr.Stops (t :: bs)) :
    Expr.ofTokens (as ++ t :: bs) = .ok (.list [a, b] .space) := by
  rw [Expr.ofTokens_eq]
  generalize (((as ++ t :: bs).getLast?.map Token.position).getD .start) = last
  rw [Expr.value, Expr.run_commaList, Expr.run_spaceList, run_item (ha last (t :: bs)) hstops, ok_bind,
    Expr.items_cons, if_pos hstarts, run_item (hb last) Expr.Stops.nil]
  simp only [ok_bind, Expr.items_nil, Except.map, Expr.groups_nil]
  rfl

end Rows

section Texts

variable {k : Option Token.Kind} {s : Bool} {r : Text}

theorem spell_end (k : Option Token.Kind) : spell k false [] = [Token.eof] := Token.spell_nil rfl

/-- A minus that is not the sign of a numeral and does not begin a name is an operator. -/
theorem spell_minus (hsign : ¬(Lexeme.startsNumeral r = true ∧ Lexeme.mayBeSign k s = true))
    (hname : startsWith (fun d => isNameStart d || d == '-') r = false) :
    spell k s ('-' :: r) = ⟨.operator, ['-'], .start, s⟩ :: spell (some .operator) false r := by
  have hread : Lexeme.read k s '-' r = ⟨.operator, ['-'], r⟩ :=
    Lexeme.read_single (by simp) (by simp) (by simp) (by simp [Lexeme.startsNumeral]) (by simpa using hsign)
      (by simp [hname]) (by decide)
  rw [Token.spell_lexeme (by simp [GapState.next?, Text.isBlank]), hread]

/-- The minus before a number is its sign where no operand touches it. -/
theorem spell_negative (n : Unsigned) (hs : Lexeme.mayBeSign k s = true) :
    spell k s ('-' :: n.measure.text) = [⟨.number, '-' :: n.measure.text, .start, s⟩, Token.eof] := by
  have hread : Lexeme.read k s '-' n.measure.text = ⟨.number, '-' :: n.measure.text, []⟩ := by
    rw [Lexeme.read_negative n.startsNumeral hs, ← n.negated_text]
    exact Lexeme.readNumber_text n.negated_wellFormed n.negated_ends (by rw [List.append_nil, n.negated_text])
  rw [Token.spell_lexeme (by simp [GapState.next?, Text.isBlank]), hread, spell_end]

end Texts

namespace Parenthesized

variable (p : Parenthesized)

/-- The tokens of the text without places, after a gap or not. -/
def row (s : Bool) : List Token :=
  ⟨.lparen, ['('], .start, s⟩ :: (p.inner.map Token.unplaced ++ [p.closing.unplaced])

theorem ofText_bare : spell none false ('(' :: p.body) = p.row false ++ [Token.eof] ∧
    p.opening.unplaced = ⟨.lparen, ['('], .start, false⟩ := by
  obtain ⟨us, hus, hkind⟩ := Token.exists_spell_eof none false ('(' :: p.body)
  have hbare : us ++ [Token.eof] = (p.opening :: (p.inner ++ [p.closing])).map Token.bare ++ [p.stop.bare] := by
    rw [← hus, ← Token.ofText_bare, p.tokens]
    simp
  have hrow := List.append_inj_left' hbare rfl
  have hunplaced : (p.opening :: (p.inner ++ [p.closing])).map Token.bare =
      p.opening.unplaced :: (p.inner.map Token.unplaced ++ [p.closing.unplaced]) := by
    rw [Token.map_bare_eq_map_unplaced fun t ht => ?_]
    · simp
    · exact hkind t.bare (hrow ▸ List.mem_map_of_mem ht)
  rw [hunplaced] at hrow
  have hopening : p.opening.unplaced = ⟨.lparen, ['('], .start, false⟩ := by
    rw [spell_paren (.inl rfl), hrow] at hus
    exact (List.cons.inj hus).1.symm
  rw [hus, hrow, row, hopening]
  exact ⟨rfl, rfl⟩

theorem spell_text (k : Option Token.Kind) (s : Bool) : spell k s ('(' :: p.body) = p.row s ++ [Token.eof] := by
  have hbare := p.ofText_bare.1
  rw [spell_paren (.inl rfl)] at hbare ⊢
  rw [row, List.cons_append] at hbare ⊢
  rw [(List.cons.inj hbare).2]
  rfl

theorem spell_append {r : Text} (hr : startsWith Char.isDigit r = false) :
    spell none false ('(' :: p.body ++ r) = p.row false ++ spell (some .rparen) false r := by
  have htokens : Token.ofText ('(' :: p.body) = (p.opening :: p.inner) ++ [p.closing, p.stop] := p.tokens
  obtain ⟨-, us, hus, hlonger⟩ := Token.spell_after_close htokens p.closes p.touches hr
  rw [p.ofText_bare.1] at hus
  rw [hlonger, (List.append_inj_left' hus rfl)]

theorem opening_kind : p.opening.kind = .lparen := congrArg Token.kind p.ofText_bare.2

theorem run_row : ∃ last, run (Expr.operand last (maxNesting - 1) false) (p.opening :: (p.inner ++ [p.closing])) =
    .ok (p.expr, []) := by
  have hreads := p.reads
  rw [Expr.ofTokensWithin] at hreads
  generalize (((p.opening :: (p.inner ++ [p.closing])).getLast?.map Token.position).getD .start) = last at hreads
  refine ⟨last, ?_⟩
  cases hrun : run (Expr.operand last (maxNesting - 1) false) (p.opening :: (p.inner ++ [p.closing])) with
  | error d =>
    rw [Expr.run_value_of_error hrun] at hreads
    cases hreads
  | ok q =>
    obtain ⟨e, rest⟩ := q
    obtain ⟨rfl, -⟩ := (Expr.run_parenthesized p.opening_kind p.opening_kind rfl p.paired p.closes last last (Nat.le_refl _)
      false false []).ok e rest hrun
    rw [Expr.run_value_of_closes hrun Formula.Closes.nil] at hreads
    obtain rfl := Except.ok.inj hreads
    rfl

theorem isOperand {budget : Nat} (hbudget : maxNesting - 1 ≤ budget) (s : Bool) :
    IsOperand budget (p.row s) p.expr.unplaced := by
  intro last us
  obtain ⟨last₀, hrun⟩ := p.run_row
  have hmirror := Expr.operand_mirrors last₀ (maxNesting - 1) false (p.opening :: (p.inner ++ [p.closing]))
  rw [hrun, List.map_cons, p.ofText_bare.2, List.map_append] at hmirror
  have hpaired : Tokens.depthAfter? (fun _ => false) 0 (p.inner.map Token.unplaced) = some 0 :=
    (Tokens.depthAfter?_map (f := Token.unplaced) (fun _ => rfl) (fun _ => rfl) 0 p.inner).trans p.paired
  have hopen : (⟨.lparen, ['('], .start, s⟩ : Token).kind = .lparen := rfl
  have hclose : p.closing.unplaced.kind = .rparen := p.closes
  have hparens := Expr.run_parenthesized rfl hopen rfl hpaired hclose .start last hbudget false false us
  obtain ⟨-, hread⟩ := hparens.ok _ _ hmirror
  rw [row, List.cons_append, List.append_assoc]
  exact hread

end Parenthesized

namespace Left

/-- The operand before the minus has a row of its own, after which a minus is not a sign where it touches it. -/
theorem reads (a : Left) : ∃ ts k, IsOperand maxNesting ts a.expr ∧ Lexeme.endsOperand k = true ∧
    ∀ c r, c = ' ' ∨ c = '-' → spell none false (a.text ++ c :: r) = ts ++ spell (some k) false (c :: r) := by
  cases a with
  | number n hunit =>
    refine ⟨_, .number, .number n false, rfl, fun c r hc => ?_⟩
    exact spell_number n (Unsigned.ends_minus hunit hc r)
  | parens p =>
    refine ⟨p.row false, .rparen, p.isOperand (by decide) false, rfl, fun c r hc => p.spell_append ?_⟩
    rcases hc with rfl | rfl <;> rfl

end Left

namespace Right

/-- The operand after the minus has a row of its own, with or without a gap before it. -/
theorem reads (b : Right) (s : Bool) : ∃ t ts, t.spaced = s ∧
    (∀ budget, maxNesting - 1 ≤ budget → IsOperand budget (t :: ts) b.expr) ∧
    ∀ k, spell k s b.text = t :: ts ++ [Token.eof] := by
  cases b with
  | number n =>
    refine ⟨_, [], rfl, fun budget _ => .number n s, fun k => ?_⟩
    have hspell := spell_number (b := k) (s := s) n (n.wellFormed.ends startsWith_nil)
    rw [List.append_nil, spell_end] at hspell
    exact hspell
  | reference v =>
    refine ⟨⟨.atKeyword, '@' :: v.text, .start, s⟩, [], rfl,
      fun budget _ => .leaf rfl nofun fun _ => .reference rfl, fun k => ?_⟩
    have hspell := spell_reference (b := k) (s := s) v startsWith_nil
    rw [List.append_nil, spell_end] at hspell
    exact hspell
  | parens p => exact ⟨_, _, rfl, fun _ hbudget => p.isOperand hbudget s, fun k => p.spell_text k s⟩

theorem startsWith_text (b : Right) : startsWith (fun d => isNameStart d || d == '-') b.text = false := by
  cases b with
  | reference | parens => rfl
  | number n =>
    have hstarts := n.startsNumeral
    rw [text]
    cases ht : n.measure.text with
    | nil => rfl
    | cons c cs =>
      rw [ht, Lexeme.startsNumeral_cons] at hstarts
      rw [startsWith_cons, Bool.or_eq_false_iff]
      refine ⟨Bool.eq_false_iff.mpr fun hc => ?_, ?_⟩
      · obtain ⟨hdigit, hpoint, -⟩ := isNameStart_only hc
        simp [hdigit, hpoint] at hstarts
      · rw [beq_eq_false_iff_ne]
        rintro rfl
        simp at hstarts

/-- Where an operand before the minus touches it, or a gap comes after it, the minus is an operator and does not end the
sum. -/
theorem subtracted (b : Right) {k : Token.Kind} (hk : Lexeme.endsOperand k = true) {before after : Bool}
    (h : ¬(before = true ∧ after = false)) : ∃ ts, IsOperand maxNesting ts b.expr ∧
      Expr.endsSum .subtract ⟨.operator, ['-'], .start, before⟩ ts = false ∧
      spell (some k) before ('-' :: (space after ++ b.text)) = ⟨.operator, ['-'], .start, before⟩ :: (ts ++ [Token.eof]) := by
  obtain ⟨t, ts, ht, hread, htext⟩ := b.reads after
  have hgaps : Expr.endsSum .subtract ⟨.operator, ['-'], .start, before⟩ (t :: ts) = false := by
    cases before <;> cases after <;> simp_all [Expr.endsSum]
  refine ⟨t :: ts, hread maxNesting (by decide), hgaps, ?_⟩
  rw [spell_minus, spell_space, htext]
  · cases after with
    | true => simp [space, Lexeme.startsNumeral]
    | false =>
      cases before with
      | true => exact absurd ⟨rfl, rfl⟩ h
      | false => simp [Lexeme.mayBeSign, hk]
  · cases after with
    | true => rfl
    | false => exact b.startsWith_text

/-- A minus after a gap that touches the operand begins an item of its own, the negative of the operand. -/
def NegativeItem (b : Right) (k : Option Token.Kind) : Prop := ∃ t ts,
  spell k true ('-' :: b.text) = t :: ts ++ [Token.eof] ∧ Expr.startsOperand t = true ∧ Expr.Stops (t :: ts) ∧
    ∀ last, run (Expr.operand last maxNesting false) (t :: ts) = .ok (b.negative, [])

theorem negativeItem_number (n : Unsigned) (k : Option Token.Kind) : NegativeItem (.number n) k :=
  ⟨⟨.number, '-' :: n.measure.text, .start, true⟩, [], spell_negative n rfl, rfl, .of_kind (by simp) [],
    fun _ => Expr.run_operand_of_leaf rfl (by simp) (.number rfl n.parse?_negated)⟩

/-- The minus is a token of its own before anything but a number. -/
theorem negativeItem_operator (b : Right) (k : Option Token.Kind) (hnumeral : Lexeme.startsNumeral b.text = false)
    (hnegative : b.negative = .negate b.expr) : NegativeItem b k := by
  obtain ⟨t, ts, ht, hread, htext⟩ := b.reads false
  refine ⟨⟨.operator, ['-'], .start, true⟩, t :: ts, ?_, rfl, .cons rfl fun op hop => ?_, fun last => ?_⟩
  · rw [spell_minus (by simp [hnumeral]) b.startsWith_text, htext]
    rfl
  · obtain rfl : Operator.subtract = op := Option.some.inj hop
    simp [Expr.endsSum, ht]
  · have hoperand := hread 127 (by decide) last []
    rw [List.append_nil] at hoperand
    rw [hnegative]
    exact Expr.run_operand_eq_ok.mpr (.negative rfl hoperand)

theorem negativeItem (b : Right) (k : Option Token.Kind) : NegativeItem b k := by
  cases b with
  | number n => exact negativeItem_number n k
  | reference v => exact negativeItem_operator (.reference v) k rfl rfl
  | parens p => exact negativeItem_operator (.parens p) k rfl rfl

end Right

/-- A text is read as what its tokens without places are read as. -/
theorem read_of_spell {t : Text} {us : List Token} {e : Expr} (h : spell none false t = us ++ [Token.eof])
    (hus : Expr.ofTokens us = .ok e) : ∃ ts stop e', Token.ofText t = ts ++ [stop] ∧ stop.kind = .eof ∧
      Expr.ofTokens ts = .ok e' ∧ e'.unplaced = e := by
  obtain ⟨vs, hvs, hkind⟩ := Token.exists_spell_eof none false t
  obtain rfl : vs = us := List.append_inj_left' (hvs.symm.trans h) rfl
  rw [← Token.ofText_bare] at h
  obtain ⟨ts, after, htext, hts, hafter⟩ := List.map_eq_append_iff.mp h
  obtain ⟨stop, rfl, hstop⟩ := List.map_eq_singleton_iff.mp hafter
  have hunplaced : ts.map Token.unplaced = vs := by
    rw [← hts, Token.map_bare_eq_map_unplaced]
    intro u hu
    exact hkind u.bare (hts ▸ List.mem_map_of_mem hu)
  rw [← hunplaced, Expr.ofTokens_unplaced] at hus
  cases hread : Expr.ofTokens ts with
  | error d =>
    rw [hread] at hus
    cases hus
  | ok e' =>
    rw [hread] at hus
    exact ⟨ts, stop, e', htext, congrArg Token.kind hstop, hread, Except.ok.inj hus⟩

/-- Between two operands a minus makes the second one negative and the two a list, if there is a gap before it and none
after it. In the three other cases it subtracts. -/
theorem minus_read (a : Left) (b : Right) (before after : Bool) : ∃ ts stop e,
    Token.ofText (a.text ++ (space before ++ '-' :: (space after ++ b.text))) = ts ++ [stop] ∧ stop.kind = .eof ∧
      Expr.ofTokens ts = .ok e ∧
      e.unplaced = if before = true ∧ after = false then .list [a.expr, b.negative] .space
        else .binary .subtract a.expr b.expr .start := by
  obtain ⟨as, k, ha, hk, hleft⟩ := a.reads
  have hspell : spell none false (a.text ++ (space before ++ '-' :: (space after ++ b.text))) =
      as ++ spell (some k) before ('-' :: (space after ++ b.text)) := by
    cases before with
    | true => exact (hleft ' ' _ (.inl rfl)).trans (congrArg _ (Token.spell_blank rfl))
    | false => exact hleft '-' _ (.inr rfl)
  by_cases h : before = true ∧ after = false
  · obtain ⟨rfl, rfl⟩ := h
    obtain ⟨t, ts, htext, hstarts, hstops, hnegative⟩ := b.negativeItem (some k)
    have htokens : spell none false (a.text ++ (space true ++ '-' :: (space false ++ b.text))) =
        as ++ t :: ts ++ [Token.eof] := by
      rw [List.append_assoc]
      exact hspell.trans (congrArg _ htext)
    exact read_of_spell htokens (ofTokens_items ha hnegative hstarts hstops)
  · obtain ⟨ts, hb, hgaps, htext⟩ := b.subtracted hk h
    have htokens : spell none false (a.text ++ (space before ++ '-' :: (space after ++ b.text))) =
        as ++ ⟨.operator, ['-'], .start, before⟩ :: ts ++ [Token.eof] := by
      rw [List.append_assoc]
      exact hspell.trans (congrArg _ htext)
    rw [if_neg h]
    exact read_of_spell htokens (ofTokens_subtract ha hb rfl rfl hgaps)

def bracketedName : Parenthesized where
  body := "@a)".toList
  opening := ⟨.lparen, ['('], ⟨1, 1⟩, false⟩
  inner := [⟨.atKeyword, "@a".toList, ⟨1, 2⟩, false⟩]
  closing := ⟨.rparen, [')'], ⟨1, 4⟩, false⟩
  stop := ⟨.eof, [], ⟨1, 5⟩, false⟩
  expr := .reference ['a'] ⟨1, 2⟩
  tokens := by decide +kernel
  paired := rfl
  closes := rfl
  touches := rfl
  reads := by
    let name : Token := ⟨.atKeyword, "@a".toList, ⟨1, 2⟩, false⟩
    let rp : Token := ⟨.rparen, [')'], ⟨1, 4⟩, false⟩
    apply Expr.ofTokensWithin_of_operand
    intro last
    have hname : run (Expr.operand last 126 true) [name, rp] = .ok (.reference ['a'] ⟨1, 2⟩, [rp]) :=
      Expr.run_operand_of_leaf rfl (by decide) (.reference rfl)
    exact Expr.run_operand_parens rfl rfl hname

/-- `1 -(@a)` is a list, and `(@a)-1` a difference. -/
theorem minus_read_bracketedName :
    (∃ ts stop e, Token.ofText "1 -(@a)".toList = ts ++ [stop] ∧ stop.kind = .eof ∧ Expr.ofTokens ts = .ok e ∧
      e.unplaced = .list [.number (Numeral.value ⟨[], ['1'], none, none⟩) [] ['1'], .negate (.reference ['a'] .start)] .space) ∧
    ∃ ts stop e, Token.ofText "(@a)-1".toList = ts ++ [stop] ∧ stop.kind = .eof ∧ Expr.ofTokens ts = .ok e ∧
      e.unplaced = .binary .subtract (.reference ['a'] .start) (.number (Numeral.value ⟨[], ['1'], none, none⟩) [] ['1']) .start := by
  let one : Unsigned := .whole ['1'] (by decide) (by decide)
  refine ⟨?_, ?_⟩
  · exact minus_read (.number one (by decide)) (.parens bracketedName) true false
  · exact minus_read (.parens bracketedName) (.number one) false false

end Minus
end LessCss
