import LessCss.Proofs.Expr.Formula
import LessCss.Proofs.Token.Spell
/-!
The text of a formula, with one space on both sides of an operator.

The tokens of the text are those of the layout (`Formula.spell_text`), so a formula is read from its text as it is, up
to places, if its parentheses and signs are not nested too deep (`Formula.text_read`).
-/
namespace LessCss.Formula

open Token (spell)
open NestedToken (row within)

/-- The text of an operand, in parentheses or not. -/
def sideText (inParens : Bool) (text : Text) : Text := if inParens then '(' :: (text ++ [')']) else text

def text : Formula → Text
  | number n => n.measure.text
  | reference v => '@' :: v.text
  | negate operand => '-' :: sideText true operand.text
  | binary op lhs rhs =>
    sideText (lhs.tightness < op.tightness) lhs.text ++
      ' ' :: op.char :: ' ' :: sideText (rhs.tightness ≤ op.tightness) rhs.text

/-- A text that is spelled by the tokens of a layout before anything that ends a name or a number. -/
def Spelled (text : Text) (layout : Nat → Bool → List NestedToken) : Prop :=
  ∀ (b : Option Token.Kind) (s : Bool) (depth : Nat) (r : Text), startsWith Lexeme.isInner r = false →
    ∃ b', spell b s (text ++ r) = row (layout depth s) ++ spell b' false r

variable {b : Option Token.Kind} {s : Bool} {r : Text}

theorem spell_paren {c : Char} (hc : c = '(' ∨ c = ')') (r : Text) :
    spell b s (c :: r) = ⟨Lexeme.singleKind c, [c], .start, s⟩ :: spell (some (Lexeme.singleKind c)) false r := by
  have hnext : GapState.outside.next? c r = none := by rcases hc with rfl | rfl <;> simp [GapState.next?, Text.isBlank]
  have hread : Lexeme.read b s c r = ⟨Lexeme.singleKind c, [c], r⟩ := by
    rcases hc with rfl | rfl <;>
      exact Lexeme.read_single (by simp) (by simp) (by simp) (by simp [Lexeme.startsNumeral]) (by simp) (by simp)
        (by decide)
  rw [Token.spell_lexeme hnext, hread]

/-- An operator before a space, or a sign before a parenthesis. -/
theorem spell_operator (op : Operator) {c : Char} (hc : c = ' ' ∨ c = '(') (r : Text) :
    spell b s (op.char :: c :: r) = ⟨.operator, [op.char], .start, s⟩ :: spell (some .operator) false (c :: r) := by
  have hnext : GapState.outside.next? op.char (c :: r) = none := by
    rcases hc with rfl | rfl <;> cases op <;> simp [GapState.next?, Text.isBlank, Operator.char]
  have hread : Lexeme.read b s op.char (c :: r) = ⟨.operator, [op.char], c :: r⟩ := by
    have hsingle : Lexeme.singleKind op.char = .operator := by cases op <;> rfl
    rw [← hsingle]
    have hstart : ¬isNameStart op.char = true := by cases op <;> decide
    have hc : Lexeme.startsNumeral (c :: r) = false ∧ (isNameStart c || c == '-') = false := by
      rcases hc with rfl | rfl <;> exact ⟨by simp [Lexeme.startsNumeral], by decide⟩
    exact Lexeme.read_single (by cases op <;> simp [Operator.char]) (by cases op <;> simp [Operator.char])
      (by cases op <;> simp [Operator.char]) (by cases op <;> simp [Operator.char, Lexeme.startsNumeral])
      (by simp [hc.1])
      (by simp only [startsWith_cons, hc.2]; simp) hstart
  rw [Token.spell_lexeme hnext, hread]

theorem Spelled.parenthesized {t : Text} {layout : Nat → Bool → List NestedToken} (h : Spelled t layout) :
    Spelled (sideText true t) (Formula.parenthesized layout) := by
  intro b s depth r hr
  obtain ⟨b', hb'⟩ := h (some .lparen) false (depth + 1) (')' :: r) (by rw [startsWith_cons]; decide)
  refine ⟨some .rparen, ?_⟩
  have htext : sideText true t ++ r = '(' :: (t ++ ')' :: r) := by simp [sideText]
  rw [htext, spell_paren (.inl rfl), show Lexeme.singleKind '(' = .lparen from rfl, hb', spell_paren (.inr rfl)]
  simp [Formula.parenthesized, row, show Lexeme.singleKind ')' = .rparen from rfl]

theorem Spelled.side {t : Text} {layout : Nat → Bool → List NestedToken} (h : Spelled t layout) (inParens : Bool) :
    Spelled (sideText inParens t) (Formula.side inParens layout) := by
  cases inParens with
  | true => exact h.parenthesized
  | false => exact h

theorem startsNumeral_only {c : Char} {cs : Text} (h : Lexeme.startsNumeral (c :: cs) = true) :
    Text.isBlank c = false ∧ c ≠ '/' := by
  have hc : c.isDigit = true ∨ c = '.' := by
    simp only [Lexeme.startsNumeral, Bool.or_eq_true, Bool.and_eq_true, beq_iff_eq] at h
    exact h.imp_right And.left
  rw [isDigit_iff, eq_iff_toNat] at hc
  simp only [Char.reduceToNat] at hc
  refine ⟨?_, ?_⟩
  · simp only [Text.isBlank, Bool.or_eq_false_iff, Bool.and_eq_false_iff, decide_eq_false_iff_not, beq_eq_false_iff_ne]
    omega
  · rw [Ne, eq_iff_toNat]
    simp only [Char.reduceToNat]
    omega

theorem spell_number (n : Unsigned) (hr : n.measure.Ends r) : spell b s (n.measure.text ++ r) =
    ⟨.number, n.measure.text, .start, s⟩ :: spell (some .number) false r := by
  obtain ⟨t, ht, hstarts⟩ := Lexeme.startsNumeral_of_wellFormed n.wellFormed.number (n.measure.unit ++ r)
  rw [n.sign_nil, List.nil_append, ← List.append_assoc] at ht
  change n.measure.text ++ r = t at ht
  cases t with
  | nil => simp [Lexeme.startsNumeral] at hstarts
  | cons c cs =>
    have hread : Lexeme.read b s c cs = ⟨.number, n.measure.text, r⟩ := by
      rw [Lexeme.read_number b s hstarts, Lexeme.readNumber_text n.wellFormed hr ht]
    have hnext : GapState.outside.next? c cs = none := by
      obtain ⟨hb, hslash⟩ := startsNumeral_only hstarts
      simp [GapState.next?, hb, hslash]
    rw [ht, Token.spell_lexeme hnext, hread]

theorem spell_reference (v : VariableName) (hr : startsWith isNameChar r = false) : spell b s ('@' :: v.text ++ r) =
    ⟨.atKeyword, '@' :: v.text, .start, s⟩ :: spell (some .atKeyword) false r := by
  have hread : Lexeme.read b s '@' (v.text ++ r) = ⟨.atKeyword, '@' :: v.text, r⟩ := by
    rw [Lexeme.read, if_neg (by simp), if_neg (by simp), if_pos rfl, Lexeme.readSigned_text v.ne_nil v.fits hr]
  rw [List.cons_append, Token.spell_lexeme (by simp [GapState.next?, Text.isBlank]), hread]

/-- The tokens of the text of a formula are those of its layout. -/
theorem spell_text (f : Formula) : Spelled f.text f.layout := by
  induction f with
  | number n =>
    intro b s depth r hr
    exact ⟨some .number, spell_number n (n.wellFormed.ends hr)⟩
  | reference v =>
    intro b s depth r hr
    have hstop := startsWith_false_of_imp (p := isNameChar) hr fun c hc => by simp [Lexeme.isInner, hc]
    exact ⟨some .atKeyword, spell_reference v hstop⟩
  | negate operand ih =>
    intro b s depth r hr
    obtain ⟨b', hb'⟩ := ih.parenthesized (some .operator) false (depth + 1) r hr
    refine ⟨b', ?_⟩
    have hsign := spell_operator (b := b) (s := s) .subtract (.inr rfl) (operand.text ++ [')'] ++ r)
    rw [text, List.cons_append]
    exact hsign.trans (congrArg _ hb')
  | binary op lhs rhs ihl ihr =>
    intro b s depth r hr
    obtain ⟨bl, hl⟩ := ihl.side (lhs.tightness < op.tightness) b s depth
      (' ' :: op.char :: ' ' :: (sideText (rhs.tightness ≤ op.tightness) rhs.text ++ r))
      (by rw [startsWith_cons]; decide)
    obtain ⟨br, hr⟩ := ihr.side (rhs.tightness ≤ op.tightness) (some .operator) true depth r hr
    refine ⟨br, ?_⟩
    rw [text, List.append_assoc]
    simp only [List.cons_append]
    rw [hl, Token.spell_blank (by rfl), spell_operator op (.inl rfl), Token.spell_blank (by rfl), hr]
    simp [layout, row]

theorem side_kind {layout : Nat → Bool → List NestedToken}
    (h : ∀ depth gap, ∀ n ∈ layout depth gap, n.token.kind ≠ .eof) (inParens : Bool) (depth : Nat) (gap : Bool) :
    ∀ n ∈ side inParens layout depth gap, n.token.kind ≠ .eof := by
  cases inParens with
  | false => exact h depth gap
  | true =>
    refine List.forall_mem_cons.mpr ⟨nofun, List.forall_mem_append.mpr ⟨h (depth + 1) false, ?_⟩⟩
    exact List.forall_mem_singleton.mpr nofun

theorem kind_ne_eof (f : Formula) (depth : Nat) (gap : Bool) : ∀ n ∈ f.layout depth gap, n.token.kind ≠ .eof := by
  induction f generalizing depth gap with
  | number | reference => exact List.forall_mem_singleton.mpr nofun
  | negate operand ih => exact List.forall_mem_cons.mpr ⟨nofun, side_kind ih true (depth + 1) false⟩
  | binary op lhs rhs ihl ihr =>
    exact List.forall_mem_append.mpr ⟨side_kind ihl _ depth gap,
      List.forall_mem_cons.mpr ⟨nofun, side_kind ihr _ depth true⟩⟩

/-- A row of tokens with the depths of a layout, of which it has the tokens. -/
theorem exists_nested {layout : List NestedToken} (h : ∀ n ∈ layout, n.token.kind ≠ .eof) {ts : List Token}
    (hts : ts.map Token.bare = row layout) : ∃ ns, row ns = ts ∧ ns.map NestedToken.unplaced = layout := by
  induction layout generalizing ts with
  | nil => exact ⟨[], (List.map_eq_nil_iff.mp hts).symm, rfl⟩
  | cons n layout ih =>
    obtain ⟨t, ts, rfl, ht, hts⟩ := List.map_eq_cons_iff.mp hts
    rw [List.forall_mem_cons] at h
    obtain ⟨ns, rfl, hns⟩ := ih h.2 hts
    have hkind : t.kind ≠ .eof := by
      rw [← ht] at h
      exact h.1
    have hbare : t.unplaced = n.token := by
      rw [← ht]
      simp [Token.unplaced, Token.bare, hkind]
    refine ⟨⟨t, n.depth⟩ :: ns, rfl, ?_⟩
    rw [List.map_cons, hns, NestedToken.unplaced, hbare]

theorem ofText_text (f : Formula) : ∃ ns last, Token.ofText f.text = row ns ++ [last] ∧
    ns.map NestedToken.unplaced = f.layout 0 false ∧ last.kind = .eof := by
  obtain ⟨b, hb⟩ := f.spell_text none false 0 [] startsWith_nil
  rw [List.append_nil, ← Token.ofText_bare, Token.spell_nil (by rfl)] at hb
  obtain ⟨ts, after, htext, hts, hafter⟩ := List.map_eq_append_iff.mp hb
  obtain ⟨last, rfl, hlast⟩ := List.map_eq_singleton_iff.mp hafter
  obtain ⟨ns, rfl, hns⟩ := exists_nested (f.kind_ne_eof 0 false) hts
  exact ⟨ns, last, htext, hns, congrArg Token.kind hlast⟩

/-- A row of tokens with the layout of a formula is read as the formula, unless one of its parentheses or signs goes too
deep. -/
theorem ofTokens_layout (f : Formula) {gap : Bool} {ns : List NestedToken}
    (h : ns.map NestedToken.unplaced = f.layout 0 gap) :
    ∃ e : Expr, e.unplaced = f.expr ∧ Expr.ofTokens (row ns) = (within maxNesting ns).map fun _ => e := by
  obtain ⟨e, he, hread⟩ := f.reads (((row ns).getLast?.map Token.position).getD .start) false
    (Nat.add_zero maxNesting) h
  have hvalue := hread.value [] nofun
  rw [List.append_nil] at hvalue
  refine ⟨e, he, ?_⟩
  rw [Expr.ofTokens_eq, hvalue]
  cases within maxNesting ns <;> rfl

/-- The text of a formula has the tokens of its layout. Wherever these stand, with or without a gap before them, they
are read as the formula if none of them is nested too deep, and otherwise the first one that is gets the blame. -/
theorem text_read (f : Formula) :
    (∃ ns last, Token.ofText f.text = row ns ++ [last] ∧ ns.map NestedToken.unplaced = f.layout 0 false ∧
      last.kind = .eof) ∧
    ∀ gap ns, ns.map NestedToken.unplaced = f.layout 0 gap →
      ((∀ n ∈ ns, n.depth ≤ maxNesting) → ∃ e : Expr, Expr.ofTokens (row ns) = .ok e ∧ e.unplaced = f.expr) ∧
      ∀ before n after, ns = before ++ n :: after → (∀ m ∈ before, m.depth ≤ maxNesting) → maxNesting < n.depth →
        (Expr.ofTokens (row ns)).mapError Diagnostic.report =
          .error ⟨.malformed, "value is nested too deeply", some n.token.position⟩ := by
  refine ⟨f.ofText_text, fun gap ns hns => ?_⟩
  obtain ⟨e, he, hread⟩ := f.ofTokens_layout hns
  refine ⟨fun hdepth => ⟨e, ?_, he⟩, ?_⟩
  · rw [hread, NestedToken.within_of_le hdepth]
    rfl
  · rintro before n after rfl hbefore hn
    rw [hread, NestedToken.within_append, NestedToken.within_of_le hbefore, ok_bind, NestedToken.within_cons_of_lt hn]
    rfl

def scaledGap : Formula :=
  binary .multiply
    (binary .subtract (reference ⟨['a'], by decide, List.forall_mem_singleton.mpr rfl⟩)
      (number (.whole ['2'] (by decide) (by decide))))
    (negate (number (.whole ['3'] (by decide) (by decide))))

/-- The tokens of `-(-(…1…))` with `n` signs, in one line. -/
def negatives (n : Nat) : List NestedToken :=
  let layout := (Nat.repeat negate n (number (.whole ['1'] (by decide) (by decide)))).layout 0 false
  (layout.zipIdx 1).map fun (n, column) => { n with token := { n.token with position := ⟨1, column⟩ } }

/-- A product of a difference and a negative is read as such. The 65th minus of `-(-(…1…))` is the 129th token, which is
too deep by one. -/
theorem text_read_negatives :
    (∃ e : Expr, Expr.ofTokens (row (scaledGap.layout 0 false)) = .ok e ∧ e.unplaced =
        .binary .multiply (.binary .subtract (.reference ['a'] .start)
          (.number (Numeral.value ⟨[], ['2'], none, none⟩) [] ['2']) .start)
          (.negate (.number (Numeral.value ⟨[], ['3'], none, none⟩) [] ['3'])) .start) ∧
      (Expr.ofTokens (row (negatives 65))).mapError Diagnostic.report =
        .error ⟨.malformed, "value is nested too deeply", some ⟨1, 129⟩⟩ := by
  refine ⟨((text_read scaledGap).2 false (scaledGap.layout 0 false) rfl).1 (by decide), ?_⟩
  exact ((text_read (Nat.repeat negate 65 (number (.whole ['1'] (by decide) (by decide))))).2 false (negatives 65)
    (by decide +kernel)).2 ((negatives 65).take 128) ⟨⟨.operator, ['-'], ⟨1, 129⟩, false⟩, 129⟩
      ((negatives 65).drop 129) (by decide +kernel) (by decide +kernel) (by decide)

end LessCss.Formula
