import LessCss.Proofs.Sheet.Grammar
/-!
Reading what is written: the tokens of a written sheet are read as the sheet that they spell.

`Item.read` is the step and `Item.readAll` the run over a block, by induction on the written items. What follows
the block is left unread, so the induction goes through blocks inside blocks.
-/
namespace LessCss.Written

open Tokens

variable {rest : List Token}

/-- A row that begins with a token that ends nothing. -/
def Begins (ts : List Token) : Prop := ∃ t us, ts = t :: us ∧ isStop t = false

theorem Name.begins (n : Name) (rest : List Token) : Begins (n.tokens ++ rest) := by
  cases n with
  | dotted dot word => exact ⟨dot.1, word.1 :: rest, rfl, by simp [isStop, kind_of_isDelim dot.2]⟩
  | hash h => exact ⟨h.1, rest, rfl, by simp [isStop, h.2]⟩

theorem Opening.begins (o : Opening) (rest : List Token) : Begins (o.tokens ++ rest) := by
  cases o with
  | paren name lparen => simpa [tokens] using name.begins _
  | function dot word => exact ⟨dot.1, word.1 :: rest, rfl, by simp [isStop, kind_of_isDelim dot.2]⟩

theorem Call.begins (c : Call) (rest : List Token) : Begins (c.tokens ++ rest) := by
  cases c with
  | bare name importance stop => simpa [tokens] using name.begins _
  | applied opening args close importance stop => simpa [tokens] using opening.begins _

theorem Header.begins (h : Header) (rest : List Token) : Begins (h.tokens ++ rest) := by
  cases h with
  | rule s =>
    cases hs : s.tokens with
    | nil => simp [Selectors.tokens, selectorTokens, s.first.ne_nil] at hs
    | cons t ts => exact ⟨t, ts ++ rest, by simp [tokens, hs], (s.fits t (by simp [hs])).1⟩
  | atRule name params => exact ⟨name.1, params.tokens ++ rest, rfl, by simp [isStop, name.2]⟩
  | mixin opening params close => simpa [tokens] using opening.begins _

theorem Definition.read (d : Definition) :
    readBlock (d.tokens ++ rest) = (readBlock rest).map (consItem (.definition d.definition)) :=
  readBlock_definition (by simp [isStop, d.name.2]) (d.lead rest)

theorem Call.read (c : Call) :
    readBlock (c.tokens ++ rest) = (readBlock rest).map (consItem (.call c.call)) := by
  obtain ⟨t, us, hts, ht⟩ := c.begins rest
  have hl := c.lead rest
  rw [hts] at hl ⊢
  exact readBlock_call ht hl

/-- The value of a declaration as it is written, with its mark of importance. -/
theorem Declaration.takeImportant (d : Declaration) :
    Tokens.takeImportant (d.value.tokens ++ d.importance.elim [] Importance.tokens) =
      (d.value.tokens, d.importance.isSome) := by
  cases h : d.importance with
  | none =>
    simp only [Option.elim, List.append_nil, Option.isSome]
    refine takeImportant_of_unmarked fun init mark word hv => ?_
    cases hi : isImportant [mark, word] with
    | false => rfl
    | true => exact absurd hv (d.unmarked init ⟨mark, word, hi⟩)
  | some i => exact takeImportant_append i.spells

theorem Declaration.fits (d : Declaration) :
    ∀ t ∈ d.value.tokens ++ d.importance.elim [] Importance.tokens, inValue t = true := by
  intro t ht
  rcases List.mem_append.mp ht with ht | ht
  · exact d.value.fits t ht
  · cases h : d.importance with
    | none => simp [h] at ht
    | some i =>
      rw [h] at ht
      exact inValue_of_isImportant i.spells t ht

theorem Declaration.read (d : Declaration) :
    readBlock (d.tokens ++ rest) = (readBlock rest).map (consItem (.declaration d.declaration)) := by
  have hts : d.tokens ++ rest = d.name.1 :: d.colon.1 ::
      (d.value.tokens ++ d.importance.elim [] Importance.tokens ++ d.stop.1 :: rest) := by
    simp [tokens]
  have hstop : isStop d.stop.1 = true := isStop_eq_true_iff.mpr (.inr (.inl d.stop.2))
  have hvalue : ∀ t ∈ d.colon.1 :: (d.value.tokens ++ d.importance.elim [] Importance.tokens), isStop t = false := by
    intro t ht
    rcases List.mem_cons.mp ht with rfl | ht
    · simp [isStop, d.colon.2]
    · exact (inValue_eq_true_iff.mp (d.fits t ht)).1
  have hl := lead?_declaration d.name.2 hvalue hstop (by simp [d.stop.2]) rest
  have hd := readDeclaration_append d.name.2 d.colon.2 d.fits d.takeImportant d.value.ne_nil hstop rest
  rw [skipSemicolon_cons d.stop.2] at hd
  rw [hts]
  exact readBlock_declaration (by simp [isStop, d.name.2]) (by simp [d.name.2]) hl hd

namespace Item

mutual

/-- One step of a block: an item is read as what it spells, and what follows is left. -/
theorem read (i : Item) (rest : List Token) :
    readBlock (tokens i ++ rest) = (readBlock rest).map (consItem (item i)) := by
  cases i with
  | declaration d => exact d.read
  | definition d => exact d.read
  | call c => exact c.read
  | block h lbrace body rbrace =>
    have hts : tokens (.block h lbrace body rbrace) ++ rest =
        h.tokens ++ lbrace.1 :: (tokensAll body ++ rbrace.1 :: rest) := by
      simp [tokens]
    obtain ⟨t, us, hbegin, ht⟩ := h.begins (lbrace.1 :: (tokensAll body ++ rbrace.1 :: rest))
    have hl := h.lead lbrace (tokensAll body ++ rbrace.1 :: rest)
    rw [hts, item]
    rw [hbegin] at hl ⊢
    exact readBlock_opened ht hl (readAll body rbrace rest)

/-- The run over a block: its items are read up to the `}` that closes it. -/
theorem readAll (is : List Item) (rbrace : Mark .rbrace) (rest : List Token) :
    readBlock (tokensAll is ++ rbrace.1 :: rest) = .ok (items is, rest) := by
  cases is with
  | nil => exact readBlock_rbrace rbrace.2
  | cons i is =>
    rw [tokensAll, List.append_assoc, read i, readAll is, items]
    rfl

end

end Item

open Braces

theorem no_brace_of_not_stop {ts : List Token} (h : ∀ t ∈ ts, isStop t = false) :
    ∀ t ∈ ts, isBrace t = false := by
  intro t ht
  have hstop := h t ht
  simp only [isStop, decide_eq_false_iff_not, not_or] at hstop
  simp [isBrace, hstop.1, hstop.2.2.1]

theorem no_brace_of_inValue {ts : List Token} (h : ∀ t ∈ ts, inValue t = true) :
    ∀ t ∈ ts, isBrace t = false :=
  no_brace_of_not_stop fun t ht => (inValue_eq_true_iff.mp (h t ht)).1

theorem no_brace_append {ts us : List Token} (ht : ∀ t ∈ ts, isBrace t = false)
    (hu : ∀ t ∈ us, isBrace t = false) : ∀ t ∈ ts ++ us, isBrace t = false :=
  fun t h => (List.mem_append.mp h).elim (ht t) (hu t)

theorem no_brace_cons {t : Token} {ts : List Token} (ht : isBrace t = false)
    (hts : ∀ t ∈ ts, isBrace t = false) : ∀ u ∈ t :: ts, isBrace u = false :=
  List.forall_mem_cons.mpr ⟨ht, hts⟩

theorem Mark.no_brace {k : Token.Kind} (m : Mark k) (hl : k ≠ .lbrace) (hr : k ≠ .rbrace) :
    isBrace m.1 = false := by
  simp [isBrace, m.2, hl, hr]

/-- What ends a call: a mark of importance, if there is one, and a `;`. -/
theorem no_brace_importance (importance : Option Importance) :
    ∀ t ∈ importance.elim [] Importance.tokens, isBrace t = false := by
  cases importance with
  | none => simp
  | some i => exact no_brace_of_inValue (inValue_of_isImportant i.spells)

theorem Definition.no_brace (d : Definition) : ∀ t ∈ d.tokens, isBrace t = false := by
  refine no_brace_cons (Mark.no_brace d.name nofun nofun) (no_brace_cons (Mark.no_brace d.colon nofun nofun) ?_)
  exact no_brace_append (no_brace_of_inValue d.value.fits)
    (no_brace_cons (Mark.no_brace d.stop nofun nofun) nofun)

theorem Declaration.no_brace (d : Declaration) : ∀ t ∈ d.tokens, isBrace t = false := by
  refine no_brace_cons (Mark.no_brace d.name nofun nofun) (no_brace_cons (Mark.no_brace d.colon nofun nofun) ?_)
  exact no_brace_append (no_brace_of_inValue d.fits) (no_brace_cons (Mark.no_brace d.stop nofun nofun) nofun)

theorem Directive.no_brace (d : Directive) : ∀ t ∈ d.tokens, isBrace t = false :=
  no_brace_cons (Mark.no_brace d.name nofun nofun) (no_brace_append (no_brace_of_not_stop d.params.fits)
    (no_brace_cons (Mark.no_brace d.stop nofun nofun) nofun))

theorem Call.no_brace (c : Call) : ∀ t ∈ c.tokens, isBrace t = false := by
  cases c with
  | bare name importance stop =>
    exact no_brace_append (no_brace_append name.no_brace (no_brace_importance importance))
      (no_brace_cons (Mark.no_brace stop nofun nofun) nofun)
  | applied opening args close importance stop =>
    refine no_brace_append (no_brace_append opening.no_brace ?_) ?_
    · exact no_brace_of_depthAfter? (depthAfter?_argumentTokens args)
    · exact no_brace_cons (Mark.no_brace close nofun nofun) (no_brace_append (no_brace_importance importance)
        (no_brace_cons (Mark.no_brace stop nofun nofun) nofun))

theorem Header.no_brace (h : Header) : ∀ t ∈ h.tokens, isBrace t = false := by
  cases h with
  | rule s => exact no_brace_of_not_stop fun t ht => (s.fits t ht).1
  | atRule name params =>
    exact no_brace_cons (Mark.no_brace name nofun nofun) (no_brace_of_not_stop params.fits)
  | mixin opening params close =>
    refine no_brace_append (no_brace_append opening.no_brace ?_) ?_
    · exact no_brace_of_depthAfter? (depthAfter?_argumentTokens _)
    · exact no_brace_cons (Mark.no_brace close nofun nofun) nofun

/-- A block is one deeper than what it holds. -/
theorem Header.nested (h : Header) (lbrace : Mark .lbrace) {body : List Token} {n : Nat} (hb : Nested n body)
    (rbrace : Mark .rbrace) : Nested (n + 1) (h.tokens ++ lbrace.1 :: (body ++ [rbrace.1])) :=
  (Nested.of_no_brace h.no_brace).append (.block lbrace.2 rbrace.2 hb (.nil _))

namespace Item

mutual

theorem nested (i : Item) : Nested (depth i) (tokens i) := by
  cases i with
  | declaration d => exact .of_no_brace d.no_brace
  | definition d => exact .of_no_brace d.no_brace
  | call c => exact .of_no_brace c.no_brace
  | block h lbrace body rbrace => exact h.nested lbrace (nestedAll body) rbrace

theorem nestedAll (is : List Item) : Nested (depthAll is) (tokensAll is) := by
  cases is with
  | nil => exact .nil _
  | cons i is =>
    exact ((nested i).mono (Nat.le_max_left ..)).append ((nestedAll is).mono (Nat.le_max_right ..))

end

end Item

theorem Statement.nested (s : Statement) : Nested s.depth s.tokens := by
  cases s with
  | directive d => exact .of_no_brace d.no_brace
  | definition d => exact .of_no_brace d.no_brace
  | call c => exact .of_no_brace c.no_brace
  | block h lbrace body rbrace => exact h.nested lbrace (Item.nestedAll body) rbrace

/-- One step of a sheet: a statement is read as what it spells, and what follows is left. -/
theorem Statement.read (s : Statement) (rest : List Token) :
    readStatements (s.tokens ++ rest) = (readStatements rest).map (s.statement :: ·) := by
  cases s with
  | directive d =>
    have hts : d.tokens ++ rest = d.name.1 :: (d.params.tokens ++ d.stop.1 :: rest) := by
      simp [Directive.tokens]
    have hstop : isStop d.stop.1 = true := isStop_eq_true_iff.mpr (.inr (.inl d.stop.2))
    have hl := lead?_directive d.name.2 d.params.fits d.params.head hstop (by simp [d.stop.2]) rest
    have hfits : ∀ t ∈ d.params.tokens, inValue t = true :=
      fun t ht => inValue_eq_true_iff.mpr ⟨d.params.fits t ht, d.terminated t ht⟩
    have hd := readDirective_append d.name.1 hfits hstop rest
    rw [skipSemicolon_cons d.stop.2] at hd
    rw [tokens, hts]
    exact readStatements_directive d.name.2 hl hd
  | definition d => exact readStatements_definition (by simp [isStop, d.name.2]) (d.lead rest)
  | call c =>
    obtain ⟨t, us, hts, ht⟩ := c.begins rest
    have hl := c.lead rest
    rw [tokens, hts] at *
    exact readStatements_call ht hl
  | block h lbrace body rbrace =>
    have hts : (Statement.block h lbrace body rbrace).tokens ++ rest =
        h.tokens ++ lbrace.1 :: (Item.tokensAll body ++ rbrace.1 :: rest) := by
      simp [tokens]
    obtain ⟨t, us, hbegin, ht⟩ := h.begins (lbrace.1 :: (Item.tokensAll body ++ rbrace.1 :: rest))
    have hl := h.lead lbrace (Item.tokensAll body ++ rbrace.1 :: rest)
    rw [hts, statement]
    rw [hbegin] at hl ⊢
    exact readStatements_opened ht hl (Item.readAll body rbrace rest)

/-- The run over a sheet. -/
theorem Statement.readAll (ss : List Statement) (eof : Mark .eof) :
    readStatements (ss.flatMap tokens ++ [eof.1]) = .ok (ss.map statement) := by
  induction ss with
  | nil => exact readStatements_eof eof.2
  | cons s ss ih =>
    rw [List.flatMap_cons, List.append_assoc, s.read, ih]
    rfl

theorem Sheet.nested (s : Sheet) : Nested maxNesting s.tokens := by
  obtain ⟨ss, hss⟩ := s
  simp only [Sheet.tokens]
  induction ss with
  | nil => exact .nil _
  | cons s ss ih =>
    simp only [List.forall_mem_cons] at hss
    rw [List.flatMap_cons]
    exact (s.nested.mono hss.1).append (ih hss.2)

/-- The tokens of a written sheet are read as the sheet that they spell. -/
theorem Sheet.ofTokens_tokens (s : Sheet) (eof : Mark .eof) :
    LessCss.Sheet.ofTokens (s.tokens ++ [eof.1]) = .ok s.sheet := by
  have hnested : Nested maxNesting (s.tokens ++ [eof.1]) :=
    s.nested.append (.of_no_brace (no_brace_cons (Mark.no_brace eof nofun nofun) nofun))
  rw [LessCss.Sheet.ofTokens, fault?_eq_none hnested]
  exact Statement.readAll s.statements eof

end LessCss.Written
