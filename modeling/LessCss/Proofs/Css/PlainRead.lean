import LessCss.Proofs.Css.PlainPrinted
import LessCss.Proofs.Sheet.RoundTrip
/-!
Reading the tokens of a plain sheet.

The tokens of a node are those of a written header and of a body in braces. In the minified layout the last
declaration of a block ends with the `}`, so `Node.read` asks that nothing comes between the two.
-/
namespace LessCss.Plain

open Tokens (isStop inValue readBlock readStatements)
open Css (Layout)

theorem Row.forall_mem {α : Type} {P : Token → Prop} {glue : List Token} {gap : Bool}
    {tokens : Bool → α → List Token} (hglue : ∀ t ∈ glue, P t) (h : ∀ s a, ∀ t ∈ tokens s a, P t) (r : Row α)
    (s : Bool) : ∀ t ∈ r.tokens glue gap tokens s, P t := by
  intro t ht
  simp only [Row.tokens, List.mem_append, List.mem_flatMap] at ht
  rcases ht with ht | ⟨a, _, ht | ht⟩
  · exact h s r.first t ht
  · exact hglue t ht
  · exact h gap a t ht

/-- The kinds of the tokens that values are made of. -/
def inPlainValue (t : Token) : Bool :=
  t.kind = .ident ∨ t.kind = .hash ∨ t.kind = .number ∨ t.kind = .string ∨ t.kind = .comma

theorem value_fits (s : Bool) (v : Value) : ∀ t ∈ valueTokens s v, inPlainValue t = true := by
  have hitem : ∀ s (i : Item), ∀ t ∈ [i.token s], inPlainValue t = true := by
    intro s i t ht
    rw [List.mem_singleton.mp ht]
    cases i <;> rfl
  refine Row.forall_mem (by simp [token, inPlainValue]) (fun s g => ?_) v s
  exact Row.forall_mem (by simp) hitem g s

theorem inValue_of_inPlainValue {t : Token} (h : inPlainValue t = true) : inValue t = true := by
  simp only [inPlainValue, decide_eq_true_eq] at h
  rcases h with h | h | h | h | h <;> simp [inValue, isStop, h]

theorem Compound.fits (s : Bool) (c : Compound) :
    ∀ t ∈ c.tokens s, Written.inSelector t = true ∧ t.kind ≠ .rparen := by
  cases c <;> simp [tokens, token, Written.inSelector, Token.isDelim]

theorem selector_fits (s : Bool) (sel : Selector) :
    ∀ t ∈ selectorTokens s sel, Written.inSelector t = true ∧ t.kind ≠ .rparen :=
  Row.forall_mem (by simp) Compound.fits sel s

/-- The tokens spell the text, and only the first of them has a gap that is not the text's own. -/
structure Joins (text : Text) (tokens : Bool → List Token) : Prop where
  flat : ∀ s, Token.flat (tokens s) = space s ++ text
  head : ∀ s, ∃ t ts, tokens s = t :: ts ∧ t.text ≠ [] ∧ t.spaced = s

theorem Joins.join {text : Text} {tokens : Bool → List Token} (h : Joins text tokens) (s : Bool) :
    Token.join (tokens s) = text := by
  obtain ⟨t, ts, hts, hne, rfl⟩ := h.head s
  have hflat := h.flat t.spaced
  rw [hts, Token.flat_cons] at hflat
  rw [hts, Token.join_eq_words (by simpa using hne)]
  exact List.append_cancel_left hflat

theorem Joins.one {kind : Token.Kind} {text : Text} (hne : text ≠ []) :
    Joins text fun s => [token kind s text] where
  flat s := by simp [Token.flat, Token.piece_text, token]
  head s := ⟨token kind s text, [], rfl, hne, rfl⟩

theorem Row.joins {α : Type} {glue : Text} {glueTokens : List Token} {gap : Bool} {text : α → Text}
    {tokens : Bool → α → List Token} (hglue : Token.flat glueTokens ++ space gap = glue)
    (h : ∀ a, Joins (text a) fun s => tokens s a) (row : Row α) :
    Joins (row.text glue text) fun s => row.tokens glueTokens gap tokens s where
  flat s := by
    obtain ⟨first, others⟩ := row
    have hothers : Token.flat (others.flatMap fun a => glueTokens ++ tokens gap a) =
        others.flatMap fun a => glue ++ text a := by
      induction others with
      | nil => rfl
      | cons a others ih =>
        rw [List.flatMap_cons, Token.flat_append, Token.flat_append, ih, (h a).flat, ← List.append_assoc, hglue]
        rfl
    rw [Row.tokens, Token.flat_append, (h first).flat, hothers, Row.text, List.append_assoc]
  head s := by
    obtain ⟨t, ts, hts, hne, hs⟩ := (h row.first).head s
    refine ⟨t, ts ++ row.others.flatMap fun a => glueTokens ++ tokens gap a, ?_, hne, hs⟩
    rw [Row.tokens, hts, List.cons_append]

theorem Compound.joins (c : Compound) : Joins c.text fun s => c.tokens s := by
  cases c with
  | name w => exact .one (List.cons_ne_nil w.first w.others)
  | hash w => exact .one (List.cons_ne_nil '#' w.text)
  | dotted w =>
    exact ⟨fun s => by simp [tokens, text, Token.flat, Token.piece_text, token, space],
      fun s => ⟨token .delim s ['.'], [token .ident false w.text], rfl, by simp [token], rfl⟩⟩
  | colon w v =>
    exact ⟨fun s => by simp [tokens, text, Token.flat, Token.piece_text, token, space],
      fun s => ⟨token .ident s w.text, _, rfl, by simp [token, Word.text], rfl⟩⟩

theorem selector_joins (sel : Selector) : Joins (selectorText sel) fun s => selectorTokens s sel :=
  Row.joins (show Token.flat [] ++ space true = [' '] from rfl) Compound.joins sel

theorem group_joins (g : Group) : Joins (groupText g) fun s => groupTokens s g :=
  Row.joins (show Token.flat [] ++ space true = [' '] from rfl) (fun i => .one i.text_ne_nil) g

theorem value_joins (v : Value) : Joins (valueText v) fun s => valueTokens s v :=
  Row.joins (show Token.flat [token .comma false [',']] ++ space true = [',', ' '] from rfl) group_joins v

/-- A selector as it is written. -/
def writtenSelector (s : Bool) (sel : Selector) : Written.Selector where
  tokens := selectorTokens s sel
  ne_nil := by
    obtain ⟨t, ts, hts, -⟩ := (selector_joins sel).head s
    simp [hts]
  fits t ht := (selector_fits s sel t ht).1

def comma : Written.Mark .comma := ⟨token .comma false [','], rfl⟩

theorem selectorTokens_written (gap s : Bool) (sels : Row Selector) :
    Written.selectorTokens (writtenSelector s sels.first) (sels.others.map fun sel => (comma, writtenSelector gap sel)) =
      selectorsTokens gap s sels := by
  simp [Written.selectorTokens, selectorsTokens, Row.tokens, writtenSelector, comma, List.flatMap_map]

def writtenSelectors (gap s : Bool) (sels : Row Selector) : Written.Selectors where
  first := writtenSelector s sels.first
  others := sels.others.map fun sel => (comma, writtenSelector gap sel)
  not_mixin opening commas close h := by
    have hmem : close.1 ∈ selectorsTokens gap s sels := by
      rw [← selectorTokens_written, h]
      simp
    have hkind : ∀ t ∈ selectorsTokens gap s sels, t.kind ≠ .rparen :=
      Row.forall_mem (by simp [token]) (fun s sel t ht => (selector_fits s sel t ht).2) sels s
    exact hkind close.1 hmem close.2

def writtenParams (params : Params) : Written.Params where
  tokens := paramsTokens params
  fits t ht := by
    cases params with
    | none => simp [paramsTokens] at ht
    | some v =>
      have h := inValue_of_inPlainValue (value_fits true v t ht)
      exact (Tokens.inValue_eq_true_iff.mp h).1
  head t ht := by
    cases params with
    | none => simp [paramsTokens] at ht
    | some v =>
      intro hk
      have h := value_fits true v t (List.mem_of_mem_head? ht)
      simp [inPlainValue, hk] at h

theorem params_terminated (params : Params) : ∀ t ∈ paramsTokens params, t.kind ≠ .unterminated := by
  cases params with
  | none => simp [paramsTokens]
  | some v =>
    intro t ht
    exact (Tokens.inValue_eq_true_iff.mp (inValue_of_inPlainValue (value_fits true v t ht))).2

theorem join_params (params : Params) : Token.join (paramsTokens params) = paramsText params := by
  cases params with
  | none => rfl
  | some v => exact (value_joins v).join true

namespace Node

/-- The header of a node as it is written. -/
def written (l : Layout) (s : Bool) : Node → Written.Header
  | rule selectors _ => .rule (writtenSelectors (gap l) s selectors)
  | atRule name params _ _ => .atRule ⟨token .atKeyword s ('@' :: name.text), rfl⟩ (writtenParams params)

def header : Node → Header
  | rule selectors _ => .rule (selectors.map selectorText).toList
  | atRule name params _ _ => .atRule name.text (paramsText params)

/-- The tokens between the braces of a node. -/
def inner (l : Layout) : Node → List Token
  | rule _ declarations => declarationsTokens l declarations.toList
  | atRule _ _ declarations children => declarationsTokens l declarations ++ tokensAll l children

theorem tokens_eq (l : Layout) (s : Bool) (n : Node) :
    n.tokens l s = (n.written l s).tokens ++ lbrace l :: (n.inner l ++ [rbrace l]) := by
  cases n with
  | rule selectors declarations =>
    simp [tokens, written, inner, Written.Header.tokens, Written.Selectors.tokens, writtenSelectors,
      selectorTokens_written]
  | atRule name params declarations children =>
    simp [tokens, written, inner, Written.Header.tokens, writtenParams, atTokens]

theorem written_header (l : Layout) (s : Bool) (n : Node) : (n.written l s).header = n.header := by
  cases n with
  | rule selectors declarations =>
    simp [written, header, Written.Header.header, Written.Selectors.texts, writtenSelectors, writtenSelector,
      Row.map, Row.toList, (selector_joins _).join]
  | atRule name params declarations children =>
    simp [written, header, Written.Header.header, writtenParams, join_params, token, Token.name]

end Node

/-- The declaration that a plain one is read as. -/
def Declaration.syntactic (l : Layout) (d : Declaration) : LessCss.Declaration :=
  ⟨d.name.text, valueTokens (gap l) d.value, d.important⟩

namespace Node

mutual

/-- The items between the braces of a node. -/
def body (l : Layout) : Node → List LessCss.Item
  | rule _ declarations => declarations.toList.map fun d => .declaration (d.syntactic l)
  | atRule _ _ declarations children =>
    declarations.map (fun d => .declaration (d.syntactic l)) ++ items l children

def items (l : Layout) : List Node → List LessCss.Item
  | [] => []
  | n :: ns => n.header.toItem (body l n) :: items l ns

end

end Node

theorem Declaration.value_fits (gap : Bool) (d : Declaration) :
    ∀ t ∈ valueTokens gap d.value ++ (if d.important then importantTokens gap else []), inValue t = true := by
  intro t ht
  rcases List.mem_append.mp ht with ht | ht
  · exact inValue_of_inPlainValue (Plain.value_fits gap d.value t ht)
  · cases h : d.important with
    | false => simp [h] at ht
    | true =>
      simp only [h, if_true, importantTokens, List.mem_cons, List.not_mem_nil, or_false] at ht
      rcases ht with rfl | rfl <;> rfl

theorem Declaration.takeImportant (gap : Bool) (d : Declaration) :
    Tokens.takeImportant (valueTokens gap d.value ++ if d.important then importantTokens gap else []) =
      (valueTokens gap d.value, d.important) := by
  cases h : d.important with
  | true => exact Tokens.takeImportant_append (by decide +revert)
  | false =>
    rw [if_neg (by simp), List.append_nil]
    refine Tokens.takeImportant_of_unmarked fun init mark word hv => ?_
    have hmark := Plain.value_fits gap d.value mark (by simp [hv])
    simp only [inPlainValue, decide_eq_true_eq] at hmark
    have hdelim : mark.isDelim '!' = false := Tokens.isDelim_eq_false (by obtain h | h | h | h | h := hmark <;> simp [h])
    simp [Tokens.isImportant, hdelim]

theorem Declaration.value_ne_nil (gap : Bool) (d : Declaration) : valueTokens gap d.value ≠ [] := by
  obtain ⟨t, ts, hts, -⟩ := (value_joins d.value).head gap
  simp [hts]

/-- One declaration of a block, and the `;` or the `}` after it. -/
theorem Declaration.read (l : Layout) (s : Bool) (d : Declaration) {stop : Token}
    (hs : stop.kind = .semicolon ∨ stop.kind = .rbrace) (rest : List Token) :
    readBlock (d.tokens (gap l) s ++ stop :: rest) =
      (readBlock (Tokens.skipSemicolon (stop :: rest))).map (consItem (.declaration (d.syntactic l))) := by
  have hstop : isStop stop = true := Tokens.isStop_eq_true_iff.mpr (.inr (hs.imp_right .inl))
  have hne : stop.kind ≠ .lbrace := by obtain h | h := hs <;> simp [h]
  have hfits : ∀ t ∈ token .colon false [':'] ::
      (valueTokens (gap l) d.value ++ if d.important then importantTokens (gap l) else []), isStop t = false := by
    intro t ht
    rcases List.mem_cons.mp ht with rfl | ht
    · rfl
    · exact (Tokens.inValue_eq_true_iff.mp (d.value_fits (gap l) t ht)).1
  have hl : Tokens.lead? (d.tokens (gap l) s ++ stop :: rest) = .ok none :=
    Tokens.lead?_declaration rfl hfits hstop hne rest
  have hd : Tokens.readDeclaration (d.tokens (gap l) s ++ stop :: rest) =
      .ok (d.syntactic l, Tokens.skipSemicolon (stop :: rest)) :=
    Tokens.readDeclaration_append rfl rfl (d.value_fits (gap l)) (d.takeImportant (gap l)) (d.value_ne_nil (gap l))
      hstop rest
  exact Tokens.readBlock_declaration rfl nofun hl hd

/-- What a block begins with, before what it goes on with. -/
def consItems (is : List LessCss.Item) : List LessCss.Item × List Token → List LessCss.Item × List Token :=
  fun p => (is ++ p.1, p.2)

theorem map_consItems (i : LessCss.Item) (is : List LessCss.Item) (e : Except Diagnostic (List LessCss.Item × List Token)) :
    (e.map (consItems is)).map (consItem i) = e.map (consItems (i :: is)) := by
  cases e <;> rfl

theorem readDeclarations_pretty (ds : List Declaration) (ts : List Token) :
    readBlock (declarationsTokens .pretty ds ++ ts) =
      (readBlock ts).map (consItems (ds.map fun d => .declaration (d.syntactic .pretty))) := by
  induction ds with
  | nil => cases h : readBlock ts <;> simp [declarationsTokens, h, Except.map, consItems]
  | cons d ds ih =>
    have hts : declarationsTokens .pretty (d :: ds) ++ ts =
        d.tokens true true ++ semicolon :: (declarationsTokens .pretty ds ++ ts) := by
      simp [declarationsTokens]
    have hread := d.read .pretty true (.inl (show semicolon.kind = .semicolon from rfl))
      (declarationsTokens .pretty ds ++ ts)
    rw [hts]
    refine hread.trans ?_
    rw [Tokens.skipSemicolon_cons rfl, ih, map_consItems]
    rfl

/-- Declarations up to the `}` of their block. -/
theorem readDeclarations_minified (ds : List Declaration) (ts : List Token) :
    readBlock (declarationsTokens .minified ds ++ rbrace .minified :: ts) =
      .ok (ds.map fun d => .declaration (d.syntactic .minified), ts) := by
  have hend : readBlock (rbrace .minified :: ts) = .ok ([], ts) := Tokens.readBlock_rbrace rfl
  cases ds with
  | nil => exact hend
  | cons d ds =>
    induction ds generalizing d with
    | nil =>
      have hts : declarationsTokens .minified [d] = d.tokens false false := by
        simp [declarationsTokens, Row.tokens]
      have hread := d.read .minified false (.inr (show (rbrace .minified).kind = .rbrace from rfl)) ts
      rw [hts]
      refine hread.trans ?_
      rw [show Tokens.skipSemicolon (rbrace .minified :: ts) = rbrace .minified :: ts from rfl, hend]
      rfl
    | cons e ds ih =>
      have hts : declarationsTokens .minified (d :: e :: ds) ++ rbrace .minified :: ts =
          d.tokens false false ++ semicolon :: (declarationsTokens .minified (e :: ds) ++ rbrace .minified :: ts) := by
        simp [declarationsTokens, Row.tokens]
      have hread := d.read .minified false (.inl (show semicolon.kind = .semicolon from rfl))
        (declarationsTokens .minified (e :: ds) ++ rbrace .minified :: ts)
      rw [hts]
      refine hread.trans ?_
      rw [Tokens.skipSemicolon_cons rfl, ih]
      rfl

theorem Node.begins (l : Layout) (s : Bool) (n : Node) (rest : List Token) :
    ∃ t ts, n.tokens l s ++ rest = t :: ts ∧ isStop t = false := by
  have h := (n.written l s).begins (lbrace l :: (n.inner l ++ [rbrace l]) ++ rest)
  rw [tokens_eq, List.append_assoc]
  exact h

theorem Node.lead (l : Layout) (s : Bool) (n : Node) (rest : List Token) :
    Tokens.lead? (n.tokens l s ++ rest) =
      .ok (some (.opened n.header, n.inner l ++ rbrace l :: rest)) := by
  have h := (n.written l s).lead ⟨lbrace l, rfl⟩ (n.inner l ++ rbrace l :: rest)
  rw [written_header] at h
  rw [tokens_eq, ← h]
  simp

namespace Node

mutual

/-- The run over the body of a node, up to the `}` that closes it. -/
theorem readBody (l : Layout) (n : Node) (hn : l = .minified → n.Separated) (rest : List Token) :
    readBlock (n.inner l ++ rbrace l :: rest) = .ok (n.body l, rest) := by
  have hend : readBlock (rbrace l :: rest) = .ok ([], rest) := Tokens.readBlock_rbrace rfl
  cases n with
  | rule selectors declarations =>
    cases l with
    | pretty =>
      rw [inner, readDeclarations_pretty, hend]
      simp [Except.map, consItems, body]
    | minified => exact readDeclarations_minified declarations.toList rest
  | atRule name params declarations children =>
    cases l with
    | pretty =>
      rw [inner, List.append_assoc, readDeclarations_pretty, readAll .pretty children nofun rest]
      rfl
    | minified =>
      obtain ⟨hseparated, hchildren⟩ := hn rfl
      rcases hseparated with rfl | rfl
      · exact readAll .minified children (fun _ => hchildren) rest
      · rw [inner, tokensAll, List.append_nil, readDeclarations_minified]
        simp [body, items]

/-- The run over the nodes in a body. -/
theorem readAll (l : Layout) (ns : List Node) (hns : l = .minified → SeparatedAll ns) (rest : List Token) :
    readBlock (tokensAll l ns ++ rbrace l :: rest) = .ok (items l ns, rest) := by
  cases ns with
  | nil => exact Tokens.readBlock_rbrace rfl
  | cons n ns =>
    obtain ⟨t, ts, hbegin, ht⟩ := n.begins l (gap l) (tokensAll l ns ++ rbrace l :: rest)
    have hl := n.lead l (gap l) (tokensAll l ns ++ rbrace l :: rest)
    have hb := readBody l n (fun h => (hns h).1) (tokensAll l ns ++ rbrace l :: rest)
    rw [tokensAll, List.append_assoc, items]
    rw [hbegin] at hl ⊢
    rw [Tokens.readBlock_opened ht hl hb, readAll l ns (fun h => (hns h).2)]
    rfl

end

end Node

open Braces (Nested isBrace)

theorem Declaration.no_brace (gap s : Bool) (d : Declaration) : ∀ t ∈ d.tokens gap s, isBrace t = false :=
  Written.no_brace_cons rfl (Written.no_brace_cons rfl (Written.no_brace_of_inValue (d.value_fits gap)))

theorem semicolon_no_brace : ∀ t ∈ [semicolon], isBrace t = false := Written.no_brace_cons rfl nofun

theorem declarations_no_brace (l : Layout) (ds : List Declaration) :
    ∀ t ∈ declarationsTokens l ds, isBrace t = false := by
  cases l with
  | pretty =>
    intro t ht
    obtain ⟨d, _, ht⟩ := List.mem_flatMap.mp ht
    exact Written.no_brace_append (d.no_brace true true) semicolon_no_brace t ht
  | minified =>
    cases ds with
    | nil => exact nofun
    | cons d ds => exact Row.forall_mem semicolon_no_brace (fun s d => d.no_brace false s) ⟨d, ds⟩ false

namespace Node

mutual

theorem nested (l : Layout) (s : Bool) (n : Node) : Nested n.depth (n.tokens l s) := by
  have h : ∀ {m}, Nested m (n.inner l) → Nested (m + 1) (n.tokens l s) := by
    intro m hm
    rw [tokens_eq]
    exact (n.written l s).nested ⟨lbrace l, rfl⟩ hm ⟨rbrace l, rfl⟩
  cases n with
  | rule selectors declarations => exact h (.of_no_brace (declarations_no_brace l _))
  | atRule name params declarations children =>
    exact h ((Nested.of_no_brace (declarations_no_brace l declarations)).append (nestedAll l children))

theorem nestedAll (l : Layout) (ns : List Node) : Nested (depthAll ns) (tokensAll l ns) := by
  cases ns with
  | nil => exact .nil _
  | cons n ns =>
    exact ((nested l (gap l) n).mono (Nat.le_max_left ..)).append ((nestedAll l ns).mono (Nat.le_max_right ..))

end

end Node

namespace Statement

/-- The statement that a plain one is read as. -/
def syntactic (l : Layout) : Statement → LessCss.Statement
  | directive name params => .directive ⟨name.text, paramsText params⟩
  | node n => n.header.toStatement (n.body l)

theorem nested (l : Layout) (s : Bool) (x : Statement) : Nested x.depth (x.tokens l s) := by
  cases x with
  | node n => exact n.nested l s
  | directive name params =>
    refine .of_no_brace (Written.no_brace_append (Written.no_brace_cons rfl ?_) semicolon_no_brace)
    exact Written.no_brace_of_not_stop (writtenParams params).fits

theorem read (l : Layout) (s : Bool) (x : Statement) (hx : l = .minified → x.Separated) (rest : List Token) :
    readStatements (x.tokens l s ++ rest) = (readStatements rest).map (x.syntactic l :: ·) := by
  cases x with
  | directive name params =>
    have hfits : ∀ t ∈ paramsTokens params, inValue t = true :=
      fun t ht => Tokens.inValue_eq_true_iff.mpr ⟨(writtenParams params).fits t ht, params_terminated params t ht⟩
    have hl : Tokens.lead? (token .atKeyword s ('@' :: name.text) :: (paramsTokens params ++ semicolon :: rest)) =
        .ok none :=
      Tokens.lead?_directive rfl (writtenParams params).fits (writtenParams params).head rfl
        (show semicolon.kind ≠ .lbrace from nofun) rest
    have hd := Tokens.readDirective_append (token .atKeyword s ('@' :: name.text)) hfits
      (show isStop semicolon = true from rfl) rest
    rw [join_params, Tokens.skipSemicolon_cons rfl] at hd
    have hts : (directive name params).tokens l s ++ rest =
        token .atKeyword s ('@' :: name.text) :: (paramsTokens params ++ semicolon :: rest) := by
      simp [tokens, atTokens]
    rw [hts]
    exact Tokens.readStatements_directive rfl hl hd
  | node n =>
    obtain ⟨t, ts, hbegin, ht⟩ := n.begins l s rest
    have hl := n.lead l s rest
    rw [tokens, syntactic]
    rw [hbegin] at hl ⊢
    exact Tokens.readStatements_opened ht hl (n.readBody l hx rest)

theorem nestedAll (l : Layout) (s : Bool) {xs : List Statement} {n : Nat} (h : ∀ x ∈ xs, x.depth ≤ n) :
    Nested n (tokensAll l s xs) := by
  induction xs generalizing s with
  | nil => exact .nil n
  | cons x xs ih =>
    simp only [List.forall_mem_cons] at h
    exact ((x.nested l s).mono h.1).append (ih (gap l) h.2)

theorem readAll (l : Layout) (s : Bool) {xs : List Statement} (h : l = .minified → ∀ x ∈ xs, x.Separated) :
    readStatements (tokensAll l s xs ++ [Token.eof]) = .ok (xs.map (syntactic l)) := by
  induction xs generalizing s with
  | nil => exact Tokens.readStatements_eof rfl
  | cons x xs ih =>
    simp only [List.forall_mem_cons] at h
    rw [tokensAll, List.append_assoc, x.read l s (fun hl => (h hl).1), ih (gap l) (fun hl => (h hl).2)]
    rfl

end Statement

/-- The tokens of a plain sheet are read as the syntax of its statements. -/
theorem Sheet.read (l : Layout) (t : Sheet) (ht : l = .minified → t.Separated) :
    LessCss.Sheet.ofTokens (Statement.tokensAll l false t.statements ++ [Token.eof]) =
      .ok (t.statements.map (Statement.syntactic l)) := by
  have hnested : Nested maxNesting (Statement.tokensAll l false t.statements ++ [Token.eof]) :=
    (Statement.nestedAll l false t.shallow).append (.of_no_brace (Written.no_brace_cons rfl nofun))
  rw [LessCss.Sheet.ofTokens, Braces.fault?_eq_none hnested]
  exact Statement.readAll l false ht

end LessCss.Plain
