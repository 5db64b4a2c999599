import LessCss.Proofs.Css.Names
import LessCss.Proofs.Css.Gaps
import LessCss.Proofs.Expr.Literal
import LessCss.Proofs.Sheet.RoundTrip
/-!
Style sheets that are read again from their printed text.

A style sheet is legible if its blocks are not nested too deep, its selectors are read as the selectors that they are,
and nothing in its values is left to compute. Names are no matter of legibility: those of a style sheet are names of its
source, which are read again (`readable_of_evaluate`). The lines of a legible node are read as a block that yields the
node (`Node.restored`), and a legible style sheet evaluates to itself (`Legible.evaluates`). Not every style sheet is
legible: evaluation may leave a value empty (`compile_empty_value`).
-/
namespace LessCss

open Token (spell words eof)
open Lexeme (mayBeSign)

/-- A text that is read as a run of tokens in which every gap is one space. -/
structure Token.Spelled (text : Text) (ts : List Token) : Prop where
  read : spell none true text = ts ++ [eof]
  words : words ts = text

namespace Css

/-- Selectors that are read again from the line they are printed on. -/
def LegibleSelectors (selectors : List Text) : Prop :=
  ∃ w : Written.Selectors, Token.Spelled (Text.join ", ".toList selectors) w.tokens ∧ w.texts = selectors

/-- A value in which nothing is left to compute. -/
def LegibleValue (value : Text) : Prop := ∃ ts, Token.Spelled value ts ∧ Literal.Value ts

namespace Node

mutual

def Legible : Node → Prop
  | .rule selectors properties => LegibleSelectors selectors ∧ ∀ p ∈ properties, LegibleValue p.value
  | .atRule _ _ properties children => (∀ p ∈ properties, LegibleValue p.value) ∧ LegibleAll children
  | .directive .. => True

def LegibleAll : List Node → Prop
  | [] => True
  | n :: ns => Legible n ∧ LegibleAll ns

end

mutual

/-- The number of blocks that are nested in a node, itself included. -/
def depth : Node → Nat
  | .rule .. => 1
  | .atRule _ _ _ children => depthAll children + 1
  | .directive .. => 0

def depthAll : List Node → Nat
  | [] => 0
  | n :: ns => max (depth n) (depthAll ns)

end

end Node

structure Legible (ns : List Node) : Prop where
  nodes : Node.LegibleAll ns
  shallow : Node.depthAll ns ≤ maxNesting

end Css

namespace Token.Spelled

variable {text : Text} {ts : List Token}

theorem kind_ne_eof (h : Spelled text ts) : ∀ t ∈ ts, t.kind ≠ .eof := by
  obtain ⟨us, hus, hkinds⟩ := exists_spell_eof none true text
  rw [h.read] at hus
  rw [List.append_cancel_right hus]
  exact hkinds

theorem isLexeme (h : Spelled text ts) : ∀ t ∈ ts, t.IsLexeme := by
  intro t ht
  have hmem : t ∈ spell none true text := h.read ▸ List.mem_append_left _ ht
  exact isLexeme_of_mem_spell hmem (h.kind_ne_eof t ht)

/-- After a gap a spelled text is read as its run. -/
theorem readAs (h : Spelled text ts) (hne : ts ≠ []) (hts : ∀ t ∈ ts, t.kind ≠ .unterminated) :
    ∃ tokens, ReadAs text tokens ∧ tokens true = ts := by
  cases ts with
  | nil => exact absurd rfl hne
  | cons t ts =>
    have hread := readAs_words h.read (List.cons_ne_nil _ _) hts fun _ _ => Lexeme.mayBeSign_none _
    rw [h.words] at hread
    obtain ⟨_, _, -, hspaced, hposition, -, -, -⟩ := exists_lexeme h.read (by simp)
    rw [Bool.true_or] at hspaced
    refine ⟨_, hread, ?_⟩
    rw [token, ← hspaced, ← hposition]

end Token.Spelled

section Lines

open Css (Property Node line prettyProperties)
open Written.Item (tokens tokensAll item items)

/-- Lines of the pretty form that are read as an item, and what the item yields, whatever has been defined around it. -/
structure Restored (text : Nat → Text) (i : Written.Item) (depth : Nat) (selectors : List Text) (y : Yield) : Prop where
  spell : ∀ level b r, ∃ b', spell b true (text level ++ r) = tokens i ++ spell b' true r
  depth : i.depth ≤ depth
  yield : ∀ calls scopes, Item.yield calls scopes selectors (item i) = .ok y

structure RestoredAll (text : Nat → Text) (is : List Written.Item) (depth : Nat) (selectors : List Text) (y : Yield) :
    Prop where
  spell : ∀ level b r, ∃ b', spell b true (text level ++ r) = tokensAll is ++ spell b' true r
  depth : Written.Item.depthAll is ≤ depth
  yield : ∀ calls scopes, Item.yieldAll calls scopes selectors (items is) = .ok y

variable {text text' : Nat → Text} {i : Written.Item} {is : List Written.Item} {m n : Nat} {selectors : List Text}
  {y z : Yield}

theorem RestoredAll.nil (n : Nat) (selectors : List Text) : RestoredAll (fun _ => []) [] n selectors .none where
  spell _ b _ := ⟨b, rfl⟩
  depth := Nat.zero_le n
  yield _ _ := rfl

theorem RestoredAll.cons (h : Restored text i m selectors y) (hs : RestoredAll text' is n selectors z) :
    RestoredAll (fun level => text level ++ text' level) (i :: is) (max m n) selectors (y ++ z) where
  spell level b r := by
    obtain ⟨b₁, h₁⟩ := h.spell level b (text' level ++ r)
    obtain ⟨b₂, h₂⟩ := hs.spell level b₁ r
    refine ⟨b₂, ?_⟩
    rw [List.append_assoc, h₁, h₂, tokensAll, List.append_assoc]
  depth := by
    have hi := h.depth
    have his := hs.depth
    rw [Written.Item.depthAll]
    omega
  yield calls scopes := by
    rw [items, Item.yieldAll, h.yield, hs.yield]
    rfl

theorem important_readAs : ReadAs "important".toList fun s => [token .ident s "important".toList] := by
  have h : spell none true "important".toList = token .ident true "important".toList :: ([] ++ [eof]) := by
    decide +kernel
  exact Token.readAs_words h (List.cons_ne_nil _ _) (by decide) fun _ _ => rfl

/-- The mark of importance of a printed property. -/
def Written.Importance.printed (important : Bool) : Option Written.Importance :=
  if important then some ⟨token .delim true ['!'], token .ident false "important".toList, by decide⟩ else none

theorem spell_importance (important : Bool) (b : Option Token.Kind) {r : Text} (hr : Bounded r) :
    Bounded ((if important then " !important".toList else []) ++ r) ∧
    ∃ b', spell b false ((if important then " !important".toList else []) ++ r) =
      (Written.Importance.printed important).elim [] Written.Importance.tokens ++ spell b' false r := by
  cases important with
  | false => exact ⟨hr, b, rfl⟩
  | true =>
    obtain ⟨b', hword⟩ := important_readAs (some .delim) false r rfl hr
    refine ⟨Bounded.cons (by decide) _, b', ?_⟩
    have htext : " !important".toList ++ r = ' ' :: '!' :: ("important".toList ++ r) := rfl
    rw [if_pos rfl, htext, Token.spell_blank (by rfl), spell_mark .bang, hword]
    rfl

theorem line_pretty (level : Nat) (p : Property) (r : Text) : line level p.pretty ++ r = Css.indent level ++
    (p.name ++ ':' :: ' ' :: (p.value ++ ((if p.important then " !important".toList else []) ++ ';' :: '\n' :: r))) := by
  have hcolon : ": ".toList = [':', ' '] := rfl
  rw [line, Property.pretty, hcolon]
  simp only [List.append_assoc, List.cons_append, List.nil_append]

theorem restored_property {p : Property} (hname : Vocabulary.readable.property p.name) (hvalue : Css.LegibleValue p.value)
    (selectors : List Text) :
    ∃ d, Restored (fun level => line level p.pretty) (.declaration d) 0 selectors ⟨[p], []⟩ := by
  obtain ⟨ts, hts, hliteral⟩ := hvalue
  have hfits := hliteral.inValue
  have hterminated : ∀ t ∈ ts, t.kind ≠ .unterminated := fun t ht => (Tokens.inValue_eq_true_iff.mp (hfits t ht)).2
  obtain ⟨tokens, hread, htokens⟩ := hts.readAs hliteral.ne_nil hterminated
  refine ⟨⟨⟨token .ident true p.name, rfl⟩, ⟨token .colon false [':'], rfl⟩, ⟨ts, hliteral.ne_nil, hfits⟩,
    hliteral.unmarked, Written.Importance.printed p.important, ⟨token .semicolon false [';'], rfl⟩⟩, ?_,
    Nat.le_refl 0, ?_⟩
  · intro level b r
    have hend : Bounded (';' :: '\n' :: r) := .cons (by decide) _
    obtain ⟨hmark, -⟩ := spell_importance p.important none hend
    obtain ⟨b₁, h₁⟩ := hname b true _ rfl (Mark.colon.bounded (' ' :: (p.value ++ _)))
    obtain ⟨b₂, h₂⟩ := hread (some .colon) true _ rfl hmark
    obtain ⟨-, b₃, h₃⟩ := spell_importance p.important b₂ hend
    refine ⟨some .semicolon, ?_⟩
    rw [line_pretty, spell_indent, Bool.true_or, h₁, spell_mark .colon, Token.spell_blank (by rfl), h₂, h₃,
      spell_mark .semicolon, Token.spell_blank (by rfl), htokens]
    simp [Written.Item.tokens, Written.Declaration.tokens]
  · intro calls scopes
    obtain ⟨v, hv, hrender⟩ := hliteral.evaluate hts.isLexeme scopes
    have himportant : (Written.Importance.printed p.important).isSome = p.important := by cases p.important <;> rfl
    rw [item, Item.yield, Declaration.evaluate, Written.Declaration.declaration, hv, Except.map, Except.map, hrender,
      hts.words, himportant]
    rfl

theorem restored_properties {ps : List Property} (hnames : ∀ p ∈ ps, Vocabulary.readable.property p.name)
    (hvalues : ∀ p ∈ ps, Css.LegibleValue p.value) (h : RestoredAll text is n selectors y) :
    ∃ js, RestoredAll (fun level => prettyProperties level ps ++ text level) js n selectors
      ⟨ps ++ y.properties, y.nodes⟩ := by
  induction ps with
  | nil => exact ⟨is, h⟩
  | cons p ps ih =>
    rw [List.forall_mem_cons] at hnames hvalues
    obtain ⟨d, hd⟩ := restored_property hnames.1 hvalues.1 selectors
    obtain ⟨js, hjs⟩ := ih hnames.2 hvalues.2
    have hall := RestoredAll.cons hd hjs
    rw [Nat.zero_max] at hall
    refine ⟨.declaration d :: js, ?_⟩
    have htext : ∀ level, line level p.pretty ++ (prettyProperties level ps ++ text level) =
        prettyProperties level (p :: ps) ++ text level := by
      intro level
      rw [prettyProperties, prettyProperties, List.flatMap_cons, List.append_assoc]
    simp only [htext] at hall
    exact hall

/-- The block that is read from a printed one. -/
def Written.Header.printed (h : Written.Header) (body : List Written.Item) : Written.Item :=
  .block h ⟨token .lbrace true ['{'], rfl⟩ body ⟨token .rbrace true ['}'], rfl⟩

theorem spell_block {head : Text} {h : Written.Header} {tokens : Bool → List Token} (hhead : ReadAs head tokens)
    (htokens : tokens true = h.tokens) (hs : RestoredAll text is n selectors y) (level : Nat) (b : Option Token.Kind)
    (r : Text) : ∃ b', spell b true (line level (head ++ " \x7b".toList) ++ text (level + 1) ++ line level ['}'] ++ r) =
      (h.printed is).tokens ++ spell b' true r := by
  obtain ⟨b₁, h₁⟩ := hs.spell (level + 1) (some .lbrace) (line level ['}'] ++ r)
  refine ⟨some .rbrace, ?_⟩
  rw [List.append_assoc, List.append_assoc, spell_open hhead level rfl, Bool.true_or, htokens, h₁, spell_close]
  simp [Written.Header.printed, Written.Item.tokens]

theorem Written.Selectors.terminated (w : Written.Selectors) : ∀ t ∈ w.tokens, t.kind ≠ .unterminated := by
  have hselector : ∀ (g : Written.Selector), ∀ t ∈ g.tokens, t.kind ≠ .unterminated := by
    intro g t ht hk
    have hfits := g.fits t ht
    simp [Written.inSelector, hk] at hfits
  intro t ht
  simp only [Written.Selectors.tokens, Written.selectorTokens, List.mem_append, List.mem_flatMap, List.mem_cons] at ht
  rcases ht with ht | ⟨o, -, rfl | ht⟩
  · exact hselector w.first t ht
  · simp [o.1.2]
  · exact hselector o.2 t ht

theorem RestoredAll.rule {ps : List Property} (hselectors : Css.LegibleSelectors selectors) (hps : ps ≠ [])
    (hs : RestoredAll (fun level => prettyProperties level ps) is n selectors ⟨ps, []⟩) :
    ∃ h : Written.Header, Restored (fun level => (Node.rule selectors ps).pretty level) (h.printed is) (n + 1) []
      ⟨[], [.rule selectors ps]⟩ := by
  obtain ⟨w, hw, rfl⟩ := hselectors
  have hne : w.tokens ≠ [] := by simp [Written.Selectors.tokens, Written.selectorTokens, w.first.ne_nil]
  obtain ⟨tokens, hread, htokens⟩ := hw.readAs hne w.terminated
  refine ⟨.rule w, ?_, Nat.succ_le_succ hs.depth, ?_⟩
  · intro level b r
    rw [Node.pretty, if_neg (by simpa using hps)]
    exact spell_block (h := .rule w) hread htokens hs level b r
  · intro calls scopes
    have hunder : Yield.underRule w.texts ⟨ps, []⟩ = [.rule w.texts ps] := by simp [Yield.underRule, hps]
    have hbody := hs.yield calls (.ofItems (items is) :: scopes)
    rw [Written.Header.printed, item, Written.Header.header, Header.toItem, Item.yield]
    refine (congrArg (· >>= _) hbody).trans ?_
    rw [← hunder]
    rfl

theorem RestoredAll.atRule {ps : List Property} {ns : List Node} {name params : Text}
    (hhead : Vocabulary.readable.head name params)
    (hs : RestoredAll (fun level => prettyProperties level ps ++ Node.prettyAll level ns) is n [] ⟨ps, ns⟩) :
    ∃ h : Written.Header, Restored (fun level => (Node.atRule name params ps ns).pretty level) (h.printed is) (n + 1) []
      ⟨[], [.atRule name params ps ns]⟩ := by
  obtain ⟨p, -, rfl, hread⟩ := hhead
  refine ⟨.atRule ⟨token .atKeyword true ('@' :: name), rfl⟩ p, ?_, Nat.succ_le_succ hs.depth, ?_⟩
  · intro level b r
    have h := spell_block (h := .atRule ⟨token .atKeyword true ('@' :: name), rfl⟩ p) hread rfl hs level b r
    rw [Node.pretty, List.append_assoc _ (prettyProperties _ _)]
    exact h
  · intro calls scopes
    have hbody := hs.yield calls (.ofItems (items is) :: scopes)
    rw [Written.Header.printed, item, Written.Header.header, Header.toItem, Item.yield]
    refine (congrArg (· >>= _) hbody).trans ?_
    rfl

namespace Css.Node

mutual

/-- The lines of a legible node are read as a block that yields the node. -/
theorem restored {x : Node} (huses : x.Uses .readable) (h : x.Legible) : ∃ (header : Written.Header) (body : _),
    Restored (fun level => x.pretty level) (header.printed body) x.depth [] ⟨[], [x]⟩ := by
  cases x with
  | directive => exact huses.elim
  | rule selectors ps =>
    obtain ⟨js, hjs⟩ := restored_properties huses.2 h.2 (.nil 0 selectors)
    simp only [List.append_nil, Yield.none] at hjs
    obtain ⟨header, hheader⟩ := hjs.rule h.1 huses.1
    exact ⟨header, js, hheader⟩
  | atRule name params ps ns =>
    obtain ⟨hhead, hnames, hns⟩ := huses
    obtain ⟨is, his⟩ := restoredAll hns h.2
    obtain ⟨js, hjs⟩ := restored_properties hnames h.1 his
    rw [List.append_nil] at hjs
    obtain ⟨header, hheader⟩ := hjs.atRule hhead
    exact ⟨header, js, hheader⟩

theorem restoredAll {ns : List Node} (huses : UsesAll .readable ns) (h : LegibleAll ns) :
    ∃ is, RestoredAll (fun level => prettyAll level ns) is (depthAll ns) [] ⟨[], ns⟩ := by
  cases ns with
  | nil => exact ⟨[], .nil 0 []⟩
  | cons x ns =>
    obtain ⟨header, body, hx⟩ := restored huses.1 h.1
    obtain ⟨is, his⟩ := restoredAll huses.2 h.2
    exact ⟨header.printed body :: is, .cons hx his⟩

end

end Css.Node

/-- Lines of the pretty form that are read as a statement, and what the statement evaluates to. -/
structure RestoredOutside (text : Text) (s : Written.Statement) (depth : Nat) (ns : List Node) : Prop where
  spell : ∀ b r, ∃ b', spell b true (text ++ r) = s.tokens ++ spell b' true r
  depth : s.depth ≤ depth
  nodesOf : ∀ calls scopes, Sheet.nodesOf calls scopes s.statement = .ok ns

theorem Restored.outside {header : Written.Header} {body : List Written.Item} {ns : List Node}
    (h : Restored text (header.printed body) n [] ⟨[], ns⟩) : ∃ s, RestoredOutside (text 0) s n ns := by
  refine ⟨.block header ⟨token .lbrace true ['{'], rfl⟩ body ⟨token .rbrace true ['}'], rfl⟩, h.spell 0, h.depth, ?_⟩
  intro calls scopes
  have hnodes : (Item.yield calls scopes [] (item (header.printed body))).map Yield.nodes = .ok ns := by
    rw [h.yield]
    rfl
  rw [← hnodes]
  cases header with
  | rule | atRule | mixin => rfl

theorem restored_directive {name params : Text} (hhead : Vocabulary.readable.head name params) :
    ∃ s, RestoredOutside (line 0 (Css.directive name params)) s 0 [.directive name params] := by
  obtain ⟨p, hterminated, rfl, hread⟩ := hhead
  refine ⟨.directive ⟨⟨token .atKeyword true ('@' :: name), rfl⟩, p, hterminated,
    ⟨token .semicolon false [';'], rfl⟩⟩, ?_, Nat.le_refl 0, fun _ _ => rfl⟩
  intro b r
  obtain ⟨b₁, h₁⟩ := hread b true (';' :: '\n' :: r) rfl (.cons (by decide) _)
  refine ⟨some .semicolon, ?_⟩
  have htext : line 0 (Css.directive name (Token.join p.tokens)) ++ r =
      Css.atHead name (Token.join p.tokens) ++ ';' :: '\n' :: r := by
    simp [line, Css.indent, Css.directive]
  rw [htext, h₁, spell_mark .semicolon, Token.spell_blank (by rfl)]
  simp [Written.Statement.tokens, Written.Directive.tokens]

theorem Css.Node.restoredOutside {x : Node} (huses : x.UsesOutside .readable) (h : x.Legible) :
    ∃ s, RestoredOutside (x.pretty 0) s x.depth [x] := by
  cases x with
  | directive => exact restored_directive huses
  | rule | atRule =>
    obtain ⟨header, body, hx⟩ := Css.Node.restored huses h
    exact hx.outside

/-- A printed style sheet is read as statements each of which evaluates to one of its nodes. -/
theorem Css.Node.statements {ns : List Node} (huses : ∀ x ∈ ns, x.UsesOutside .readable) (h : LegibleAll ns) :
    ∃ ss : List Written.Statement, (∀ s ∈ ss, s.depth ≤ depthAll ns) ∧
      (∀ b r, ∃ b', spell b true (prettyAll 0 ns ++ r) = ss.flatMap Written.Statement.tokens ++ spell b' true r) ∧
      ∀ calls scopes, (ss.map Written.Statement.statement).mapM (Sheet.nodesOf calls scopes) =
        .ok (ns.map fun x => [x]) := by
  induction ns with
  | nil => exact ⟨[], List.forall_mem_nil _, fun b r => ⟨b, rfl⟩, fun _ _ => rfl⟩
  | cons x ns ih =>
    rw [List.forall_mem_cons] at huses
    obtain ⟨s, hs⟩ := restoredOutside huses.1 h.1
    obtain ⟨ss, hdepths, hspells, hnodes⟩ := ih huses.2 h.2
    refine ⟨s :: ss, ?_, ?_, ?_⟩
    · refine List.forall_mem_cons.mpr ⟨Nat.le_trans hs.depth (Nat.le_max_left ..), ?_⟩
      exact fun s hmem => Nat.le_trans (hdepths s hmem) (Nat.le_max_right ..)
    · intro b r
      obtain ⟨b₁, h₁⟩ := hs.spell b (prettyAll 0 ns ++ r)
      obtain ⟨b₂, h₂⟩ := hspells b₁ r
      refine ⟨b₂, ?_⟩
      rw [prettyAll, List.append_assoc, h₁, h₂, List.flatMap_cons, List.append_assoc]
    · intro calls scopes
      rw [List.map_cons, List.mapM_cons, hs.nodesOf, hnodes]
      rfl

end Lines

/-- A legible style sheet, the names of which are names of a source text, evaluates to itself. -/
theorem Css.Legible.evaluates {ns : List Node} (huses : ∀ x ∈ ns, x.UsesOutside .readable) (h : Legible ns) :
    evaluate (render .pretty ns) = .ok ns := by
  obtain ⟨ss, hdepths, hspells, hnodes⟩ := Node.statements huses h.nodes
  obtain ⟨b, hspell⟩ := hspells none []
  rw [List.append_nil, Token.spell_nil (show (gap .outside []).rest = [] from rfl)] at hspell
  have hsheet : Sheet.ofTokens (ss.flatMap Written.Statement.tokens ++ [eof]) =
      .ok (ss.map Written.Statement.statement) := by
    have hnested : Braces.Nested maxNesting (ss.flatMap Written.Statement.tokens) :=
      Written.Sheet.nested ⟨ss, fun s hs => Nat.le_trans (hdepths s hs) h.shallow⟩
    have hend : Braces.Nested maxNesting [eof] := .of_no_brace (by decide)
    rw [Sheet.ofTokens, Braces.fault?_eq_none (hnested.append hend)]
    exact Written.Statement.readAll ss ⟨eof, rfl⟩
  have hflat : (ns.map fun x => [x]).flatten = ns := by
    rw [← List.flatMap_def, List.flatMap_singleton']
  rw [evaluate_eq_ok_iff true, render, hspell]
  refine (congrArg (· >>= _) hsheet).trans ?_
  rw [ok_bind, Sheet.evaluate, hnodes, Except.map, hflat]

/-- A rule with a selector of several tokens, a negative number and a call. -/
example : Css.Legible [.rule ["a.x".toList] [⟨"m".toList, "-2px f(2px)".toList, true⟩]] := by
  let g : Written.Selector :=
    ⟨[token .ident true ['a'], token .delim false ['.'], token .ident false ['x']], by simp, by decide⟩
  have hmixin : ∀ (opening : Written.Opening) (commas : List (Written.Mark .comma)) (close : Written.Mark .rparen),
      Written.selectorTokens g [] ≠ opening.tokens ++ commas.map (·.1) ++ [close.1] := by
    intro opening commas close heq
    have hlast := congrArg (fun ts => ts.getLast?.map Token.kind) heq
    simp [g, Written.selectorTokens, close.2, token] at hlast
  have hselectors : Css.LegibleSelectors ["a.x".toList] :=
    ⟨⟨g, [], hmixin⟩, ⟨show spell none true "a.x".toList = g.tokens ++ [eof] by decide +kernel, rfl⟩, rfl⟩
  have hcall : Literal.Operand (token .function true "f(".toList :: ([token .number false "2px".toList] ++
      [token .rparen false [')']])) :=
    .call rfl (by decide) (by decide) (by decide) rfl rfl
  have hvalue : Css.LegibleValue "-2px f(2px)".toList :=
    ⟨[token .number true "-2px".toList] ++ _, ⟨by decide +kernel, rfl⟩, .last (.more (.word (.inl rfl)) rfl (.last hcall))⟩
  exact ⟨⟨⟨hselectors, List.forall_mem_singleton.mpr hvalue⟩, trivial⟩, by decide⟩

/-- The names and parameters in a style sheet are read again, whatever its source is. -/
theorem readable_of_evaluate {source : Text} {ns : List Css.Node}
    (hsource : ∀ t ∈ Token.ofText source, t.kind ≠ .unterminated) (h : evaluate source = .ok ns) :
    ∀ n ∈ ns, n.UsesOutside .readable := by
  have hterminated : ∀ t ∈ Token.spell none false source, t.kind ≠ .unterminated := by
    rw [← Token.ofText_bare]
    exact List.forall_mem_map.mpr hsource
  obtain ⟨s, hs, hevaluate⟩ := bind_eq_ok ((evaluate_eq_ok_iff false).mp h)
  exact Sheet.evaluate_uses (Sheet.meets_of_ofTokens (Vocabulary.readable_finds hterminated) hs) hevaluate

/-- Compiling again is not stable for every source: a call without arguments leaves `@arguments` empty, and a property
without a value is not read. -/
theorem compile_empty_value : ¬∀ source css : Text, '~' ∉ source →
    (∀ t ∈ Token.ofText source, t.kind ≠ .unterminated) → compile .pretty source = .ok css →
      compile .pretty css = .ok css := by
  intro h
  have hcss : (compile .pretty ".m() \x7b a: @arguments; \x7d b \x7b .m(); \x7d".toList).toOption =
      some "b \x7b\n  a: ;\n\x7d\n".toList := by
    decide +kernel
  have hfault : (compile .pretty "b \x7b\n  a: ;\n\x7d\n".toList).toOption = none := by decide +kernel
  have hagain := h _ _ (by decide) (by decide +kernel) (eq_ok_of_toOption hcss)
  rw [hagain] at hfault
  exact nomatch hfault

end LessCss
