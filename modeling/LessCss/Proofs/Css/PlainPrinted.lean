import LessCss.Proofs.Css.PlainTokens
/-!
The tokens of a plain sheet in either layout, and that its printed text is read as these tokens.

The pretty text always is (`Node.spell_pretty`). The minified text has no `;` after the last declaration of a
block, so it is read as these tokens if no block goes on after its declarations (`Node.spell_minified`).
-/
namespace LessCss.Plain

open Token (spell)
open Lexeme (mayBeSign)
open Css (Layout)

/-- Whether a layout puts gaps where they may be left out. -/
def gap : Layout → Bool
  | .pretty => true
  | .minified => false

def semicolon : Token := token .semicolon false [';']

/-- The tokens of declarations. The minified layout parts them by `;`, the pretty one ends each with it. -/
def declarationsTokens : Layout → List Declaration → List Token
  | .pretty, ds => ds.flatMap fun d => d.tokens true true ++ [semicolon]
  | .minified, [] => []
  | .minified, d :: ds => Row.tokens [semicolon] false (fun s d => d.tokens false s) false ⟨d, ds⟩

def lbrace (l : Layout) : Token := token .lbrace (gap l) ['{']

def rbrace (l : Layout) : Token := token .rbrace (gap l) ['}']

namespace Node

mutual

/-- The tokens of a node, the first with a gap before it if `s`. -/
def tokens (l : Layout) (s : Bool) : Node → List Token
  | rule selectors declarations => selectorsTokens (gap l) s selectors ++
      lbrace l :: (declarationsTokens l declarations.toList ++ [rbrace l])
  | atRule name params declarations children => atTokens s name params ++
      lbrace l :: (declarationsTokens l declarations ++ tokensAll l children ++ [rbrace l])

def tokensAll (l : Layout) : List Node → List Token
  | [] => []
  | n :: ns => tokens l (gap l) n ++ tokensAll l ns

end

end Node

namespace Statement

def tokens (l : Layout) (s : Bool) : Statement → List Token
  | directive name params => atTokens s name params ++ [semicolon]
  | node n => n.tokens l s

/-- The tokens of statements, the first with a gap before it if `s`. -/
def tokensAll (l : Layout) : Bool → List Statement → List Token
  | _, [] => []
  | s, x :: xs => x.tokens l s ++ tokensAll l (gap l) xs

end Statement

theorem Row.join_eq_text {α : Type} (glue : Text) (text : α → Text) (r : Row α) :
    Text.join glue (r.map text).toList = r.text glue text := by
  obtain ⟨first, others⟩ := r
  induction others generalizing first with
  | nil => simp [Row.map, Row.toList, Row.text, Text.join]
  | cons a others ih =>
    have h := ih a
    simp only [Row.map, Row.toList, Row.text, Text.join, List.map_cons, List.flatMap_cons] at h ⊢
    rw [List.intercalate_cons_cons, h]
    simp

theorem Row.text_ne_nil {α : Type} {glue : Text} {text : α → Text} (h : ∀ a, text a ≠ []) (r : Row α) :
    r.text glue text ≠ [] := by
  simp [Row.text, h]

theorem Item.text_ne_nil (i : Item) : i.text ≠ [] := by
  cases i with
  | number n => simp [Item.text, Number.text, n.whole.ne_nil]
  | _ => simp [Item.text, Word.text, Quoted.text]

theorem valueText_ne_nil (v : Value) : valueText v ≠ [] :=
  Row.text_ne_nil (fun g => Row.text_ne_nil Item.text_ne_nil g) v

theorem atHead_eq (name : Word) (params : Params) : Css.atHead name.text (paramsText params) = atText name params := by
  cases params with
  | none => simp [Css.atHead, atText, paramsText]
  | some v => simp [Css.atHead, atText, paramsText, valueText_ne_nil]

theorem pretty_css (d : Declaration) : d.css.pretty = d.text true ++ [';'] := by
  cases h : d.important <;>
    simp [Css.Property.pretty, Declaration.css, Declaration.text, h, space, importantWord, Word.ofChars, Word.text]

theorem spell_prettyProperties (level : Nat) (ds : List Declaration) (b : Option Token.Kind) (r : Text) :
    ∃ b', spell b true (Css.prettyProperties level (ds.map Declaration.css) ++ r) =
      declarationsTokens .pretty ds ++ spell b' true r := by
  induction ds generalizing b with
  | nil => exact ⟨b, rfl⟩
  | cons d ds ih =>
    obtain ⟨b₁, h₁⟩ := d.readAs true b true
      (';' :: '\n' :: (Css.prettyProperties level (ds.map Declaration.css) ++ r)) rfl (Bounded.cons (by decide) _)
    obtain ⟨b₂, h₂⟩ := ih (some .semicolon)
    refine ⟨b₂, ?_⟩
    have htext : Css.prettyProperties level ((d :: ds).map Declaration.css) ++ r = Css.indent level ++
        (d.text true ++ ';' :: '\n' :: (Css.prettyProperties level (ds.map Declaration.css) ++ r)) := by
      simp [Css.prettyProperties, Css.line, pretty_css]
    rw [htext, spell_indent, Bool.true_or, h₁, spell_mark .semicolon,
      Token.spell_blank (by rfl), h₂]
    simp [declarationsTokens, semicolon]

namespace Node

mutual

theorem spell_pretty (level : Nat) (n : Node) {b : Option Token.Kind} {s : Bool} (hb : mayBeSign b s = true)
    (r : Text) : ∃ b', spell b s (n.css.pretty level ++ r) =
      n.tokens .pretty (s || decide (0 < level)) ++ spell b' true r := by
  cases n with
  | rule selectors declarations =>
    obtain ⟨b₁, h₁⟩ := spell_prettyProperties (level + 1) declarations.toList (some .lbrace) (Css.line level ['}'] ++ r)
    refine ⟨some .rbrace, ?_⟩
    have htext : (rule selectors declarations).css.pretty level ++ r =
        Css.line level (selectorsText true selectors ++ " \x7b".toList) ++
          (Css.prettyProperties (level + 1) (declarations.toList.map Declaration.css) ++
            (Css.line level ['}'] ++ r)) := by
      have hne : (declarations.map Declaration.css).toList.isEmpty = false := rfl
      have hmap : (declarations.map Declaration.css).toList = declarations.toList.map Declaration.css := rfl
      rw [css, Css.Node.pretty, hne, Row.join_eq_text, hmap]
      simp [selectorsText, space]
    rw [htext, spell_open (selectors_readAs true selectors) level hb, h₁, spell_close]
    simp [tokens, gap, lbrace, rbrace]
  | atRule name params declarations children =>
    obtain ⟨b₁, h₁⟩ := spell_prettyProperties (level + 1) declarations (some .lbrace)
      (Css.Node.prettyAll (level + 1) (cssAll children) ++ (Css.line level ['}'] ++ r))
    obtain ⟨b₂, h₂⟩ := spell_prettyAll level children b₁ (Css.line level ['}'] ++ r)
    refine ⟨some .rbrace, ?_⟩
    have htext : (atRule name params declarations children).css.pretty level ++ r =
        Css.line level (atText name params ++ " \x7b".toList) ++
          (Css.prettyProperties (level + 1) (declarations.map Declaration.css) ++
            (Css.Node.prettyAll (level + 1) (cssAll children) ++ (Css.line level ['}'] ++ r))) := by
      rw [css, Css.Node.pretty, atHead_eq]
      simp
    rw [htext, spell_open (at_readAs name params) level hb, h₁, h₂, spell_close]
    simp [tokens, gap, lbrace, rbrace]

theorem spell_prettyAll (level : Nat) (ns : List Node) (b : Option Token.Kind) (r : Text) :
    ∃ b', spell b true (Css.Node.prettyAll (level + 1) (cssAll ns) ++ r) =
      tokensAll .pretty ns ++ spell b' true r := by
  cases ns with
  | nil => exact ⟨b, rfl⟩
  | cons n ns =>
    obtain ⟨b₁, h₁⟩ := spell_pretty (level + 1) n (b := b) (s := true) rfl
      (Css.Node.prettyAll (level + 1) (cssAll ns) ++ r)
    obtain ⟨b₂, h₂⟩ := spell_prettyAll level ns b₁ r
    refine ⟨b₂, ?_⟩
    rw [cssAll, Css.Node.prettyAll, List.append_assoc, h₁, h₂, tokensAll, Bool.true_or, List.append_assoc]
    rfl

end

end Node

/-- A text whose blanks are single spaces between other characters. -/
structure Packed (t : Text) : Prop where
  squeeze : ∀ b r, Text.squeeze b (t ++ r) = t ++ Text.squeeze false r
  first : startsWith Text.isBlank t = false
  last : startsWith Text.isBlank t.reverse = false
  ne_nil : t ≠ []

theorem Packed.of_no_blank {t : Text} (hne : t ≠ []) (h : ∀ c ∈ t, Text.isBlank c = false) : Packed t where
  squeeze b r := by
    induction t generalizing b with
    | nil => exact absurd rfl hne
    | cons c t ih =>
      simp only [List.forall_mem_cons] at h
      rw [List.cons_append, Text.squeeze, h.1]
      cases t with
      | nil => rfl
      | cons d t => simpa using ih (by simp) h.2 false
  first := by
    cases t with
    | nil => rfl
    | cons c t => exact h c (by simp)
  last := by
    cases hr : t.reverse with
    | nil => rfl
    | cons c u => exact h c (by rw [← List.mem_reverse, hr]; simp)
  ne_nil := hne

theorem Packed.row {α : Type} {glue : Text} {text : α → Text} (hglue : ∀ r, ∃ b, Text.squeeze false (glue ++ r) =
    glue ++ Text.squeeze b r) (h : ∀ a, Packed (text a)) (row : Row α) : Packed (row.text glue text) := by
  obtain ⟨first, others⟩ := row
  induction others generalizing first with
  | nil => simpa [Row.text] using h first
  | cons a others ih =>
    have hrest := ih a
    have htext : Row.text glue text ⟨first, a :: others⟩ = text first ++ (glue ++ Row.text glue text ⟨a, others⟩) := by
      simp [Row.text]
    rw [htext]
    refine ⟨?_, ?_, ?_, by simp [(h first).ne_nil]⟩
    · intro b r
      obtain ⟨b', hb'⟩ := hglue (Row.text glue text ⟨a, others⟩ ++ r)
      rw [List.append_assoc, (h first).squeeze, List.append_assoc, hb', hrest.squeeze]
      simp
    · rw [startsWith_append_of_ne_nil (h first).ne_nil]
      exact (h first).first
    · rw [List.reverse_append, List.reverse_append, List.append_assoc,
        startsWith_append_of_ne_nil (by simpa using hrest.ne_nil)]
      exact hrest.last

/-- There is nothing to collapse in a packed text. -/
theorem Packed.collapse {t : Text} (h : Packed t) : Text.collapse t = t := by
  have hdrop : ∀ u : Text, startsWith Text.isBlank u = false → u.dropWhile Text.isBlank = u := by
    intro u hu
    cases u with
    | nil => rfl
    | cons c u => exact List.dropWhile_cons_of_neg (by simpa using hu)
  have hsqueeze := h.squeeze false []
  rw [List.append_nil, Text.squeeze, List.append_nil] at hsqueeze
  rw [Text.collapse, hsqueeze, Text.trim, Text.trimStart, hdrop t h.first, Text.trimEnd, hdrop _ h.last,
    List.reverse_reverse]

theorem Word.no_blank (w : Word) : ∀ c ∈ w.text, Text.isBlank c = false := by
  intro c hc
  have h : c.isAlphanum = true ∨ c = '-' := by
    rcases List.mem_cons.mp hc with rfl | hc
    · exact .inl (by simp [Char.isAlphanum, w.first_isAlpha])
    · exact w.others_fit c hc
  refine isBlank_of_lt ?_
  simp only [Char.isAlphanum, Bool.or_eq_true, isAlpha_iff, isDigit_iff, eq_iff_toNat, Char.reduceToNat] at h
  omega

theorem Digits.no_blank (d : Digits) : ∀ c ∈ d.text, Text.isBlank c = false := by
  intro c hc
  have h := isDigit_iff.mp (d.fit c hc)
  exact isBlank_of_lt (by omega)

theorem Number.no_blank (n : Number) : ∀ c ∈ n.text, Text.isBlank c = false := by
  intro c hc
  simp only [text, List.mem_append] at hc
  rcases hc with ((hc | hc) | hc) | hc
  · cases hn : n.negative <;> simp [hn] at hc
    exact hc ▸ by decide
  · exact n.whole.no_blank c hc
  · cases hf : n.fraction with
    | none => simp [hf] at hc
    | some f =>
      simp only [hf, Option.elim, List.mem_cons] at hc
      rcases hc with rfl | hc
      · decide
      · exact f.no_blank c hc
  · cases hu : n.unit with
    | percent =>
      simp only [hu, Measurement.text, List.mem_singleton] at hc
      exact hc ▸ by decide
    | letters l =>
      have h := isAlpha_iff.mp (l.fit c (by simpa [hu, Measurement.text] using hc))
      exact isBlank_of_lt (by omega)

theorem Item.packed (i : Item) : Packed i.text := by
  refine .of_no_blank i.text_ne_nil ?_
  cases i with
  | word w => exact w.no_blank
  | hash w => exact List.forall_mem_cons.mpr ⟨by decide, w.no_blank⟩
  | number n => exact n.no_blank
  | string q =>
    intro c hc
    simp only [Item.text, Quoted.text, List.mem_cons, List.mem_append, List.not_mem_nil, or_false] at hc
    rcases hc with rfl | hc | rfl
    · decide
    · exact (q.fit c hc).1
    · decide

theorem valueText_packed (v : Value) : Packed (valueText v) := by
  have hspace : ∀ r, ∃ b, Text.squeeze false ([' '] ++ r) = [' '] ++ Text.squeeze b r := fun r => ⟨true, rfl⟩
  have hcomma : ∀ r, ∃ b, Text.squeeze false ([',', ' '] ++ r) = [',', ' '] ++ Text.squeeze b r := fun r => ⟨true, rfl⟩
  exact Packed.row hcomma (Packed.row hspace Item.packed) v

theorem minified_css (d : Declaration) : d.css.minified = d.text false := by
  cases h : d.important <;>
    simp [Css.Property.minified, Declaration.css, Declaration.text, h, space, (valueText_packed d.value).collapse,
      importantWord, Word.ofChars, Word.text]

theorem minified_atHead (name : Word) (params : Params) : '@' :: name.text ++
    (if (paramsText params).isEmpty then [] else ' ' :: Text.collapse (paramsText params)) = atText name params := by
  cases params with
  | none => simp [atText, paramsText]
  | some v => simp [atText, paramsText, valueText_ne_nil, (valueText_packed v).collapse]

theorem minifiedProperties_css (ds : Row Declaration) :
    Css.minifiedProperties (ds.map Declaration.css).toList = ds.text [';'] (Declaration.text false) := by
  have hmap : (ds.map Declaration.css).toList.map Css.Property.minified =
      (ds.map (Declaration.text false)).toList := by
    simp [Row.map, Row.toList, Function.comp_def, minified_css]
  rw [Css.minifiedProperties, hmap, Row.join_eq_text]

theorem spell_minifiedProperties (ds : List Declaration) {b : Option Token.Kind} (hb : mayBeSign b false = true)
    {r : Text} (hr : ds ≠ [] → Bounded r) :
    ∃ b', spell b false (Css.minifiedProperties (ds.map Declaration.css) ++ r) =
      declarationsTokens .minified ds ++ spell b' false r := by
  cases ds with
  | nil => exact ⟨b, rfl⟩
  | cons d ds =>
    obtain ⟨b', h⟩ := Row.readAs glues_semicolon (Declaration.readAs false) ⟨d, ds⟩ b false r hb (hr (by simp))
    refine ⟨b', ?_⟩
    rw [show (d :: ds).map Declaration.css = (Row.map Declaration.css ⟨d, ds⟩).toList from rfl,
      minifiedProperties_css, h]
    rfl

namespace Node

mutual

/-- No at-rule has both declarations of its own and blocks after them. -/
def Separated : Node → Prop
  | rule .. => True
  | atRule _ _ declarations children => (declarations = [] ∨ children = []) ∧ SeparatedAll children

def SeparatedAll : List Node → Prop
  | [] => True
  | n :: ns => Separated n ∧ SeparatedAll ns

end

/-- The text before the brace of a node. -/
def head : Node → Text
  | rule selectors _ => selectorsText false selectors
  | atRule name params _ _ => atText name params

/-- The minified text between the braces of a node. -/
def innerText : Node → Text
  | rule _ declarations => Css.minifiedProperties (declarations.toList.map Declaration.css)
  | atRule _ _ declarations children =>
    Css.minifiedProperties (declarations.map Declaration.css) ++ Css.Node.minifiedAll (cssAll children)

theorem minified_eq (n : Node) : n.css.minified = n.head ++ '{' :: (n.innerText ++ ['}']) := by
  cases n with
  | rule selectors declarations =>
    have hne : (declarations.map Declaration.css).toList.isEmpty = false := rfl
    have hmap : (declarations.map Declaration.css).toList = declarations.toList.map Declaration.css := rfl
    rw [css, Css.Node.minified, hne, Row.join_eq_text, hmap]
    simp [head, innerText, selectorsText, space]
  | atRule name params declarations children =>
    rw [css, Css.Node.minified, minified_atHead]
    simp [head, innerText]

mutual

theorem spell_minified (n : Node) (hn : n.Separated) {b : Option Token.Kind} (hb : mayBeSign b false = true) (r : Text) :
    spell b false (n.css.minified ++ r) = n.tokens .minified false ++ spell (some .rbrace) false r := by
  cases n with
  | rule selectors declarations =>
    obtain ⟨b₁, h₁⟩ := selectors_readAs false selectors b false
      ('{' :: (Css.minifiedProperties (declarations.toList.map Declaration.css) ++ '}' :: r)) hb (Bounded.cons (by decide) _)
    obtain ⟨b₂, h₂⟩ := spell_minifiedProperties declarations.toList (b := some .lbrace) rfl (r := '}' :: r)
      fun _ => Bounded.cons (by decide) _
    have htext : (rule selectors declarations).css.minified ++ r = selectorsText false selectors ++
        '{' :: (Css.minifiedProperties (declarations.toList.map Declaration.css) ++ '}' :: r) := by
      simp [minified_eq, head, innerText]
    rw [htext, h₁, spell_mark .lbrace, h₂, spell_mark .rbrace]
    simp [tokens, gap, lbrace, rbrace]
  | atRule name params declarations children =>
    obtain ⟨hseparated, hchildren⟩ := hn
    obtain ⟨b₁, h₁⟩ := at_readAs name params b false ('{' :: (Css.minifiedProperties (declarations.map Declaration.css) ++
      (Css.Node.minifiedAll (cssAll children) ++ '}' :: r))) hb (Bounded.cons (by decide) _)
    obtain ⟨b₂, h₂⟩ : ∃ b₂, spell (some .lbrace) false (Css.minifiedProperties (declarations.map Declaration.css) ++
        (Css.Node.minifiedAll (cssAll children) ++ '}' :: r)) = declarationsTokens .minified declarations ++
          (tokensAll .minified children ++ spell b₂ false ('}' :: r)) := by
      rcases hseparated with rfl | rfl
      · exact spell_minifiedAll children hchildren rfl ('}' :: r)
      · obtain ⟨b₂, h₂⟩ := spell_minifiedProperties declarations (b := some .lbrace) rfl (r := '}' :: r)
          fun _ => Bounded.cons (by decide) _
        exact ⟨b₂, h₂⟩
    have htext : (atRule name params declarations children).css.minified ++ r = atText name params ++
        '{' :: (Css.minifiedProperties (declarations.map Declaration.css) ++
          (Css.Node.minifiedAll (cssAll children) ++ '}' :: r)) := by
      simp [minified_eq, head, innerText]
    rw [htext, h₁, spell_mark .lbrace, h₂, spell_mark .rbrace]
    simp [tokens, gap, lbrace, rbrace]

theorem spell_minifiedAll (ns : List Node) (hns : SeparatedAll ns) {b : Option Token.Kind}
    (hb : mayBeSign b false = true) (r : Text) :
    ∃ b', spell b false (Css.Node.minifiedAll (cssAll ns) ++ r) = tokensAll .minified ns ++ spell b' false r := by
  cases ns with
  | nil => exact ⟨b, rfl⟩
  | cons n ns =>
    obtain ⟨b', h⟩ := spell_minifiedAll ns hns.2 (b := some .rbrace) rfl r
    refine ⟨b', ?_⟩
    rw [cssAll, Css.Node.minifiedAll, List.append_assoc, spell_minified n hns.1 hb, h, tokensAll, List.append_assoc]
    rfl

end

end Node

def Statement.Separated : Statement → Prop
  | directive .. => True
  | node n => n.Separated

/-- No at-rule of the sheet has both declarations of its own and blocks after them. -/
def Sheet.Separated (t : Sheet) : Prop := ∀ x ∈ t.statements, x.Separated

theorem spell_directive (name : Word) (params : Params) {b : Option Token.Kind} {s : Bool}
    (hb : mayBeSign b s = true) (r : Text) :
    spell b s (Css.directive name.text (paramsText params) ++ r) =
      atTokens s name params ++ semicolon :: spell (some .semicolon) false r := by
  obtain ⟨b', h⟩ := at_readAs name params b s (';' :: r) hb (Bounded.cons (by decide) r)
  rw [Css.directive, atHead_eq, List.append_assoc, List.singleton_append, h, spell_mark .semicolon]
  rfl

namespace Statement

theorem spell_pretty (x : Statement) {b : Option Token.Kind} {s : Bool} (hb : mayBeSign b s = true) (r : Text) :
    ∃ b', spell b s (x.css.pretty 0 ++ r) = x.tokens .pretty s ++ spell b' true r := by
  cases x with
  | directive name params =>
    refine ⟨some .semicolon, ?_⟩
    have htext : (directive name params).css.pretty 0 ++ r =
        Css.directive name.text (paramsText params) ++ '\n' :: r := by
      simp [css, Css.Node.pretty, Css.line, Css.indent]
    rw [htext, spell_directive name params hb, Token.spell_blank (by rfl)]
    simp [tokens]
  | node n => simpa [css, tokens] using n.spell_pretty 0 hb r

theorem spell_minified (x : Statement) (hx : x.Separated) {b : Option Token.Kind} (hb : mayBeSign b false = true)
    (r : Text) : ∃ b', mayBeSign b' false = true ∧
      spell b false (x.css.minified ++ r) = x.tokens .minified false ++ spell b' false r := by
  cases x with
  | directive name params =>
    refine ⟨some .semicolon, rfl, ?_⟩
    rw [css, Css.Node.minified, spell_directive name params hb]
    simp [tokens]
  | node n => exact ⟨some .rbrace, rfl, n.spell_minified hx hb r⟩

theorem spell_prettyAll (xs : List Statement) {b : Option Token.Kind} {s : Bool} (hb : mayBeSign b s = true) :
    spell b s (Css.render .pretty (xs.map css)) = tokensAll .pretty s xs ++ [Token.eof] := by
  induction xs generalizing b s with
  | nil => exact Token.spell_nil (by rfl)
  | cons x xs ih =>
    obtain ⟨b', hx⟩ := x.spell_pretty hb (Css.render .pretty (xs.map css))
    rw [tokensAll, List.append_assoc, show gap .pretty = true from rfl, ← ih (b := b') (s := true) rfl, ← hx]
    rfl

theorem spell_minifiedAll (xs : List Statement) (hxs : ∀ x ∈ xs, x.Separated) {b : Option Token.Kind}
    (hb : mayBeSign b false = true) :
    spell b false (Css.render .minified (xs.map css)) = tokensAll .minified false xs ++ [Token.eof] := by
  induction xs generalizing b with
  | nil => exact Token.spell_nil (by rfl)
  | cons x xs ih =>
    simp only [List.forall_mem_cons] at hxs
    obtain ⟨b', hb', hx⟩ := x.spell_minified hxs.1 hb (Css.render .minified (xs.map css))
    rw [tokensAll, List.append_assoc, show gap .minified = false from rfl, ← ih hxs.2 hb', ← hx]
    rfl

end Statement

/-- The text of a plain sheet is read as the tokens of its statements, in the minified layout if the sheet is
separated. -/
theorem Sheet.spell (l : Layout) (t : Sheet) (ht : l = .minified → t.Separated) :
    Token.spell none false (Css.render l t.css) = Statement.tokensAll l false t.statements ++ [Token.eof] := by
  cases l with
  | pretty => exact Statement.spell_prettyAll t.statements rfl
  | minified => exact Statement.spell_minifiedAll t.statements (ht rfl) rfl

end LessCss.Plain
