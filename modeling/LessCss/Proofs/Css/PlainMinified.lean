import LessCss.Proofs.Css.PlainEvaluate
import LessCss.Proofs.Css.PlainRunOn
/-!
Minified text that does not come back.

Nothing ends the last declaration of an at-rule before a block that follows it, so the declaration is read as the
beginning of that block's header and is lost. The minified text of a node is read with at most `Node.weight`
declarations, which leaves out those that are lost. So it evaluates to the sheet it was printed from exactly when
there are none (`Sheet.evaluate_minified_iff`).
-/
namespace LessCss.Plain

open Token (spell)
open Tokens (isStop readBlock readStatements lead?)
open Lexeme (mayBeSign)
open LessCss.Item (sizeAll CallFreeAll)

/-- A text that stands before a brace and opens a block with it, if anything is read. -/
def Opens (text : Text) : Prop :=
  ∀ b r, mayBeSign b false = true → ∃ ts s',
    spell b false (text ++ '{' :: r) = ts ++ token .lbrace s' ['{'] :: spell (some .lbrace) false r ∧
      ∀ rest, Written.Begins (ts ++ token .lbrace s' ['{'] :: rest) ∧
        ∀ l, lead? (ts ++ token .lbrace s' ['{'] :: rest) = .ok l → ∃ h, l = some (.opened h, rest)

/-- A text that reaches to the end of a block and is read with at most `w` declarations before that. -/
def Closes (text : Text) (w : Nat) : Prop :=
  ∀ b r, mayBeSign b false = true → ∃ ts, spell b false (text ++ r) = ts ++ spell (some .rbrace) false r ∧
    ∀ rest items after, readBlock (ts ++ rest) = .ok (items, after) →
      after = rest ∧ sizeAll items ≤ w ∧ CallFreeAll items

/-- A text that is read as a block with at most `w` declarations in it. -/
def Blocks (text : Text) (w : Nat) : Prop :=
  ∀ b r, mayBeSign b false = true → ∃ ts, spell b false (text ++ r) = ts ++ spell (some .rbrace) false r ∧
    ∀ rest, Written.Begins (ts ++ rest) ∧ ∀ l, lead? (ts ++ rest) = .ok l →
      ∃ h inside, l = some (.opened h, inside) ∧ ∀ body after, readBlock inside = .ok (body, after) →
        after = rest ∧ sizeAll body ≤ w ∧ CallFreeAll body

theorem Opens.blocks {head inner : Text} {w : Nat} (ho : Opens head) (hc : Closes inner w) :
    Blocks (head ++ '{' :: inner) w := by
  intro b r hb
  obtain ⟨ts, s', hspell, hlead⟩ := ho b (inner ++ r) hb
  obtain ⟨us, hinner, hread⟩ := hc (some .lbrace) r rfl
  refine ⟨ts ++ token .lbrace s' ['{'] :: us, ?_, ?_⟩
  · rw [List.append_assoc, List.cons_append, hspell, hinner]
    simp
  · intro rest
    have hts : ts ++ token .lbrace s' ['{'] :: us ++ rest = ts ++ token .lbrace s' ['{'] :: (us ++ rest) := by simp
    obtain ⟨hbegins, hopened⟩ := hlead (us ++ rest)
    rw [hts]
    refine ⟨hbegins, ?_⟩
    intro l hl
    obtain ⟨h, rfl⟩ := hopened l hl
    exact ⟨h, us ++ rest, rfl, hread rest⟩

theorem toItem_size (h : Header) (body : List LessCss.Item) : (h.toItem body).size = sizeAll body := by
  cases h <;> rfl

theorem toItem_callFree (h : Header) {body : List LessCss.Item} (hb : CallFreeAll body) : (h.toItem body).CallFree := by
  cases h <;> exact hb

/-- A block before what closes the block around it. -/
theorem Blocks.closes {text rest : Text} {w v : Nat} (hb : Blocks text w) (hc : Closes rest v) :
    Closes (text ++ rest) (w + v) := by
  intro b r hsign
  obtain ⟨ts, hspell, hlead⟩ := hb b (rest ++ r) hsign
  obtain ⟨us, hrest, hread⟩ := hc (some .rbrace) r rfl
  refine ⟨ts ++ us, by rw [List.append_assoc, hspell, hrest, List.append_assoc], ?_⟩
  intro after items last h
  obtain ⟨⟨t, vs, hbegin, hstop⟩, hopened⟩ := hlead (us ++ after)
  rw [List.append_assoc, hbegin, Tokens.readBlock_of_not_stop hstop, Tokens.readItem] at h
  obtain ⟨l, hl, hstep⟩ := bind_eq_ok h
  obtain ⟨header, inside, rfl, hbody⟩ := hopened l (hbegin ▸ hl)
  obtain ⟨⟨body, after'⟩, hblock, hothers⟩ := bind_eq_ok hstep
  obtain ⟨rfl, hsize, hfree⟩ := hbody body after' hblock
  obtain ⟨⟨others, last'⟩, hgo, heq⟩ := map_eq_ok hothers
  simp only [consItem, Prod.mk.injEq] at heq
  obtain ⟨rfl, rfl⟩ := heq
  obtain ⟨rfl, hsize', hfree'⟩ := hread _ _ _ hgo
  refine ⟨rfl, ?_, toItem_callFree header hfree, hfree'⟩
  rw [LessCss.Item.sizeAll, toItem_size]
  omega

theorem read_rbrace {rest after : List Token} {items : List LessCss.Item}
    (h : readBlock (token .rbrace false ['}'] :: rest) = .ok (items, after)) :
    after = rest ∧ sizeAll items ≤ 0 ∧ CallFreeAll items := by
  rw [Tokens.readBlock_rbrace rfl] at h
  cases h
  exact ⟨rfl, Nat.le_refl 0, trivial⟩

/-- What closes a block at once. -/
theorem closes_rbrace : Closes ['}'] 0 := by
  intro b r _
  exact ⟨[token .rbrace false ['}']], spell_mark .rbrace b false r, fun rest items after h => read_rbrace h⟩

/-- A declaration before the mark that ends it, and before what is read after that mark. -/
theorem Declaration.closes_mark (d : Declaration) {mark : Char} {kind : Token.Kind} {after : Text} {w : Nat}
    (hmark : Mark mark kind) (hkind : kind = .semicolon ∨ kind = .rbrace)
    (h : ∀ r, ∃ us, spell (some kind) false (after ++ r) = us ++ spell (some .rbrace) false r ∧
      ∀ rest items last, readBlock (Tokens.skipSemicolon (token kind false [mark] :: (us ++ rest))) = .ok (items, last) →
        last = rest ∧ sizeAll items ≤ w ∧ CallFreeAll items) :
    Closes (d.text false ++ mark :: after) (w + 1) := by
  intro b r hsign
  obtain ⟨us, hspell, hread⟩ := h r
  obtain ⟨b', hd⟩ := d.readAs false b false (mark :: (after ++ r)) hsign (hmark.bounded _)
  refine ⟨d.tokens false false ++ token kind false [mark] :: us, ?_, ?_⟩
  · rw [List.append_assoc, List.cons_append, hd, spell_mark hmark, hspell]
    simp
  · intro rest items last h
    have hstop : (token kind false [mark]).kind = .semicolon ∨ (token kind false [mark]).kind = .rbrace := hkind
    have hdeclaration := d.read .minified false hstop (us ++ rest)
    rw [List.append_assoc] at h
    obtain ⟨⟨others, last'⟩, hothers, heq⟩ := map_eq_ok (hdeclaration.symm.trans h)
    simp only [consItem, Prod.mk.injEq] at heq
    obtain ⟨rfl, rfl⟩ := heq
    obtain ⟨rfl, hsize, hfree⟩ := hread _ _ _ hothers
    refine ⟨rfl, ?_, trivial, hfree⟩
    rw [LessCss.Item.sizeAll, LessCss.Item.size]
    omega

theorem Declaration.closes_semicolon (d : Declaration) {after : Text} {w : Nat} (h : Closes after w) :
    Closes (d.text false ++ ';' :: after) (w + 1) :=
  d.closes_mark .semicolon (.inl rfl) fun r => h (some .semicolon) r rfl

theorem Declaration.closes_rbrace (d : Declaration) : Closes (d.text false ++ ['}']) 1 :=
  d.closes_mark .rbrace (.inr rfl) fun _ => ⟨[], rfl, fun _ _ _ h => read_rbrace h⟩

theorem Node.spell_head (n : Node) {b : Option Token.Kind} (hb : mayBeSign b false = true) (r : Text) :
    spell b false (n.head ++ '{' :: r) =
      (n.written .minified false).tokens ++ token .lbrace false ['{'] :: spell (some .lbrace) false r := by
  cases n with
  | rule selectors declarations =>
    obtain ⟨b', h⟩ := selectors_readAs false selectors b false ('{' :: r) hb (Mark.lbrace.bounded r)
    rw [head, h, spell_mark .lbrace]
    simp [written, Written.Header.tokens, Written.Selectors.tokens, writtenSelectors, selectorTokens_written, gap]
  | atRule name params declarations children =>
    obtain ⟨b', h⟩ := at_readAs name params b false ('{' :: r) hb (Mark.lbrace.bounded r)
    rw [head, h, spell_mark .lbrace]
    rfl

theorem Node.opens (n : Node) : Opens n.head := by
  intro b r hb
  refine ⟨(n.written .minified false).tokens, false, n.spell_head hb r, ?_⟩
  intro rest
  refine ⟨Written.Header.begins _ _, ?_⟩
  intro l hl
  have h := (n.written .minified false).lead ⟨token .lbrace false ['{'], rfl⟩ rest
  cases h.symm.trans hl
  exact ⟨_, rfl⟩

theorem Node.head_loose (n : Node) : Loose n.head := by
  cases n with
  | rule selectors declarations => exact selectors_loose selectors
  | atRule name params declarations children => exact at_loose name params

/-- A declaration runs on into the header after it. -/
theorem Declaration.opens (d : Declaration) {head : Text} (hhead : Loose head) : Opens (d.text false ++ head) := by
  intro b r hb
  obtain ⟨b', hname⟩ := d.name.readAs b false (':' :: (d.rest ++ head ++ '{' :: r)) hb (Mark.colon.bounded _)
  obtain ⟨ts, s', hts, hspell⟩ := (d.rest_loose.append hhead).spell (some .colon) false r
  refine ⟨token .ident false d.name.text :: token .colon false [':'] :: ts, s', ?_, fun rest => ⟨?_, fun l hl => ?_⟩⟩
  · have htext : d.text false ++ head ++ '{' :: r = d.name.text ++ ':' :: (d.rest ++ head ++ '{' :: r) := by
      simp [d.text_eq]
    rw [htext, hname, spell_mark .colon, hspell]
    rfl
  · exact ⟨_, _, rfl, rfl⟩
  · have hfits : ∀ t ∈ token .colon false [':'] :: ts, isStop t = false := List.forall_mem_cons.mpr ⟨rfl, hts⟩
    obtain ⟨selectors, rfl⟩ := Tokens.lead?_runOn rfl hfits rfl hl
    exact ⟨_, rfl⟩

/-- How many declarations of a block are left where blocks follow them. -/
def kept {α β : Type} (declarations : List α) (children : List β) : Nat :=
  if children.isEmpty then declarations.length else declarations.length - 1

namespace Node

mutual

/-- The number of declarations in a node that do not run on into a block. -/
def weight : Node → Nat
  | rule _ declarations => declarations.toList.length
  | atRule _ _ declarations children => kept declarations children + weightAll children

def weightAll : List Node → Nat
  | [] => 0
  | n :: ns => weight n + weightAll ns

end

end Node

/-- Declarations before a text that closes their block, whether one of them runs on into it or not. -/
theorem closes_declarations (children : List Node) {after : Text} {w : Nat} (hnone : Closes after w)
    (hsome : ∀ d : Declaration, Closes (d.text false ++ after) (kept [d] children + w)) (ds : List Declaration) :
    Closes (Css.minifiedProperties (ds.map Declaration.css) ++ after) (kept ds children + w) := by
  cases ds with
  | nil => simpa [Css.minifiedProperties, Text.join, kept] using hnone
  | cons d ds =>
    induction ds generalizing d with
    | nil => simpa [Css.minifiedProperties, Text.join, minified_css] using hsome d
    | cons e ds ih =>
      have hkept : kept (d :: e :: ds) children + w = kept (e :: ds) children + w + 1 := by
        simp only [kept, List.length_cons]
        split <;> omega
      have htext : Css.minifiedProperties ((d :: e :: ds).map Declaration.css) ++ after =
          d.text false ++ ';' :: (Css.minifiedProperties ((e :: ds).map Declaration.css) ++ after) := by
        simp [Css.minifiedProperties, Text.join, minified_css]
      rw [hkept, htext]
      exact d.closes_semicolon (ih e)

namespace Node

mutual

/-- What is between the braces of a node, with the brace that closes it. -/
theorem closes (n : Node) : Closes (n.innerText ++ ['}']) n.weight := by
  cases n with
  | rule selectors declarations =>
    have h := closes_declarations [] closes_rbrace Declaration.closes_rbrace declarations.toList
    simpa [innerText, weight, kept] using h
  | atRule name params declarations children =>
    rw [innerText, List.append_assoc, weight]
    exact closes_declarations children (closesAll children) (runOn children) declarations

theorem closesAll (ns : List Node) : Closes (Css.Node.minifiedAll (cssAll ns) ++ ['}']) (weightAll ns) := by
  cases ns with
  | nil => exact closes_rbrace
  | cons n ns =>
    rw [cssAll, Css.Node.minifiedAll, minified_eq, List.append_assoc, weightAll]
    exact (n.opens.blocks (closes n)).closes (closesAll ns)

/-- A declaration before nodes is kept only if there are none. -/
theorem runOn (ns : List Node) (d : Declaration) :
    Closes (d.text false ++ (Css.Node.minifiedAll (cssAll ns) ++ ['}'])) (kept [d] ns + weightAll ns) := by
  cases ns with
  | nil => exact d.closes_rbrace
  | cons n ns =>
    have htext : d.text false ++ (Css.Node.minifiedAll (cssAll (n :: ns)) ++ ['}']) =
        (d.text false ++ n.head) ++ '{' :: (n.innerText ++ ['}']) ++ (Css.Node.minifiedAll (cssAll ns) ++ ['}']) := by
      simp [cssAll, Css.Node.minifiedAll, minified_eq]
    have hweight : kept [d] (n :: ns) + weightAll (n :: ns) = weight n + weightAll ns := by
      simp [kept, weightAll]
    rw [htext, hweight]
    exact ((d.opens n.head_loose).blocks (closes n)).closes (closesAll ns)

end

theorem blocks (n : Node) : Blocks n.css.minified n.weight := by
  rw [minified_eq]
  exact n.opens.blocks n.closes

end Node

theorem toStatement_size (h : Header) (body : List LessCss.Item) : (h.toStatement body).size = sizeAll body := by
  cases h <;> rfl

theorem toStatement_callFree (h : Header) {body : List LessCss.Item} (hb : CallFreeAll body) :
    (h.toStatement body).CallFree := by
  cases h <;> (rintro _ ⟨⟩; exact hb)

namespace Statement

def weight : Statement → Nat
  | directive .. => 0
  | node n => n.weight

/-- What is read of the minified text of statements. -/
theorem read_minified (xs : List Statement) {b : Option Token.Kind} (hb : mayBeSign b false = true) {ss : LessCss.Sheet}
    (h : readStatements (Token.spell b false (Css.render .minified (xs.map css))) = .ok ss) :
    ss.size ≤ (xs.map weight).foldr (· + ·) 0 ∧ ∀ x ∈ ss, x.CallFree := by
  induction xs generalizing b ss with
  | nil =>
    rw [show Token.spell b false (Css.render .minified ([].map css)) = [Token.eof] from Token.spell_nil (by rfl),
      Tokens.readStatements_eof rfl] at h
    cases h
    exact ⟨Nat.le_refl 0, nofun⟩
  | cons x xs ih =>
    have htext : Css.render .minified ((x :: xs).map css) = x.css.minified ++ Css.render .minified (xs.map css) := rfl
    rw [htext] at h
    cases x with
    | directive name params =>
      obtain ⟨b', hb', hspell⟩ := (directive name params).spell_minified trivial hb (Css.render .minified (xs.map css))
      rw [hspell, (directive name params).read .minified false fun _ => trivial] at h
      obtain ⟨others, hothers, rfl⟩ := map_eq_ok h
      obtain ⟨hsize, hfree⟩ := ih hb' hothers
      refine ⟨?_, List.forall_mem_cons.mpr ⟨nofun, hfree⟩⟩
      simpa [LessCss.Sheet.size, LessCss.Statement.size, LessCss.Statement.toItem?, syntactic, weight] using hsize
    | node n =>
      obtain ⟨ts, hspell, hlead⟩ := n.blocks b (Css.render .minified (xs.map css)) hb
      obtain ⟨⟨t, us, hbegin, hstop⟩, hopened⟩ :=
        hlead (Token.spell (some .rbrace) false (Css.render .minified (xs.map css)))
      rw [css, hspell, hbegin, Tokens.readStatements_of_not_stop hstop, Tokens.readStatement] at h
      obtain ⟨l, hl, hstep⟩ := bind_eq_ok h
      obtain ⟨header, inside, rfl, hbody⟩ := hopened l (hbegin ▸ hl)
      obtain ⟨⟨body, after⟩, hblock, hothers⟩ := bind_eq_ok hstep
      obtain ⟨rfl, hsize, hfree⟩ := hbody body after hblock
      obtain ⟨others, hread, rfl⟩ := map_eq_ok hothers
      obtain ⟨hsize', hfree'⟩ := ih rfl hread
      refine ⟨?_, List.forall_mem_cons.mpr ⟨toStatement_callFree header hfree, hfree'⟩⟩
      simp only [LessCss.Sheet.size, List.map_cons, List.foldr_cons, toStatement_size, weight] at hsize' ⊢
      omega

end Statement

theorem kept_le {α β : Type} (ds : List α) (cs : List β) : kept ds cs ≤ ds.length := by
  rw [kept]
  split <;> omega

theorem eq_nil_of_le_kept {α β : Type} {ds : List α} {cs : List β} (h : ds.length ≤ kept ds cs) : ds = [] ∨ cs = [] := by
  cases cs with
  | nil => exact .inr rfl
  | cons c cs =>
    refine .inl (List.length_eq_zero_iff.mp ?_)
    simp only [kept, List.isEmpty_cons, Bool.false_eq_true, if_false] at h
    omega

namespace Node

mutual

theorem weight_le (n : Node) : n.weight ≤ n.css.size := by
  cases n with
  | rule selectors declarations => simp [weight, css, Css.Node.size, Row.map, Row.toList]
  | atRule name params declarations children =>
    have hkept := kept_le declarations children
    have hchildren := weightAll_le children
    simp only [weight, css, Css.Node.size, List.length_map]
    omega

theorem weightAll_le (ns : List Node) : weightAll ns ≤ Css.Node.sizeAll (cssAll ns) := by
  cases ns with
  | nil => exact Nat.le_refl 0
  | cons n ns => exact Nat.add_le_add (weight_le n) (weightAll_le ns)

end

mutual

/-- A node that loses no declaration is separated. -/
theorem separated_of_size_le (n : Node) (h : n.css.size ≤ n.weight) : n.Separated := by
  cases n with
  | rule selectors declarations => trivial
  | atRule name params declarations children =>
    have hkept := kept_le declarations children
    have hchildren := weightAll_le children
    simp only [weight, css, Css.Node.size, List.length_map] at h
    exact ⟨eq_nil_of_le_kept (by omega), separatedAll_of_size_le children (by omega)⟩

theorem separatedAll_of_size_le (ns : List Node) (h : Css.Node.sizeAll (cssAll ns) ≤ weightAll ns) :
    SeparatedAll ns := by
  cases ns with
  | nil => trivial
  | cons n ns =>
    have hn := weight_le n
    have hns := weightAll_le ns
    simp only [weightAll, cssAll, Css.Node.sizeAll] at h
    exact ⟨separated_of_size_le n (by omega), separatedAll_of_size_le ns (by omega)⟩

end

end Node

theorem Statement.weight_le (x : Statement) : x.weight ≤ x.css.size := by
  cases x with
  | directive name params => exact Nat.le_refl 0
  | node n => exact n.weight_le

theorem Statement.separated_of_size_le (x : Statement) (h : x.css.size ≤ x.weight) : x.Separated := by
  cases x with
  | directive name params => trivial
  | node n => exact n.separated_of_size_le h

theorem Sheet.weight_le (xs : List Statement) :
    (xs.map Statement.weight).foldr (· + ·) 0 ≤ Css.Node.sizeAll (xs.map Statement.css) := by
  induction xs with
  | nil => exact Nat.le_refl 0
  | cons x xs ih => exact Nat.add_le_add x.weight_le ih

theorem Sheet.separated_of_size_le {xs : List Statement}
    (h : Css.Node.sizeAll (xs.map Statement.css) ≤ (xs.map Statement.weight).foldr (· + ·) 0) :
    ∀ x ∈ xs, x.Separated := by
  induction xs with
  | nil => exact nofun
  | cons x xs ih =>
    have hx := x.weight_le
    have hxs := Sheet.weight_le xs
    simp only [List.map_cons, Css.Node.sizeAll_cons, List.foldr_cons] at h
    exact List.forall_mem_cons.mpr ⟨x.separated_of_size_le (by omega), ih (by omega)⟩

/-- A sheet that comes back from its minified text has lost no declaration. -/
theorem Sheet.separated_of_evaluate {t : Sheet} (h : LessCss.evaluate (Css.render .minified t.css) = .ok t.css) :
    t.Separated := by
  have hbare := forget_evaluate (Css.render .minified t.css)
  rw [h, Token.ofText_bare] at hbare
  obtain ⟨ss, hss, hevaluate⟩ := bind_eq_ok hbare.symm
  have hread : readStatements (Token.spell none false (Css.render .minified t.css)) = .ok ss := by
    rw [LessCss.Sheet.ofTokens] at hss
    split at hss
    · cases hss
    · exact hss
  obtain ⟨hsize, hfree⟩ := Statement.read_minified t.statements rfl hread
  exact separated_of_size_le (Nat.le_trans (LessCss.Sheet.evaluate_size hfree hevaluate) hsize)

/-- The minified text of a plain sheet evaluates to the sheet exactly when no at-rule in it has both declarations
of its own and blocks after them. -/
theorem Sheet.evaluate_minified_iff (t : Sheet) :
    LessCss.evaluate (Css.render .minified t.css) = .ok t.css ↔ t.Separated := by
  constructor
  · exact separated_of_evaluate
  · intro ht
    exact t.evaluate_render .minified fun _ => ht

/-- `@media print` with the declaration `color: red` and in it the rule `.a` with the declaration `b: c`. -/
def printSheet : Sheet where
  statements :=
    let value (w : Word) : Value := ⟨⟨.word w, []⟩, []⟩
    [.node (.atRule (.ofChars 'm' "edia".toList (by decide)) (some (value (.ofChars 'p' "rint".toList (by decide))))
      [⟨.ofChars 'c' "olor".toList (by decide), value (.ofChars 'r' "ed".toList (by decide)), false⟩]
      [.rule ⟨⟨.dotted (.ofChars 'a' [] (by decide)), []⟩, []⟩
        ⟨⟨.ofChars 'b' [] (by decide), value (.ofChars 'c' [] (by decide)), false⟩, []⟩])]
  shallow := by decide

/-- The declaration and the selector after it come back as one selector. -/
theorem printSheet_runs_on :
    Css.render .minified printSheet.css = "@media print\x7bcolor:red.a\x7bb:c\x7d\x7d".toList ∧
      LessCss.evaluate (Css.render .minified printSheet.css) ≠ .ok printSheet.css ∧
      (compile .pretty (Css.render .minified printSheet.css)).toOption =
        some "@media print \x7b\n  color:red.a \x7b\n    b: c;\n  \x7d\n\x7d\n".toList := by
  have htext : Css.render .minified printSheet.css = "@media print\x7bcolor:red.a\x7bb:c\x7d\x7d".toList := by
    decide +kernel
  refine ⟨htext, ?_, by rw [htext]; decide +kernel⟩
  intro h
  rcases Sheet.separated_of_evaluate h (.node _) (List.mem_singleton.mpr rfl) with ⟨hnone | hnone, -⟩
  · cases hnone
  · cases hnone

end LessCss.Plain
