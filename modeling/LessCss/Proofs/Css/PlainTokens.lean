import LessCss.Proofs.Css.Plain
import LessCss.Proofs.Token.Runs
/-!
The tokens of the parts of a plain sheet, and that their texts are read as these tokens.

`ReadAs text tokens` says that a text is read as the given tokens before any text that begins with a space or a
mark of punctuation. A row is read part by part (`Row.readAs`), so the statements about values and selectors
follow from those about words, numbers and strings.
-/
namespace LessCss.Plain

open Token (spell)
open Lexeme (mayBeSign)

theorem mem_boundaries {c : Char} : c ∈ boundaries ↔ c.toNat = 32 ∨ c.toNat = 44 ∨ c.toNat = 59 ∨ c.toNat = 58 ∨
    c.toNat = 123 ∨ c.toNat = 125 ∨ c.toNat = 33 := by
  simp [boundaries, eq_iff_toNat]

theorem next?_eq_none {c : Char} (hb : Text.isBlank c = false) (hc : c ≠ '/') (r : Text) :
    GapState.outside.next? c r = none := by
  simp [GapState.next?, hb, hc]

theorem Word.first_isNameStart (w : Word) : isNameStart w.first = true :=
  isNameStart_iff.mpr ((isAlpha_iff.mp w.first_isAlpha).elim .inl fun h => .inr (.inl h))

theorem Word.isNameChar (w : Word) : ∀ c ∈ w.text, isNameChar c = true := by
  intro c hc
  rcases List.mem_cons.mp hc with rfl | hc
  · exact isNameChar_of_isNameStart w.first_isNameStart
  · rw [isNameChar_iff, isNameStart_iff]
    rcases w.others_fit c hc with h | rfl
    · simp only [Char.isAlphanum, Bool.or_eq_true, isAlpha_iff, isDigit_iff] at h
      omega
    · exact .inr (.inr rfl)

theorem isBlank_of_lt {c : Char} (h : 33 ≤ c.toNat ∧ c.toNat < 128) : Text.isBlank c = false := by
  rw [← Bool.not_eq_true]
  simp [Text.isBlank]
  omega

theorem Word.next?_eq_none (w : Word) (r : Text) : GapState.outside.next? w.first r = none := by
  have h := isAlpha_iff.mp w.first_isAlpha
  refine Plain.next?_eq_none (isBlank_of_lt (by omega)) ?_ r
  simp only [Ne, eq_iff_toNat, Char.reduceToNat]
  omega

theorem Word.readAs (w : Word) : ReadAs w.text fun s => [token .ident s w.text] := by
  intro b s r _ hr
  have hparen : startsWith (· == '(') r = false := hr.startsWith_false fun _ => not_of_boundary (p := (· == '(')) (by decide)
  have hname := Lexeme.readName_ident w.isNameChar
    (hr.startsWith_false fun _ => not_of_boundary Lexeme.isNameChar_boundary) hparen
  have hread : Lexeme.read b s w.first (w.others ++ r) = ⟨.ident, w.text, r⟩ := by
    rw [Lexeme.read_name w.first_isNameStart]
    exact hname
  refine ⟨some .ident, ?_⟩
  rw [text, List.cons_append, Token.spell_lexeme (w.next?_eq_none _), hread]
  rfl

/-- A `#` or an `@` and the word directly after it. -/
theorem Word.readAs_signed (w : Word) {kind : Token.Kind} {sign : Char}
    (hs : sign = '#' ∧ kind = .hash ∨ sign = '@' ∧ kind = .atKeyword) :
    ReadAs (sign :: w.text) fun s => [token kind s (sign :: w.text)] := by
  intro b s r _ hr
  have hsigned : Lexeme.readSigned kind sign (w.text ++ r) = ⟨kind, sign :: w.text, r⟩ :=
    Lexeme.readSigned_text (by simp [text]) w.isNameChar
      (hr.startsWith_false fun _ => not_of_boundary Lexeme.isNameChar_boundary)
  have hread : Lexeme.read b s sign (w.text ++ r) = ⟨kind, sign :: w.text, r⟩ := by
    rw [← hsigned]
    rcases hs with ⟨rfl, rfl⟩ | ⟨rfl, rfl⟩ <;> simp [Lexeme.read]
  have hnext : GapState.outside.next? sign (w.text ++ r) = none := by
    rcases hs with ⟨rfl, rfl⟩ | ⟨rfl, rfl⟩ <;> simp [GapState.next?, Text.isBlank]
  refine ⟨some kind, ?_⟩
  rw [List.cons_append, Token.spell_lexeme hnext, hread]
  rfl

/-- A `.` directly before a word. -/
theorem Word.spell_dot (w : Word) (b : Option Token.Kind) (s : Bool) (r : Text) :
    spell b s ('.' :: (w.text ++ r)) = token .delim s ['.'] :: spell (some .delim) false (w.text ++ r) := by
  have hdigit := (isNameStart_only w.first_isNameStart).1
  have hread : Lexeme.read b s '.' (w.text ++ r) = ⟨.delim, ['.'], w.text ++ r⟩ := by
    simp [Lexeme.read, Lexeme.startsNumeral, text, hdigit, isNameStart, Lexeme.singleKind]
  rw [Token.spell_lexeme (Plain.next?_eq_none (by decide) (by decide) _), hread]
  rfl

/-- The tokens of a row, with `glue` between neighbours and a gap after it if `gap`. -/
def Row.tokens {α : Type} (glue : List Token) (gap : Bool) (tokens : Bool → α → List Token) (s : Bool)
    (r : Row α) : List Token :=
  tokens s r.first ++ r.others.flatMap fun a => glue ++ tokens gap a

/-- What stands between the parts of a row is read as tokens and a gap, and ends what is before it. -/
structure Glues (text : Text) (tokens : List Token) (gap : Bool) : Prop where
  reads : ∀ (b : Option Token.Kind) (r : Text), ∃ b', mayBeSign b' gap = true ∧
    spell b false (text ++ r) = tokens ++ spell b' gap r
  bounds : ∀ r, Bounded (text ++ r)

theorem Row.readAs {α : Type} {glue : Text} {glueTokens : List Token} {gap : Bool} {text : α → Text}
    {tokens : Bool → α → List Token} (hglue : Glues glue glueTokens gap)
    (h : ∀ a, ReadAs (text a) fun s => tokens s a) (row : Row α) :
    ReadAs (row.text glue text) fun s => row.tokens glueTokens gap tokens s := by
  obtain ⟨first, others⟩ := row
  induction others generalizing first with
  | nil => simpa [Row.text, Row.tokens] using h first
  | cons a others ih =>
    intro b s r hb hr
    obtain ⟨b₁, h₁⟩ := h first b s (glue ++ (Row.text glue text ⟨a, others⟩ ++ r)) hb (hglue.bounds _)
    obtain ⟨b₂, hsign, h₂⟩ := hglue.reads b₁ (Row.text glue text ⟨a, others⟩ ++ r)
    obtain ⟨b₃, h₃⟩ := ih a b₂ gap r hsign hr
    refine ⟨b₃, ?_⟩
    have htext : Row.text glue text ⟨first, a :: others⟩ ++ r =
        text first ++ (glue ++ (Row.text glue text ⟨a, others⟩ ++ r)) := by
      simp [Row.text]
    rw [htext, h₁, h₂, h₃]
    simp [Row.tokens]

theorem glues_space : Glues [' '] [] true where
  reads b r := ⟨b, rfl, Token.spell_blank (by rfl)⟩
  bounds r := Bounded.cons (by decide) r

theorem glues_comma : Glues [','] [token .comma false [',']] false where
  reads b r := ⟨some .comma, rfl, spell_mark .comma b false r⟩
  bounds r := Mark.comma.bounded r

theorem glues_comma_space : Glues [',', ' '] [token .comma false [',']] true where
  reads b r := by
    refine ⟨some .comma, rfl, ?_⟩
    rw [List.cons_append, spell_mark .comma, List.cons_append, Token.spell_blank (by rfl)]
    rfl
  bounds r := Mark.comma.bounded _

def Compound.tokens (s : Bool) : Compound → List Token
  | name w => [token .ident s w.text]
  | dotted w => [token .delim s ['.'], token .ident false w.text]
  | hash w => [token .hash s ('#' :: w.text)]
  | colon w v => [token .ident s w.text, token .colon false [':'], token .ident false v.text]

theorem Compound.readAs (c : Compound) : ReadAs c.text fun s => c.tokens s := by
  cases c with
  | name w => exact w.readAs
  | dotted w =>
    intro b s r _ hr
    obtain ⟨b', h⟩ := w.readAs (some .delim) false r rfl hr
    refine ⟨b', ?_⟩
    rw [text, List.cons_append, w.spell_dot, h]
    rfl
  | hash w => exact w.readAs_signed (.inl ⟨rfl, rfl⟩)
  | colon w v =>
    intro b s r hb hr
    obtain ⟨b₁, h₁⟩ := w.readAs b s (':' :: (v.text ++ r)) hb (Mark.colon.bounded _)
    obtain ⟨b₂, h₂⟩ := v.readAs (some .colon) false r rfl hr
    refine ⟨b₂, ?_⟩
    have hcolon := spell_mark .colon b₁ false (v.text ++ r)
    rw [text, List.append_assoc, List.cons_append, h₁, hcolon, h₂]
    rfl

def selectorTokens (s : Bool) (sel : Selector) : List Token := sel.tokens [] true Compound.tokens s

theorem selector_readAs (sel : Selector) : ReadAs (selectorText sel) fun s => selectorTokens s sel :=
  Row.readAs glues_space Compound.readAs sel

/-- A plain number as a measure. -/
def Number.measure (n : Number) : Measure where
  number :=
    { sign := if n.negative then ['-'] else []
      whole := n.whole.text
      fraction := n.fraction.map Digits.text
      exponent := none }
  unit := n.unit.text

theorem Number.measure_text (n : Number) : n.measure.text = n.text := by
  cases h : n.fraction <;> simp [Measure.text, Numeral.text, measure, text, h]

theorem Number.wellFormed (n : Number) : n.measure.WellFormed where
  number :=
    { sign := by cases n.negative <;> simp [measure]
      whole := n.whole.fit
      fraction := by
        cases h : n.fraction with
        | none => simp [measure, h]
        | some f => simpa [measure, h] using ⟨f.ne_nil, f.fit⟩
      digits := .inl n.whole.ne_nil
      exponent := by simp [measure] }
  unit := by
    cases h : n.unit with
    | percent => exact .inl (by simp [measure, h, Measurement.text])
    | letters l => exact .inr (by simpa [measure, h, Measurement.text] using l.fit)

theorem Letters.startsWith_false (l : Letters) {p : Char → Bool} {r : Text} (hr : Bounded r)
    (hp : ∀ c, c.isAlpha = true ∨ c ∈ boundaries → p c = false) : startsWith p (l.text ++ r) = false := by
  cases h : l.text with
  | nil => exact hr.startsWith_false fun c hc => hp c (.inr hc)
  | cons c cs => exact hp c (.inl (l.fit c (by simp [h])))

theorem Measurement.startsWith_false (u : Measurement) {p : Char → Bool} {r : Text} (hr : Bounded r)
    (hp : ∀ c, c.isAlpha = true ∨ c ∈ boundaries ∨ c = '%' → p c = false) :
    startsWith p (u.text ++ r) = false := by
  cases u with
  | percent => exact hp '%' (.inr (.inr rfl))
  | letters l => exact l.startsWith_false hr fun c hc => hp c (hc.imp_right .inl)

theorem not_isDigit {c : Char} (h : c.isAlpha = true ∨ c ∈ boundaries ∨ c = '%') : c.isDigit = false := by
  rw [isAlpha_iff, mem_boundaries, eq_iff_toNat] at h
  rw [← Bool.not_eq_true, isDigit_iff]
  simp only [Char.reduceToNat] at h
  omega

theorem not_isSign {c : Char} (h : c.isAlpha = true ∨ c ∈ boundaries) : Exponent.isSign c = false := by
  rw [isAlpha_iff, mem_boundaries] at h
  simp only [Exponent.isSign, decide_eq_false_iff_not, eq_iff_toNat, Char.reduceToNat]
  omega

theorem Letters.no_exponent (l : Letters) {r : Text} (hr : Bounded r) : Exponent.read? (l.text ++ r) = none := by
  have htail : ∀ l : Letters, startsWith Char.isDigit (Text.tailIf Exponent.isSign (l.text ++ r)) = false := by
    intro l
    rw [(Exponent.tailIf_of_stop (l.startsWith_false hr fun c hc => not_isSign hc)).1]
    exact l.startsWith_false hr fun c hc => not_isDigit (hc.imp_right .inl)
  cases h : l.text with
  | nil =>
    cases r with
    | nil => rfl
    | cons c cs =>
      refine (Exponent.read?_eq_none c cs).mpr (.inl ?_)
      have hc : c ∈ boundaries := by simpa [Bounded] using hr
      simp only [mem_boundaries, eq_iff_toNat, Char.reduceToNat] at hc ⊢
      omega
  | cons c cs => exact (Exponent.read?_eq_none c (cs ++ r)).mpr (.inr (htail ⟨cs, fun d hd => l.fit d (by simp [h, hd])⟩))

/-- A boundary ends a number. -/
theorem Number.ends (n : Number) {r : Text} (hr : Bounded r) : n.measure.Ends r where
  number :=
    { digit := n.unit.startsWith_false hr fun _ => not_isDigit
      exponent := by
        intro _
        change Exponent.read? (n.unit.text ++ r) = none
        cases n.unit with
        | percent => rfl
        | letters l => exact l.no_exponent hr
      fraction := by
        intro _ _
        have hpoint := n.unit.startsWith_false (p := (· == '.')) hr fun c hc => by
          rw [isAlpha_iff, mem_boundaries, eq_iff_toNat] at hc
          simp only [beq_eq_false_iff_ne, Ne, eq_iff_toNat, Char.reduceToNat] at hc ⊢
          omega
        change Numeral.readFraction? (n.unit.text ++ r) = none
        cases h : n.unit.text ++ r with
        | nil => rfl
        | cons c cs =>
          rw [h] at hpoint
          exact (Numeral.readFraction?_eq_none c cs).mpr (.inl (by simpa using hpoint)) }
  letter := by
    intro _
    apply hr.startsWith_false
    intro c hc
    rw [mem_boundaries] at hc
    rw [← Bool.not_eq_true, isAlpha_iff]
    omega
  percent := by
    intro _
    apply hr.startsWith_false
    intro c hc
    rw [mem_boundaries] at hc
    simp only [beq_eq_false_iff_ne, Ne, eq_iff_toNat, Char.reduceToNat]
    omega

theorem Number.startsNumeral (n : Number) (t : Text) : Lexeme.startsNumeral (n.whole.text ++ t) = true := by
  cases h : n.whole.text with
  | nil => exact absurd h n.whole.ne_nil
  | cons c cs => simp [Lexeme.startsNumeral, n.whole.fit c (by simp [h])]

theorem Number.readAs (n : Number) : ReadAs n.text fun s => [token .number s n.text] := by
  intro b s r hb hr
  have htail := n.startsNumeral ((n.fraction.elim [] fun f => '.' :: f.text) ++ (n.unit.text ++ r))
  have hnumber : ∀ {c cs}, n.text ++ r = c :: cs → Lexeme.readNumber c cs = ⟨.number, n.text, r⟩ := by
    intro c cs h
    rw [← n.measure_text] at h ⊢
    exact Lexeme.readNumber_text n.wellFormed (n.ends hr) h
  have hread : ∃ c cs, n.text ++ r = c :: cs ∧ Lexeme.read b s c cs = ⟨.number, n.text, r⟩ ∧
      Text.isBlank c = false ∧ c ≠ '/' := by
    cases hneg : n.negative with
    | true =>
      refine ⟨'-', n.whole.text ++ ((n.fraction.elim [] fun f => '.' :: f.text) ++ (n.unit.text ++ r)),
        by simp [text, hneg], ?_, by decide, by decide⟩
      rw [Lexeme.read_negative htail hb]
      exact hnumber (by simp [text, hneg])
    | false =>
      obtain ⟨c, cs, hw⟩ := List.exists_cons_of_ne_nil n.whole.ne_nil
      have hc := isDigit_iff.mp (n.whole.fit c (by simp [hw]))
      have htext : n.text ++ r = c :: (cs ++ ((n.fraction.elim [] fun f => '.' :: f.text) ++ (n.unit.text ++ r))) := by
        simp [text, hneg, hw]
      refine ⟨c, _, htext, ?_, isBlank_of_lt (by omega), ?_⟩
      · rw [hw, List.cons_append] at htail
        rw [Lexeme.read_number b s htail]
        exact hnumber htext
      · simp only [Ne, eq_iff_toNat, Char.reduceToNat]
        omega
  obtain ⟨c, cs, htext, hread, hblank, hslash⟩ := hread
  refine ⟨some .number, ?_⟩
  rw [htext, Token.spell_lexeme (next?_eq_none hblank hslash _), hread]
  rfl

theorem readString_body {body : Text} (h : ∀ c ∈ body, Text.isBlank c = false ∧ c ≠ '"' ∧ c ≠ '\\') (r : Text) :
    Lexeme.readString '"' (body ++ '"' :: r) = ⟨.string, body ++ ['"'], r⟩ := by
  induction body with
  | nil => exact Lexeme.readString_quote (by decide) r
  | cons c body ih =>
    simp only [List.forall_mem_cons] at h
    have hn : c ≠ '\n' := by
      rintro rfl
      exact absurd h.1.1 (by decide)
    rw [List.cons_append, Lexeme.readString_plain hn h.1.2.1 h.1.2.2, ih h.2]
    rfl

theorem Quoted.readAs (q : Quoted) : ReadAs q.text fun s => [token .string s q.text] := by
  intro b s r _ _
  have hread : Lexeme.read b s '"' (q.body ++ '"' :: r) = ⟨.string, q.text, r⟩ := by
    simp [Lexeme.read, readString_body q.fit, Lexeme.push, text]
  refine ⟨some .string, ?_⟩
  have htext : q.text ++ r = '"' :: (q.body ++ '"' :: r) := by simp [text]
  rw [htext, Token.spell_lexeme (next?_eq_none (by decide) (by decide) _), hread]
  rfl

def Item.kind : Item → Token.Kind
  | word _ => .ident
  | hash _ => .hash
  | number _ => .number
  | string _ => .string

/-- An item of a value is a single token. -/
def Item.token (s : Bool) (i : Item) : Token := LessCss.token i.kind s i.text

theorem Item.readAs (i : Item) : ReadAs i.text fun s => [i.token s] := by
  cases i with
  | word w => exact w.readAs
  | hash w => exact w.readAs_signed (.inl ⟨rfl, rfl⟩)
  | number n => exact n.readAs
  | string q => exact q.readAs

def groupTokens (s : Bool) (g : Group) : List Token := g.tokens [] true (fun s i => [i.token s]) s

def valueTokens (s : Bool) (v : Value) : List Token := v.tokens [token .comma false [',']] true groupTokens s

theorem group_readAs (g : Group) : ReadAs (groupText g) fun s => groupTokens s g :=
  Row.readAs glues_space Item.readAs g

theorem value_readAs (v : Value) : ReadAs (valueText v) fun s => valueTokens s v :=
  Row.readAs glues_comma_space group_readAs v

theorem glues_semicolon : Glues [';'] [token .semicolon false [';']] false where
  reads b r := ⟨some .semicolon, rfl, spell_mark .semicolon b false r⟩
  bounds r := Mark.semicolon.bounded r

theorem glues_comma_gap (gap : Bool) : Glues (',' :: space gap) [token .comma false [',']] gap := by
  cases gap with
  | false => exact glues_comma
  | true => exact glues_comma_space

/-- The word of a mark of importance. -/
def importantWord : Word := .ofChars 'i' "mportant".toList (by decide)

/-- The text of a declaration without what ends it. -/
def Declaration.text (gap : Bool) (d : Declaration) : Text :=
  d.name.text ++ ':' :: (space gap ++ (valueText d.value ++
    if d.important then space gap ++ '!' :: importantWord.text else []))

def importantTokens (gap : Bool) : List Token := [token .delim gap ['!'], token .ident false importantWord.text]

def Declaration.tokens (gap s : Bool) (d : Declaration) : List Token :=
  token .ident s d.name.text :: token .colon false [':'] ::
    (valueTokens gap d.value ++ if d.important then importantTokens gap else [])

theorem Declaration.readAs (gap : Bool) (d : Declaration) : ReadAs (d.text gap) fun s => d.tokens gap s := by
  intro b s r hb hr
  have hcolon : mayBeSign (some .colon) gap = true := by cases gap <;> rfl
  cases himportant : d.important with
  | false =>
    obtain ⟨b₁, h₁⟩ := d.name.readAs b s (':' :: (space gap ++ (valueText d.value ++ r))) hb (Bounded.cons (by decide) _)
    obtain ⟨b₂, h₂⟩ := value_readAs d.value (some .colon) gap r hcolon hr
    refine ⟨b₂, ?_⟩
    have htext : d.text gap ++ r = d.name.text ++ ':' :: (space gap ++ (valueText d.value ++ r)) := by
      simp [text, himportant]
    rw [htext, h₁, spell_mark .colon, spell_space, h₂]
    simp [tokens, himportant]
  | true =>
    obtain ⟨b₁, h₁⟩ := d.name.readAs b s
      (':' :: (space gap ++ (valueText d.value ++ (space gap ++ '!' :: (importantWord.text ++ r))))) hb
      (Bounded.cons (by decide) _)
    obtain ⟨b₂, h₂⟩ := value_readAs d.value (some .colon) gap (space gap ++ '!' :: (importantWord.text ++ r)) hcolon
      ((Bounded.cons (by decide) _).space gap)
    obtain ⟨b₃, h₃⟩ := importantWord.readAs (some .delim) false r rfl hr
    refine ⟨b₃, ?_⟩
    have htext : d.text gap ++ r = d.name.text ++ ':' :: (space gap ++ (valueText d.value ++
        (space gap ++ '!' :: (importantWord.text ++ r)))) := by
      simp [text, himportant]
    rw [htext, h₁, spell_mark .colon, spell_space, h₂,
      spell_space, spell_mark .bang, h₃]
    simp [tokens, himportant, importantTokens]

def selectorsText (gap : Bool) (sels : Row Selector) : Text := sels.text (',' :: space gap) selectorText

def selectorsTokens (gap s : Bool) (sels : Row Selector) : List Token :=
  sels.tokens [token .comma false [',']] gap selectorTokens s

theorem selectors_readAs (gap : Bool) (sels : Row Selector) :
    ReadAs (selectorsText gap sels) fun s => selectorsTokens gap s sels :=
  Row.readAs (glues_comma_gap gap) selector_readAs sels

/-- An at-keyword and its parameters. -/
def atText (name : Word) (params : Params) : Text := '@' :: (name.text ++ params.elim [] fun v => ' ' :: valueText v)

def paramsTokens (params : Params) : List Token := params.elim [] (valueTokens true)

def atTokens (s : Bool) (name : Word) (params : Params) : List Token :=
  token .atKeyword s ('@' :: name.text) :: paramsTokens params

theorem at_readAs (name : Word) (params : Params) : ReadAs (atText name params) fun s => atTokens s name params := by
  have hname : ReadAs ('@' :: name.text) fun s => [token .atKeyword s ('@' :: name.text)] :=
    name.readAs_signed (.inr ⟨rfl, rfl⟩)
  cases params with
  | none => simpa [atText, atTokens, paramsTokens] using hname
  | some v =>
    intro b s r hb hr
    obtain ⟨b₁, h₁⟩ := hname b s (' ' :: (valueText v ++ r)) hb (Bounded.cons (by decide) _)
    obtain ⟨b₂, h₂⟩ := value_readAs v b₁ true r rfl hr
    refine ⟨b₂, ?_⟩
    have htext : atText name (some v) ++ r = ('@' :: name.text) ++ ' ' :: (valueText v ++ r) := by
      simp [atText]
    rw [htext, h₁, Token.spell_blank (by rfl), h₂]
    simp [atTokens, paramsTokens]

end LessCss.Plain
