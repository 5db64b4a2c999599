import LessCss.Proofs.Number.Language
import LessCss.Proofs.Token.Tiles
/-!
The languages of the tokens.

The text of a token belongs to the language of its kind, and what follows it in the source does not go on with it
(`Token.stream_belong`). So the places at which the texts of tokens are cut stand within them (`Token.cuts_of_belongs`).
-/
namespace LessCss

/-- What stands between the quotes of a string: no newline and no such quote but after a backslash, which takes along
the character behind it. -/
inductive InString (quote : Char) : Text → Prop
  | nil : InString quote []
  | plain {c : Char} {t : Text} (hn : c ≠ '\n') (hq : c ≠ quote) (hb : c ≠ '\\') (h : InString quote t) :
      InString quote (c :: t)
  | escaped (c : Char) {t : Text} (h : InString quote t) : InString quote ('\\' :: c :: t)

def IsName (t : Text) : Prop := t ≠ [] ∧ ∀ c ∈ t, isNameChar c = true

namespace Lexeme

/-- The language of each kind of lexeme, and how what follows a lexeme ends it. -/
def Belongs (l : Lexeme) : Prop :=
  match l.kind with
  | .number => l.text ∈ Measure.expression.matches' ∧
      ∃ m, Measure.read? (l.text ++ l.rest) = some (m, l.rest) ∧ Measure.read? l.text = some (m, [])
  | .atKeyword => ∃ name, l.text = '@' :: name ∧ IsName name ∧ startsWith isNameChar l.rest = false
  | .hash => ∃ name, l.text = '#' :: name ∧ IsName name ∧ startsWith isNameChar l.rest = false
  | .ident => IsName l.text ∧ startsWith isNameChar l.rest = false ∧ startsWith (· == '(') l.rest = false
  | .function => ∃ name, l.text = name ++ ['('] ∧ IsName name
  | .url => ∃ name body, l.text = name ++ '(' :: (body ++ [')']) ∧ Text.sameLetters name "url".toList = true
  | .string => ∃ quote body, l.text = quote :: (body ++ [quote]) ∧ (quote = '"' ∨ quote = '\'') ∧ InString quote body
  | .unterminated => l.rest = [] ∨ l.rest.head? = some '\n'
  | .delim => ∃ c, l.text = [c] ∧ c ≠ '-' ∧ startsNumeral (c :: l.rest) = false
  | .eof => l.text = [] ∧ l.rest = []
  | kind => ∃ c, l.text = [c] ∧ singleKind c = kind

variable {b : Option Token.Kind} {s : Bool} {c : Char} {cs : Text}

theorem readString_body (quote : Char) (t : Text) :
    ((readString quote t).kind = .string ∧
      ∃ body, (readString quote t).text = body ++ [quote] ∧ InString quote body) ∨
    ((readString quote t).kind = .unterminated ∧
      ((readString quote t).rest = [] ∨ (readString quote t).rest.head? = some '\n')) := by
  fun_induction readString quote t with
  | case1 | case4 => exact .inr ⟨rfl, .inl rfl⟩
  | case2 => exact .inr ⟨rfl, .inr rfl⟩
  | case3 => exact .inl ⟨rfl, [], rfl, .nil⟩
  | case5 d ds _ _ ih =>
    refine ih.imp_left ?_
    rintro ⟨hkind, body, htext, hbody⟩
    exact ⟨hkind, '\\' :: d :: body, congrArg ('\\' :: d :: ·) htext, .escaped d hbody⟩
  | case6 c cs hn hq hb ih =>
    refine ih.imp_left ?_
    rintro ⟨hkind, body, htext, hbody⟩
    exact ⟨hkind, c :: body, congrArg (c :: ·) htext, .plain hn hq hb hbody⟩

theorem belongs_readString (hc : c = '"' ∨ c = '\'') : ((readString c cs).push c).Belongs := by
  rcases readString_body c cs with ⟨hkind, body, htext, hbody⟩ | ⟨hkind, hrest⟩
  · simp only [Belongs, push, hkind]
    exact ⟨c, body, congrArg (c :: ·) htext, hc, hbody⟩
  · simp only [Belongs, push, hkind]
    exact hrest

theorem readUrl_body (quote : Option Char) (t : Text) :
    ((readUrl quote t).kind = .url ∧ ∃ body, (readUrl quote t).text = body ++ [')']) ∨
    ((readUrl quote t).kind = .unterminated ∧ (readUrl quote t).rest = []) := by
  fun_induction readUrl quote t with
  | case1 | case6 => exact .inr ⟨rfl, rfl⟩
  | case2 => exact .inl ⟨rfl, [], rfl⟩
  | case3 c _ _ _ ih | case4 c _ _ _ ih | case5 c _ ih | case8 _ c _ _ _ ih =>
    refine ih.imp_left ?_
    rintro ⟨hkind, body, htext⟩
    exact ⟨hkind, c :: body, congrArg (c :: ·) htext⟩
  | case7 q d ds _ ih =>
    refine ih.imp_left ?_
    rintro ⟨hkind, body, htext⟩
    exact ⟨hkind, '\\' :: d :: body, congrArg ('\\' :: d :: ·) htext⟩

theorem isName_takeWhile {t : Text} (h : t.takeWhile isNameChar ≠ []) : IsName (t.takeWhile isNameChar) :=
  ⟨h, fun _ hc => List.mem_takeWhile_imp hc⟩

theorem belongs_readSigned {kind : Token.Kind} (hsign : kind = .hash ∧ c = '#' ∨ kind = .atKeyword ∧ c = '@') :
    (readSigned kind c cs).Belongs := by
  have hstop := startsWith_dropWhile isNameChar cs
  unfold readSigned
  dsimp only
  split
  · refine ⟨c, rfl, ?_⟩
    rcases hsign with ⟨-, rfl⟩ | ⟨-, rfl⟩
    · exact ⟨by decide, rfl⟩
    · exact ⟨by decide, rfl⟩
  · next hne =>
    have hname := isName_takeWhile fun hnil => hne (List.isEmpty_iff.mpr hnil)
    rcases hsign with ⟨rfl, rfl⟩ | ⟨rfl, rfl⟩
    · exact ⟨_, rfl, hname, hstop⟩
    · exact ⟨_, rfl, hname, hstop⟩

/-- A text that begins as a numeral does is never left to its first character. -/
theorem readNumber_eq (h : startsNumeral (c :: cs) = true ∨ c = '-' ∧ startsNumeral cs = true) :
    ∃ m rest, Measure.read? (c :: cs) = some (m, rest) ∧ readNumber c cs = ⟨.number, m.text, rest⟩ := by
  have htail : startsNumeral (Text.tailIf (fun d => decide (d = '-')) (c :: cs)) = true := by
    rcases h with h | ⟨rfl, h⟩
    · have hminus : c ≠ '-' := by
        rintro rfl
        simp [startsNumeral_cons] at h
      rwa [Text.tailIf, if_neg (by simpa using hminus)]
    · exact h
  obtain ⟨m, rest, hm⟩ := measure_of_startsNumeral htail
  exact ⟨m, rest, hm, by rw [readNumber, hm]⟩

theorem belongs_readNumber (h : startsNumeral (c :: cs) = true ∨ c = '-' ∧ startsNumeral cs = true) :
    (readNumber c cs).Belongs := by
  obtain ⟨m, rest, hm, hread⟩ := readNumber_eq h
  rw [hread]
  refine ⟨(Measure.read?_longest hm).1, m, ?_, Measure.read?_alone hm⟩
  dsimp only
  rw [Measure.read?_append hm, hm]

theorem belongs_readName (hc : isNameChar c = true) : (readName (c :: cs)).Belongs := by
  have hne : (c :: cs).takeWhile isNameChar ≠ [] := by simp [hc]
  have hname := isName_takeWhile hne
  have hstop := startsWith_dropWhile isNameChar (c :: cs)
  unfold readName
  dsimp only
  split
  · exact ⟨hname, rfl, rfl⟩
  · next d ds hrest =>
    split
    · next hparen =>
      subst hparen
      split
      · next hurl =>
        rcases readUrl_body none ds with ⟨hkind, body, htext⟩ | ⟨hkind, hrest⟩
        · simp only [Belongs, hkind]
          exact ⟨_, body, by rw [htext], hurl⟩
        · simp only [Belongs, hkind]
          exact .inl hrest
      · exact ⟨_, rfl, hname⟩
    · next hparen =>
      rw [hrest] at hstop
      exact ⟨hname, hstop, beq_eq_false_iff_ne.mpr hparen⟩

/-- A character that begins nothing else stands for itself, and a minus is an operator. -/
theorem belongs_single (hnumeral : ¬startsNumeral (c :: cs) = true) : Belongs ⟨singleKind c, [c], cs⟩ := by
  have hminus : singleKind c = .delim → c ≠ '-' := by
    rintro h rfl
    exact absurd h (by decide)
  have hkind : singleKind c ∈ [Token.Kind.lbrace, .rbrace, .lparen, .rparen, .colon, .semicolon, .comma, .operator,
      .delim] := by
    by_contra hnot
    exact singleKind_ne hnot c rfl
  unfold Belongs
  generalize hk : singleKind c = k at hkind hminus
  cases k with
  | delim => exact ⟨c, rfl, hminus rfl, Bool.eq_false_iff.mpr hnumeral⟩
  | colon | semicolon | comma | lbrace | rbrace | lparen | rparen | operator => exact ⟨c, rfl, hk⟩
  | ident | number | hash | atKeyword | string | unterminated | url | function | eof => simp at hkind

theorem read_belongs (b : Option Token.Kind) (s : Bool) (c : Char) (cs : Text) : (read b s c cs).Belongs := by
  fun_cases read b s c cs with
  | case1 hc => exact belongs_readString hc
  | case2 _ hc => exact belongs_readSigned (.inl ⟨rfl, hc⟩)
  | case3 _ _ hc => exact belongs_readSigned (.inr ⟨rfl, hc⟩)
  | case4 _ _ _ hc => exact belongs_readNumber (.inl hc)
  | case5 _ _ _ _ hc => exact belongs_readNumber (.inr ⟨hc.1, hc.2.1⟩)
  | case6 _ _ _ _ _ hc => exact belongs_readName (by rw [hc.1]; decide)
  | case7 _ _ _ _ _ _ hc => exact belongs_readName (isNameChar_of_isNameStart hc)
  | case8 _ _ _ hnumeral => exact belongs_single hnumeral

end Lexeme

/-- Each token of a row of tiles belongs to the language of its kind before what the tiles behind it cover. -/
def Tile.AllBelong : List Tile → Prop
  | [] => True
  | t :: ts => Lexeme.Belongs ⟨t.token.kind, t.token.text, ts.flatMap Tile.text⟩ ∧ AllBelong ts

theorem Tile.AllBelong.of_append {before after : List Tile} {t : Tile} (h : AllBelong (before ++ t :: after)) :
    Lexeme.Belongs ⟨t.token.kind, t.token.text, after.flatMap Tile.text⟩ := by
  induction before with
  | nil => exact h.1
  | cons u before ih => exact ih h.2

namespace Token

theorem stream_belong (b : Option Kind) (p : Position) (t : Text) :
    ∃ tiles, tiles.map Tile.token = stream b p t ∧ tiles.flatMap Tile.text = t ∧ Tile.AllBelong tiles := by
  induction b, p, t using stream.induct with
  | case1 b p t g hrest =>
    have hcut := gap_append .outside t
    refine ⟨[⟨(gap .outside t).taken, ⟨.eof, [], p.after (gap .outside t).taken, !(gap .outside t).taken.isEmpty⟩⟩],
      ?_, ?_, ⟨rfl, rfl⟩, trivial⟩
    · rw [stream_nil hrest]
      rfl
    · rw [hrest] at hcut
      simpa [Tile.text] using hcut
  | case2 b p t g here spaced c cs hrest l ih =>
    have hcut := gap_append .outside t
    have hread : l.text ++ l.rest = c :: cs := Lexeme.read_append b spaced c cs
    have hbelongs : l.Belongs := Lexeme.read_belongs b spaced c cs
    obtain ⟨tiles, htokens, htext, htiles⟩ := ih
    refine ⟨⟨g.taken, ⟨l.kind, l.text, here, spaced⟩⟩ :: tiles, ?_, ?_, ?_, htiles⟩
    · rw [stream_cons hrest, List.map_cons, htokens]
    · rw [List.flatMap_cons, htext, Tile.text, List.append_assoc, hread, ← hrest]
      exact hcut
    · rw [htext]
      exact hbelongs

end Token

namespace Text

/-- The length of a text in bytes. -/
def bytes : Text → Nat
  | [] => 0
  | c :: t => c.utf8Size + bytes t

/-- The part of a text between two places, which are counted in bytes and do not stand inside a character. -/
def IsSlice (t : Text) (start stop : Nat) (part : Text) : Prop :=
  ∃ before after, t = before ++ part ++ after ∧ bytes before = start ∧ bytes (before ++ part) = stop

theorem bytes_append (t u : Text) : bytes (t ++ u) = bytes t + bytes u := by
  induction t with
  | nil => simp [bytes]
  | cons c t ih => rw [List.cons_append, bytes, bytes, ih, Nat.add_assoc]

theorem bytes_ascii {c : Char} (h : c.utf8Size = 1) : bytes [c] = 1 := by
  rw [bytes, bytes, h]

/-- What is behind the first character, if it is a single byte. -/
theorem isSlice_tail {c : Char} (h : c.utf8Size = 1) (t : Text) : IsSlice (c :: t) 1 (bytes (c :: t)) t :=
  ⟨[c], [], (List.append_nil (c :: t)).symm, bytes_ascii h, rfl⟩

/-- What is before the last character, if it is a single byte. -/
theorem isSlice_dropLast {c : Char} (h : c.utf8Size = 1) (t : Text) :
    1 ≤ bytes (t ++ [c]) ∧ IsSlice (t ++ [c]) 0 (bytes (t ++ [c]) - 1) t := by
  rw [bytes_append, bytes_ascii h]
  exact ⟨Nat.le_add_left 1 _, [], [c], rfl, rfl, rfl⟩

theorem isSlice_inner {c : Char} (h : c.utf8Size = 1) (t : Text) :
    2 ≤ bytes (c :: (t ++ [c])) ∧ IsSlice (c :: (t ++ [c])) 1 (bytes (c :: (t ++ [c])) - 1) t := by
  have hbytes : bytes (c :: (t ++ [c])) = bytes (c :: t) + 1 := by
    rw [← List.cons_append, bytes_append, bytes_ascii h]
  have hpos : 1 ≤ bytes (c :: t) := by
    rw [← List.singleton_append, bytes_append, bytes_ascii h]
    exact Nat.le_add_right 1 _
  rw [hbytes]
  exact ⟨Nat.succ_le_succ hpos, [c], [c], rfl, bytes_ascii h, rfl⟩

end Text

/-- The places at which the text of a token is cut are within it: behind the sign of an at-keyword, before the
parenthesis of a function, and at both quotes of a string. -/
structure Token.Cuts (t : Token) : Prop where
  atKeyword : t.kind = .atKeyword → t.text.IsSlice 1 (Text.bytes t.text) t.name
  function : t.kind = .function → 1 ≤ Text.bytes t.text ∧ t.text.IsSlice 0 (Text.bytes t.text - 1) t.name
  string : t.kind = .string →
    2 ≤ Text.bytes t.text ∧ t.text.IsSlice 1 (Text.bytes t.text - 1) t.text.tail.dropLast

theorem Token.cuts_of_belongs {t : Token} {after : Text} (h : Lexeme.Belongs ⟨t.kind, t.text, after⟩) : t.Cuts where
  atKeyword hk := by
    simp only [Lexeme.Belongs, hk] at h
    obtain ⟨name, htext, -⟩ := h
    have hname : t.name = name := by simp only [Token.name, hk, htext, List.tail_cons]
    rw [hname, htext]
    exact Text.isSlice_tail (by decide) name
  function hk := by
    simp only [Lexeme.Belongs, hk] at h
    obtain ⟨name, htext, -⟩ := h
    have hname : t.name = name := by simp only [Token.name, hk, htext, List.dropLast_concat]
    rw [hname, htext]
    exact Text.isSlice_dropLast (by decide) name
  string hk := by
    simp only [Lexeme.Belongs, hk] at h
    obtain ⟨quote, body, htext, hquote, -⟩ := h
    have hbyte : quote.utf8Size = 1 := by rcases hquote with rfl | rfl <;> decide
    rw [htext, List.tail_cons, List.dropLast_concat]
    exact Text.isSlice_inner hbyte body

end LessCss
