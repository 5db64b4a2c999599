import LessCss.Proofs.Token.Lexeme
import LessCss.Proofs.Token.Places
/-!
The tokens that a text spells, without their places.

`Token.spell b s t` are the tokens of `t` after a token of kind `b`, with a gap before them if `s`. It has one
equation for a text with a lexeme in it and one for a text without, and a blank in front only sets the flag.
`Lexeme.Found` says what the lexemes of each kind are.
-/
namespace LessCss

namespace Lexeme

theorem readString_kind (quote : Char) (t : Text) :
    (readString quote t).kind = .string ∨ (readString quote t).kind = .unterminated := by
  fun_induction readString quote t <;> simp_all [push]

theorem readUrl_kind (quote : Option Char) (t : Text) :
    (readUrl quote t).kind = .url ∨ (readUrl quote t).kind = .unterminated := by
  fun_induction readUrl quote t <;> simp_all [push]

theorem readSigned_kind (kind : Token.Kind) (sign : Char) (t : Text) :
    (readSigned kind sign t).kind = kind ∨ (readSigned kind sign t).kind = .delim := by
  unfold readSigned
  dsimp only
  split
  · exact .inr rfl
  · exact .inl rfl

theorem readName_kind (t : Text) : (readName t).kind = .ident ∨ (readName t).kind = .function ∨
    (readName t).kind = .url ∨ (readName t).kind = .unterminated := by
  unfold readName
  dsimp only
  split
  · exact .inl rfl
  · split
    · split
      · exact .inr (.inr (readUrl_kind none _))
      · exact .inr (.inl rfl)
    · exact .inl rfl

theorem readNumber_kind (c : Char) (cs : Text) :
    (readNumber c cs).kind = .number ∨ (readNumber c cs).kind = .delim := by
  unfold readNumber
  split
  · exact .inl rfl
  · exact .inr rfl

/-- The kinds of single characters. -/
theorem singleKind_ne {kind : Token.Kind} (h : kind ∉ [Token.Kind.lbrace, .rbrace, .lparen, .rparen, .colon, .semicolon,
    .comma, .operator, .delim]) (c : Char) : singleKind c ≠ kind := by
  rintro rfl
  revert h
  unfold singleKind
  repeat' split
  all_goals simp

theorem readUrl_unterminated {q : Option Char} {t : Text} (h : (readUrl q t).kind = .unterminated) :
    (readUrl q t).rest = [] := by
  fun_induction readUrl q t <;> simp_all [push]

theorem readName_unterminated {t : Text} (h : (readName t).kind = .unterminated) : (readName t).rest = [] := by
  revert h
  unfold readName
  dsimp only
  split
  · simp
  · split
    · split
      · exact readUrl_unterminated
      · simp
    · simp

/-- What is not closed is a string or reaches to the end. -/
theorem read_unterminated {b : Option Token.Kind} {s : Bool} {c : Char} {cs : Text}
    (h : (read b s c cs).kind = .unterminated) :
    ((c = '"' ∨ c = '\'') ∧ (readString c cs).kind = .unterminated) ∨ (read b s c cs).rest = [] := by
  have hname := readName_unterminated (t := c :: cs)
  have hnumber := readNumber_kind c cs
  revert h
  fun_cases read b s c cs with
  | case1 hquote => exact fun hk => .inl ⟨hquote, hk⟩
  | case2 =>
    intro hk
    rcases readSigned_kind .hash c cs with h | h <;> simp [h] at hk
  | case3 =>
    intro hk
    rcases readSigned_kind .atKeyword c cs with h | h <;> simp [h] at hk
  | case4 | case5 =>
    intro hk
    rcases hnumber with h | h <;> simp [h] at hk
  | case6 | case7 => exact fun hk => .inr (hname hk)
  | case8 => exact fun hk => absurd hk (singleKind_ne (by decide) c)

/-- The lexemes that may begin with `c`, and what is known of each. -/
inductive Found (c : Char) (cs : Text) : Lexeme → Prop
  | quoted {l} (h : l.kind = .string ∨ l.kind = .url ∨ l.kind = .unterminated) : Found c cs l
  | signed {kind} (hsign : kind = .hash ∧ c = '#' ∨ kind = .atKeyword ∧ c = '@') (hne : cs.takeWhile isNameChar ≠ []) :
      Found c cs ⟨kind, c :: cs.takeWhile isNameChar, cs.dropWhile isNameChar⟩
  | number {m rest} (h : Measure.read? (c :: cs) = some (m, rest)) : Found c cs ⟨.number, m.text, rest⟩
  | ident (rest) : Found c cs ⟨.ident, (c :: cs).takeWhile isNameChar, rest⟩
  | function (name rest) : Found c cs ⟨.function, name ++ ['('], rest⟩
  | delim : Found c cs ⟨.delim, [c], cs⟩
  | single : Found c cs ⟨singleKind c, [c], cs⟩

variable {b : Option Token.Kind} {s : Bool} {c : Char} {cs : Text}

theorem found_readSigned {kind : Token.Kind} (hsign : kind = .hash ∧ c = '#' ∨ kind = .atKeyword ∧ c = '@') :
    Found c cs (readSigned kind c cs) := by
  unfold readSigned
  dsimp only
  split
  · exact .delim
  · next hne => exact .signed hsign (by simpa using hne)

theorem found_readNumber : Found c cs (readNumber c cs) := by
  unfold readNumber
  split
  · next hm => exact .number hm
  · exact .delim

theorem found_readName : Found c cs (readName (c :: cs)) := by
  unfold readName
  dsimp only
  split
  · exact .ident _
  · next cs _ =>
    split
    · next hparen =>
      split
      · exact .quoted (.inr (readUrl_kind none cs))
      · exact hparen ▸ .function _ _
    · exact .ident _

theorem found (b : Option Token.Kind) (s : Bool) (c : Char) (cs : Text) : Found c cs (read b s c cs) := by
  fun_cases read b s c cs with
  | case1 => exact .quoted ((readString_kind c cs).imp_right .inr)
  | case2 _ hc => exact found_readSigned (.inl ⟨rfl, hc⟩)
  | case3 _ _ hc => exact found_readSigned (.inr ⟨rfl, hc⟩)
  | case4 | case5 => exact found_readNumber
  | case6 | case7 => exact found_readName
  | case8 => exact .single

/-- A number is a measure from end to end. No other lexeme is a number. -/
theorem parse?_of_read (b : Option Token.Kind) (s : Bool) (c : Char) (cs : Text)
    (h : (read b s c cs).kind = .number) : (Measure.parse? (read b s c cs).text).isSome := by
  have hfound := found b s c cs
  generalize read b s c cs = l at hfound h ⊢
  cases hfound with
  | number hm =>
    rw [Measure.parse?, Measure.read?_alone hm]
    rfl
  | quoted hk => rcases hk with hk | hk | hk <;> simp [hk] at h
  | signed hsign => rcases hsign with ⟨rfl, -⟩ | ⟨rfl, -⟩ <;> cases h
  | ident | function | delim => cases h
  | single => exact absurd h (singleKind_ne (by decide) c)

/-- Commas, closing parentheses and operators are single characters. -/
theorem text_of_read (h : (read b s c cs).kind = .comma ∨ (read b s c cs).kind = .rparen ∨
    (read b s c cs).kind = .operator) : (read b s c cs).text = [c] ∧ singleKind c = (read b s c cs).kind := by
  have hfound := found b s c cs
  generalize read b s c cs = l at hfound h ⊢
  cases hfound with
  | single => exact ⟨rfl, rfl⟩
  | quoted hk => rcases hk with hk | hk | hk <;> simp [hk] at h
  | signed hsign => rcases hsign with ⟨rfl, -⟩ | ⟨rfl, -⟩ <;> simp at h
  | number | ident | function | delim => simp at h

/-- A token that stands for nothing in particular is a single character as well. -/
theorem text_of_read_delim (h : (read b s c cs).kind = .delim) : (read b s c cs).text = [c] := by
  have hfound := found b s c cs
  generalize read b s c cs = l at hfound h ⊢
  cases hfound with
  | delim | single => rfl
  | quoted hk => rcases hk with hk | hk | hk <;> exact nomatch hk.symm.trans h
  | signed hsign => rcases hsign with ⟨rfl, -⟩ | ⟨rfl, -⟩ <;> cases h
  | number | ident | function => cases h

/-- A function ends with its parenthesis. -/
theorem text_of_read_function (h : (read b s c cs).kind = .function) : ∃ name, (read b s c cs).text = name ++ ['('] := by
  have hfound := found b s c cs
  generalize read b s c cs = l at hfound h ⊢
  cases hfound with
  | function name => exact ⟨name, rfl⟩
  | quoted hk => rcases hk with hk | hk | hk <;> exact nomatch hk.symm.trans h
  | signed hsign => rcases hsign with ⟨rfl, -⟩ | ⟨rfl, -⟩ <;> cases h
  | number | ident | delim => cases h
  | single => exact absurd h (singleKind_ne (by decide) c)

theorem text_of_read_ident (h : (read b s c cs).kind = .ident) : ∀ d ∈ (read b s c cs).text, isNameChar d = true := by
  have hfound := found b s c cs
  generalize read b s c cs = l at hfound h ⊢
  cases hfound with
  | ident => exact fun d hd => List.mem_takeWhile_imp hd
  | quoted hk => rcases hk with hk | hk | hk <;> exact nomatch hk.symm.trans h
  | signed hsign => rcases hsign with ⟨rfl, -⟩ | ⟨rfl, -⟩ <;> cases h
  | number | function | delim => cases h
  | single => exact absurd h (singleKind_ne (by decide) c)

/-- A hash and an at-keyword are a sign and the name after it, up to its end. -/
theorem read_signed {kind : Token.Kind} (hkind : kind = .hash ∨ kind = .atKeyword) (h : (read b s c cs).kind = kind) :
    (kind = .hash ∧ c = '#' ∨ kind = .atKeyword ∧ c = '@') ∧ cs.takeWhile isNameChar ≠ [] ∧
      read b s c cs = ⟨kind, c :: cs.takeWhile isNameChar, cs.dropWhile isNameChar⟩ := by
  have hfound := found b s c cs
  generalize read b s c cs = l at hfound h ⊢
  cases hfound with
  | signed hsign hne =>
    subst h
    exact ⟨hsign, hne, rfl⟩
  | quoted hk => rcases hk with hk | hk | hk <;> simp [← h, hk] at hkind
  | number | ident | function | delim => simp [← h] at hkind
  | single => rcases hkind with rfl | rfl <;> exact absurd h (singleKind_ne (by decide) c)

theorem read_atKeyword (h : (read b s c cs).kind = .atKeyword) :
    c = '@' ∧ read b s c cs = ⟨.atKeyword, '@' :: cs.takeWhile isNameChar, cs.dropWhile isNameChar⟩ := by
  obtain ⟨hsign, -, hread⟩ := read_signed (.inr rfl) h
  rcases hsign with ⟨⟨⟩, -⟩ | ⟨-, rfl⟩
  exact ⟨rfl, hread⟩

theorem text_of_read_hash (h : (read b s c cs).kind = .hash) :
    ∃ name, (read b s c cs).text = '#' :: name ∧ name ≠ [] ∧ ∀ d ∈ name, isNameChar d = true := by
  obtain ⟨hsign, hne, hread⟩ := read_signed (.inl rfl) h
  rcases hsign with ⟨-, rfl⟩ | ⟨⟨⟩, -⟩
  exact ⟨_, by rw [hread], hne, fun d hd => List.mem_takeWhile_imp hd⟩

theorem read_kind_ne_eof (b : Option Token.Kind) (s : Bool) (c : Char) (cs : Text) :
    (read b s c cs).kind ≠ .eof := by
  have hfound := found b s c cs
  generalize read b s c cs = l at hfound ⊢
  cases hfound with
  | quoted hk => rcases hk with hk | hk | hk <;> simp [hk]
  | signed hsign => rcases hsign with ⟨rfl, -⟩ | ⟨rfl, -⟩ <;> simp
  | number | ident | function | delim => simp
  | single => exact singleKind_ne (by decide) c

end Lexeme

namespace Token

theorem stream_nil {t : Text} (h : (gap .outside t).rest = []) (b : Option Kind) (p : Position) : stream b p t =
    [⟨.eof, [], p.after (gap .outside t).taken, !(gap .outside t).taken.isEmpty⟩] := by
  rw [stream]
  split
  · rfl
  · simp_all

theorem stream_cons {c : Char} {t cs : Text} (h : (gap .outside t).rest = c :: cs) (b : Option Kind) (p : Position) :
    stream b p t =
      let l := Lexeme.read b (!(gap .outside t).taken.isEmpty) c cs
      let here := p.after (gap .outside t).taken
      ⟨l.kind, l.text, here, !(gap .outside t).taken.isEmpty⟩ :: stream (some l.kind) (here.after l.text) l.rest := by
  rw [stream]
  split
  · simp_all
  · next d ds hd =>
    rw [h, List.cons.injEq] at hd
    obtain ⟨rfl, rfl⟩ := hd
    rfl

theorem rest_length_lt {c : Char} {t cs : Text} (h : (gap .outside t).rest = c :: cs) (b : Option Kind) (s : Bool) :
    (Lexeme.read b s c cs).rest.length < t.length := by
  have hr := Lexeme.read_rest_length b s c cs
  have hg := congrArg List.length (gap_append .outside t)
  rw [List.length_append, h] at hg
  omega

/-- A token that is read from some text. -/
def IsLexeme (t : Token) : Prop := ∃ before spaced c cs, t.kind = (Lexeme.read before spaced c cs).kind ∧
  t.text = (Lexeme.read before spaced c cs).text

namespace IsLexeme

variable {t : Token}

theorem text_ne_nil (h : t.IsLexeme) : t.text ≠ [] := by
  obtain ⟨b, s, c, cs, -, htext⟩ := h
  rw [htext]
  exact Lexeme.read_text_ne_nil b s c cs

theorem measure (h : t.IsLexeme) (hk : t.kind = .number) : ∃ v unit, Measure.parse? t.text = some (v, unit) := by
  obtain ⟨b, s, c, cs, hkind, htext⟩ := h
  have hsome := Lexeme.parse?_of_read b s c cs (by rw [← hkind, hk])
  rw [← htext] at hsome
  obtain ⟨⟨v, unit⟩, hparse⟩ := Option.isSome_iff_exists.mp hsome
  exact ⟨v, unit, hparse⟩

theorem function (h : t.IsLexeme) (hk : t.kind = .function) : t.text = t.name ++ ['('] := by
  obtain ⟨b, s, c, cs, hkind, htext⟩ := h
  obtain ⟨name, hname⟩ := Lexeme.text_of_read_function (by rw [← hkind, hk])
  rw [← htext] at hname
  have hdrop : t.name = t.text.dropLast := by simp [Token.name, hk]
  rw [hdrop, hname, List.dropLast_concat]

theorem ident (h : t.IsLexeme) (hk : t.kind = .ident) : ∀ c ∈ t.text, isNameChar c = true := by
  obtain ⟨b, s, c, cs, hkind, htext⟩ := h
  rw [htext]
  exact Lexeme.text_of_read_ident (hkind ▸ hk)

theorem hash (h : t.IsLexeme) (hk : t.kind = .hash) :
    ∃ name, t.text = '#' :: name ∧ name ≠ [] ∧ ∀ c ∈ name, isNameChar c = true := by
  obtain ⟨b, s, c, cs, hkind, htext⟩ := h
  rw [htext]
  exact Lexeme.text_of_read_hash (hkind ▸ hk)

theorem atKeyword (h : t.IsLexeme) (hk : t.kind = .atKeyword) : ∃ name, t.text = '@' :: name := by
  obtain ⟨b, s, c, cs, hkind, htext⟩ := h
  obtain ⟨-, hread⟩ := Lexeme.read_atKeyword (hkind ▸ hk)
  exact ⟨_, htext.trans (congrArg Lexeme.text hread)⟩

theorem delim (h : t.IsLexeme) {c : Char} (hc : t.isDelim c = true) : t.text = [c] := by
  obtain ⟨hk, hhead⟩ := of_decide_eq_true hc
  obtain ⟨b, s, d, cs, hkind, htext⟩ := h
  have hd := htext.trans (Lexeme.text_of_read_delim (hkind ▸ hk))
  rw [hd, List.head?_cons, Option.some.injEq] at hhead
  rw [hd, hhead]

/-- The character that a comma, a closing parenthesis or an operator is. -/
theorem single (h : t.IsLexeme) (hk : t.kind = .comma ∨ t.kind = .rparen ∨ t.kind = .operator) :
    ∃ c, t.text = [c] ∧ Lexeme.singleKind c = t.kind := by
  obtain ⟨b, s, c, cs, hkind, htext⟩ := h
  obtain ⟨hc, hsingle⟩ := Lexeme.text_of_read (hkind ▸ hk)
  exact ⟨c, htext.trans hc, hsingle.trans hkind.symm⟩

theorem comma (h : t.IsLexeme) (hk : t.kind = .comma) : t.text = [','] := by
  obtain ⟨c, hc, hsingle⟩ := h.single (.inl hk)
  rw [hk] at hsingle
  revert hsingle
  unfold Lexeme.singleKind
  repeat' split
  all_goals simp_all

theorem rparen (h : t.IsLexeme) (hk : t.kind = .rparen) : t.text = [')'] := by
  obtain ⟨c, hc, hsingle⟩ := h.single (.inr (.inl hk))
  rw [hk] at hsingle
  revert hsingle
  unfold Lexeme.singleKind
  repeat' split
  all_goals simp_all

theorem operator (h : t.IsLexeme) {c : Char} (hc : t.isOperator c = true) : t.kind = .operator ∧ t.text = [c] := by
  obtain ⟨hk, hhead⟩ := of_decide_eq_true hc
  obtain ⟨d, hd, -⟩ := h.single (.inr (.inr hk))
  rw [hd, List.head?_cons, Option.some.injEq] at hhead
  exact ⟨hk, by rw [hd, hhead]⟩

end IsLexeme

/-- Every token of a text but the last is a lexeme. -/
theorem isLexeme_of_mem {b : Option Kind} {p : Position} {text : Text} {t : Token} (h : t ∈ stream b p text)
    (hk : t.kind ≠ .eof) : t.IsLexeme := by
  induction hn : text.length using Nat.strongRecOn generalizing b p text with
  | ind n ih =>
    cases hg : (gap .outside text).rest with
    | nil =>
      rw [stream_nil hg] at h
      obtain rfl := List.mem_singleton.mp h
      exact absurd rfl hk
    | cons c cs =>
      rw [stream_cons hg] at h
      rcases List.mem_cons.mp h with rfl | h
      · exact ⟨b, _, c, cs, rfl, rfl⟩
      · exact ih _ (hn ▸ rest_length_lt hg b _) h rfl

/-- The tokens of a text are the same wherever it begins, but for their places. -/
theorem stream_bare (b : Option Kind) (p q : Position) (t : Text) : (stream b p t).map bare = (stream b q t).map bare := by
  induction hn : t.length using Nat.strongRecOn generalizing b p q t with
  | ind n ih =>
    cases h : (gap .outside t).rest with
    | nil =>
      rw [stream_nil h, stream_nil h]
      rfl
    | cons c cs =>
      rw [stream_cons h, stream_cons h]
      simp only [List.map_cons, bare]
      rw [ih _ (hn ▸ rest_length_lt h b _) _ _ _ _ rfl]

/-- The tokens of `t` after a token of kind `b`, with a gap before them if `s`, without their places. -/
def spell (b : Option Kind) (s : Bool) (t : Text) : List Token := (stream b .start (if s then ' ' :: t else t)).map bare

theorem ofText_bare (t : Text) : (ofText t).map bare = spell none false t := rfl

variable {b : Option Kind} {s : Bool} {c : Char} {t cs : Text}

theorem spell_nil (h : (gap .outside t).rest = []) : spell b s t = [⟨.eof, [], .start, false⟩] := by
  cases s with
  | false =>
    rw [spell, if_neg (by simp), stream_nil h]
    simp [bare]
  | true =>
    have hb : (gap .outside (' ' :: t)).rest = [] := by rw [gap_blank (by rfl)]; exact h
    rw [spell, if_pos rfl, stream_nil hb]
    simp [bare]

theorem spell_cons (h : (gap .outside t).rest = c :: cs) : spell b s t =
    let spaced := s || !(gap .outside t).taken.isEmpty
    let l := Lexeme.read b spaced c cs
    ⟨l.kind, l.text, .start, spaced⟩ :: spell (some l.kind) false l.rest := by
  cases s with
  | false =>
    rw [spell, if_neg (by simp), stream_cons h]
    simp [bare, spell, Lexeme.read_kind_ne_eof, stream_bare _ _ .start]
  | true =>
    have hb : (gap .outside (' ' :: t)).rest = c :: cs := by rw [gap_blank (by rfl)]; exact h
    have ht : (gap .outside (' ' :: t)).taken.isEmpty = false := by rw [gap_blank (by rfl)]; rfl
    rw [spell, if_pos rfl, stream_cons hb]
    simp [bare, spell, Lexeme.read_kind_ne_eof, stream_bare _ _ .start, ht]

/-- A blank only counts as a gap. -/
theorem spell_blank (h : Text.isBlank c = true) : spell b s (c :: t) = spell b true t := by
  have hg := gap_blank h t
  have ht : (gap .outside (c :: t)).taken.isEmpty = false := by rw [hg]; rfl
  cases hr : (gap .outside t).rest with
  | nil => rw [spell_nil hr, spell_nil (by rw [hg]; exact hr)]
  | cons d ds =>
    rw [spell_cons hr, spell_cons (show (gap .outside (c :: t)).rest = d :: ds by rw [hg]; exact hr), ht]
    simp

/-- A lexeme without a gap of its own. -/
theorem spell_lexeme (h : GapState.outside.next? c cs = none) : spell b s (c :: cs) =
    ⟨(Lexeme.read b s c cs).kind, (Lexeme.read b s c cs).text, .start, s⟩ ::
      spell (some (Lexeme.read b s c cs).kind) false (Lexeme.read b s c cs).rest := by
  have hg := gap_of_next?_eq_none h
  rw [spell_cons (show (gap .outside (c :: cs)).rest = c :: cs by rw [hg]), hg]
  simp

end Token
end LessCss
