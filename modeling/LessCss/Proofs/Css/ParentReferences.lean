import LessCss.Proofs.Sheet.Selectors
import LessCss.Proofs.Token.Runs
import LessCss.Proofs.Token.Solid
/-!
What becomes of the tokens of a selector when its parent is put in.

Of the lexemes that may stand in a selector only an `&` itself and strings can hold an `&`
(`Lexeme.ampersand_of_read`). The parent is put into the text of the selector, where it takes the place of those in
strings as well. So a selector is combined token by token exactly if none of its strings holds one
(`Css.IsSelector.nest_iff`).
-/
namespace LessCss

namespace Text

variable {q c : Char} {t u parent : Text}

/-- What stands between quotes stays when blanks are trimmed. -/
theorem quoted_infix_trim (hq : isBlank q = false) (h : q :: (t ++ [q]) <:+: u) : q :: (t ++ [q]) <:+: trim u := by
  obtain ⟨before, after, rfl⟩ := h
  have hstart : trimStart (before ++ (q :: (t ++ [q])) ++ after) = (trimStart before ++ q :: t) ++ q :: after := by
    rw [List.append_assoc, List.cons_append, trimStart_append_cons hq]
    simp
  rw [trim, hstart, trimEnd_append_cons hq]
  exact ⟨trimStart before, trimEnd after, by simp⟩

theorem substitute_append (old : Char) (new t u : Text) :
    substitute old new (t ++ u) = substitute old new t ++ substitute old new u :=
  List.flatMap_append ..

theorem substitute_of_not_mem {old : Char} (h : old ∉ t) (new : Text) : substitute old new t = t := by
  induction t with
  | nil => rfl
  | cons c t ih =>
    rw [List.mem_cons, not_or] at h
    rw [substitute, List.flatMap_cons, if_neg (Ne.symm h.1)]
    exact congrArg (c :: ·) (ih h.2)

/-- Nothing is left of what is replaced by something else. -/
theorem not_mem_substitute {old : Char} {new : Text} (h : old ∉ new) (t : Text) : old ∉ substitute old new t := by
  intro hmem
  obtain ⟨c, -, hc⟩ := List.mem_flatMap.mp hmem
  split at hc
  · exact h hc
  · next hne => exact hne (List.mem_singleton.mp hc).symm

end Text

namespace Lexeme

variable {c : Char} {cs : Text}

theorem ampersand_not_mem_name (t : Text) : '&' ∉ t.takeWhile isNameChar :=
  fun h => absurd (List.mem_takeWhile_imp h) (by decide)

theorem ampersand_not_mem_readSigned {kind : Token.Kind} {sign : Char} (hsign : sign ≠ '&') (t : Text) :
    '&' ∉ (readSigned kind sign t).text := by
  rw [readSigned]
  split
  · exact fun h => hsign (List.mem_singleton.mp h).symm
  · exact fun h => (List.mem_cons.mp h).elim hsign.symm (ampersand_not_mem_name t)

theorem ampersand_not_mem_readNumber (hc : isNumeric c = true) (t : Text) : '&' ∉ (readNumber c t).text := by
  rw [readNumber]
  split
  · next m rest hm => exact fun h => absurd (isInner_measure (Measure.wellFormed_of_read? hm).1 _ h) (by decide)
  · rintro h
    obtain rfl := List.mem_singleton.mp h
    exact absurd hc (by decide)

theorem ampersand_not_mem_readName {t : Text} (hopen : (readName t).kind ≠ .unterminated)
    (hurl : (readName t).kind ≠ .url) : '&' ∉ (readName t).text := by
  have hname := ampersand_not_mem_name t
  revert hopen hurl
  unfold readName
  dsimp only
  split
  · exact fun _ _ => hname
  · next cs _ =>
    split
    · next hparen =>
      split
      · exact fun hopen hurl => ((readUrl_kind none cs).elim hurl hopen).elim
      · intro _ _ h
        rcases List.mem_append.mp h with h | h
        · exact hname h
        · rw [hparen] at h
          exact absurd h (by decide)
    · exact fun _ _ => hname

/-- Of the lexemes that may stand in a selector only strings hold an `&` among other characters. -/
theorem ampersand_of_read {b : Option Token.Kind} {s : Bool} (hstring : (read b s c cs).kind ≠ .string)
    (hopen : (read b s c cs).kind ≠ .unterminated) (hurl : (read b s c cs).kind ≠ .url)
    (h : '&' ∈ (read b s c cs).text) : (read b s c cs).kind = .delim ∧ (read b s c cs).text = ['&'] := by
  revert hstring hopen hurl h
  fun_cases read b s c cs with
  | case1 => exact fun hstring hopen => ((readString_kind c cs).elim hstring hopen).elim
  | case2 _ hhash => exact fun _ _ _ h => absurd h (ampersand_not_mem_readSigned (by rw [hhash]; decide) cs)
  | case3 _ _ hat => exact fun _ _ _ h => absurd h (ampersand_not_mem_readSigned (by rw [hat]; decide) cs)
  | case4 _ _ _ hstart =>
    exact fun _ _ _ h => absurd h (ampersand_not_mem_readNumber (isNumeric_of_startsNumeral hstart) cs)
  | case5 _ _ _ _ hminus =>
    exact fun _ _ _ h => absurd h (ampersand_not_mem_readNumber (by rw [hminus.1]; decide) cs)
  | case6 | case7 => exact fun _ hopen hurl h => absurd h (ampersand_not_mem_readName hopen hurl)
  | case8 =>
    intro _ _ _ h
    obtain rfl := List.mem_singleton.mp h
    exact ⟨rfl, rfl⟩

theorem quoted_of_read {b : Option Token.Kind} {s : Bool} (h : (read b s c cs).kind = .string) :
    ∃ q t, IsQuote q ∧ (read b s c cs).text = q :: (t ++ [q]) := by
  revert h
  fun_cases read b s c cs with
  | case1 hquote =>
    intro h
    obtain ⟨t, ht⟩ := List.getLast?_eq_some_iff.mp (readString_getLast? h)
    exact ⟨c, t, hquote, congrArg (c :: ·) ht⟩
  | case2 | case3 =>
    intro h
    rcases readSigned_kind _ c cs with hk | hk <;> exact absurd (hk.symm.trans h) (by decide)
  | case4 | case5 =>
    intro h
    rcases readNumber_kind c cs with hk | hk <;> exact absurd (hk.symm.trans h) (by decide)
  | case6 | case7 =>
    intro h
    rcases readName_kind (c :: cs) with hk | hk | hk | hk <;> exact absurd (hk.symm.trans h) (by decide)
  | case8 => exact fun h => absurd h (singleKind_ne (by decide) c)

end Lexeme
namespace Token

variable {t : Token} {g : List Token} {c : Char} {parent : Text}

theorem IsLexeme.ampersand (h : t.IsLexeme) (hfits : Written.inSelector t = true) (hstring : t.kind ≠ .string)
    (hmem : '&' ∈ t.text) : t.isDelim '&' = true ∧ t.text = ['&'] := by
  obtain ⟨b, s, c, cs, hkind, htext⟩ := h
  have hopen : t.kind ≠ .unterminated ∧ t.kind ≠ .url := by
    unfold Written.inSelector at hfits
    split at hfits <;> simp_all
  rw [htext] at hmem
  obtain ⟨hk, ht⟩ := Lexeme.ampersand_of_read (hkind ▸ hstring) (hkind ▸ hopen.1) (hkind ▸ hopen.2) hmem
  exact ⟨by simp [isDelim, hkind, htext, hk, ht], htext.trans ht⟩

theorem IsLexeme.quoted (h : t.IsLexeme) (hk : t.kind = .string) : ∃ q u, IsQuote q ∧ t.text = q :: (u ++ [q]) := by
  obtain ⟨b, s, c, cs, hkind, htext⟩ := h
  rw [htext]
  exact Lexeme.quoted_of_read (hkind ▸ hk)

/-- A string keeps what it is when the blanks around it are trimmed. -/
theorem IsLexeme.infix_trim (h : t.IsLexeme) (hk : t.kind = .string) {u : Text} (hstands : t.text <:+: u) :
    t.text <:+: Text.trim u := by
  obtain ⟨q, v, hq, htext⟩ := h.quoted hk
  have hblank : Text.isBlank q = false := by rcases hq with rfl | rfl <;> decide
  rw [htext] at hstands ⊢
  exact Text.quoted_infix_trim hblank hstands

theorem mem_of_isDelim (h : t.isDelim c = true) : c ∈ t.text := List.mem_of_mem_head? (of_decide_eq_true h).2

/-- A token with the parent in its place if it is an `&`. -/
def refer (parent : Text) (t : Token) : Token := if t.isDelim '&' then { t with text := parent } else t

theorem substitute_words (h : ∀ t ∈ g, Text.substitute '&' parent t.text = (refer parent t).text) :
    Text.substitute '&' parent (words g) = words (g.map (refer parent)) := by
  have hspaced : ∀ t, (refer parent t).spaced = t.spaced := by
    intro t
    rw [refer]
    split <;> rfl
  have hspace : ∀ s, Text.substitute '&' parent (space s) = space s := by
    rintro (_ | _) <;> rfl
  have hflat : ∀ us, (∀ t ∈ us, t ∈ g) → Text.substitute '&' parent (flat us) = flat (us.map (refer parent)) := by
    intro us hus
    induction us with
    | nil => rfl
    | cons u us ih =>
      obtain ⟨hu, hus⟩ := List.forall_mem_cons.mp hus
      rw [List.map_cons, flat_cons, flat_cons, Text.substitute_append, Text.substitute_append, hspace, h u hu, hspaced,
        ih hus]
  cases g with
  | nil => rfl
  | cons t ts =>
    rw [List.map_cons, words, words, Text.substitute_append, h t List.mem_cons_self,
      hflat ts fun u hu => List.mem_cons_of_mem t hu]

end Token

/-- A selector inside a rule with selector `parent`, token by token. Each `&` that is a token stands for the parent.
Without one the parent comes first. -/
def Css.nestTokens (parent : Text) (g : List Token) : Text :=
  if g.any (·.isDelim '&') then Text.trim (Token.words (g.map (Token.refer parent)))
  else Text.trim parent ++ ' ' :: Text.trim (Token.words g)

namespace Css

variable {g : List Token} {t : Token} {parent : Text}

theorem string_infix_nestTokens (hg : ∀ t ∈ g, t.IsLexeme) (ht : t ∈ g) (hk : t.kind = .string) (parent : Text) :
    t.text <:+: nestTokens parent g := by
  rw [nestTokens]
  split
  · have href : t ∈ g.map (Token.refer parent) :=
      List.mem_map.mpr ⟨t, ht, by rw [Token.refer, if_neg (by simp [Token.isDelim, hk])]⟩
    exact (hg t ht).infix_trim hk (Token.text_infix_words href)
  · have hwords := (hg t ht).infix_trim hk (Token.text_infix_words ht)
    exact hwords.trans ⟨Text.trim parent ++ [' '], [], by simp⟩

/-- A selector of a sheet: lexemes that may stand in a selector. -/
structure IsSelector (g : List Token) : Prop where
  lexemes : ∀ t ∈ g, t.IsLexeme
  fits : ∀ t ∈ g, Written.inSelector t = true

/-- No string of a selector holds an `&`. -/
def BareStrings (g : List Token) : Prop := ∀ t ∈ g, t.kind = .string → '&' ∉ t.text

theorem IsSelector.join (h : IsSelector g) : Token.join g = Token.words g :=
  Token.join_eq_words fun t ht => (h.lexemes t (List.mem_of_mem_head? ht)).text_ne_nil

theorem IsSelector.substitute (h : IsSelector g) (hbare : BareStrings g) (ht : t ∈ g) (parent : Text) :
    Text.substitute '&' parent t.text = (Token.refer parent t).text := by
  rw [Token.refer]
  by_cases hmem : '&' ∈ t.text
  · obtain ⟨hdelim, htext⟩ := (h.lexemes t ht).ampersand (h.fits t ht) (fun hk => hbare t ht hk hmem) hmem
    rw [if_pos hdelim, htext]
    exact List.append_nil parent
  · rw [if_neg (mt Token.mem_of_isDelim hmem)]
    exact Text.substitute_of_not_mem hmem parent

theorem IsSelector.contains (h : IsSelector g) (hbare : BareStrings g) :
    (Token.words g).contains '&' = g.any (·.isDelim '&') := by
  rw [Bool.eq_iff_iff, List.contains_iff_mem, Token.mem_words (by decide), List.any_eq_true]
  refine exists_congr fun t => and_congr_right fun ht => ⟨fun hmem => ?_, Token.mem_of_isDelim⟩
  exact ((h.lexemes t ht).ampersand (h.fits t ht) (fun hk => hbare t ht hk hmem) hmem).1

theorem IsSelector.nest (h : IsSelector g) (hbare : BareStrings g) (parent : Text) :
    nestSelector parent (Token.join g) = nestTokens parent g := by
  rw [nestSelector, nestTokens, h.join, h.contains hbare,
    Token.substitute_words fun t ht => h.substitute hbare ht parent]

/-- Of a selector that holds an `&` no `&` is left, unless the parent brings it. -/
theorem ampersand_not_mem_nestSelector {child : Text} (hparent : '&' ∉ parent) (hchild : '&' ∈ child) :
    '&' ∉ nestSelector parent child := by
  rw [nestSelector, if_pos (List.contains_iff_mem.mpr hchild)]
  exact fun h => Text.not_mem_substitute hparent child (Text.mem_of_mem_trim h)

/-- The strings of a selector occur in it with every parent exactly if none of them holds an `&`. -/
theorem IsSelector.strings_iff (h : IsSelector g) :
    (∀ parent, ∀ t ∈ g, t.kind = .string → t.text <:+: nestSelector parent (Token.join g)) ↔ BareStrings g := by
  refine ⟨fun hall t ht hk hmem => ?_, fun hbare parent t ht hk => ?_⟩
  · -- the empty parent takes every `&` away, also that of the string
    have hchild : '&' ∈ Token.join g := by
      rw [h.join]
      exact (Token.text_infix_words ht).subset hmem
    exact ampersand_not_mem_nestSelector List.not_mem_nil hchild ((hall [] t ht hk).subset hmem)
  · rw [h.nest hbare]
    exact string_infix_nestTokens h.lexemes ht hk parent

/-- A selector is combined token by token with every parent exactly if none of its strings holds an `&`. -/
theorem IsSelector.nest_iff (h : IsSelector g) :
    (∀ parent, nestSelector parent (Token.join g) = nestTokens parent g) ↔ BareStrings g := by
  refine ⟨fun hall => h.strings_iff.mp fun parent t ht hk => ?_, fun hbare parent => h.nest hbare parent⟩
  rw [hall parent]
  exact string_infix_nestTokens h.lexemes ht hk parent

/-- How the selectors of a row are combined with parents. Each is combined token by token, and keeps its strings,
exactly if no string of it holds an `&`. -/
structure Combined (row : List Token) (selectors : List Text) : Prop where
  nested : ∀ parents, parents ≠ [] → nestSelectors parents selectors =
    parents.flatMap fun p => (row.splitOnP Tokens.isComma).map fun g => nestSelector p (Token.join g)
  tokens_iff : ∀ g ∈ row.splitOnP Tokens.isComma,
    (∀ parent, nestSelector parent (Token.join g) = nestTokens parent g) ↔ BareStrings g
  strings_iff : ∀ g ∈ row.splitOnP Tokens.isComma,
    (∀ parent, ∀ t ∈ g, t.kind = .string → t.text <:+: nestSelector parent (Token.join g)) ↔ BareStrings g

end Css

open Tokens (HeadsRule)

theorem Tokens.HeadsRule.isSelector {source : Text} {selectors : List Text} {row g : List Token}
    (h : HeadsRule (Token.ofText source) selectors row) (hg : g ∈ row.splitOnP isComma) : Css.IsSelector g where
  lexemes t ht := by
    have hfits := (Written.inSelector_iff (h.fits_group hg t ht)).1
    refine Token.isLexeme_of_mem (h.mem (mem_of_mem_group hg ht).1) fun hk => ?_
    simp [isStop, hk] at hfits
  fits := h.fits_group hg

theorem Tokens.HeadsRule.combined {source : Text} {selectors : List Text} {row : List Token}
    (h : HeadsRule (Token.ofText source) selectors row) : Css.Combined row selectors where
  nested parents hparents := by
    rw [Css.nestSelectors_eq hparents, h.texts]
    simp only [List.map_map, Function.comp_def]
  tokens_iff g hg := (h.isSelector hg).nest_iff
  strings_iff g hg := (h.isSelector hg).strings_iff

/-- The selectors of every rule in a sheet are combined with parents token by token, unless a string holds an `&`. -/
theorem parse_combined {source : Text} {s : Sheet} (h : parse source = .ok s) : ∀ selectors ∈ s.rules,
    ∃ row, HeadsRule (Token.ofText source) selectors row ∧ Css.Combined row selectors := by
  intro selectors hs
  obtain ⟨row, hrow⟩ := Sheet.exists_headsRule h hs
  exact ⟨row, hrow, hrow.combined⟩

/-- A rule in a rule, with a string and an `&` in its selector. -/
theorem parse_combined_string :
    let source := ".a \x7b [x=\"y\"] & \x7b c: d; \x7d \x7d".toList
    ∃ s, parse source = .ok s ∧ s.rules = [[".a".toList], ["[x=\"y\"] &".toList]] ∧ ∀ selectors ∈ s.rules,
      ∃ row, HeadsRule (Token.ofText source) selectors row ∧ Css.Combined row selectors := by
  intro source
  have hparsed : (parse source).toOption.any fun s => s.rules = [[".a".toList], ["[x=\"y\"] &".toList]] := by
    decide +kernel
  obtain ⟨s, hs, hrules⟩ := (Option.any_eq_true _ _).mp hparsed
  have hparse := eq_ok_of_toOption hs
  exact ⟨s, hparse, of_decide_eq_true hrules, parse_combined hparse⟩

/-- The parent takes the place of an `&` in a string, so it does not come first and the string is lost. -/
theorem compile_string_replaced :
    let source := "a \x7b [x=\"&\"] \x7b c: d; \x7d \x7d".toList
    let g := ((Token.ofText source).drop 2).take 5
    Css.nestTokens "a".toList g = "a [x=\"&\"]".toList ∧
      Css.nestSelector "a".toList (Token.join g) = "[x=\"a\"]".toList ∧
      (∃ t ∈ g, t.kind = .string ∧ ¬t.text <:+: Css.nestSelector "a".toList (Token.join g)) ∧
      compile .pretty source = .ok "[x=\"a\"] \x7b\n  c: d;\n\x7d\n".toList := by
  decide +kernel

end LessCss
