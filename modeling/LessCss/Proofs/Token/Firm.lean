import LessCss.Proofs.Token.Spell
/-!
Firm texts.

In a firm text every string and every `url(…)` stands whole and no `@` outside of them begins a name. If it is quiet,
no `/` begins a comment either. Firm texts can be put one behind the other (`Firm.append`). Of a firm text a lexeme leaves
a firm text, since it takes a string or a `url(…)` as a whole or not at all (`Firm.read`). Only where a `url(` stands
directly behind a name or a `#` its letters are taken without what is in the parentheses, and only a comment ends
anywhere. So a firm text without these has no at-keyword (`Firm.stream`).
-/
namespace LessCss

open Lexeme (readString readUrl readName readNumber readSigned push isNumeric)

/-- The characters that begin a string, and a `url(…)` in quotes. -/
abbrev IsQuote (c : Char) : Prop := c = '"' ∨ c = '\''

/-- A text that no comment is begun with behind a `/`. -/
def Slashless (t : Text) : Prop := ∀ c ∈ t.head?, c ≠ '/' ∧ c ≠ '*'

inductive Firm (quiet : Prop) : Text → Prop
  | nil : Firm quiet []
  | plain {c t} (hquote : ¬IsQuote c) (hat : c = '@' → startsWith isNameChar t = false)
      (hslash : quiet → c = '/' → Slashless t) (ht : Firm quiet t) : Firm quiet (c :: t)
  | string {q t} (hquote : IsQuote q) (hk : (readString q t).kind = .string) (ht : Firm quiet (readString q t).rest) :
      Firm quiet (q :: t)
  | url {a b c t} (hurl : Text.sameLetters [a, b, c] "url".toList = true) (hk : (readUrl none t).kind = .url)
      (ht : Firm quiet (readUrl none t).rest) : Firm quiet (a :: b :: c :: '(' :: t)

/-- A `url(…)` stands directly behind a character of a name or a `#`, and what is in its parentheses is not firm. -/
def Glued (t : Text) : Prop := ∃ x a b c w, (isNameChar x = true ∨ x = '#') ∧
  Text.sameLetters [a, b, c] "url".toList = true ∧ (readUrl none w).kind = .url ∧ (readUrl none w).rest = [] ∧
  ¬Firm True w ∧ x :: a :: b :: c :: '(' :: w <:+: t

theorem Glued.mono {t u : Text} (h : Glued t) (ht : t <:+: u) : Glued u := by
  obtain ⟨x, a, b, c, w, hx, hurl, hk, hrest, hw, h⟩ := h
  exact ⟨x, a, b, c, w, hx, hurl, hk, hrest, hw, h.trans ht⟩

/-- A comment is met where the text is read. -/
inductive Commented : Option Token.Kind → Text → Prop
  | here {b t c} (hc : c ∈ (gap .outside t).taken) (hblank : Text.isBlank c = false) : Commented b t
  | later {b t c cs} (hrest : (gap .outside t).rest = c :: cs)
      (h : Commented (some (Lexeme.read b (!(gap .outside t).taken.isEmpty) c cs).kind)
        (Lexeme.read b (!(gap .outside t).taken.isEmpty) c cs).rest) : Commented b t

/-- No lexeme is made where the first text ends and the second one begins. -/
structure Apart (quiet : Prop) (t u : Text) : Prop where
  name : t.getLast? = some '@' → startsWith isNameChar u = false
  comment : quiet → t.getLast? = some '/' → Slashless u

variable {quiet : Prop} {a b c : Char} {cs t u : Text}

theorem Apart.suffix (h : Apart quiet t u) {v : Text} (hv : v <:+ t) : Apart quiet v u := by
  obtain ⟨before, rfl⟩ := hv
  have hlast : ∀ d, v.getLast? = some d → (before ++ v).getLast? = some d := by
    intro d hd
    rw [List.getLast?_append, hd]
    rfl
  exact ⟨fun hd => h.name (hlast _ hd), fun hq hd => h.comment hq (hlast _ hd)⟩

/-- A text that is firm and quiet is firm whether that matters or not. -/
theorem Firm.of_quiet (h : Firm True t) : Firm quiet t := by
  induction h with
  | nil => exact .nil
  | plain hquote hat hslash _ ih => exact .plain hquote hat (fun _ => hslash trivial) ih
  | string hquote hk _ ih => exact .string hquote hk ih
  | url hurl hk _ ih => exact .url hurl hk ih

/-- A character that stands for a small letter in either case is a letter. -/
theorem isAlpha_of_toLower (h : c.toLower.isAlpha = true) : c.isAlpha = true := by
  cases hc : c.isAlpha with
  | true => rfl
  | false =>
    have hupper : c.isUpper = false := (Bool.or_eq_false_iff.mp hc).1
    have hlower : c.toLower = c := dif_neg (of_decide_eq_false hupper)
    rw [hlower, hc] at h
    exact h

theorem isAlpha_of_url (h : Text.sameLetters [a, b, c] "url".toList = true) :
    a.isAlpha = true ∧ b.isAlpha = true ∧ c.isAlpha = true := by
  have hletters : a.toLower = 'u' ∧ b.toLower = 'r' ∧ c.toLower = 'l' := by
    simpa [Text.sameLetters] using h
  obtain ⟨ha, hb, hc⟩ := hletters
  exact ⟨isAlpha_of_toLower (by rw [ha]; rfl), isAlpha_of_toLower (by rw [hb]; rfl), isAlpha_of_toLower (by rw [hc]; rfl)⟩

theorem isAlpha_only (h : c.isAlpha = true) : Text.isBlank c = false ∧ ¬IsQuote c ∧ c ≠ '/' ∧ c ≠ ')' ∧ c ≠ '@' := by
  rw [isAlpha_iff] at h
  simp only [Text.isBlank, IsQuote, eq_iff_toNat, Ne, Char.reduceToNat, Bool.or_eq_false_iff, Bool.and_eq_false_iff,
    decide_eq_false_iff_not, beq_eq_false_iff_ne]
  omega

theorem isNumeric_only (h : isNumeric c = true) : ¬IsQuote c ∧ c.toLower ≠ 'u' := by
  simp only [isNumeric, Bool.or_eq_true, beq_iff_eq] at h
  rcases h with ((((h | rfl) | rfl) | rfl) | rfl) | rfl
  · refine ⟨?_, fun hu => ?_⟩
    · rintro (rfl | rfl) <;> exact absurd h (by decide)
    · have halpha := isAlpha_of_toLower (c := c) (by rw [hu]; rfl)
      rw [isAlpha_iff] at halpha
      rw [isDigit_iff] at h
      omega
  all_goals decide

theorem readString_more {q : Char} (hk : (readString q t).kind = .string) (u : Text) :
    readString q (t ++ u) = { readString q t with rest := (readString q t).rest ++ u } := by
  have hread := Lexeme.readString_ahead q t (by rw [hk]; decide) ((readString q t).rest ++ u)
  rwa [← List.append_assoc, Lexeme.readString_append] at hread

theorem readUrl_more {q : Option Char} (hk : (readUrl q t).kind = .url) (u : Text) :
    readUrl q (t ++ u) = { readUrl q t with rest := (readUrl q t).rest ++ u } := by
  have hread := Lexeme.readUrl_ahead q t (by rw [hk]; decide) ((readUrl q t).rest ++ u)
  rwa [← List.append_assoc, Lexeme.readUrl_append] at hread

theorem Firm.append (ht : Firm quiet t) (hu : Firm quiet u) (h : Apart quiet t u) : Firm quiet (t ++ u) := by
  induction ht with
  | nil => exact hu
  | @plain c t hquote hat hslash _ ih =>
    refine .plain hquote ?_ ?_ (ih (h.suffix (List.suffix_cons c t)))
    · rintro rfl
      cases t with
      | nil => exact h.name rfl
      | cons => exact hat rfl
    · rintro hq rfl
      cases t with
      | nil => exact h.comment hq rfl
      | cons => exact hslash hq rfl
  | @string q t hquote hk _ ih =>
    have hrest : (readString q t).rest <:+ q :: t :=
      List.IsSuffix.trans ⟨_, Lexeme.readString_append q t⟩ (List.suffix_cons q t)
    rw [List.cons_append]
    refine .string hquote ?_ ?_
    · rw [readString_more hk]
      exact hk
    · rw [readString_more hk]
      exact ih (h.suffix hrest)
  | @url a b c t hurl hk _ ih =>
    have hrest : (readUrl none t).rest <:+ a :: b :: c :: '(' :: t :=
      List.IsSuffix.trans ⟨_, Lexeme.readUrl_append none t⟩ ⟨[a, b, c, '('], rfl⟩
    simp only [List.cons_append]
    refine .url hurl ?_ ?_
    · rw [readUrl_more hk]
      exact hk
    · rw [readUrl_more hk]
      exact ih (h.suffix hrest)

/-- Characters that begin neither a string nor a `url(…)` are taken off. -/
theorem Firm.drop (h : Firm quiet (t ++ u)) (ht : ∀ d ∈ t, ¬IsQuote d ∧ d.toLower ≠ 'u') : Firm quiet u := by
  induction t with
  | nil => exact h
  | cons d t ih =>
    rw [List.forall_mem_cons] at ht
    rw [List.cons_append] at h
    generalize hv : t ++ u = v at h
    cases h with
    | plain _ _ _ hfirm => exact ih (hv ▸ hfirm) ht.2
    | string hquote => exact absurd hquote ht.1.1
    | url hurl =>
      have hletter : d.toLower = 'u' := (List.cons.inj (of_decide_eq_true hurl)).1
      exact absurd hletter ht.1.2

theorem Firm.letters (h : Firm quiet t) (name : Text) (hname : ∀ c ∈ name, c.isAlpha = true) : Firm quiet (name ++ t) := by
  induction name with
  | nil => exact h
  | cons c name ih =>
    rw [List.forall_mem_cons] at hname
    have hc := isAlpha_only hname.1
    exact .plain hc.2.1 (fun hat => absurd hat hc.2.2.2.2) (fun _ hslash => absurd hslash hc.2.2.1) (ih hname.2)

/-- What is in the parentheses of a `url(…)` stands before what comes behind it. -/
theorem Firm.enclosed (hk : (readUrl none t).kind = .url) (hw : Firm quiet (readUrl none t).text)
    (h : Firm quiet (readUrl none t).rest) : Firm quiet t := by
  have hlast : (readUrl none t).text.getLast? = some ')' := Lexeme.readUrl_getLast? hk
  rw [← Lexeme.readUrl_append none t]
  exact hw.append h ⟨fun hd => absurd (hlast ▸ hd) (by decide), fun _ hd => absurd (hlast ▸ hd) (by decide)⟩

/-- The characters of a name are taken off, which another one stands before. -/
theorem Firm.drop_name (h : Firm quiet (t ++ u)) (hc : isNameChar c = true ∨ c = '#') (hglued : ¬Glued (c :: (t ++ u)))
    (ht : ∀ d ∈ t, isNameChar d = true) : Firm quiet u := by
  induction t generalizing c with
  | nil => exact h
  | cons d t ih =>
    rw [List.forall_mem_cons] at ht
    rw [List.cons_append] at h hglued
    have hrest : ¬Glued (d :: (t ++ u)) := fun hd => hglued (hd.mono (List.suffix_cons _ _).isInfix)
    generalize hv : t ++ u = v at h hglued hrest
    cases h with
    | plain _ _ _ hfirm => exact ih (hv ▸ hfirm) (.inl ht.1) (hv ▸ hrest) ht.2
    | string hquote =>
      have hname := ht.1
      rcases hquote with rfl | rfl <;> exact absurd hname (by decide)
    | @url _ x y rest hurl hk hfirm =>
      -- the letters are taken one by one, so what is in the parentheses has to be firm by itself
      have hread := Lexeme.readUrl_ahead none rest (by rw [hk]; decide) []
      rw [List.append_nil] at hread
      have hinside : c :: d :: x :: y :: '(' :: (Lexeme.readUrl none rest).text <:+: c :: d :: x :: y :: '(' :: rest := by
        have happend := Lexeme.readUrl_append none rest
        exact ⟨[], (Lexeme.readUrl none rest).rest, by simpa using happend⟩
      have hw : Firm True (Lexeme.readUrl none rest).text := by
        by_contra hw
        exact hglued ⟨c, d, x, y, _, hc, hurl, by rw [hread]; exact hk, by rw [hread], hw, hinside⟩
      have hrest' : Firm quiet ('(' :: rest) :=
        .plain (by decide) nofun nofun (hw.of_quiet.enclosed hk hfirm)
      obtain ⟨-, hx, hy⟩ := isAlpha_of_url hurl
      exact ih (hv ▸ hrest'.letters [x, y] (by simp [hx, hy])) (.inl ht.1) (hv ▸ hrest) ht.2

theorem next?_of_slashless (hc : Text.isBlank c = false) (hslash : c = '/' → Slashless t) :
    GapState.outside.next? c t = none := by
  have hnot : ¬(c = '/' ∧ t.head? = some '/') := fun h => (hslash h.1 '/' h.2).1 rfl
  have hnot' : ¬(c = '/' ∧ t.head? = some '*') := fun h => (hslash h.1 '*' h.2).2 rfl
  rw [GapState.next?, hc, if_neg (by decide), if_neg hnot, if_neg hnot']

theorem Firm.gap (h : Firm quiet t) (hquiet : ∀ c ∈ (gap .outside t).taken, Text.isBlank c = false → quiet) :
    Firm quiet (gap .outside t).rest := by
  induction h with
  | nil => exact .nil
  | @plain c t hquote hat hslash ht ih =>
    cases hc : Text.isBlank c with
    | true =>
      rw [gap_blank hc] at hquiet ⊢
      exact ih fun d hd => hquiet d (.tail _ hd)
    | false =>
      have hnone : GapState.outside.next? c t = none := by
        cases hnext : GapState.outside.next? c t with
        | none => rfl
        | some s =>
          have htaken : c ∈ (LessCss.gap .outside (c :: t)).taken := by simp [LessCss.gap, hnext, Cut.push]
          rw [next?_of_slashless hc (hslash (hquiet c htaken hc))] at hnext
          cases hnext
      rw [gap_of_next?_eq_none hnone]
      exact .plain hquote hat hslash ht
  | @string q t hquote hk ht _ =>
    have hq : Text.isBlank q = false ∧ q ≠ '/' := by
      rcases hquote with rfl | rfl <;> decide
    rw [gap_of_next?_eq_none (next?_of_slashless hq.1 fun h => absurd h hq.2)]
    exact .string hquote hk ht
  | @url a b c t hurl hk ht _ =>
    have ha := isAlpha_only (isAlpha_of_url hurl).1
    rw [gap_of_next?_eq_none (next?_of_slashless ha.1 fun h => absurd h ha.2.2.1)]
    exact .url hurl hk ht

theorem Glued.place (h : Glued t) : ∃ n < t.length, (t.drop n).head?.map Char.toLower = some 'u' ∧
    ¬Firm True (Lexeme.readUrl none (t.drop (n + 4))).text := by
  obtain ⟨x, a, b, c, w, -, hurl, hk, hrest, hw, before, after, rfl⟩ := h
  have hlower : a.toLower = 'u' := (List.cons.inj (of_decide_eq_true hurl)).1
  have hread := readUrl_more hk after
  rw [hrest, List.nil_append] at hread
  have hwhole : (Lexeme.readUrl none w).text = w := by
    have happend := Lexeme.readUrl_append none w
    rwa [hrest, List.append_nil] at happend
  have hdrop : ∀ n, (before ++ x :: a :: b :: c :: '(' :: w ++ after).drop (before.length + n) =
      (x :: a :: b :: c :: '(' :: w ++ after).drop n := by
    intro n
    rw [List.append_assoc, List.drop_length_add_append]
  refine ⟨before.length + 1, by simp, ?_, ?_⟩
  · rw [hdrop]
    exact congrArg some hlower
  · rw [Nat.add_assoc, hdrop]
    show ¬Firm True (Lexeme.readUrl none (w ++ after)).text
    rw [hread]
    exact hwhole.symm ▸ hw

theorem mark_of_gap (hc : c ∈ (gap .outside t).taken) (hblank : Text.isBlank c = false) :
    ['/', '/'] <:+: t ∨ ['/', '*'] <:+: t := by
  induction t with
  | nil => cases hc
  | cons d t ih =>
    have hlater : ∀ {mark : Text}, mark <:+: t → mark <:+: d :: t := fun h => h.trans (List.suffix_cons d t).isInfix
    have hhere : ∀ {e : Char}, d = '/' → t.head? = some e → ['/', e] <:+: d :: t := by
      rintro e rfl he
      obtain ⟨t, rfl⟩ := List.head?_eq_some_iff.mp he
      exact (List.prefix_append ['/', e] t).isInfix
    cases hd : Text.isBlank d with
    | true =>
      rw [gap_blank hd] at hc
      rcases List.mem_cons.mp hc with rfl | hc
      · rw [hd] at hblank
        cases hblank
      · exact (ih hc).imp hlater hlater
    | false =>
      by_cases hline : d = '/' ∧ t.head? = some '/'
      · exact .inl (hhere hline.1 hline.2)
      · by_cases hblock : d = '/' ∧ t.head? = some '*'
        · exact .inr (hhere hblock.1 hblock.2)
        · have hnone : GapState.outside.next? d t = none := by
            rw [GapState.next?, hd, if_neg (by decide), if_neg hline, if_neg hblock]
          rw [gap_of_next?_eq_none hnone] at hc
          cases hc

theorem Commented.mark {b : Option Token.Kind} (h : Commented b t) : ['/', '/'] <:+: t ∨ ['/', '*'] <:+: t := by
  induction h with
  | here hc hblank => exact mark_of_gap hc hblank
  | @later b t c cs hrest _ ih =>
    have hleft : (Lexeme.read b (!(LessCss.gap .outside t).taken.isEmpty) c cs).rest <:+ c :: cs :=
      ⟨_, Lexeme.read_append ..⟩
    have hsuffix : c :: cs <:+ t := ⟨_, hrest ▸ gap_append .outside t⟩
    have hinfix := (hleft.trans hsuffix).isInfix
    exact ih.imp (·.trans hinfix) (·.trans hinfix)

/-- A string in quotes inside of a `url(…)` ends where it would end outside. -/
theorem readUrl_string {q : Char} (hk : (readString q t).kind = .string) :
    (readUrl (some q) t).rest = (readUrl none (readString q t).rest).rest := by
  fun_induction readString q t with
  | case1 | case2 | case4 => cases hk
  | case3 cs => rw [Lexeme.readUrl_close]; rfl
  | case5 d ds hn hq ih =>
    rw [readUrl, if_neg hq, if_pos rfl]
    exact ih hk
  | case6 c cs hn hq hb ih =>
    rw [Lexeme.readUrl_quoted hq hb]
    exact ih hk

/-- A `url(…)` that is made of a firm text ends where no string and no other `url(…)` is cut. -/
theorem Firm.readUrl (h : Firm quiet t) : Firm quiet (readUrl none t).rest := by
  induction h with
  | nil => exact .nil
  | @plain c t hquote _ _ ht ih =>
    rw [Lexeme.readUrl.eq_def]
    dsimp only
    by_cases hc : c = ')'
    · rw [if_pos hc]
      exact ht
    · rw [if_neg hc, if_neg hquote]
      exact ih
  | @string q t hquote hk _ ih =>
    rw [Lexeme.readUrl_open hquote]
    exact (readUrl_string hk).symm ▸ ih
  | @url a b c t hurl _ ht _ =>
    obtain ⟨ha, hb, hc⟩ := isAlpha_of_url hurl
    have hletter : ∀ {d : Char} (t : Text), d.isAlpha = true →
        Lexeme.readUrl none (d :: t) = (Lexeme.readUrl none t).push d := by
      intro d t hd
      have hd := isAlpha_only hd
      rw [Lexeme.readUrl.eq_def]
      dsimp only
      rw [if_neg hd.2.2.2.1, if_neg hd.2.1]
    rw [hletter _ ha, hletter _ hb, hletter _ hc, Lexeme.readUrl.eq_def]
    exact ht

theorem Firm.readName (h : Firm quiet cs) (hc : isNameChar c = true) (hglued : ¬Glued (c :: cs)) :
    Firm quiet (readName (c :: cs)).rest := by
  have hrest : Firm quiet (cs.dropWhile isNameChar) := by
    rw [← List.takeWhile_append_dropWhile (p := isNameChar) (l := cs)] at h hglued
    exact h.drop_name (.inl hc) hglued fun d hd => List.mem_takeWhile_imp hd
  rw [Lexeme.readName, List.dropWhile_cons_of_pos hc]
  cases hdrop : cs.dropWhile isNameChar with
  | nil => exact .nil
  | cons d ds =>
    rw [hdrop] at hrest
    dsimp only
    by_cases hd : d = '('
    · have hds : Firm quiet ds := by
        subst hd
        exact Firm.drop (t := ['(']) hrest (List.forall_mem_singleton.mpr (by decide))
      rw [if_pos hd]
      split
      · exact hds.readUrl
      · exact hds
    · rw [if_neg hd]
      exact hrest

theorem Firm.readNumber (h : Firm quiet (c :: cs)) (hglued : ¬Glued (c :: cs)) (hc : isNumeric c = true) :
    Firm quiet (readNumber c cs).rest := by
  rw [Lexeme.readNumber]
  cases hread : Measure.read? (c :: cs) with
  | none => exact Firm.drop (t := [c]) h (List.forall_mem_singleton.mpr (isNumeric_only hc))
  | some p =>
    obtain ⟨m, rest⟩ := p
    have hwf := (Measure.wellFormed_of_read? hread).1
    obtain ⟨before, d, hlast, hd⟩ := Lexeme.exists_last_digit hwf.number
    have happend := Measure.read?_append hread
    rw [Measure.text, List.append_assoc] at happend
    rw [← happend] at h hglued
    have hunit : Firm quiet (m.unit ++ rest) :=
      h.drop fun d hd => isNumeric_only (Lexeme.isNumeric_numeral hwf.number d hd)
    rcases hwf.unit with hpercent | hletters
    · rw [hpercent] at hunit
      exact hunit.drop (List.forall_mem_singleton.mpr (by decide))
    · have hsuffix : d :: (m.unit ++ rest) <:+ m.number.text ++ (m.unit ++ rest) := by
        rw [hlast]
        exact ⟨before, by simp⟩
      have hname : isNameChar d = true := by simp [isNameChar, hd]
      refine hunit.drop_name (.inl hname) (fun hd => hglued (hd.mono hsuffix.isInfix)) fun e he => ?_
      simp [isNameChar, isNameStart, hletters e he]

/-- A lexeme of a firm text is no at-keyword and leaves a firm text. -/
theorem Firm.read {b : Option Token.Kind} {s : Bool} (h : Firm quiet (c :: cs)) (hglued : ¬Glued (c :: cs)) :
    (Lexeme.read b s c cs).kind ≠ .atKeyword ∧ Firm quiet (Lexeme.read b s c cs).rest := by
  cases h with
  | string hquote hk ht =>
    rw [Lexeme.read_quote hquote]
    exact ⟨by rw [push, hk]; decide, ht⟩
  | @url _ x y rest hurl hk ht =>
    have hletters := isAlpha_of_url hurl
    have hstart : isNameStart c = true := by simp [isNameStart, hletters.1]
    have hname : ∀ d ∈ [c, x, y], isNameChar d = true := by
      simp [isNameChar, isNameStart, hletters]
    have hread := Lexeme.readName_paren hname rest
    rw [if_pos hurl] at hread
    rw [Lexeme.read_name hstart, show c :: x :: y :: '(' :: rest = [c, x, y] ++ '(' :: rest from rfl, hread]
    exact ⟨by rw [hk]; decide, ht⟩
  | plain hquote hat hslash ht =>
    by_cases hc : c = '@'
    · have hread : Lexeme.read b s c cs = ⟨.delim, ['@'], cs⟩ := by
        subst hc
        exact Lexeme.readSigned_alone (hat rfl)
      rw [hread]
      exact ⟨by simp, ht⟩
    · refine ⟨fun hk => hc (Lexeme.read_atKeyword hk).1, ?_⟩
      have hnumber : isNumeric c = true → Firm quiet (Lexeme.readNumber c cs).rest :=
        fun hd => Firm.readNumber (.plain hquote hat hslash ht) hglued hd
      fun_cases Lexeme.read b s c cs with
      | case1 hq => exact absurd hq hquote
      | case2 _ hhash =>
        rw [Lexeme.readSigned]
        split
        · exact ht
        · rw [← List.takeWhile_append_dropWhile (p := isNameChar) (l := cs)] at ht hglued
          exact ht.drop_name (.inr hhash) hglued fun d hd => List.mem_takeWhile_imp hd
      | case3 _ _ hat' => exact absurd hat' hc
      | case4 _ _ _ hstart => exact hnumber (Lexeme.isNumeric_of_startsNumeral hstart)
      | case5 _ _ _ _ hminus => exact hnumber (by rw [hminus.1]; decide)
      | case6 _ _ _ _ _ hhyphen => exact ht.readName (by rw [hhyphen.1]; decide) hglued
      | case7 _ _ _ _ _ _ hstart => exact ht.readName (isNameChar_of_isNameStart hstart) hglued
      | case8 => exact ht

/-- A firm text has no at-keyword, unless a `url(…)` in it is glued or it is not quiet and has a comment. -/
theorem Firm.stream (h : Firm quiet t) (hglued : ¬Glued t) (b : Option Token.Kind) (hquiet : Commented b t → quiet)
    (p : Position) : ∀ u ∈ Token.stream b p t, u.kind ≠ .atKeyword := by
  induction hn : t.length using Nat.strongRecOn generalizing b p t with
  | ind n ih =>
    subst hn
    cases hrest : (LessCss.gap .outside t).rest with
    | nil =>
      rw [Token.stream_nil hrest]
      exact List.forall_mem_singleton.mpr nofun
    | cons c cs =>
      have hsuffix : c :: cs <:+ t := ⟨_, hrest ▸ gap_append .outside t⟩
      have hunglued : ¬Glued (c :: cs) := fun h => hglued (h.mono hsuffix.isInfix)
      have hgap := h.gap fun c hc hblank => hquiet (.here hc hblank)
      obtain ⟨hkind, hfirm⟩ := Firm.read (b := b) (s := !(LessCss.gap .outside t).taken.isEmpty) (hrest ▸ hgap) hunglued
      have hleft : (Lexeme.read b (!(LessCss.gap .outside t).taken.isEmpty) c cs).rest <:+ c :: cs :=
        ⟨_, Lexeme.read_append ..⟩
      rw [Token.stream_cons hrest]
      refine List.forall_mem_cons.mpr ⟨hkind, ih _ (Token.rest_length_lt hrest b _) hfirm (fun h => ?_) _ (fun h => ?_) _ rfl⟩
      · exact hunglued (h.mono hleft.isInfix)
      · exact hquiet (.later hrest h)

end LessCss
