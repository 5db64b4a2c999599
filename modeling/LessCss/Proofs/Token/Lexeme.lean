import LessCss.Token.Stream
import LessCss.Proofs.Number.Numeral
/-!
A lexeme does not depend on what comes after it, as long as that begins in the same way or with a boundary.

`Ahead r r'` says that a reader sees no more in `r'` than in `r`. A gap or lexeme that ends before `r` is read
as the same one before `r'` (`GapState.next?_ahead`, `Lexeme.read_ahead`). A measure ends where nothing follows that
goes on with a name or a number (`Measure.WellFormed.ends`).
-/
namespace LessCss

variable {r r' cs cs' : Text} {c : Char}

theorem eq_iff_toNat {d : Char} : c = d ↔ c.toNat = d.toNat := Char.toNat_inj.symm

theorem isAlpha_iff : c.isAlpha = true ↔ (65 ≤ c.toNat ∧ c.toNat ≤ 90) ∨ (97 ≤ c.toNat ∧ c.toNat ≤ 122) := by
  delta Char.isAlpha Char.isUpper Char.isLower
  simp [UInt32.le_iff_toNat_le, ← Char.toNat_val]

theorem isDigit_iff : c.isDigit = true ↔ 48 ≤ c.toNat ∧ c.toNat ≤ 57 := Char.isDigit_iff_toNat

theorem isNameStart_iff : isNameStart c = true ↔
    (65 ≤ c.toNat ∧ c.toNat ≤ 90) ∨ (97 ≤ c.toNat ∧ c.toNat ≤ 122) ∨ c.toNat = 95 ∨ 128 ≤ c.toNat := by
  simp [isNameStart, isAlpha_iff, eq_iff_toNat, or_assoc]

theorem isNameChar_iff : isNameChar c = true ↔
    isNameStart c = true ∨ (48 ≤ c.toNat ∧ c.toNat ≤ 57) ∨ c.toNat = 45 := by
  simp [isNameChar, isDigit_iff, eq_iff_toNat, or_assoc]

theorem isNameChar_of_isNameStart (h : isNameStart c = true) : isNameChar c = true := isNameChar_iff.mpr (.inl h)

/-- A character that begins a name begins nothing else. -/
theorem isNameStart_only (h : isNameStart c = true) : c.isDigit = false ∧ c ≠ '.' ∧ c ≠ '-' ∧ c ≠ '"' ∧
    c ≠ '\'' ∧ c ≠ '#' ∧ c ≠ '@' ∧ c ≠ '/' := by
  rw [isNameStart_iff] at h
  simp only [← Bool.not_eq_true, isDigit_iff, Ne, eq_iff_toNat, Char.reduceToNat]
  omega

namespace Ahead

theorem head? (h : Ahead r r') (hc : c ∉ boundaries) (hr : r'.head? = some c) : r.head? = some c := by
  cases r' with
  | nil => simp at hr
  | cons d u' =>
    obtain rfl : d = c := by simpa using hr
    obtain ⟨u, rfl, -⟩ := h d u' rfl hc
    rfl

theorem startsWith {p : Char → Bool} (h : Ahead r r') (hp : boundaries.all (!p ·) = true)
    (hr : startsWith p r' = true) : startsWith p r = true := by
  cases hs : LessCss.startsWith p r with
  | true => rfl
  | false => rw [h.startsWith_false hp hs] at hr; contradiction

theorem startsNumeral_cons (h : Ahead r r') (hr : Lexeme.startsNumeral (c :: r') = true) :
    Lexeme.startsNumeral (c :: r) = true := by
  simp only [Lexeme.startsNumeral, Bool.or_eq_true, Bool.and_eq_true] at hr ⊢
  exact hr.imp_right fun hd => ⟨hd.1, h.startsWith (by decide) hd.2⟩

theorem startsNumeral (h : Ahead r r') (hr : Lexeme.startsNumeral r' = true) : Lexeme.startsNumeral r = true := by
  cases r' with
  | nil => simp [Lexeme.startsNumeral] at hr
  | cons d u' =>
    by_cases hd : d ∈ boundaries
    · have hdigit : d.isDigit = false := not_of_boundary (by decide) hd
      have hpoint : d ≠ '.' := by
        rintro rfl
        exact absurd hd (by decide)
      simp [Lexeme.startsNumeral, hdigit, hpoint] at hr
    · obtain ⟨u, rfl, hu⟩ := h d u' rfl hd
      simp only [Lexeme.startsNumeral, Bool.or_eq_true, Bool.and_eq_true] at hr ⊢
      exact hr.imp_right fun hdigit => ⟨hdigit.1, hu hdigit.2⟩

end Ahead

/-- What ends a gap ends it before `r'` as well. -/
theorem GapState.next?_ahead (h : Ahead cs cs') (hn : outside.next? c cs = none) : outside.next? c cs' = none := by
  simp only [next?] at hn ⊢
  have hslash : ¬(c = '/' ∧ cs'.head? = some '/') := by
    intro hc
    simp [hc.1, h.head? (by decide) hc.2, Text.isBlank] at hn
  have hstar : ¬(c = '/' ∧ cs'.head? = some '*') := by
    intro hc
    simp [hc.1, h.head? (by decide) hc.2, Text.isBlank] at hn
  cases hb : Text.isBlank c with
  | true => simp [hb] at hn
  | false => rw [if_neg (by simp), if_neg hslash, if_neg hstar]

/-- A gap is ended outside of comments. -/
theorem next?_of_gap {s : GapState} {t : Text} (h : (gap s t).rest = c :: cs) :
    GapState.outside.next? c cs = none := by
  fun_induction gap s t with
  | case1 => simp at h
  | case2 s d ds hn =>
    simp only [List.cons.injEq] at h
    obtain ⟨rfl, rfl⟩ := h
    cases s <;> simp_all [GapState.next?] <;> split at hn <;> simp at hn
  | case3 s d ds s' hn ih => exact ih h

theorem gap_of_next?_eq_none (h : GapState.outside.next? c cs = none) : gap .outside (c :: cs) = ⟨[], c :: cs⟩ := by
  simp [gap, h]

theorem gap_blank (h : Text.isBlank c = true) (t : Text) : gap .outside (c :: t) = (gap .outside t).push c := by
  simp [gap, GapState.next?, h]

namespace Lexeme

theorem readString_quote {q : Char} (hq : q ≠ '\n') (t : Text) : readString q (q :: t) = ⟨.string, [q], t⟩ := by
  rw [readString.eq_def]
  simp [hq]

theorem readString_plain {q : Char} (hn : c ≠ '\n') (hq : c ≠ q) (hb : c ≠ '\\') (t : Text) :
    readString q (c :: t) = (readString q t).push c := by
  rw [readString.eq_def]
  simp [hn, hq, hb]

theorem readUrl_open {q : Char} (hq : q = '"' ∨ q = '\'') (t : Text) :
    readUrl none (q :: t) = (readUrl (some q) t).push q := by
  rw [readUrl.eq_def]
  have hp : q ≠ ')' := by
    rintro rfl
    simp at hq
  simp [hp, hq]

theorem readUrl_quoted {q : Char} (hq : c ≠ q) (hb : c ≠ '\\') (t : Text) :
    readUrl (some q) (c :: t) = (readUrl (some q) t).push c := by
  rw [readUrl.eq_def]
  simp [hq, hb]

theorem readUrl_close (q : Char) (t : Text) : readUrl (some q) (q :: t) = (readUrl none t).push q := by
  rw [readUrl.eq_def]
  simp

theorem readString_getLast? {q : Char} {t : Text} (h : (readString q t).kind = .string) :
    (readString q t).text.getLast? = some q := by
  fun_induction readString q t <;> simp_all [push, List.getLast?_cons]

theorem readUrl_getLast? {q : Option Char} {t : Text} (h : (readUrl q t).kind = .url) :
    (readUrl q t).text.getLast? = some ')' := by
  fun_induction readUrl q t <;> simp_all [push, List.getLast?_cons]

theorem readString_ahead (q : Char) (t : Text) (hk : (readString q t).kind ≠ .unterminated) (r' : Text) :
    readString q ((readString q t).text ++ r') = { readString q t with rest := r' } := by
  fun_induction readString q t with
  | case1 | case2 | case4 => simp at hk
  | case3 cs hn => exact readString_quote hn _
  | case5 d ds hn hq ih => simp [push, readString, hq, ih hk]
  | case6 c cs hn hq hb ih => simp [push, readString_plain hn hq hb, ih hk]

theorem readUrl_ahead (q : Option Char) (t : Text) (hk : (readUrl q t).kind ≠ .unterminated) (r' : Text) :
    readUrl q ((readUrl q t).text ++ r') = { readUrl q t with rest := r' } := by
  fun_induction readUrl q t with
  | case1 | case6 => simp at hk
  | case2 cs => simp [readUrl]
  | case3 c cs hp hq ih => simp [push, readUrl_open hq, ih hk]
  | case4 c cs hp hq ih => simp [push, readUrl, hp, hq, ih hk]
  | case5 q cs ih => simp [push, readUrl_close, ih hk]
  | case7 q d ds hq ih => simp [push, readUrl, hq, ih hk]
  | case8 q c cs hq hb ih => simp [push, readUrl_quoted hq hb, ih hk]

theorem readSigned_text {kind : Token.Kind} {sign : Char} {name : Text} (hne : name ≠ [])
    (hname : ∀ c ∈ name, isNameChar c = true) (hr : startsWith isNameChar r = false) :
    readSigned kind sign (name ++ r) = ⟨kind, sign :: name, r⟩ := by
  have hempty : name.isEmpty = false := by simpa using hne
  simp only [readSigned, takeWhile_append_of_stop hname hr, dropWhile_append_of_stop hname hr, hempty]
  rfl

theorem readSigned_alone {kind : Token.Kind} {sign : Char} (hr : startsWith isNameChar r = false) :
    readSigned kind sign r = ⟨.delim, [sign], r⟩ := by
  rw [readSigned, takeWhile_isEmpty, hr]
  rfl

theorem isNameChar_boundary : boundaries.all (!isNameChar ·) = true := by decide

theorem readSigned_ahead (kind : Token.Kind) (sign : Char) (t : Text) (h : Ahead (readSigned kind sign t).rest r') :
    readSigned kind sign ((readSigned kind sign t).text.tail ++ r') =
      { readSigned kind sign t with rest := r' } := by
  by_cases hne : t.takeWhile isNameChar = []
  · have hs : readSigned kind sign t = ⟨.delim, [sign], t⟩ := by simp [readSigned, hne]
    have ht : startsWith isNameChar t = false := by
      have := takeWhile_isEmpty isNameChar t
      simpa [hne] using this
    rw [hs] at h ⊢
    exact readSigned_alone (h.startsWith_false isNameChar_boundary ht)
  · have hs : readSigned kind sign t = ⟨kind, sign :: t.takeWhile isNameChar, t.dropWhile isNameChar⟩ := by
      simp [readSigned, hne]
    rw [hs] at h ⊢
    exact readSigned_text hne (fun _ hc => List.mem_takeWhile_imp hc)
      (h.startsWith_false isNameChar_boundary (startsWith_dropWhile _ _))

theorem readName_ident {name : Text} (hname : ∀ c ∈ name, isNameChar c = true)
    (hr : startsWith isNameChar r = false) (hparen : startsWith (· == '(') r = false) :
    readName (name ++ r) = ⟨.ident, name, r⟩ := by
  simp only [readName, takeWhile_append_of_stop hname hr, dropWhile_append_of_stop hname hr]
  cases r with
  | nil => rfl
  | cons c cs =>
    have hc : c ≠ '(' := by simpa using hparen
    simp [hc]

theorem readName_paren {name : Text} (hname : ∀ c ∈ name, isNameChar c = true) (t : Text) :
    readName (name ++ '(' :: t) =
      if Text.sameLetters name "url".toList then
        { readUrl none t with text := name ++ '(' :: (readUrl none t).text }
      else ⟨.function, name ++ ['('], t⟩ := by
  have hr : startsWith isNameChar ('(' :: t) = false := by rw [startsWith_cons]; decide
  simp only [readName, takeWhile_append_of_stop hname hr, dropWhile_append_of_stop hname hr, if_true]

theorem readName_ahead (t : Text) (hk : (readName t).kind ≠ .unterminated) (h : Ahead (readName t).rest r') :
    readName ((readName t).text ++ r') = { readName t with rest := r' } := by
  have hname : ∀ c ∈ t.takeWhile isNameChar, isNameChar c = true := by
    intro c hc
    exact List.mem_takeWhile_imp hc
  have hstop := startsWith_dropWhile isNameChar t
  have ht := List.takeWhile_append_dropWhile (p := isNameChar) (l := t)
  generalize t.takeWhile isNameChar = name at hname ht
  generalize t.dropWhile isNameChar = r at hstop ht
  subst ht
  cases hparen : startsWith (· == '(') r with
  | false =>
    rw [readName_ident hname hstop hparen] at h ⊢
    exact readName_ident hname (h.startsWith_false isNameChar_boundary hstop) (h.startsWith_false (by decide) hparen)
  | true =>
    cases r with
    | nil => simp at hparen
    | cons c u =>
      obtain rfl : c = '(' := by simpa using hparen
      rw [readName_paren hname] at hk ⊢
      cases hurl : Text.sameLetters name "url".toList with
      | true =>
        simp only [hurl, if_true] at hk ⊢
        rw [List.append_assoc, List.cons_append, readName_paren hname, if_pos hurl, readUrl_ahead none u hk]
      | false =>
        simp only [Bool.false_eq_true, if_false]
        rw [List.append_assoc, List.singleton_append, readName_paren hname, hurl]
        rfl

/-- A text that begins as a numeral does after an optional minus has a numeral at its head. -/
theorem numeral_of_startsNumeral {t : Text} (h : startsNumeral (Text.tailIf (fun c => decide (c = '-')) t) = true) :
    Numeral.read? t ≠ none := by
  simp only [Numeral.read?]
  generalize Text.tailIf (fun c => decide (c = '-')) t = u at h
  cases u with
  | nil => simp [startsNumeral] at h
  | cons c cs =>
    cases hd : c.isDigit with
    | true => simp [hd]
    | false =>
      simp only [startsNumeral, hd, Bool.false_or, Bool.and_eq_true, beq_iff_eq] at h
      have hf : Numeral.readFraction? (c :: cs) ≠ none := by
        rw [Ne, Numeral.readFraction?_eq_none]
        simp [h]
      obtain ⟨p, hp⟩ := Option.ne_none_iff_exists'.mp hf
      simp [hd, Numeral.readPart, hp]

theorem measure_of_startsNumeral {t : Text} (h : startsNumeral (Text.tailIf (fun c => decide (c = '-')) t) = true) :
    ∃ m r, Measure.read? t = some (m, r) := by
  obtain ⟨p, hp⟩ := Option.ne_none_iff_exists'.mp (numeral_of_startsNumeral h)
  exact ⟨_, _, by rw [Measure.read?, hp]⟩

/-- A numeral is its sign and a text that begins as a numeral without sign does. -/
theorem startsNumeral_of_wellFormed {n : Numeral} (h : n.WellFormed) (r : Text) :
    ∃ t, n.text ++ r = n.sign ++ t ∧ startsNumeral t = true := by
  refine ⟨n.whole ++ ((n.fraction.elim [] fun f => '.' :: f) ++ (n.exponent.elim [] Exponent.text ++ r)),
    by simp [Numeral.text], ?_⟩
  cases hw : n.whole with
  | cons c cs => simp [startsNumeral, h.whole c (by simp [hw])]
  | nil =>
    obtain ⟨f, hf⟩ := Option.isSome_iff_exists.mp (h.digits.resolve_left (absurd hw))
    obtain ⟨hne, hdigits⟩ := h.fraction f hf
    obtain ⟨d, ds, rfl⟩ := List.exists_cons_of_ne_nil hne
    simp [hf, startsNumeral, hdigits d (by simp)]

theorem readNumber_text {m : Measure} (hm : m.WellFormed) (hr : m.Ends r) (h : m.text ++ r = c :: cs) :
    readNumber c cs = ⟨.number, m.text, r⟩ := by
  rw [readNumber, ← h, Measure.read?_text hm hr]

theorem tail_text {text : Text} (h : text ++ r = c :: cs) (hne : text ≠ []) (r' : Text) :
    text ++ r' = c :: (text.tail ++ r') := by
  cases text with
  | nil => exact absurd rfl hne
  | cons d t =>
    rw [List.cons_append, List.cons.injEq] at h
    rw [List.cons_append, h.1, List.tail_cons]

/-- The characters of names and numbers. -/
def isInner (c : Char) : Bool := isNameChar c || c == '.' || c == '%' || c == '+'

theorem isInner_of_isDigit {c : Char} (h : c.isDigit = true) : isInner c = true := by
  simp [isInner, isNameChar, h]

theorem isInner_of_isAlpha {c : Char} (h : c.isAlpha = true) : isInner c = true := by
  simp [isInner, isNameChar, isNameStart, h]

/-- The characters of numerals. -/
def isNumeric (c : Char) : Bool := c.isDigit || c == '.' || c == '-' || c == '+' || c == 'e' || c == 'E'

theorem isInner_of_isNumeric {c : Char} (h : isNumeric c = true) : isInner c = true := by
  simp only [isNumeric, Bool.or_eq_true, beq_iff_eq] at h
  rcases h with ((((h | rfl) | rfl) | rfl) | rfl) | rfl
  · exact isInner_of_isDigit h
  all_goals decide

theorem isNumeric_of_isDigit {c : Char} (h : c.isDigit = true) : isNumeric c = true := by simp [isNumeric, h]

theorem isNumeric_of_startsNumeral (h : startsNumeral (c :: cs) = true) : isNumeric c = true := by
  simp only [startsNumeral, Bool.or_eq_true, Bool.and_eq_true] at h
  rcases h with h | h
  · exact isNumeric_of_isDigit h
  · simp [isNumeric, h.1]

theorem isNumeric_exponent {e : Exponent} (h : e.WellFormed) : ∀ c ∈ e.text, isNumeric c = true := by
  intro c hc
  rw [Exponent.text, List.mem_cons, List.mem_append] at hc
  rcases hc with rfl | hc | hc
  · rcases h.letter with hl | hl <;> rw [hl] <;> decide
  · rcases h.sign with hs | ⟨d, hd, hs⟩
    · simp [hs] at hc
    · rw [hs, List.mem_singleton] at hc
      subst hc
      simp only [Exponent.isSign, decide_eq_true_eq] at hd
      rcases hd with rfl | rfl <;> decide
  · exact isNumeric_of_isDigit (h.digits c hc)

theorem isNumeric_numeral {n : Numeral} (h : n.WellFormed) : ∀ c ∈ n.text, isNumeric c = true := by
  intro c hc
  simp only [Numeral.text, List.mem_append] at hc
  rcases hc with ((hc | hc) | hc) | hc
  · rcases h.sign with hs | hs
    · simp [hs] at hc
    · rw [hs, List.mem_singleton] at hc
      exact hc ▸ by decide
  · exact isNumeric_of_isDigit (h.whole c hc)
  · cases hf : n.fraction with
    | none => simp [hf] at hc
    | some f =>
      rw [hf] at hc
      rcases List.mem_cons.mp hc with rfl | hc
      · decide
      · exact isNumeric_of_isDigit ((h.fraction f hf).2 c hc)
  · cases he : n.exponent with
    | none => simp [he] at hc
    | some e =>
      rw [he] at hc
      exact isNumeric_exponent (h.exponent e he) c hc

/-- Units are written with letters or a percent sign. -/
theorem isInner_unit {m : Measure} (h : m.WellFormed) : ∀ c ∈ m.unit, isInner c = true := by
  intro c hc
  rcases h.unit with hu | hu
  · rw [hu, List.mem_singleton] at hc
    exact hc ▸ by decide
  · exact isInner_of_isAlpha (hu c hc)

/-- Measures are written with the characters of numbers. -/
theorem isInner_measure {m : Measure} (h : m.WellFormed) : ∀ c ∈ m.text, isInner c = true :=
  List.forall_mem_append.mpr ⟨fun c hc => isInner_of_isNumeric (isNumeric_numeral h.number c hc), isInner_unit h⟩

/-- The last character of a numeral is a digit. -/
theorem exists_last_digit {n : Numeral} (h : n.WellFormed) : ∃ before d, n.text = before ++ [d] ∧ d.isDigit = true := by
  have hlast : ∀ {ds : Text} (before : Text), ds ≠ [] → (∀ c ∈ ds, c.isDigit = true) →
      ∃ front d, before ++ ds = front ++ [d] ∧ d.isDigit = true := by
    intro ds before hne hds
    refine ⟨before ++ ds.dropLast, ds.getLast hne, ?_, hds _ (List.getLast_mem hne)⟩
    rw [List.append_assoc, List.dropLast_concat_getLast]
  rw [Numeral.text]
  cases he : n.exponent with
  | some e =>
    have hwf := h.exponent e he
    obtain ⟨front, d, hfront, hd⟩ := hlast (n.sign ++ n.whole ++ (n.fraction.elim [] fun f => '.' :: f) ++
      e.letter :: e.sign) hwf.ne_nil hwf.digits
    exact ⟨front, d, by simpa [Exponent.text] using hfront, hd⟩
  | none =>
    cases hf : n.fraction with
    | some f =>
      obtain ⟨hne, hdigits⟩ := h.fraction f hf
      obtain ⟨front, d, hfront, hd⟩ := hlast (n.sign ++ n.whole ++ ['.']) hne hdigits
      exact ⟨front, d, by simpa using hfront, hd⟩
    | none =>
      have hwhole : n.whole ≠ [] := by simpa [hf] using h.digits
      obtain ⟨front, d, hfront, hd⟩ := hlast n.sign hwhole h.whole
      exact ⟨front, d, by simpa using hfront, hd⟩

theorem read_quote {b : Option Token.Kind} {s : Bool} (hc : c = '"' ∨ c = '\'') :
    read b s c cs = (readString c cs).push c := if_pos hc

theorem read_number (b : Option Token.Kind) (s : Bool) (hc : startsNumeral (c :: cs) = true) :
    read b s c cs = readNumber c cs := by
  have hquote : ¬(c = '"' ∨ c = '\'') := by rintro (rfl | rfl) <;> simp [startsNumeral] at hc
  have hhash : c ≠ '#' := by rintro rfl; simp [startsNumeral] at hc
  have hat : c ≠ '@' := by rintro rfl; simp [startsNumeral] at hc
  rw [read, if_neg hquote, if_neg hhash, if_neg hat, if_pos hc]

theorem startsNumeral_cons (c : Char) (cs : Text) :
    startsNumeral (c :: cs) = (c.isDigit || (c == '.' && startsWith Char.isDigit cs)) := rfl

theorem read_negative {b : Option Token.Kind} {s : Bool} (hc : startsNumeral cs = true)
    (hs : mayBeSign b s = true) : read b s '-' cs = readNumber '-' cs := by
  simp [read, startsNumeral_cons, hc, hs]

theorem read_hyphenated {b : Option Token.Kind} {s : Bool}
    (hn : ¬(startsNumeral cs = true ∧ mayBeSign b s = true))
    (hc : startsWith (fun d => isNameStart d || d == '-') cs = true) : read b s '-' cs = readName ('-' :: cs) := by
  simp [read, startsNumeral_cons, hn, hc]

theorem read_name {b : Option Token.Kind} {s : Bool} (hc : isNameStart c = true) :
    read b s c cs = readName (c :: cs) := by
  obtain ⟨hdigit, hpoint, hminus, hquote, hquote', hhash, hat, -⟩ := isNameStart_only hc
  simp [read, startsNumeral_cons, hdigit, hpoint, hminus, hquote, hquote', hhash, hat, hc]

/-- A character that begins no other lexeme is one by itself. -/
theorem read_single {b : Option Token.Kind} {s : Bool} (hquote : ¬(c = '"' ∨ c = '\'')) (hhash : c ≠ '#')
    (hat : c ≠ '@') (hnumeral : ¬startsNumeral (c :: cs) = true)
    (hnegative : ¬(c = '-' ∧ startsNumeral cs = true ∧ mayBeSign b s = true))
    (hhyphen : ¬(c = '-' ∧ startsWith (fun d => isNameStart d || d == '-') cs = true))
    (hname : ¬isNameStart c = true) : read b s c cs = ⟨singleKind c, [c], cs⟩ := by
  rw [read, if_neg hquote, if_neg hhash, if_neg hat, if_neg hnumeral, if_neg hnegative, if_neg hhyphen,
    if_neg hname]

theorem readNumber_ahead (hc : startsNumeral (Text.tailIf (fun c => decide (c = '-')) (c :: cs)) = true)
    (h : Ahead (readNumber c cs).rest r') :
    ∃ m : Measure, m.WellFormed ∧ m.Ends r' ∧ readNumber c cs = ⟨.number, m.text, (readNumber c cs).rest⟩ ∧
      m.text ++ r' = c :: ((readNumber c cs).text.tail ++ r') := by
  obtain ⟨m, r, hm⟩ := measure_of_startsNumeral hc
  have hread : readNumber c cs = ⟨.number, m.text, r⟩ := by simp [readNumber, hm]
  obtain ⟨hwf, hends⟩ := Measure.wellFormed_of_read? hm
  rw [hread] at h ⊢
  exact ⟨m, hwf, hends.ahead hwf h, rfl, tail_text (Measure.read?_append hm) (Measure.text_ne_nil_of_read? hm) r'⟩

theorem readName_tail {d : Char} (hc : isNameChar c = true) (hd : isNameChar d = true) (t : Text) :
    ∃ u, (readName (c :: d :: t)).text.tail = d :: u := by
  have hname : (c :: d :: t).takeWhile isNameChar = c :: d :: t.takeWhile isNameChar := by simp [hc, hd]
  simp only [readName, hname]
  split
  · exact ⟨_, rfl⟩
  · split
    · split <;> exact ⟨_, rfl⟩
    · exact ⟨_, rfl⟩

theorem read_number_ahead {b : Option Token.Kind} {s : Bool} (hc : startsNumeral (c :: cs) = true)
    (h : Ahead (readNumber c cs).rest r') :
    read b s c ((readNumber c cs).text.tail ++ r') = { readNumber c cs with rest := r' } := by
  have hminus : c ≠ '-' := by
    rintro rfl
    simp [startsNumeral_cons] at hc
  obtain ⟨m, hm, hr, hread, htext⟩ := readNumber_ahead (by simpa [Text.tailIf, hminus] using hc) h
  obtain ⟨t, ht, hstart⟩ := startsNumeral_of_wellFormed hm.number (m.unit ++ r')
  rw [← List.append_assoc, ← Measure.text, htext] at ht
  have hsign : m.number.sign = [] := by
    refine hm.number.sign.resolve_right fun hs => ?_
    rw [hs, List.singleton_append, List.cons.injEq] at ht
    exact hminus ht.1
  rw [hsign, List.nil_append] at ht
  rw [read_number b s (ht ▸ hstart), readNumber_text hm hr htext, hread]

theorem read_negative_ahead {b : Option Token.Kind} {s : Bool} (hc : startsNumeral cs = true)
    (hs : mayBeSign b s = true) (h : Ahead (readNumber '-' cs).rest r') :
    read b s '-' ((readNumber '-' cs).text.tail ++ r') = { readNumber '-' cs with rest := r' } := by
  obtain ⟨m, hm, hr, hread, htext⟩ := readNumber_ahead (by simpa [Text.tailIf] using hc) h
  obtain ⟨t, ht, hstart⟩ := startsNumeral_of_wellFormed hm.number (m.unit ++ r')
  rw [← List.append_assoc, ← Measure.text, htext] at ht
  have hsign : m.number.sign = ['-'] := by
    refine hm.number.sign.resolve_left fun hs => ?_
    rw [hs, List.nil_append] at ht
    simp [← ht, startsNumeral_cons] at hstart
  rw [hsign, List.singleton_append, List.cons.injEq] at ht
  rw [read_negative (ht.2 ▸ hstart) hs, readNumber_text hm hr htext, hread]

theorem read_name_ahead {b : Option Token.Kind} {s : Bool} (hc : isNameStart c = true)
    (hk : (readName (c :: cs)).kind ≠ .unterminated) (h : Ahead (readName (c :: cs)).rest r') :
    read b s c ((readName (c :: cs)).text.tail ++ r') = { readName (c :: cs) with rest := r' } := by
  have htext := tail_text (readName_append (c :: cs)) (readName_text_ne_nil (isNameChar_of_isNameStart hc) cs) r'
  rw [read_name hc, ← htext]
  exact readName_ahead _ hk h

theorem isNameChar_of_hyphenated {d : Char} (h : (isNameStart d || d == '-') = true) : isNameChar d = true := by
  rw [isNameChar, Bool.or_assoc, Bool.or_comm d.isDigit, ← Bool.or_assoc, h]
  rfl

theorem read_hyphenated_ahead {b : Option Token.Kind} {s : Bool}
    (hn : ¬(startsNumeral cs = true ∧ mayBeSign b s = true))
    (hc : startsWith (fun d => isNameStart d || d == '-') cs = true)
    (hk : (readName ('-' :: cs)).kind ≠ .unterminated) (h : Ahead (readName ('-' :: cs)).rest r') :
    read b s '-' ((readName ('-' :: cs)).text.tail ++ r') = { readName ('-' :: cs) with rest := r' } := by
  have hhyphen : isNameChar '-' = true := by decide
  have hne := readName_text_ne_nil hhyphen cs
  have hahead : Ahead cs ((readName ('-' :: cs)).text.tail ++ r') := by
    have happend := readName_append ('-' :: cs)
    have htail := tail_text happend hne (readName ('-' :: cs)).rest
    rw [happend, List.cons.injEq] at htail
    have happend' := h.append (readName ('-' :: cs)).text.tail
    rwa [← htail.2] at happend'
  have hstart : startsWith (fun d => isNameStart d || d == '-')
      ((readName ('-' :: cs)).text.tail ++ r') = true := by
    cases cs with
    | nil => simp at hc
    | cons d t =>
      obtain ⟨u, hu⟩ := readName_tail hhyphen (isNameChar_of_hyphenated hc) t
      rw [hu]
      exact hc
  rw [read_hyphenated (fun hs => hn ⟨hahead.startsNumeral hs.1, hs.2⟩) hstart,
    ← tail_text (readName_append ('-' :: cs)) hne r']
  exact readName_ahead _ hk h

theorem read_single_ahead {b : Option Token.Kind} {s : Bool} (hquote : ¬(c = '"' ∨ c = '\'')) (hhash : c ≠ '#')
    (hat : c ≠ '@') (hnumeral : ¬startsNumeral (c :: cs) = true)
    (hnegative : ¬(c = '-' ∧ startsNumeral cs = true ∧ mayBeSign b s = true))
    (hhyphen : ¬(c = '-' ∧ startsWith (fun d => isNameStart d || d == '-') cs = true))
    (hname : ¬isNameStart c = true) (h : Ahead cs r') : read b s c r' = ⟨singleKind c, [c], r'⟩ :=
  read_single hquote hhash hat (fun hr => hnumeral (h.startsNumeral_cons hr))
    (fun hr => hnegative ⟨hr.1, h.startsNumeral hr.2.1, hr.2.2⟩)
    (fun hr => hhyphen ⟨hr.1, h.startsWith (by decide) hr.2⟩) hname

/-- A lexeme that ends before `r` is read as the same one before `r'`. -/
theorem read_ahead {b : Option Token.Kind} {s : Bool} (hk : (read b s c cs).kind ≠ .unterminated)
    (h : Ahead (read b s c cs).rest r') :
    read b s c ((read b s c cs).text.tail ++ r') = { read b s c cs with rest := r' } := by
  revert hk h
  fun_cases read b s c cs with
  | case1 hquote =>
    intro hk _
    have hr := readString_ahead c cs hk r'
    simp [read, hquote, push, hr]
  | case2 _ hhash =>
    subst hhash
    intro _ h
    exact readSigned_ahead .hash '#' cs h
  | case3 _ _ hat =>
    subst hat
    intro _ h
    exact readSigned_ahead .atKeyword '@' cs h
  | case4 _ _ _ hc =>
    intro _ h
    exact read_number_ahead hc h
  | case5 _ _ _ _ hc =>
    obtain ⟨rfl, hc, hs⟩ := hc
    intro _ h
    exact read_negative_ahead hc hs h
  | case6 _ _ _ _ hn hc =>
    obtain ⟨rfl, hc⟩ := hc
    intro hk h
    apply read_hyphenated_ahead _ hc hk h
    intro hs
    exact hn ⟨rfl, hs⟩
  | case7 _ _ _ _ _ _ hc =>
    intro hk h
    exact read_name_ahead hc hk h
  | case8 hquote hhash hat hnumeral hnegative hhyphen hname =>
    intro _ h
    exact read_single_ahead hquote hhash hat hnumeral hnegative hhyphen hname h

end Lexeme

section Ends

variable {p : Char → Bool} {r unit : Text}

theorem startsWith_false_of_imp {q : Char → Bool} (hr : startsWith q r = false) (h : ∀ c, p c = true → q c = true) :
    startsWith p r = false := by
  cases r with
  | nil => rfl
  | cons c r => exact Bool.eq_false_iff.mpr fun hc => by simp [h c hc] at hr

theorem startsWith_unit (hr : startsWith p r = false) (hu : ∀ c ∈ unit, p c = false) :
    startsWith p (unit ++ r) = false := by
  cases unit with
  | nil => exact hr
  | cons c cs => exact hu c List.mem_cons_self

/-- The characters of a unit are no part of a number. -/
theorem unit_only {c : Char} (h : c = '%' ∨ c.isAlpha = true) :
    c.isDigit = false ∧ Exponent.isSign c = false ∧ c ≠ '.' := by
  rw [eq_iff_toNat, isAlpha_iff] at h
  simp only [← Bool.not_eq_true, isDigit_iff, Exponent.isSign, decide_eq_true_eq, Ne, eq_iff_toNat,
    Char.reduceToNat] at h ⊢
  omega

/-- A row that begins with no character of a name or a number other than a minus. -/
theorem startsWith_false_of_inner {q : Char → Bool} (hr : ∀ c ∈ r.head?, Lexeme.isInner c = true → c = '-')
    (hminus : q '-' = false) (hq : ∀ c, q c = true → Lexeme.isInner c = true) : startsWith q r = false := by
  cases r with
  | nil => rfl
  | cons c r =>
    refine Bool.eq_false_iff.mpr fun hc => ?_
    obtain rfl := hr c rfl (hq c hc)
    rw [startsWith_cons, hminus] at hc
    cases hc

/-- A unit and what follows it are no exponent. Only a unit that is the letter of an exponent might be. -/
theorem Exponent.read?_unit (hunit : ∀ c ∈ unit, c = '%' ∨ c.isAlpha = true)
    (hr : ∀ c ∈ r.head?, Lexeme.isInner c = true → c = '-' ∧ unit ≠ ['e'] ∧ unit ≠ ['E']) :
    Exponent.read? (unit ++ r) = none := by
  have hminus : ∀ c ∈ r.head?, Lexeme.isInner c = true → c = '-' := fun c hc hinner => (hr c hc hinner).1
  have hdigit : startsWith Char.isDigit r = false :=
    startsWith_false_of_inner hminus (by decide) fun _ => Lexeme.isInner_of_isDigit
  cases unit with
  | nil =>
    cases r with
    | nil => rfl
    | cons c cs =>
      refine (Exponent.read?_eq_none c cs).mpr (.inl ?_)
      rintro (rfl | rfl) <;> exact absurd (hminus _ rfl (by decide)) (by decide)
  | cons c unit =>
    rw [List.forall_mem_cons] at hunit
    refine (Exponent.read?_eq_none c (unit ++ r)).mpr ?_
    by_cases hletter : c = 'e' ∨ c = 'E'
    · right
      have hsign : startsWith Exponent.isSign (unit ++ r) = false := by
        cases unit with
        | cons d unit => exact (unit_only (hunit.2 d List.mem_cons_self)).2.1
        | nil =>
          cases r with
          | nil => rfl
          | cons d r =>
            refine Bool.eq_false_iff.mpr fun hd => ?_
            have hinner : Lexeme.isInner d = true := by
              rcases of_decide_eq_true hd with rfl | rfl <;> decide
            obtain ⟨-, he, hE⟩ := hr d rfl hinner
            rcases hletter with rfl | rfl
            · exact he rfl
            · exact hE rfl
      rw [(Exponent.tailIf_of_stop hsign).1]
      exact startsWith_unit hdigit fun d hd => (unit_only (hunit.2 d hd)).1
    · exact .inl hletter

/-- A measure ends where nothing follows that goes on with a name or a number. It ends before a minus as well, unless
its unit is the letter of an exponent. -/
theorem Measure.WellFormed.ends_before {m : Measure} (h : m.WellFormed)
    (hr : ∀ c ∈ r.head?, Lexeme.isInner c = true → c = '-' ∧ m.unit ≠ ['e'] ∧ m.unit ≠ ['E']) : m.Ends r := by
  have hunit : ∀ c ∈ m.unit, c = '%' ∨ c.isAlpha = true := by
    rcases h.unit with hu | hu
    · simp [hu]
    · exact fun c hc => .inr (hu c hc)
  have hminus : ∀ c ∈ r.head?, Lexeme.isInner c = true → c = '-' := fun c hc hinner => (hr c hc hinner).1
  have hdigit := startsWith_false_of_inner (q := Char.isDigit) hminus (by decide) fun _ => Lexeme.isInner_of_isDigit
  have hpoint := startsWith_false_of_inner (q := (· == '.')) hminus (by decide) (by simp [Lexeme.isInner])
  refine ⟨⟨?_, fun _ => Exponent.read?_unit hunit hr, fun _ _ => ?_⟩, fun _ => ?_, fun _ => ?_⟩
  · exact startsWith_unit hdigit fun c hc => (unit_only (hunit c hc)).1
  · have hpoint := startsWith_unit hpoint fun c hc => beq_eq_false_iff_ne.mpr (unit_only (hunit c hc)).2.2
    cases hu : m.unit ++ r with
    | nil => rfl
    | cons c cs =>
      rw [hu] at hpoint
      exact (Numeral.readFraction?_eq_none c cs).mpr (.inl (by simpa using hpoint))
  · exact startsWith_false_of_inner hminus (by decide) fun _ => Lexeme.isInner_of_isAlpha
  · exact startsWith_false_of_inner hminus (by decide) (by simp [Lexeme.isInner])

theorem Measure.WellFormed.ends {m : Measure} (h : m.WellFormed) (hr : startsWith Lexeme.isInner r = false) :
    m.Ends r := by
  refine h.ends_before fun c hc hinner => ?_
  cases r with
  | nil => cases hc
  | cons d r =>
    obtain rfl := Option.some.inj hc
    rw [startsWith_cons, hinner] at hr
    cases hr

theorem Measure.WellFormed.read? {m : Measure} (h : m.WellFormed) : Measure.read? m.text = some (m, []) := by
  rw [← List.append_nil m.text]
  exact Measure.read?_text h (h.ends startsWith_nil)

/-- The text of a measure is that measure from end to end. -/
theorem Measure.WellFormed.parse? {m : Measure} (h : m.WellFormed) :
    Measure.parse? m.text = some (m.number.value, m.unit) := by
  rw [Measure.parse?, h.read?]

/-- What is read from the head of a text is read from what has been taken alone. -/
theorem Measure.read?_alone {m : Measure} {t rest : Text} (h : read? t = some (m, rest)) :
    read? m.text = some (m, []) :=
  (wellFormed_of_read? h).1.read?

end Ends

end LessCss
