import Mathlib.Data.List.Forall2
import LessCss.Expr.Value
import LessCss.Proofs.Token.Collapse
import LessCss.Proofs.Token.Firm
/-!
What is put in the place of a variable.

A solid text is firm wherever it stands (`Solid.apart`), and every lexeme is solid or a single character. In a row of
tokens solid texts are put in the place of the variables. What is written of the row is firm (`firm_joinPieces`), unless
a variable stands directly behind an `@` (`Glues`). It is quiet as well, unless a variable stands directly behind a `/`
where nothing may stand in its place (`Slashed`).
-/
namespace LessCss

open Token (Piece IsLexeme)

/-- A firm text that makes no lexeme with what it stands between. -/
structure Solid (quiet : Prop) (t : Text) : Prop where
  firm : Firm quiet t
  head : Slashless t
  last : ∀ c ∈ t.getLast?, c ≠ '@' ∧ c ≠ '/'

/-- The characters that make nothing with those around them. -/
def isIdle (c : Char) : Bool := c ≠ '"' ∧ c ≠ '\'' ∧ c ≠ '@' ∧ c ≠ '/' ∧ c ≠ '*'

variable {quiet : Prop} {c : Char} {t u : Text}

theorem slashless_of_next? (h : GapState.outside.next? '/' t = none) : Slashless t := by
  intro c hc
  constructor
  all_goals
    rintro rfl
    rw [GapState.next?, if_neg (by decide), Option.mem_def.mp hc] at h
    exact absurd h (by decide)

theorem Slashless.append (ht : Slashless t) (hu : t = [] → Slashless u) : Slashless (t ++ u) := by
  cases t with
  | nil => exact hu rfl
  | cons c t => exact ht

theorem Slashless.of_append (h : Slashless (t ++ u)) : Slashless t := by
  cases t with
  | nil => exact nofun
  | cons c t => exact h

theorem isIdle_of_isInner (h : Lexeme.isInner c = true) : isIdle c = true := by
  simp only [isIdle, decide_eq_true_eq]
  refine ⟨?_, ?_, ?_, ?_, ?_⟩ <;> (rintro rfl; exact absurd h (by decide))

theorem isIdle_of_isNameChar (h : isNameChar c = true) : isIdle c = true :=
  isIdle_of_isInner (by simp [Lexeme.isInner, h])

namespace Solid

theorem apart (h : Solid quiet t) (u : Text) : Apart quiet t u where
  name hc := absurd rfl (h.last _ hc).1
  comment _ hc := absurd rfl (h.last _ hc).2

theorem append (ht : Solid quiet t) (hu : Solid quiet u) : Solid quiet (t ++ u) where
  firm := ht.firm.append hu.firm (ht.apart u)
  head c hc := by
    rw [List.head?_append] at hc
    cases hhead : t.head? with
    | none => exact hu.head c (by simpa [hhead] using hc)
    | some d => exact ht.head c (by simpa [hhead] using hc)
  last c hc := by
    rw [List.getLast?_append] at hc
    cases hlast : u.getLast? with
    | none => exact ht.last c (by simpa [hlast] using hc)
    | some d => exact hu.last c (by simpa [hlast] using hc)

theorem of_idle (h : ∀ c ∈ t, isIdle c = true) : Solid quiet t := by
  have hne : ∀ c ∈ t, c ≠ '"' ∧ c ≠ '\'' ∧ c ≠ '@' ∧ c ≠ '/' ∧ c ≠ '*' := fun c hc => of_decide_eq_true (h c hc)
  refine ⟨?_, fun c hc => (hne c (List.mem_of_head? hc)).2.2.2, fun c hc => ?_⟩
  · clear h
    induction t with
    | nil => exact .nil
    | cons c t ih =>
      obtain ⟨⟨hquote, hquote', hat, hslash, -⟩, ht⟩ := List.forall_mem_cons.mp hne
      exact .plain (not_or.mpr ⟨hquote, hquote'⟩) (absurd · hat) (fun _ => (absurd · hslash)) (ih ht)
  · have hc := hne c (List.mem_of_getLast? hc)
    exact ⟨hc.2.2.1, hc.2.2.2.1⟩

theorem nil : Solid quiet [] := of_idle nofun

theorem single (h : isIdle c = true) : Solid quiet [c] := of_idle (List.forall_mem_singleton.mpr h)

/-- A firm text that solid texts stand on both sides of. -/
theorem around {w : Text} (ht : Solid quiet t) (hne : t ≠ []) (hu : Firm quiet u) (h : Apart quiet u w)
    (hw : Solid quiet w) (hne' : w ≠ []) : Solid quiet (t ++ (u ++ w)) where
  firm := ht.firm.append (hu.append hw.firm h) (ht.apart _)
  head := ht.head.append fun hnil => absurd hnil hne
  last c hc := by
    rw [List.getLast?_append, List.getLast?_append, List.getLast?_eq_some_getLast hne'] at hc
    exact hw.last c (by rw [List.getLast?_eq_some_getLast hne']; exact hc)

theorem join (separator : Separator) {parts : List Text} (h : ∀ t ∈ parts, Solid quiet t) :
    Solid quiet (Text.join separator.text parts) := by
  induction parts with
  | nil => exact nil
  | cons t parts ih =>
    obtain ⟨ht, hparts⟩ := List.forall_mem_cons.mp h
    cases parts with
    | nil => simpa [Text.join] using ht
    | cons u parts =>
      have hjoin : Text.join separator.text (t :: u :: parts) =
          t ++ separator.text ++ Text.join separator.text (u :: parts) := List.intercalate_cons_cons
      have hseparator : Solid quiet separator.text := of_idle (List.all_eq_true.mp (by cases separator <;> rfl))
      rw [hjoin]
      exact (ht.append hseparator).append (ih hparts)

end Solid

theorem exists_letters {name : Text} (h : Text.sameLetters name "url".toList = true) : ∃ a b c, name = [a, b, c] := by
  have hlength := congrArg List.length (of_decide_eq_true h)
  rw [List.length_map] at hlength
  exact List.length_eq_three.mp hlength

namespace Lexeme

theorem solid_url (hk : (readUrl none t).kind = .url) {name : Text}
    (hname : Text.sameLetters name "url".toList = true) : Solid quiet (name ++ '(' :: (readUrl none t).text) := by
  have hread := readUrl_ahead none t (by rw [hk]; decide) []
  rw [List.append_nil] at hread
  obtain ⟨a, b, c, rfl⟩ := exists_letters hname
  refine ⟨.url hname ?_ ?_, ?_, ?_⟩
  · rw [hread]
    exact hk
  · rw [hread]
    exact .nil
  · intro d hd
    obtain rfl := Option.some.inj hd
    have hletter := isIdle_of_isInner (isInner_of_isAlpha (isAlpha_of_url hname).1)
    exact (of_decide_eq_true hletter).2.2.2
  · intro d hd
    rw [List.getLast?_append, List.getLast?_cons, readUrl_getLast? hk] at hd
    obtain rfl := Option.some.inj hd
    decide

theorem solid_readName (hk : (readName t).kind ≠ .unterminated) : Solid quiet (readName t).text := by
  have hname : Solid quiet (t.takeWhile isNameChar) := .of_idle fun d hd => isIdle_of_isNameChar (List.mem_takeWhile_imp hd)
  rw [readName] at hk ⊢
  cases hdrop : t.dropWhile isNameChar with
  | nil => exact hname
  | cons d ds =>
    rw [hdrop] at hk
    dsimp only at hk ⊢
    by_cases hd : d = '('
    · subst hd
      rw [if_pos rfl] at hk ⊢
      split
      · next hurl =>
        rw [if_pos hurl] at hk
        exact solid_url ((readUrl_kind none ds).resolve_right hk) hurl
      · exact hname.append (.single (by decide))
    · rw [if_neg hd]
      exact hname

theorem solid_string {q : Char} (hq : IsQuote q) (hk : (readString q t).kind = .string) :
    Solid quiet (q :: (readString q t).text) := by
  have hread := readString_ahead q t (by rw [hk]; decide) []
  rw [List.append_nil] at hread
  have hne : ∀ c, c = q → c ≠ '@' ∧ c ≠ '/' ∧ c ≠ '*' := by
    rintro _ rfl
    rcases hq with rfl | rfl <;> decide
  refine ⟨.string hq ?_ ?_, fun c hc => (hne c (Option.some.inj hc).symm).2, fun c hc => ?_⟩
  · rw [hread]
    exact hk
  · rw [hread]
    exact .nil
  · rw [List.getLast?_cons, readString_getLast? hk] at hc
    obtain ⟨hat, hslash, -⟩ := hne c (Option.some.inj hc).symm
    exact ⟨hat, hslash⟩

theorem solid_readSigned {kind : Token.Kind} {sign : Char} (hsign : isIdle sign = true) :
    Solid quiet (readSigned kind sign t).text := by
  rw [readSigned]
  split
  · exact .single hsign
  · exact .of_idle (List.forall_mem_cons.mpr ⟨hsign, fun d hd => isIdle_of_isNameChar (List.mem_takeWhile_imp hd)⟩)

theorem solid_readNumber (hc : isNumeric c = true) : Solid quiet (readNumber c t).text := by
  rw [readNumber]
  split
  · next m rest hm =>
    exact .of_idle fun d hd => isIdle_of_isInner (isInner_measure (Measure.wellFormed_of_read? hm).1 d hd)
  · exact .single (isIdle_of_isInner (isInner_of_isNumeric hc))

/-- A lexeme that is closed and no at-keyword is solid, or a single character that begins no string. -/
theorem solid_or_single {b : Option Token.Kind} {s : Bool} (hk : (read b s c t).kind ≠ .unterminated)
    (hat : (read b s c t).kind ≠ .atKeyword) :
    Solid quiet (read b s c t).text ∨ ¬IsQuote c ∧ (read b s c t).text = [c] ∧
      (c = '@' → (read b s c t).kind = .delim) ∧ (c = '/' ∨ c = '*' → (read b s c t).kind = .operator) := by
  revert hk hat
  fun_cases read b s c t with
  | case1 hquote =>
    intro hk _
    exact .inl (solid_string hquote ((readString_kind c t).resolve_right hk))
  | case2 _ hhash =>
    exact fun _ _ => .inl (solid_readSigned (by rw [hhash]; decide))
  | case3 hquote _ hat =>
    intro _ hk
    refine .inr ⟨hquote, ?_⟩
    rw [readSigned] at hk ⊢
    split at hk
    · next hempty =>
      rw [if_pos hempty]
      exact ⟨rfl, fun _ => rfl, fun hc => absurd hc (by rw [hat]; decide)⟩
    · exact absurd rfl hk
  | case4 _ _ _ hstart =>
    exact fun _ _ => .inl (solid_readNumber (isNumeric_of_startsNumeral hstart))
  | case5 _ _ _ _ hminus => exact fun _ _ => .inl (solid_readNumber (by rw [hminus.1]; decide))
  | case6 | case7 => exact fun hk _ => .inl (solid_readName hk)
  | case8 hquote _ hat =>
    refine fun _ _ => .inr ⟨hquote, rfl, fun hc => absurd hc hat, ?_⟩
    rintro (rfl | rfl) <;> rfl

/-- A bare `@` stands before no name. -/
theorem rest_of_at {b : Option Token.Kind} {s : Bool} (h : (read b s c t).text = ['@']) :
    startsWith isNameChar (read b s c t).rest = false := by
  have happend := read_append b s c t
  rw [h] at happend
  obtain ⟨rfl, -⟩ := List.cons.inj happend
  have hrest : (read b s '@' t).rest = t := (List.cons.inj happend).2
  have hread : read b s '@' t = readSigned .atKeyword '@' t := rfl
  rw [hrest]
  cases hname : startsWith isNameChar t with
  | false => rfl
  | true =>
    have hempty := takeWhile_isEmpty isNameChar t
    rw [hname] at hempty
    rw [hread, readSigned, hempty] at h
    obtain ⟨-, hnil⟩ := List.cons.inj h
    rw [hnil] at hempty
    cases hempty

end Lexeme

namespace Token

/-- What two tokens of a text keep to that have no gap between them. -/
structure Touch (t u : Token) : Prop where
  name : t.text = ['@'] → startsWith isNameChar u.text = false
  comment : t.text = ['/'] → Slashless u.text

variable {ts us : List Token} {b : Option Kind} {p : Position} {source : Text}

/-- A token without a gap before it stands at the head of the text. -/
theorem head_of_stream {y : Token} (h : stream b p source = y :: us) (hy : y.kind ≠ .eof) (hs : y.spaced = false) :
    y.text ≠ [] ∧ y.text <+: source := by
  have hsplit := gap_append .outside source
  cases hgap : (gap .outside source).rest with
  | nil =>
    rw [stream_nil hgap] at h
    obtain ⟨rfl, -⟩ := List.cons.inj h
    exact absurd rfl hy
  | cons c cs =>
    rw [stream_cons hgap] at h
    obtain ⟨rfl, -⟩ := List.cons.inj h
    have htaken : (gap .outside source).taken = [] := by simpa using hs
    rw [htaken, hgap, List.nil_append, ← Lexeme.read_append b (!(gap .outside source).taken.isEmpty) c cs] at hsplit
    exact ⟨Lexeme.read_text_ne_nil b _ c cs, _, hsplit⟩

/-- What a lexeme leaves keeps to it, and so does a token at the head of that. -/
theorem touch_of_read {s : Bool} {c : Char} {cs : Text} {l : Lexeme} {t u : Token} (hl : Lexeme.read b s c cs = l)
    (hend : GapState.outside.next? c cs = none) (ht : t.text = l.text) (hne : u.text ≠ []) (hu : u.text <+: l.rest) :
    Touch t u := by
  obtain ⟨rest, hrest⟩ := hu
  constructor
  · intro htext
    have hname : startsWith isNameChar l.rest = false := hl ▸ Lexeme.rest_of_at (hl ▸ ht ▸ htext)
    rwa [← hrest, startsWith_append_of_ne_nil hne] at hname
  · intro htext
    have happend := Lexeme.read_append b s c cs
    rw [hl, ← ht, htext] at happend
    obtain ⟨rfl, hcs⟩ := List.cons.inj happend
    have hcomment : Slashless l.rest := (show l.rest = cs from hcs) ▸ slashless_of_next? hend
    rw [← hrest] at hcomment
    exact hcomment.of_append

theorem touch_of_stream {x y : Token} (h : x :: y :: us <:+ stream b p source) (hy : y.kind ≠ .eof)
    (hs : y.spaced = false) : Touch x y := by
  induction hn : source.length using Nat.strongRecOn generalizing b p source with
  | ind n ih =>
    subst hn
    cases hgap : (gap .outside source).rest with
    | nil =>
      rw [stream_nil hgap] at h
      have hlength := h.length_le
      simp at hlength
    | cons c cs =>
      have hlt := rest_length_lt hgap b (!(gap .outside source).taken.isEmpty)
      rw [stream_cons hgap] at h
      dsimp only at h
      rcases List.suffix_cons_iff.mp h with heq | h
      · obtain ⟨rfl, hrest⟩ := List.cons.inj heq
        obtain ⟨hne, hhead⟩ := head_of_stream hrest.symm hy hs
        exact touch_of_read rfl (next?_of_gap hgap) rfl hne hhead
      · exact ih _ hlt h rfl

/-- A row of tokens of a text before its end, none of them unterminated. -/
structure Row (ts : List Token) : Prop where
  lexeme : ∀ t ∈ ts, t.IsLexeme
  terminated : ∀ t ∈ ts, t.kind ≠ .unterminated
  touch : ∀ t u, [t, u] <:+: ts → u.spaced = false → Touch t u

theorem Row.mono (h : Row ts) (hus : us <:+: ts) : Row us where
  lexeme t ht := h.lexeme t (hus.subset ht)
  terminated t ht := h.terminated t (hus.subset ht)
  touch t u htu := h.touch t u (htu.trans hus)

/-- A variable stands directly behind an `@`. -/
def Glues (ts : List Token) : Prop :=
  ∃ t u, [t, u] <:+: ts ∧ t.isDelim '@' = true ∧ u.kind = .atKeyword ∧ u.spaced = false

/-- A variable stands directly between a `/` and what makes a comment with it if nothing is put in the place of the
variable. -/
def Slashed (ts : List Token) : Prop :=
  ∃ t u w, [t, u, w] <:+: ts ∧ t.isOperator '/' = true ∧ u.kind = .atKeyword ∧ u.spaced = false ∧
    (w.kind = .atKeyword ∨ w.isOperator '/' = true ∨ w.isOperator '*' = true) ∧ w.spaced = false

theorem Glues.mono (h : Glues us) (hus : us <:+: ts) : Glues ts := by
  obtain ⟨t, u, h, hmark⟩ := h
  exact ⟨t, u, h.trans hus, hmark⟩

theorem Slashed.mono (h : Slashed us) (hus : us <:+: ts) : Slashed ts := by
  obtain ⟨t, u, w, h, hmark⟩ := h
  exact ⟨t, u, w, h.trans hus, hmark⟩

theorem IsLexeme.solid_or_single (quiet : Prop) {x : Token} (h : x.IsLexeme) (hu : x.kind ≠ .unterminated)
    (hk : x.kind ≠ .atKeyword) :
    Solid quiet x.text ∨ ∃ c, ¬IsQuote c ∧ x.text = [c] ∧ (c = '@' → x.isDelim c = true) ∧
      (c = '/' ∨ c = '*' → x.isOperator c = true) := by
  obtain ⟨before, spaced, c, cs, hkind, htext⟩ := h
  rw [hkind] at hu hk
  rcases Lexeme.solid_or_single hu hk with h | ⟨hquote, hsingle, hdelim, hoperator⟩
  · exact .inl (htext ▸ h)
  · refine .inr ⟨c, hquote, htext.trans hsingle, fun hc => ?_, fun hc => ?_⟩
    · simp [isDelim, hkind, hdelim hc, htext, hsingle]
    · simp [isOperator, hkind, hoperator hc, htext, hsingle]

/-- Only an `@`, a `/` and a `*` by themselves are not solid, among the lexemes that are closed. -/
theorem IsLexeme.solid {x : Token} (h : x.IsLexeme) (hu : x.kind ≠ .unterminated) (hk : x.kind ≠ .atKeyword)
    (hdelim : x.kind ≠ .delim) (hoperator : x.kind ≠ .operator) : Solid quiet x.text := by
  rcases h.solid_or_single quiet hu hk with h | ⟨c, hquote, htext, hat, hmark⟩
  · exact h
  · have hat : c ≠ '@' := fun hc => hdelim (of_decide_eq_true (hat hc)).1
    have hmark : ¬(c = '/' ∨ c = '*') := fun hc => hoperator (of_decide_eq_true (hmark hc)).1
    rw [htext]
    refine .single ?_
    simp only [IsQuote, not_or] at hquote hmark
    simp [isIdle, hquote, hat, hmark]

/-- A token leaves its own text, or a solid text in the place of a variable. -/
structure Leaves (quiet : Prop) (x : Token) (q : Piece) : Prop where
  spaced : q.1 = x.spaced
  text : x.kind ≠ .atKeyword → q.2 = x.text
  solid : x.kind = .atKeyword → Solid quiet q.2

variable {x : Token} {q : Piece} {ps : List Piece}

theorem Leaves.firm (h : Leaves quiet x q) (hx : x.IsLexeme) (hu : x.kind ≠ .unterminated) : Firm quiet q.2 := by
  by_cases hk : x.kind = .atKeyword
  · exact (h.solid hk).firm
  · rw [h.text hk]
    rcases hx.solid_or_single quiet hu hk with h | ⟨c, hquote, htext, -⟩
    · exact h.firm
    · rw [htext]
      exact .plain hquote (fun _ => rfl) (fun _ _ => nofun) .nil

/-- What begins with neither a variable nor an operator makes no comment. -/
theorem Leaves.slashless (h : Leaves quiet x q) (hx : x.IsLexeme) (hu : x.kind ≠ .unterminated) (hk : x.kind ≠ .atKeyword)
    (hslash : x.isOperator '/' = false) (hstar : x.isOperator '*' = false) : Slashless q.2 := by
  rw [h.text hk]
  rcases hx.solid_or_single quiet hu hk with h | ⟨c, -, htext, -, hoperator⟩
  · exact h.head
  · rw [htext]
    rintro d hd
    obtain rfl := Option.some.inj hd
    constructor <;> rintro rfl
    · exact absurd (hoperator (.inl rfl)) (by simp [hslash])
    · exact absurd (hoperator (.inr rfl)) (by simp [hstar])

/-- A piece behind which no comment is begun, unless it is empty and what follows it does. -/
theorem slashless_piece {rest : Text} (hq : q.1 = false → Slashless q.2)
    (hrest : q.1 = false → q.2 = [] → Slashless rest) : Slashless (q.text ++ rest) := by
  obtain ⟨spaced, text⟩ := q
  cases spaced with
  | true =>
    rintro c hc
    obtain rfl := Option.some.inj hc
    decide
  | false => exact (hq rfl).append (hrest rfl)

/-- Behind a bare `@` no name is written. -/
theorem name_behind {t : Token} (h : List.Forall₂ (Leaves quiet) ts ps) (hrow : Row (t :: ts)) (hglues : ¬Glues (t :: ts))
    (ht : t.isDelim '@' = true) (htext : t.text = ['@']) : startsWith isNameChar (ps.flatMap Piece.text) = false := by
  cases h with
  | nil => rfl
  | @cons u q us qs hq hqs =>
    have hpair : [t, u] <:+: t :: u :: us := (List.prefix_append [t, u] us).isInfix
    have hu := hrow.lexeme u (.tail _ (.head _))
    rw [List.flatMap_cons, Piece.text, hq.spaced]
    cases hs : u.spaced with
    | true => rfl
    | false =>
      have hk : u.kind ≠ .atKeyword := fun hk => hglues ⟨t, u, hpair, ht, hk, hs⟩
      have hname := (hrow.touch t u hpair hs).name htext
      rw [hq.text hk]
      exact (startsWith_append_of_ne_nil hu.text_ne_nil).trans hname

/-- Behind a `/` no comment is begun. -/
theorem comment_behind {t : Token} (h : List.Forall₂ (Leaves quiet) ts ps) (hrow : Row (t :: ts))
    (hslashed : ¬Slashed (t :: ts)) (ht : t.isOperator '/' = true) (htext : t.text = ['/']) : Slashless (ps.flatMap Piece.text) := by
  cases h with
  | nil => exact nofun
  | @cons u q us qs hq hqs =>
    have hpair : [t, u] <:+: t :: u :: us := (List.prefix_append [t, u] us).isInfix
    have hu := hrow.lexeme u (.tail _ (.head _))
    rw [List.flatMap_cons]
    by_cases hk : u.kind = .atKeyword
    · refine slashless_piece (fun _ => (hq.solid hk).head) fun hs _ => ?_
      cases hqs with
      | nil => exact nofun
      | @cons w q' ws qs hq' _ =>
        have htriple : [t, u, w] <:+: t :: u :: w :: ws := (List.prefix_append [t, u, w] ws).isInfix
        have hw := hrow.lexeme w (.tail _ (.tail _ (.head _)))
        have hterminated := hrow.terminated w (.tail _ (.tail _ (.head _)))
        have hother : w.spaced = false → w.kind ≠ .atKeyword ∧ w.isOperator '/' = false ∧ w.isOperator '*' = false := by
          intro hsw
          have hnone : ¬(w.kind = .atKeyword ∨ w.isOperator '/' = true ∨ w.isOperator '*' = true) :=
            fun h => hslashed ⟨t, u, w, htriple, ht, hk, hq.spaced ▸ hs, h, hsw⟩
          simpa only [not_or, Bool.not_eq_true] using hnone
        rw [List.flatMap_cons]
        refine slashless_piece (fun hsw => ?_) fun hsw hnil => ?_
        · obtain ⟨hkw, hslash, hstar⟩ := hother (hq'.spaced ▸ hsw)
          exact hq'.slashless hw hterminated hkw hslash hstar
        · rw [hq'.text (hother (hq'.spaced ▸ hsw)).1] at hnil
          exact absurd hnil hw.text_ne_nil
    · refine slashless_piece (fun hs => ?_) fun _ hnil => ?_
      · rw [hq.text hk]
        exact (hrow.touch t u hpair (hq.spaced ▸ hs)).comment htext
      · rw [hq.text hk] at hnil
        exact absurd hnil hu.text_ne_nil

theorem firm_pieces (h : List.Forall₂ (Leaves quiet) ts ps) (hrow : Row ts) (hglues : ¬Glues ts)
    (hslashed : quiet → ¬Slashed ts) : Firm quiet (ps.flatMap Piece.text) := by
  induction h with
  | nil => exact .nil
  | @cons t p ts ps hp hps ih =>
    have htail : ts <:+: t :: ts := (List.suffix_cons t ts).isInfix
    have hrest := ih (hrow.mono htail) (fun h => hglues (h.mono htail)) fun hq h => hslashed hq (h.mono htail)
    have ht := hrow.lexeme t List.mem_cons_self
    have hu := hrow.terminated t List.mem_cons_self
    have hapart : Apart quiet p.2 (ps.flatMap Piece.text) := by
      by_cases hk : t.kind = .atKeyword
      · exact (hp.solid hk).apart _
      · rw [hp.text hk]
        rcases ht.solid_or_single quiet hu hk with h | ⟨c, -, htext, hdelim, hoperator⟩
        · exact h.apart _
        · rw [htext]
          refine ⟨fun hc => ?_, fun hq hc => ?_⟩
          · obtain rfl : c = '@' := Option.some.inj hc
            exact name_behind hps hrow hglues (hdelim rfl) htext
          · obtain rfl : c = '/' := Option.some.inj hc
            exact comment_behind hps hrow (hslashed hq) (hoperator (.inl rfl)) htext
    have hfirm := (hp.firm ht hu).append hrest hapart
    rw [List.flatMap_cons, Piece.text]
    split
    · exact .plain (by decide) (fun hc => absurd hc (by decide)) (fun _ hc => absurd hc (by decide)) hfirm
    · exact hfirm

/-- What is written of a row with solid texts in the place of its variables is firm. -/
theorem firm_joinPieces (h : List.Forall₂ (Leaves quiet) ts ps) (hrow : Row ts) (hglues : ¬Glues ts)
    (hslashed : quiet → ¬Slashed ts) : Firm quiet (joinPieces ps) := by
  have hpieces := firm_pieces h hrow hglues hslashed
  clear h hrow hglues hslashed
  induction ps with
  | nil => exact .nil
  | cons p ps ih =>
    obtain ⟨spaced, text⟩ := p
    have hrest : Firm quiet (text ++ ps.flatMap Piece.text) := by
      rw [List.flatMap_cons] at hpieces
      cases spaced with
      | true => exact Firm.drop (t := [' ']) hpieces (List.forall_mem_singleton.mpr (by decide))
      | false => exact hpieces
    cases text with
    | nil => exact ih hrest
    | cons c text => exact hrest

end Token

end LessCss
