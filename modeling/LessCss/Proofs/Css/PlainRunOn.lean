import LessCss.Proofs.Css.PlainRead
import LessCss.Proofs.Css.Size
/-!
Texts that run on into what follows them.

Without a `;` between them the last declaration of a block and the header of the block after it are read as one
row of tokens. Whatever the tokens are, none of them is a brace or a `;` (`Loose.spell`), so the row is at most the
header of a rule (`lead?_runOn`).
-/
namespace LessCss

namespace Lexeme

/-- A character that neither begins a string nor a comment and is neither a brace, a `;` nor a parenthesis that
opens. -/
def isCalm (c : Char) : Bool :=
  c ≠ '"' ∧ c ≠ '\'' ∧ c ≠ '/' ∧ c ≠ '{' ∧ c ≠ '}' ∧ c ≠ ';' ∧ c ≠ '('

/-- A lexeme that ends nothing, and after its first character is made of inner characters. -/
structure RunsOn (c : Char) (l : Lexeme) : Prop where
  not_stop : ∀ p s, Tokens.isStop ⟨l.kind, l.text, p, s⟩ = false
  text : ∃ tail, l.text = c :: tail ∧ ∀ d ∈ tail, isInner d = true

variable {c : Char} {cs : Text}

theorem runsOn_readSigned {kind : Token.Kind} (hk : kind = .hash ∨ kind = .atKeyword) :
    RunsOn c (readSigned kind c cs) := by
  rw [readSigned]
  split
  · exact ⟨fun _ _ => rfl, [], rfl, List.forall_mem_nil _⟩
  · constructor
    · intro _ _
      rcases hk with rfl | rfl <;> rfl
    · refine ⟨cs.takeWhile isNameChar, rfl, ?_⟩
      intro d hd
      simp [isInner, List.mem_takeWhile_imp hd]

theorem runsOn_readNumber : RunsOn c (readNumber c cs) := by
  rw [readNumber]
  split
  · next m rest hm =>
    have hinner := isInner_measure (Measure.wellFormed_of_read? hm).1
    have htext := tail_text (Measure.read?_append hm) (Measure.text_ne_nil_of_read? hm) []
    rw [List.append_nil, List.append_nil] at htext
    refine ⟨fun _ _ => rfl, _, htext, ?_⟩
    intro d hd
    apply hinner d
    rw [htext]
    exact List.mem_cons_of_mem c hd
  · exact ⟨fun _ _ => rfl, [], rfl, List.forall_mem_nil _⟩

theorem runsOn_readName (hc : isNameChar c = true)
    (hparen : startsWith (· == '(') (cs.dropWhile isNameChar) = false) : RunsOn c (readName (c :: cs)) := by
  have hread : readName (c :: cs) = ⟨.ident, c :: cs.takeWhile isNameChar, cs.dropWhile isNameChar⟩ := by
    have hname : ∀ d ∈ c :: cs.takeWhile isNameChar, isNameChar d = true :=
      List.forall_mem_cons.mpr ⟨hc, fun d hd => List.mem_takeWhile_imp hd⟩
    have h := readName_ident hname (startsWith_dropWhile isNameChar cs) hparen
    rwa [List.cons_append, List.takeWhile_append_dropWhile] at h
  rw [hread]
  exact ⟨fun _ _ => rfl, _, rfl, fun d hd => by simp [isInner, List.mem_takeWhile_imp hd]⟩

/-- What a calm character begins ends nothing. -/
theorem runsOn_read (hc : isCalm c = true) (hparen : startsWith (· == '(') (cs.dropWhile isNameChar) = false)
    (b : Option Token.Kind) (s : Bool) : RunsOn c (read b s c cs) := by
  simp only [isCalm, decide_eq_true_eq] at hc
  obtain ⟨hquote, hquote', -, hl, hr, hsemicolon, -⟩ := hc
  fun_cases read b s c cs with
  | case1 h => exact absurd h (by simp [hquote, hquote'])
  | case2 => exact runsOn_readSigned (.inl rfl)
  | case3 => exact runsOn_readSigned (.inr rfl)
  | case4 => exact runsOn_readNumber
  | case5 => exact runsOn_readNumber
  | case6 _ _ _ _ _ hhyphen => exact runsOn_readName (by rw [hhyphen.1]; decide) hparen
  | case7 _ _ _ _ _ _ hstart => exact runsOn_readName (isNameChar_of_isNameStart hstart) hparen
  | case8 =>
    refine ⟨?_, [], rfl, List.forall_mem_nil _⟩
    intro _ _
    simp only [singleKind, if_neg hl, if_neg hr, if_neg hsemicolon]
    repeat' split
    all_goals rfl

end Lexeme

namespace Plain

open Lexeme (isCalm isInner)
open Token (spell)
open Tokens (isStop)

/-- Calm characters, with strings between double quotes among them. -/
inductive Loose : Text → Prop
  | nil : Loose []
  | char {c : Char} {w : Text} : isCalm c = true → Loose w → Loose (c :: w)
  | quoted (q : Quoted) {w : Text} : Loose w → Loose (q.text ++ w)

namespace Loose

theorem append {u w : Text} (hu : Loose u) (hw : Loose w) : Loose (u ++ w) := by
  induction hu with
  | nil => exact hw
  | char hc _ ih => exact .char hc ih
  | quoted q _ ih =>
    rw [List.append_assoc]
    exact .quoted q ih

theorem of_calm {w : Text} (h : ∀ c ∈ w, isCalm c = true) : Loose w := by
  induction w with
  | nil => exact .nil
  | cons c w ih =>
    simp only [List.forall_mem_cons] at h
    exact .char h.1 (ih h.2)

/-- What is left of a loose text once characters outside of strings are taken off. -/
theorem of_append {u w : Text} (h : Loose (u ++ w)) (hu : ∀ c ∈ u, c ≠ '"') : Loose w := by
  induction u with
  | nil => exact h
  | cons c u ih =>
    simp only [List.forall_mem_cons] at hu
    generalize hv : c :: u ++ w = v at h
    cases h with
    | nil => simp at hv
    | char _ hw =>
      rw [List.cons_append, List.cons.injEq] at hv
      exact ih (hv.2 ▸ hw) hu.2
    | quoted q _ =>
      rw [Quoted.text, List.cons_append, List.cons_append, List.cons.injEq] at hv
      exact absurd hv.1 hu.1

/-- Before a brace no parenthesis directly follows a name of a loose text. -/
theorem no_paren {w : Text} (h : Loose w) (r : Text) :
    startsWith (· == '(') ((w ++ '{' :: r).dropWhile isNameChar) = false := by
  induction h with
  | nil =>
    rw [List.nil_append, List.dropWhile_cons_of_neg (by decide)]
    rfl
  | @char c w hc _ ih =>
    cases hn : isNameChar c with
    | true => rwa [List.cons_append, List.dropWhile_cons_of_pos hn]
    | false =>
      rw [List.cons_append, List.dropWhile_cons_of_neg (by simp [hn])]
      simp only [isCalm, decide_eq_true_eq] at hc
      simp [hc]
  | quoted q _ =>
    rw [Quoted.text, List.cons_append, List.cons_append, List.dropWhile_cons_of_neg (by decide)]
    rfl

/-- A loose text before a brace is read as tokens that end nothing, up to the brace. -/
theorem spell {w : Text} (h : Loose w) (b : Option Token.Kind) (s : Bool) (r : Text) :
    ∃ ts s', (∀ t ∈ ts, isStop t = false) ∧
      Token.spell b s (w ++ '{' :: r) = ts ++ token .lbrace s' ['{'] :: Token.spell (some .lbrace) false r := by
  induction hn : w.length using Nat.strongRecOn generalizing w b s with
  | ind n ih =>
    cases h with
    | nil => exact ⟨[], s, nofun, spell_mark .lbrace b s r⟩
    | @char c w hc hw =>
      cases hblank : Text.isBlank c with
      | true =>
        rw [List.cons_append, Token.spell_blank hblank]
        exact ih w.length (by simp [← hn]) hw b true rfl
      | false =>
        have hslash : c ≠ '/' := by
          simp only [isCalm, decide_eq_true_eq] at hc
          exact hc.2.2.1
        obtain ⟨hstop, tail, htail, hinner⟩ := Lexeme.runsOn_read hc (hw.no_paren r) b s
        have happend := Lexeme.read_append b s c (w ++ '{' :: r)
        rw [htail, List.cons_append, List.cons.injEq] at happend
        -- The lexeme is made of inner characters, so it ends in `w`.
        obtain ⟨u, hu, hrest⟩ := Written.append_cons_cut happend.2.symm fun hb => absurd (hinner _ hb) (by decide)
        have hloose : Loose u := by
          apply (hu ▸ hw).of_append
          rintro d hd rfl
          exact absurd (hinner _ hd) (by decide)
        have hlength : u.length < n := by
          rw [← hn, hu, List.length_cons, List.length_append]
          omega
        obtain ⟨ts, s', hts, hspell⟩ :=
          ih u.length hlength hloose (some (Lexeme.read b s c (w ++ '{' :: r)).kind) false rfl
        refine ⟨_ :: ts, s', List.forall_mem_cons.mpr ⟨hstop .start s, hts⟩, ?_⟩
        rw [List.cons_append, Token.spell_lexeme (next?_eq_none hblank hslash _), hrest, hspell]
        rfl
    | @quoted q w hw =>
      have hread : Lexeme.read b s '"' (q.body ++ '"' :: (w ++ '{' :: r)) = ⟨.string, q.text, w ++ '{' :: r⟩ := by
        simp [Lexeme.read, readString_body q.fit, Lexeme.push, Quoted.text]
      have htext : q.text ++ w ++ '{' :: r = '"' :: (q.body ++ '"' :: (w ++ '{' :: r)) := by simp [Quoted.text]
      have hlength : w.length < n := by
        rw [← hn, Quoted.text, List.length_append, List.length_cons]
        omega
      obtain ⟨ts, s', hts, hspell⟩ := ih w.length hlength hw (some .string) false rfl
      refine ⟨token .string s q.text :: ts, s', List.forall_mem_cons.mpr ⟨rfl, hts⟩, ?_⟩
      rw [htext, Token.spell_lexeme (next?_eq_none (by decide) (by decide) _), hread, List.cons_append, ← hspell]
      rfl

end Loose

theorem isCalm_of_isAlphanum {c : Char} (h : c.isAlphanum = true) : isCalm c = true := by
  simp only [Char.isAlphanum, Bool.or_eq_true, isAlpha_iff, isDigit_iff] at h
  simp only [isCalm, decide_eq_true_eq, Ne, eq_iff_toNat, Char.reduceToNat]
  omega

theorem isCalm_of_isDigit {c : Char} (h : c.isDigit = true) : isCalm c = true :=
  isCalm_of_isAlphanum (by simp [Char.isAlphanum, h])

theorem isCalm_of_isAlpha {c : Char} (h : c.isAlpha = true) : isCalm c = true :=
  isCalm_of_isAlphanum (by simp [Char.isAlphanum, h])

theorem Word.loose (w : Word) : Loose w.text := by
  refine .char (isCalm_of_isAlpha w.first_isAlpha) (.of_calm fun c hc => ?_)
  rcases w.others_fit c hc with h | rfl
  · exact isCalm_of_isAlphanum h
  · rfl

theorem Digits.loose (d : Digits) : Loose d.text := .of_calm fun c hc => isCalm_of_isDigit (d.fit c hc)

theorem Number.loose (n : Number) : Loose n.text := by
  refine Loose.append (Loose.append (Loose.append ?_ n.whole.loose) ?_) ?_
  · cases n.negative with
    | false => exact .nil
    | true => exact .char rfl .nil
  · cases n.fraction with
    | none => exact .nil
    | some f => exact .char rfl f.loose
  · cases n.unit with
    | percent => exact .char rfl .nil
    | letters l => exact .of_calm fun c hc => isCalm_of_isAlpha (l.fit c hc)

theorem Row.loose {α : Type} {glue : Text} {text : α → Text} (hglue : Loose glue) (h : ∀ a, Loose (text a))
    (r : Row α) : Loose (r.text glue text) := by
  obtain ⟨first, others⟩ := r
  refine (h first).append ?_
  induction others with
  | nil => exact .nil
  | cons a others ih => exact (hglue.append (h a)).append ih

theorem Item.loose (i : Item) : Loose i.text := by
  cases i with
  | word w => exact w.loose
  | hash w => exact .char rfl w.loose
  | number n => exact n.loose
  | string q =>
    have h := Loose.quoted q .nil
    rwa [List.append_nil] at h

theorem value_loose (v : Value) : Loose (valueText v) :=
  Row.loose (.char rfl (.char rfl .nil)) (Row.loose (.char rfl .nil) Item.loose) v

theorem Compound.loose (c : Compound) : Loose c.text := by
  cases c with
  | name w => exact w.loose
  | dotted w => exact .char rfl w.loose
  | hash w => exact .char rfl w.loose
  | colon w v => exact w.loose.append (.char rfl v.loose)

theorem selectors_loose (sels : Row Selector) : Loose (selectorsText false sels) :=
  Row.loose (.char rfl .nil) (Row.loose (.char rfl .nil) Compound.loose) sels

theorem at_loose (name : Word) (params : Params) : Loose (atText name params) := by
  refine .char rfl (name.loose.append ?_)
  cases params with
  | none => exact .nil
  | some v => exact .char rfl (value_loose v)

/-- What follows the colon of a declaration. -/
def Declaration.rest (d : Declaration) : Text :=
  valueText d.value ++ if d.important then '!' :: importantWord.text else []

theorem Declaration.text_eq (d : Declaration) : d.text false = d.name.text ++ ':' :: d.rest := by
  cases h : d.important <;> simp [text, rest, space, h]

theorem Declaration.rest_loose (d : Declaration) : Loose d.rest := by
  refine (value_loose d.value).append ?_
  cases d.important with
  | false => exact .nil
  | true => exact .char rfl importantWord.loose

end Plain

namespace Tokens

variable {stop : Token} {group ts rest after : List Token} {selectors : List Text}

/-- Selectors that are read up to the first brace are followed by what follows the brace. -/
theorem readSelectors_rest (h : ∀ t ∈ ts, isStop t = false) (hs : stop.kind = .lbrace)
    (hread : readSelectors group (ts ++ stop :: rest) = .ok (selectors, after)) : after = rest := by
  induction ts generalizing group selectors with
  | nil =>
    rw [List.nil_append, readSelectors] at hread
    simp only [hs] at hread
    split at hread
    · cases hread
    · cases hread
      rfl
  | cons t ts ih =>
    simp only [List.forall_mem_cons] at h
    have hstop := h.1
    simp only [isStop, decide_eq_false_iff_not, not_or] at hstop
    rw [List.cons_append, readSelectors] at hread
    split at hread
    case h_1 hk => exact absurd hk hstop.1
    case h_2 =>
      split at hread
      · cases hread
      · obtain ⟨p, hp, hq⟩ := bind_eq_ok hread
        cases hq
        exact ih h.2 hp
    case h_9 =>
      split at hread
      · cases hread
      · exact ih h.2 hread
    all_goals cases hread

/-- A row that begins with a name and reaches to a brace is at most the header of a rule. -/
theorem lead?_runOn {name : Token} {l : Option (Lead × List Token)} (hn : name.kind = .ident)
    (h : ∀ t ∈ ts, isStop t = false) (hs : stop.kind = .lbrace)
    (hl : lead? (name :: (ts ++ stop :: rest)) = .ok l) :
    ∃ selectors, l = some (.opened (.rule selectors), rest) := by
  have hfits : ∀ t ∈ name :: ts, isStop t = false := List.forall_mem_cons.mpr ⟨by simp [isStop, hn], h⟩
  have hopen : opensBlock (name :: (ts ++ stop :: rest)) = true := by
    simpa [hs] using opensBlock_append hfits (isStop_eq_true_iff.mpr (.inl hs)) rest
  have hsig : Signature.read? (name :: (ts ++ stop :: rest)) = none :=
    read?_eq_none (isDelim_eq_false (by simp [hn])) (by simp [hn])
  simp only [lead?, next_cons, hn, hsig, ruleHeader?, hopen] at hl
  obtain ⟨p, hp, rfl⟩ := map_eq_ok hl
  have hrest : p.2 = rest := readSelectors_rest hfits hs hp
  exact ⟨p.1, by rw [← hrest]⟩

end Tokens
end LessCss
