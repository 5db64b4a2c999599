import LessCss.Proofs.Outcome
import LessCss.Proofs.Sheet.Steps
import LessCss.Proofs.Token.Parens
/-!
What stands at the head of a row of tokens whose beginning is known.

Most statements take the tokens of one construct, whatever follows, and say what `lead?` or the reader of
that construct makes of them. Conversely, `DefinitionAt`, `DeclarationAt` and `DirectiveAt` say what stands in a row from
which one of these has been read.
-/
namespace LessCss

namespace Tokens

variable {t stop : Token} {ts value rest : List Token}

theorem skipSemicolon_cons (h : t.kind = .semicolon) : skipSemicolon (t :: ts) = ts := by
  simp [skipSemicolon, h]

theorem isStop_eq_true_iff : isStop t = true ↔
    t.kind = .lbrace ∨ t.kind = .semicolon ∨ t.kind = .rbrace ∨ t.kind = .eof := by
  simp [isStop]

theorem isStop_eof (h : t.kind = .eof) : isStop t = true := by simp [isStop, h]

theorem eq_next_cons (h : (next ts).kind ≠ .eof) : ts = next ts :: ts.tail := by
  cases ts with
  | nil => exact absurd rfl h
  | cons t ts => rfl

theorem eq_name_colon_cons (hname : (next ts).kind = .ident) (hcolon : (next ts.tail).kind = .colon) :
    ts = next ts :: next ts.tail :: ts.tail.tail := by
  rw [← eq_next_cons (by simp [hcolon]), ← eq_next_cons (by simp [hname])]

/-- Whether a token may stand in a value. -/
def inValue (t : Token) : Bool := !isStop t && t.kind ≠ .unterminated

theorem inValue_eq_true_iff : inValue t = true ↔ isStop t = false ∧ t.kind ≠ .unterminated := by
  simp [inValue]

/-- A value goes up to the first token at which values end. -/
theorem readValue_stop (hv : ∀ t ∈ value, isStop t = false) (hs : isStop stop = true) (rest : List Token) :
    readValue (value ++ stop :: rest) = (value.find? (·.kind = .unterminated)).elim (.ok (value, stop :: rest))
      fun t => .error (Fault.unterminatedString.blame t.position) := by
  have hstop : ∀ t ∈ value, (!isStop t) = true := by
    intro t ht
    simp [hv t ht]
  rw [readValue, List.takeWhile_append_of_pos hstop, List.dropWhile_append_of_pos hstop,
    List.takeWhile_cons_of_neg (by simp [hs]), List.dropWhile_cons_of_neg (by simp [hs]), List.append_nil]
  cases value.find? (·.kind = .unterminated) <;> rfl

theorem readValue_append (hv : ∀ t ∈ value, inValue t) (hs : isStop stop = true) :
    readValue (value ++ stop :: rest) = .ok (value, stop :: rest) := by
  have hfind : value.find? (·.kind = .unterminated) = none := by
    simpa using fun t ht => (inValue_eq_true_iff.mp (hv t ht)).2
  rw [readValue_stop (fun t ht => (inValue_eq_true_iff.mp (hv t ht)).1) hs, hfind, Option.elim_none]

theorem opensBlock_append (ht : ∀ t ∈ ts, isStop t = false) (hs : isStop stop = true) (rest : List Token) :
    opensBlock (ts ++ stop :: rest) = decide (stop.kind = .lbrace) := by
  have hfind : ts.find? isStop = none := by simpa using ht
  simp [opensBlock, List.find?_append, hfind, hs]

theorem pair_of_isImportant (h : isImportant ts = true) : ∃ mark word, ts = [mark, word] := by
  unfold isImportant at h
  split at h
  · next mark word => exact ⟨mark, word, rfl⟩
  · cases h

/-- A value that does not end in `! important` is left as it is. -/
theorem takeImportant_of_unmarked (h : ∀ init mark word, value = init ++ [mark, word] →
    isImportant [mark, word] = false) : takeImportant value = (value, false) := by
  have hcut : isImportant (value.drop (value.length - 2)) = false := by
    cases hi : isImportant (value.drop (value.length - 2)) with
    | false => rfl
    | true =>
      obtain ⟨mark, word, hd⟩ := pair_of_isImportant hi
      have := h (value.take (value.length - 2)) mark word (by rw [← hd, List.take_append_drop])
      rw [hd, this] at hi
      exact absurd hi (by simp)
  simp [takeImportant, hcut]

theorem takeImportant_append {mark word : Token} (h : isImportant [mark, word] = true) :
    takeImportant (value ++ [mark, word]) = (value, true) := by
  simp [takeImportant, h]

theorem isPrefix_takeImportant (value : List Token) : (takeImportant value).1 <+: value := by
  unfold takeImportant
  dsimp only
  split
  · exact List.take_prefix _ _
  · exact List.prefix_refl _

theorem isDelim_of_isImportant {mark word : Token} (h : isImportant [mark, word] = true) :
    mark.isDelim '!' = true ∧ word.kind = .ident := by
  simp only [isImportant, Bool.and_eq_true, beq_iff_eq] at h
  exact h.1

theorem kind_of_isDelim {c : Char} (h : t.isDelim c = true) : t.kind = .delim := by
  simp only [Token.isDelim, decide_eq_true_eq] at h
  exact h.1

/-- What marks a value as important may stand in a value. -/
theorem inValue_of_isImportant {mark word : Token} (h : isImportant [mark, word] = true) :
    ∀ t ∈ [mark, word], inValue t := by
  obtain ⟨hm, hw⟩ := isDelim_of_isImportant h
  have hm := kind_of_isDelim hm
  simp [inValue, isStop, hm, hw]

theorem readDefinition_append {name : Token} (hv : ∀ t ∈ value, inValue t) (hne : value ≠ [])
    (hs : isStop stop = true) (hb : stop.kind ≠ .lbrace) :
    readDefinition name (value ++ stop :: rest) = .ok (⟨name.name, value⟩, skipSemicolon (stop :: rest)) := by
  simp [readDefinition, readValue_append hv hs, hne, hb, bind, Except.bind]

theorem readDeclaration_append {name colon : Token} {written : List Token} {important : Bool}
    (hn : name.kind = .ident) (hc : colon.kind = .colon) (hv : ∀ t ∈ written, inValue t)
    (hi : takeImportant written = (value, important)) (hne : value ≠ []) (hs : isStop stop = true) (rest : List Token) :
    readDeclaration (name :: colon :: (written ++ stop :: rest)) =
      .ok (⟨name.text, value, important⟩, skipSemicolon (stop :: rest)) := by
  simp [readDeclaration, readValue_append hv hs, hn, hc, hi, hne, bind, Except.bind]

theorem readDirective_append (t : Token) (hv : ∀ t ∈ value, inValue t) (hs : isStop stop = true) (rest : List Token) :
    readDirective t (value ++ stop :: rest) =
      .ok (⟨t.name, Token.join value⟩, skipSemicolon (stop :: rest)) := by
  simp [readDirective, readValue_append hv hs, bind, Except.bind]

/-- The row is a value and what is left after it, which begins with a token at which values end. -/
structure ValueAt (ts value rest : List Token) : Prop where
  row : ts = value ++ rest
  fits : ∀ t ∈ value, inValue t = true
  stop : isStop (next rest) = true

inductive DefinitionAt (t : Token) (ts : List Token) : Definition → List Token → Prop
  | mk {value rest : List Token} (hvalue : ValueAt ts value rest) (hne : value ≠ []) (hbrace : (next rest).kind ≠ .lbrace) :
      DefinitionAt t ts ⟨t.name, value⟩ (skipSemicolon rest)

inductive DeclarationAt : List Token → Declaration → List Token → Prop
  | mk {name colon : Token} {ts written rest : List Token} (hname : name.kind = .ident) (hcolon : colon.kind = .colon)
      (hvalue : ValueAt ts written rest) (hne : (takeImportant written).1 ≠ []) :
      DeclarationAt (name :: colon :: ts) ⟨name.text, (takeImportant written).1, (takeImportant written).2⟩
        (skipSemicolon rest)

inductive DirectiveAt (t : Token) (ts : List Token) : Directive → List Token → Prop
  | mk {params rest : List Token} (hparams : ValueAt ts params rest) :
      DirectiveAt t ts ⟨t.name, Token.join params⟩ (skipSemicolon rest)

theorem valueAt_of_readValue (h : readValue ts = .ok (value, rest)) : ValueAt ts value rest := by
  simp only [readValue] at h
  split at h
  · cases h
  · next hfind =>
    obtain ⟨rfl, rfl⟩ := Prod.mk.inj (Except.ok.inj h)
    refine ⟨List.takeWhile_append_dropWhile.symm, fun t ht => ?_, ?_⟩
    · have hstop : isStop t = false := by simpa using List.all_eq_true.mp List.all_takeWhile t ht
      exact inValue_eq_true_iff.mpr ⟨hstop, by simpa using List.find?_eq_none.mp hfind t ht⟩
    · have hhead := List.head?_dropWhile_not (!isStop ·) ts
      revert hhead
      cases ts.dropWhile (!isStop ·) with
      | nil => exact fun _ => rfl
      | cons stop rest => simp

theorem definitionAt_of_readDefinition {d : Definition} (h : readDefinition t ts = .ok (d, rest)) :
    DefinitionAt t ts d rest := by
  obtain ⟨⟨value, after⟩, hvalue, h⟩ := bind_eq_ok h
  dsimp only at h
  split at h
  · cases h
  · next hne =>
    rw [not_or] at hne
    obtain ⟨rfl, rfl⟩ := Prod.mk.inj (Except.ok.inj h)
    exact .mk (valueAt_of_readValue hvalue) (by simpa using hne.1) hne.2

theorem declarationAt_of_readDeclaration {d : Declaration} (h : readDeclaration ts = .ok (d, rest)) :
    DeclarationAt ts d rest := by
  simp only [readDeclaration] at h
  split at h
  · cases h
  · next hname =>
    split at h
    · cases h
    · next hcolon =>
      rw [Decidable.not_not] at hname hcolon
      obtain ⟨⟨written, after⟩, hvalue, h⟩ := bind_eq_ok h
      dsimp only at h
      split at h
      · cases h
      · next hne =>
        obtain ⟨rfl, rfl⟩ := Prod.mk.inj (Except.ok.inj h)
        have hread := DeclarationAt.mk hname hcolon (valueAt_of_readValue hvalue) (by simpa using hne)
        rwa [← eq_name_colon_cons hname hcolon] at hread

theorem directiveAt_of_readDirective {d : Directive} (h : readDirective t ts = .ok (d, rest)) :
    DirectiveAt t ts d rest := by
  obtain ⟨⟨params, after⟩, hparams, h⟩ := bind_eq_ok h
  obtain ⟨rfl, rfl⟩ := Prod.mk.inj (Except.ok.inj h)
  exact .mk (valueAt_of_readValue hparams)

theorem readAtHeader_append (hv : ∀ t ∈ value, isStop t = false) (hb : stop.kind = .lbrace) :
    readAtHeader t (value ++ stop :: rest) = (.atRule t.name (Token.join value), rest) := by
  have hne : ∀ t ∈ value, decide (t.kind ≠ .lbrace) = true := by
    intro t ht
    have hstop := hv t ht
    simp only [isStop, decide_eq_false_iff_not, not_or] at hstop
    simp [hstop.1]
  rw [readAtHeader, List.takeWhile_append_of_pos hne, List.dropWhile_append_of_pos hne,
    List.takeWhile_cons_of_neg (by simp [hb]), List.dropWhile_cons_of_neg (by simp [hb])]
  simp

theorem lead?_definition {name colon : Token} (hn : name.kind = .atKeyword) (hc : colon.kind = .colon)
    (hv : ∀ t ∈ value, inValue t) (hne : value ≠ []) (hs : isStop stop = true) (hb : stop.kind ≠ .lbrace)
    (rest : List Token) : lead? (name :: colon :: (value ++ stop :: rest)) =
      .ok (some (.definition ⟨name.name, value⟩, skipSemicolon (stop :: rest))) := by
  simp [lead?, hn, hc, readDefinition_append hv hne hs hb, Except.map]

theorem lead?_atHeader {name : Token} (hn : name.kind = .atKeyword) (hv : ∀ t ∈ value, isStop t = false)
    (hc : ∀ t ∈ value.head?, t.kind ≠ .colon) (hb : stop.kind = .lbrace) :
    lead? (name :: (value ++ stop :: rest)) =
      .ok (some (.opened (.atRule name.name (Token.join value)), rest)) := by
  have hs : isStop stop = true := isStop_eq_true_iff.mpr (.inl hb)
  have hcolon : (next (value ++ stop :: rest)).kind ≠ .colon := by
    cases value with
    | nil => simp [hb]
    | cons t ts => exact hc t rfl
  simp [lead?, hn, hcolon, opensBlock_append hv hs, hb, readAtHeader_append hv hb]

theorem lead?_directive {name : Token} (hn : name.kind = .atKeyword) (hv : ∀ t ∈ value, isStop t = false)
    (hc : ∀ t ∈ value.head?, t.kind ≠ .colon) (hs : isStop stop = true) (hb : stop.kind ≠ .lbrace)
    (rest : List Token) : lead? (name :: (value ++ stop :: rest)) = .ok none := by
  have hcolon : (next (value ++ stop :: rest)).kind ≠ .colon := by
    cases value with
    | nil =>
      intro hk
      simp [isStop, show stop.kind = .colon from hk] at hs
    | cons t ts => exact hc t rfl
  simp [lead?, hn, hcolon, opensBlock_append hv hs, hb]

theorem read?_eq_none (hd : t.isDelim '.' = false) (hh : t.kind ≠ .hash) : Signature.read? (t :: ts) = none := by
  simp [Signature.read?, hd, hh]

theorem isDelim_eq_false {c : Char} (h : t.kind ≠ .delim) : t.isDelim c = false := by
  simp [Token.isDelim, h]

/-- A name before a `;` or a `}` leads nothing, which a block takes for a declaration. -/
theorem lead?_declaration {name : Token} (hn : name.kind = .ident) (hv : ∀ t ∈ value, isStop t = false)
    (hs : isStop stop = true) (hb : stop.kind ≠ .lbrace) (rest : List Token) :
    lead? (name :: (value ++ stop :: rest)) = .ok none := by
  have hopen : opensBlock (name :: (value ++ stop :: rest)) = false := by
    have hname : ∀ t ∈ name :: value, isStop t = false := by
      intro t ht
      rcases List.mem_cons.mp ht with rfl | ht
      · simp [isStop, hn]
      · exact hv t ht
    simpa [hb] using opensBlock_append hname hs rest
  have hsig : Signature.read? (name :: (value ++ stop :: rest)) = none :=
    read?_eq_none (isDelim_eq_false (by simp [hn])) (by simp [hn])
  simp [lead?, hn, hsig, ruleHeader?, hopen]

end Tokens
end LessCss
