import LessCss.Proofs.Sheet.Blame
/-!
Nothing behind `eof` is read.

If a row ends with its only `eof`, each reader makes the same of the row and of an extension of it, except that the
extension is still there in what is left. A reader that went beyond `eof` would find it.
-/
namespace LessCss

open Token (Ended ended_cons not_ended_nil)

/-- A signature in a longer row. -/
def Signature.extend (more : List Token) (s : Signature) : Signature := { s with rest := s.rest ++ more }

namespace Tokens

/-- What has been read in a longer row. -/
def extend {α : Type} (more : List Token) (p : α × List Token) : α × List Token := (p.1, p.2 ++ more)

variable {t : Token} {ts us rest more : List Token} {s : Signature}

theorem exists_cons_of_ended (hts : Ended ts) : ∃ t us, ts = t :: us := by
  cases ts with
  | nil => exact absurd hts not_ended_nil
  | cons t us => exact ⟨t, us, rfl⟩

theorem next_extend (hts : Ended ts) : next (ts ++ more) = next ts := by
  obtain ⟨t, us, rfl⟩ := exists_cons_of_ended hts
  rfl

theorem tail_extend (hts : Ended ts) : (ts ++ more).tail = ts.tail ++ more := by
  obtain ⟨t, us, rfl⟩ := exists_cons_of_ended hts
  rfl

theorem skipSemicolon_extend (hts : Ended ts) : skipSemicolon (ts ++ more) = skipSemicolon ts ++ more := by
  obtain ⟨t, us, rfl⟩ := exists_cons_of_ended hts
  rw [List.cons_append, skipSemicolon, skipSemicolon]
  split <;> rfl

theorem opensBlock_extend (hts : Ended ts) : opensBlock (ts ++ more) = opensBlock ts := by
  obtain ⟨value, stop, rest, rfl, hvalue, hstop⟩ := hts.stops fun _ => isStop_eof
  rw [List.append_assoc, List.cons_append, opensBlock_append hvalue hstop, opensBlock_append hvalue hstop]

theorem readValue_extend (hts : Ended ts) : readValue (ts ++ more) = (readValue ts).map (extend more) := by
  obtain ⟨value, stop, rest, rfl, hvalue, hstop⟩ := hts.stops fun _ => isStop_eof
  rw [List.append_assoc, List.cons_append, readValue_stop hvalue hstop, readValue_stop hvalue hstop]
  cases value.find? (·.kind = .unterminated) <;> rfl

theorem readDefinition_extend (t : Token) (hts : Ended ts) :
    readDefinition t (ts ++ more) = (readDefinition t ts).map (extend more) := by
  rw [readDefinition, readDefinition, readValue_extend hts]
  cases hread : readValue ts with
  | error d => rfl
  | ok p =>
    obtain ⟨value, rest⟩ := p
    have hrest := ended_of_readValue hts hread
    simp only [Except.map, extend, ok_bind, next_extend hrest, skipSemicolon_extend hrest]
    split <;> rfl

theorem readDirective_extend (t : Token) (hts : Ended ts) :
    readDirective t (ts ++ more) = (readDirective t ts).map (extend more) := by
  rw [readDirective, readDirective, readValue_extend hts]
  cases hread : readValue ts with
  | error d => rfl
  | ok p =>
    obtain ⟨value, rest⟩ := p
    simp only [Except.map, extend, ok_bind, skipSemicolon_extend (ended_of_readValue hts hread)]

theorem readDeclaration_extend (hts : Ended ts) :
    readDeclaration (ts ++ more) = (readDeclaration ts).map (extend more) := by
  rw [readDeclaration, readDeclaration, next_extend hts]
  dsimp only
  split
  · rfl
  · next hname =>
    have hname : (next ts).kind ≠ .eof := by
      rw [Decidable.not_not.mp hname]
      decide
    have hcolon := ended_tail hts hname
    rw [tail_extend hts, next_extend hcolon]
    split
    · rfl
    · next hk =>
      have hk : (next ts.tail).kind ≠ .eof := by
        rw [Decidable.not_not.mp hk]
        decide
      have hvalue := ended_tail hcolon hk
      rw [tail_extend hcolon, readValue_extend hvalue]
      cases hread : readValue ts.tail.tail with
      | error d => rfl
      | ok p =>
        obtain ⟨value, rest⟩ := p
        have hrest := ended_of_readValue hvalue hread
        simp only [Except.map, extend, ok_bind, next_extend hrest, skipSemicolon_extend hrest]
        split <;> rfl

theorem readSelectors_extend (group : List Token) (hts : Ended ts) :
    readSelectors group (ts ++ more) = (readSelectors group ts).map (extend more) := by
  fun_induction readSelectors group ts with
  | case1 => exact absurd hts not_ended_nil
  | case5 group t ts hk hg ih =>
    have hrest := ended_tail hts (by simp [hk])
    rw [List.cons_append, readSelectors, hk]
    dsimp only
    rw [if_neg hg, ih hrest]
    cases readSelectors [] ts <;> rfl
  | case13 group t ts _ _ _ _ _ _ _ _ hd ih =>
    have hrest := ended_tail hts (by assumption)
    rw [← ih hrest, List.cons_append, readSelectors]
    simp_all
  | _ => simp_all [readSelectors, Except.map, extend]

theorem closeParen?_extend {depth : Nat} (hts : Ended ts) : closeParen? endsArguments depth (ts ++ more) =
    (closeParen? endsArguments depth ts).map (extend more) := by
  fun_induction closeParen? endsArguments depth ts with
  | case1 => exact absurd hts not_ended_nil
  | case2 depth t us hb => simp [closeParen?, hb]
  | case3 t us hb hk => simp [closeParen?, hb, hk, extend]
  | case4 t us hb d hk ih | case5 t us hb d hk ih | case6 t us hb d hk ih =>
    simp [closeParen?, hb, hk, ih (ended_of_not_endsArguments hts hb), extend, Function.comp_def]
  | case7 t us hb d h₁ h₂ h₃ h₄ ih =>
    have hclose : t.kind ≠ .rparen := by
      intro hk
      cases d with
      | zero => exact h₁ hk rfl
      | succ d => exact h₂ d hk rfl
    have hrest := ih (ended_of_not_endsArguments hts hb)
    rw [List.cons_append, closeParen?_cons_other (by simpa using hb) ⟨h₃, h₄⟩ hclose, hrest]
    simp [extend, Function.comp_def]

end Tokens

namespace Signature

open Tokens

variable {ts more : List Token} {s : Signature}

theorem opened_extend (name : Text) (hts : Ended ts) :
    opened name (ts ++ more) = (opened name ts).map (extend more) := by
  rw [opened, opened, closeParen?_extend hts, Option.map_map, Option.map_map]
  rfl

theorem named_extend (name : Text) (hts : Ended ts) :
    named name (ts ++ more) = (named name ts).map (extend more) := by
  obtain ⟨t, us, rfl⟩ := exists_cons_of_ended hts
  rw [List.cons_append, named, named]
  split
  · next hk => exact opened_extend name (ended_tail hts (by simp [hk]))
  · rfl

theorem read?_extend (hts : Ended ts) : read? (ts ++ more) = (read? ts).map (extend more) := by
  obtain ⟨t, us, rfl⟩ := exists_cons_of_ended hts
  rw [List.cons_append, read?, read?]
  split
  · next hd =>
    have hus : Ended us := ended_tail hts (by simp [kind_of_isDelim hd])
    rw [next_extend hus, tail_extend hus]
    dsimp only
    split
    · rfl
    · split
      · next hk => exact named_extend _ (ended_tail hus (by simp [hk]))
      · next hk => exact opened_extend _ (ended_tail hus (by simp [hk]))
      · rfl
  · split
    · next hk => exact named_extend _ (ended_tail hts (by simp [hk]))
    · rfl

theorem isDefinition_extend (hrest : Ended s.rest) : (s.extend more).isDefinition = s.isDefinition := by
  simp only [isDefinition, extend, next_extend hrest]

theorem isCall_extend (hrest : Ended s.rest) : (s.extend more).isCall = s.isCall := by
  rw [isCall, isCall]
  simp only [extend, next_extend hrest]
  by_cases hk : (next s.rest).kind = .eof
  · simp [hk]
  · -- a token other than `eof` is followed by one more, so the extension does not come into the first two
    obtain ⟨t, us, hcons⟩ := exists_cons_of_ended hrest
    have hus : Ended us := by simpa [hcons] using ended_tail hrest hk
    obtain ⟨u, vs, rfl⟩ := exists_cons_of_ended hus
    simp [hcons]

end Signature

namespace Tokens

variable {t : Token} {ts more : List Token} {s : Signature}

theorem readCall_extend (p : Position) (hrest : Ended s.rest) (hs : s.isCall = true) :
    readCall p (s.extend more) = extend more (readCall p s) := by
  simp only [readCall, Signature.extend, next_extend hrest, extend]
  split
  · next hmark =>
    obtain ⟨mark, word, rest, hcons, himportant⟩ := marked_of_isCall hs hmark
    obtain ⟨hm, hw⟩ := isDelim_of_isImportant himportant
    rw [hcons] at hrest ⊢
    have hword : Ended (word :: rest) := ended_tail hrest (by simp [kind_of_isDelim hm])
    have hended : Ended rest := ended_tail hword (by simp [hw])
    exact congrArg (Prod.mk _) (skipSemicolon_extend hended)
  · rw [skipSemicolon_extend hrest]
    rfl

theorem ruleHeader?_extend (hts : Ended ts) :
    ruleHeader? (ts ++ more) = (ruleHeader? ts).map (Option.map (extend more)) := by
  rw [ruleHeader?, ruleHeader?, opensBlock_extend hts, readSelectors_extend [] hts]
  split
  · cases readSelectors [] ts <;> rfl
  · rfl

theorem readAtHeader_extend (t : Token) (hts : Ended ts) (hopens : opensBlock ts = true) :
    readAtHeader t (ts ++ more) = extend more (readAtHeader t ts) := by
  obtain ⟨value, stop, rest, rfl, hvalue, hstop⟩ := hts.stops fun _ => isStop_eof
  rw [opensBlock_append hvalue hstop, decide_eq_true_eq] at hopens
  rw [List.append_assoc, List.cons_append, readAtHeader_append hvalue hopens, readAtHeader_append hvalue hopens]
  rfl

theorem lead?_extend (hts : Ended ts) : lead? (ts ++ more) = (lead? ts).map (Option.map (extend more)) := by
  rw [lead?, lead?, next_extend hts]
  dsimp only
  split
  · next hk =>
    have htail : Ended ts.tail := ended_tail hts (by simp [hk])
    rw [tail_extend hts, next_extend htail]
    split
    · next hcolon =>
      have hvalue : Ended ts.tail.tail := ended_tail htail (by simp [hcolon])
      rw [tail_extend htail, readDefinition_extend _ hvalue, map_map, map_map]
      rfl
    · rw [opensBlock_extend htail]
      split
      · next hopens =>
        rw [readAtHeader_extend _ htail hopens]
        rfl
      · rfl
  · rw [Signature.read?_extend hts]
    cases hread : Signature.read? ts with
    | none => exact ruleHeader?_extend hts
    | some s =>
      have hrest : Ended s.rest := (sameBlock_of_read? hread).ended hts
      simp only [Option.map_some, Signature.isDefinition_extend hrest, Signature.isCall_extend hrest]
      split
      · rw [map_map, Signature.extend, tail_extend hrest]
        rfl
      · split
        · next hcall =>
          rw [readCall_extend _ hrest hcall]
          rfl
        · exact ruleHeader?_extend hts

end Tokens
end LessCss
