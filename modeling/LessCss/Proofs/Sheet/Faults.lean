import LessCss.Proofs.Sheet.Balance
import LessCss.Proofs.Sheet.Signature
import LessCss.Proofs.Token.Tiles
/-!
Which faults the readers of a sheet report.

A row of tokens that ends with its only `eof` and whose braces pair up is read without a brace fault: what is
read or reported is a sheet or a malformed one (`readStatements_gives`). The invariant is that the rest of the row
closes exactly the blocks that are open where it begins (`readBlock_gives`), and it holds since nothing but a block
takes a brace (`lead?_gives`).
-/
namespace LessCss

/-- What a reader gives has a property, and every fault it reports is that of a malformed sheet. -/
def Gives {α : Type} (P : α → Prop) : Except Diagnostic α → Prop
  | .ok a => P a
  | .error d => d.fault.kind = .malformed

section Gives

variable {α β : Type} {P : α → Prop} {Q : β → Prop} {r : Except Diagnostic α}

theorem Gives.mono {P' : α → Prop} (h : Gives P r) (hP : ∀ a, P a → P' a) : Gives P' r := by
  cases r with
  | error d => exact h
  | ok a => exact hP a h

theorem Gives.bind {k : α → Except Diagnostic β} (h : Gives P r) (hk : ∀ a, r = .ok a → P a → Gives Q (k a)) :
    Gives Q (r >>= k) := by
  cases r with
  | error d => exact h
  | ok a => exact hk a rfl h

theorem Gives.map {f : α → β} (h : Gives P r) (hf : ∀ a, P a → Q (f a)) : Gives Q (r.map f) := by
  cases r with
  | error d => exact h
  | ok a => exact hf a h

theorem Gives.mapM {f : α → Except Diagnostic β} (h : ∀ a, Gives Q (f a)) (as : List α) :
    Gives (fun _ => True) (as.mapM f) := by
  induction as with
  | nil => trivial
  | cons a as ih =>
    rw [List.mapM_cons]
    exact (h a).bind fun b _ _ => ih.bind fun bs _ _ => trivial

end Gives

namespace Tokens

open Braces (unpaired? isBrace)
open Token (Ended ended_cons not_ended_nil)

/-- `rest` is what is left of `ts` after tokens that neither open nor close a block nor end the text. -/
def SameBlock (ts rest : List Token) : Prop :=
  ∃ taken, ts = taken ++ rest ∧ ∀ t ∈ taken, endsArguments t = false

variable {t b : Token} {ts us vs rest : List Token} {opened : Nat}

theorem endsArguments_eq_false_iff :
    endsArguments t = false ↔ isBrace t = false ∧ t.kind ≠ .eof := by
  simp [endsArguments, isBrace, and_assoc]

theorem endsArguments_of_not_stop (h : isStop t = false) : endsArguments t = false := by
  simp only [isStop, decide_eq_false_iff_not, not_or] at h
  simp [endsArguments, h]

namespace SameBlock

theorem refl (ts : List Token) : SameBlock ts ts := ⟨[], rfl, by simp⟩

theorem cons (ht : endsArguments t = false) (h : SameBlock ts us) : SameBlock (t :: ts) us := by
  obtain ⟨taken, rfl, htaken⟩ := h
  exact ⟨t :: taken, rfl, by simpa [ht] using htaken⟩

theorem trans (h : SameBlock ts us) (h' : SameBlock us vs) : SameBlock ts vs := by
  obtain ⟨taken, rfl, htaken⟩ := h
  obtain ⟨taken', rfl, htaken'⟩ := h'
  refine ⟨taken ++ taken', (List.append_assoc ..).symm, ?_⟩
  intro t ht
  exact (List.mem_append.mp ht).elim (htaken t) (htaken' t)

theorem append (h : ∀ t ∈ ts, endsArguments t = false) (us : List Token) : SameBlock (ts ++ us) us :=
  ⟨ts, rfl, h⟩

theorem dropWhile {p : Token → Bool} (hp : ∀ t, p t = true → endsArguments t = false) (ts : List Token) :
    SameBlock ts (ts.dropWhile p) :=
  ⟨ts.takeWhile p, List.takeWhile_append_dropWhile.symm,
    fun t ht => hp t (List.all_eq_true.mp List.all_takeWhile t ht)⟩

theorem skipSemicolon (ts : List Token) : SameBlock ts (skipSemicolon ts) := by
  cases ts with
  | nil => exact refl []
  | cons t ts =>
    rw [Tokens.skipSemicolon]
    split
    · next hk => exact cons (by simp [endsArguments, hk]) (refl ts)
    · exact refl (t :: ts)

/-- No brace stands in between, so as many blocks are left to close. -/
theorem unpaired? (h : SameBlock ts us) (opened : Nat) : unpaired? opened ts = Braces.unpaired? opened us := by
  obtain ⟨taken, rfl, htaken⟩ := h
  induction taken with
  | nil => rfl
  | cons t taken ih =>
    simp only [List.forall_mem_cons] at htaken
    rw [List.cons_append, Braces.unpaired?_other (endsArguments_eq_false_iff.mp htaken.1).1, ih htaken.2]

theorem ended (h : SameBlock ts us) (hts : Ended ts) : Ended us := by
  obtain ⟨taken, rfl, htaken⟩ := h
  induction taken with
  | nil => exact hts
  | cons t taken ih =>
    simp only [List.forall_mem_cons] at htaken
    rcases ended_cons.mp hts with ⟨hk, -⟩ | ⟨-, hrest⟩
    · exact absurd hk (endsArguments_eq_false_iff.mp htaken.1).2
    · exact ih htaken.2 hrest

end SameBlock

/-- The row goes on to a `{`, and `inside` is what follows it. -/
def Opens (ts inside : List Token) : Prop := ∃ b, b.kind = .lbrace ∧ SameBlock ts (b :: inside)

theorem Opens.cons (h : Opens ts us) (ht : endsArguments t = false) : Opens (t :: ts) us := by
  obtain ⟨b, hb, h⟩ := h
  exact ⟨b, hb, h.cons ht⟩

theorem SameBlock.opens (h : SameBlock ts us) (h' : Opens us vs) : Opens ts vs := by
  obtain ⟨b, hb, hus⟩ := h'
  exact ⟨b, hb, h.trans hus⟩

theorem Opens.ended (h : Opens ts us) (hts : Ended ts) : Ended us := by
  obtain ⟨b, hb, h⟩ := h
  rcases ended_cons.mp (h.ended hts) with ⟨hk, -⟩ | ⟨-, hus⟩
  · simp [hb] at hk
  · exact hus

theorem Opens.unpaired? (h : Opens ts us) (opened : Nat) :
    Braces.unpaired? opened ts = Braces.unpaired? (opened + 1) us := by
  obtain ⟨b, hb, h⟩ := h
  rw [h.unpaired?, Braces.unpaired?_lbrace hb]

theorem readValue_gives (ts : List Token) : Gives (fun p => SameBlock ts p.2) (readValue ts) := by
  simp only [readValue]
  split
  · rfl
  · exact SameBlock.dropWhile (fun t ht => endsArguments_of_not_stop (by simpa using ht)) ts

theorem readDefinition_gives (t : Token) (ts : List Token) :
    Gives (fun p => SameBlock ts p.2) (readDefinition t ts) := by
  refine (readValue_gives ts).bind ?_
  rintro ⟨value, rest⟩ - hrest
  dsimp only
  split
  · rfl
  · exact hrest.trans (.skipSemicolon rest)

theorem readDeclaration_gives (ts : List Token) : Gives (fun p => SameBlock ts p.2) (readDeclaration ts) := by
  rw [readDeclaration]
  dsimp only
  split
  · rfl
  · next hname =>
    split
    · rfl
    · next hcolon =>
      refine (readValue_gives _).bind ?_
      rintro ⟨value, rest⟩ - hrest
      dsimp only
      split
      · rfl
      · -- the name and the colon stand before the value
        rw [Decidable.not_not] at hname hcolon
        have hvalue : SameBlock ts.tail.tail (skipSemicolon rest) := hrest.trans (.skipSemicolon rest)
        have hsame : SameBlock (next ts :: next ts.tail :: ts.tail.tail) (skipSemicolon rest) :=
          .cons (by simp [endsArguments, hname]) (.cons (by simp [endsArguments, hcolon]) hvalue)
        rwa [← eq_name_colon_cons hname hcolon] at hsame

theorem readDirective_gives (t : Token) (ts : List Token) :
    Gives (fun p => SameBlock ts p.2) (readDirective t ts) := by
  refine (readValue_gives ts).bind ?_
  rintro ⟨params, rest⟩ - hrest
  exact hrest.trans (.skipSemicolon rest)

theorem readSelectors_gives (group ts : List Token) :
    Gives (fun p => Opens ts p.2) (readSelectors group ts) := by
  fun_induction readSelectors group ts with
  | case1 | case2 | case4 | case6 | case7 | case8 | case9 | case10 | case11 | case12 => rfl
  | case3 group t ts hk hg => exact ⟨t, hk, .refl _⟩
  | case5 group t ts hk hg ih =>
    refine ih.bind ?_
    rintro ⟨selectors, rest⟩ - hrest
    exact hrest.cons (by simp [endsArguments, hk])
  | case13 group t ts hlbrace _ _ _ _ _ hrbrace heof _ ih =>
    exact ih.mono fun p hp => hp.cons (by simp_all [endsArguments])

theorem opens_of_opensBlock (h : opensBlock ts = true) : Opens ts (ts.dropWhile (·.kind ≠ .lbrace)).tail := by
  induction ts with
  | nil => simp [opensBlock] at h
  | cons t ts ih =>
    by_cases hl : t.kind = .lbrace
    · rw [List.dropWhile_cons_of_neg (by simp [hl])]
      exact ⟨t, hl, .refl _⟩
    · have hs : isStop t = false := by
        cases hs : isStop t with
        | false => rfl
        | true => simp [opensBlock, hs, hl] at h
      rw [List.dropWhile_cons_of_pos (by simp [hl])]
      exact (ih (by simpa [opensBlock, hs] using h)).cons (endsArguments_of_not_stop hs)

theorem parameter_gives (ts : List Token) : Gives (fun _ => True) (Signature.parameter ts) := by
  rw [Signature.parameter]
  split
  · rfl
  · split
    · trivial
    · split
      · rfl
      · split
        · rfl
        · trivial

theorem Name.stays (n : Written.Name) : ∀ t ∈ n.tokens, endsArguments t = false := by
  cases n with
  | dotted dot word => simp [Written.Name.tokens, endsArguments, kind_of_isDelim dot.2, word.2.1]
  | hash h => simp [Written.Name.tokens, endsArguments, h.2]

theorem Opening.stays (o : Written.Opening) : ∀ t ∈ o.tokens, endsArguments t = false := by
  cases o with
  | paren name lparen =>
    intro t ht
    rcases List.mem_append.mp ht with ht | ht
    · exact Name.stays name t ht
    · rw [List.mem_singleton.mp ht]
      simp [endsArguments, lparen.2]
  | function dot word => simp [Written.Opening.tokens, endsArguments, kind_of_isDelim dot.2, word.2.1]

theorem sameBlock_of_read? {s : Signature} (h : Signature.read? ts = some s) : SameBlock ts s.rest := by
  cases Written.spells_of_read? h with
  | name n rest => exact .append (Name.stays n) rest
  | opening o args close rest hargs =>
    have hclose : SameBlock (close.1 :: rest) rest := .cons (by simp [endsArguments, close.2]) (.refl rest)
    exact (SameBlock.append (Opening.stays o) _).trans ((SameBlock.append (barrier_of_mem hargs) _).trans hclose)

theorem opens_of_isDefinition {s : Signature} (h : s.isDefinition = true) : Opens s.rest s.rest.tail := by
  have hb : (next s.rest).kind = .lbrace := by
    revert h
    rw [Signature.isDefinition]
    split <;> simp_all
  cases hrest : s.rest with
  | nil => simp [hrest, next] at hb
  | cons b inside => exact ⟨b, by simpa [hrest] using hb, .refl _⟩

/-- A call is marked by the whole of `! important`. -/
theorem marked_of_isCall {s : Signature} (h : s.isCall = true) (hmark : (next s.rest).isDelim '!' = true) :
    ∃ mark word rest, s.rest = mark :: word :: rest ∧ isImportant [mark, word] = true := by
  have himportant : isImportant (s.rest.take 2) = true := by
    simpa [Signature.isCall, kind_of_isDelim hmark] using h
  obtain ⟨mark, word, htake⟩ := pair_of_isImportant himportant
  refine ⟨mark, word, s.rest.drop 2, ?_, htake ▸ himportant⟩
  rw [← List.take_append_drop 2 s.rest, htake]
  simp

theorem readCall_sameBlock {s : Signature} (p : Position) (h : s.isCall = true) :
    SameBlock s.rest (readCall p s).2 := by
  simp only [readCall]
  split
  · next hmark =>
    obtain ⟨mark, word, rest, hrest, himportant⟩ := marked_of_isCall h hmark
    rw [hrest]
    obtain ⟨hm, hw⟩ := isDelim_of_isImportant himportant
    have hword : SameBlock (word :: rest) (skipSemicolon rest) :=
      .cons (by simp [endsArguments, hw]) (.skipSemicolon rest)
    exact .cons (by simp [endsArguments, kind_of_isDelim hm]) hword
  · exact .skipSemicolon s.rest

/-- What is left after a definition or a call is in the same block, and what is left after a header is inside of the
block that it opens. -/
def Lead.Leaves (ts : List Token) : Option (Lead × List Token) → Prop
  | none => True
  | some (.opened _, inside) => Opens ts inside
  | some (_, rest) => SameBlock ts rest

theorem ruleHeader?_gives (ts : List Token) : Gives (Lead.Leaves ts) (ruleHeader? ts) := by
  rw [ruleHeader?]
  split
  · exact (readSelectors_gives [] ts).map fun p hp => hp
  · trivial

/-- Nothing but a header takes a brace. -/
theorem lead?_gives (t : Token) (ts : List Token) : Gives (Lead.Leaves (t :: ts)) (lead? (t :: ts)) := by
  rw [lead?, next_cons, List.tail_cons]
  dsimp only
  split
  · next hk =>
    have ht : endsArguments t = false := by simp [endsArguments, hk]
    split
    · next hcolon =>
      obtain ⟨colon, us, rfl⟩ : ∃ colon us, ts = colon :: us := ⟨_, _, eq_next_cons (by simp [hcolon])⟩
      refine (readDefinition_gives t us).map fun p hp => ?_
      rw [next_cons] at hcolon
      exact .cons ht (.cons (by simp [endsArguments, hcolon]) hp)
    · split
      · next hopens => exact (opens_of_opensBlock hopens).cons ht
      · trivial
  · split
    · exact ruleHeader?_gives (t :: ts)
    · next s hs =>
      have hsame := sameBlock_of_read? hs
      split
      · next hdefinition =>
        refine (Gives.mapM parameter_gives s.argumentList).map fun params _ => ?_
        exact hsame.opens (opens_of_isDefinition hdefinition)
      · split
        · next hcall => exact hsame.trans (readCall_sameBlock t.position hcall)
        · exact ruleHeader?_gives (t :: ts)

/-- A block is read up to the brace that closes it. If the row closes the blocks that are open inside of the block,
the rest of the row closes those that are open around it. By induction on the tokens that are left. -/
theorem readBlock_gives (hts : Ended ts) (hopen : unpaired? (opened + 1) ts = none) :
    Gives (fun p => Ended p.2 ∧ unpaired? opened p.2 = none) (readBlock ts) := by
  induction hn : ts.length using Nat.strongRecOn generalizing ts opened with
  | ind n ih =>
    subst hn
    cases ts with
    | nil => exact absurd hts not_ended_nil
    | cons t ts =>
      have hstay : ∀ {us : List Token}, us.length < (t :: ts).length → SameBlock (t :: ts) us →
          Gives (fun p => Ended p.2 ∧ unpaired? opened p.2 = none) (readBlock us) :=
        fun hlen hus => ih _ hlen (hus.ended hts) (hus.unpaired? _ ▸ hopen) rfl
      rw [readBlock_step]
      split
      · next hk => exact hstay (Nat.lt_succ_self _) (.cons (by simp [endsArguments, hk]) (.refl ts))
      · split
        · next hk =>
          rcases ended_cons.mp hts with ⟨heof, -⟩ | ⟨-, hrest⟩
          · simp [hk] at heof
          · exact ⟨hrest, Braces.unpaired?_rbrace hk ▸ hopen⟩
        · split
          · -- the row ends here, so the block that is open is never closed
            next hk =>
            rcases ended_cons.mp hts with ⟨-, rfl⟩ | ⟨heof, -⟩
            · rw [Braces.unpaired?_other (by simp [isBrace, hk])] at hopen
              simp [unpaired?] at hopen
            · exact absurd hk heof
          · rw [readItem]
            refine (lead?_gives t ts).bind ?_
            intro found hfound hleaves
            rcases found with _ | ⟨d | c | header, after⟩
            · dsimp only
              split
              · rfl
              · refine (readDeclaration_gives (t :: ts)).bind ?_
                rintro ⟨d, after⟩ hd hsame
                exact (hstay (readDeclaration_length hd) hsame).map fun p hp => hp
            · exact (hstay (lead?_length hfound) hleaves).map fun p hp => hp
            · exact (hstay (lead?_length hfound) hleaves).map fun p hp => hp
            · have hinside : Opens (t :: ts) after := hleaves
              have hlen := lead?_length hfound
              refine (ih _ hlen (hinside.ended hts) (hinside.unpaired? _ ▸ hopen) rfl).bind ?_
              rintro ⟨body, rest⟩ hbody ⟨hended, hrest⟩
              exact (ih _ (Nat.lt_trans (readBlock_length hbody) hlen) hended hrest rfl).map fun p hp => hp

/-- A sheet is read up to the end of the text, where no block is open. -/
theorem readStatements_gives (hts : Ended ts) (hopen : unpaired? 0 ts = none) :
    Gives (fun _ => True) (readStatements ts) := by
  induction hn : ts.length using Nat.strongRecOn generalizing ts with
  | ind n ih =>
    subst hn
    cases ts with
    | nil => exact absurd hts not_ended_nil
    | cons t ts =>
      have hstay : ∀ {us : List Token}, us.length < (t :: ts).length → SameBlock (t :: ts) us →
          Gives (fun _ => True) (readStatements us) :=
        fun hlen hus => ih _ hlen (hus.ended hts) (hus.unpaired? _ ▸ hopen) rfl
      rw [readStatements_step]
      split
      · trivial
      · split
        · next hk => exact hstay (Nat.lt_succ_self _) (.cons (by simp [endsArguments, hk]) (.refl ts))
        · rw [readStatement]
          refine (lead?_gives t ts).bind ?_
          intro found hfound hleaves
          rcases found with _ | ⟨d | c | header, after⟩
          · dsimp only
            split
            · next hk =>
              refine (readDirective_gives t ts).bind ?_
              rintro ⟨d, after⟩ hd hafter
              have hlen := Nat.lt_succ_of_le (readDirective_length hd)
              exact (hstay hlen (.cons (by simp [endsArguments, hk]) hafter)).map fun p hp => hp
            · rfl
          · exact (hstay (lead?_length hfound) hleaves).map fun p hp => hp
          · exact (hstay (lead?_length hfound) hleaves).map fun p hp => hp
          · have hinside : Opens (t :: ts) after := hleaves
            refine (readBlock_gives (hinside.ended hts) (hinside.unpaired? _ ▸ hopen)).bind ?_
            rintro ⟨body, rest⟩ hbody ⟨hended, hrest⟩
            have hlen := Nat.lt_trans (readBlock_length hbody) (lead?_length hfound)
            exact (ih _ hlen hended hrest rfl).map fun p hp => hp

end Tokens

open Braces

namespace Sheet

variable {ts : List Token} {d : Diagnostic} {t : Token}

theorem ofTokens_of_fault (h : fault? ts = some d) : ofTokens ts = .error d := by
  rw [ofTokens, h]

theorem ofTokens_of_tooDeep (hb : Balanced ts) (ht : IsFirst TooDeep 0 ts t) :
    ofTokens ts = .error (Fault.blocksTooDeep.blame t.position) :=
  ofTokens_of_fault ((fault?_of_balanced hb).trans (tooDeep?_of_isFirst hb.lacks_stray ht))

/-- Where the braces are in order the sheet is read, and no reader reports them. -/
theorem ofTokens_of_balanced (hts : Token.Ended ts) (hb : Balanced ts) (hd : Lacks TooDeep 0 ts) :
    ofTokens ts = Tokens.readStatements ts ∧ Gives (fun _ => True) (Tokens.readStatements ts) := by
  have hnone : fault? ts = none := (fault?_of_balanced hb).trans (tooDeep?_of_lacks hb.lacks_stray hd)
  refine ⟨by rw [ofTokens, hnone], Tokens.readStatements_gives hts ?_⟩
  rw [unpaired?_of_lacks hb.lacks_stray, if_pos (by simpa using (balanced_iff.mp hb).2)]

end Sheet

/-- A row of tokens is reported as unbalanced exactly when its braces do not pair up. The first stray `}` is
reported, else an unclosed `{`, else the first block beyond the limit. All other rows are sheets or malformed, and no
reader comes to the end of such a row inside of a block. -/
theorem Sheet.ofTokens_braces {ts : List Token} (hts : Token.Ended ts) :
    ((∃ d, ofTokens ts = .error d ∧ d.fault.kind = .unbalanced) ↔ ¬Balanced ts) ∧
      (∀ t, IsFirst Stray 0 ts t → (ofTokens ts).mapError Diagnostic.report =
        .error ⟨.unbalanced, "Unexpected `\x7d`", some t.position⟩) ∧
      (Lacks Stray 0 ts → (∃ before t after, ts = before ++ t :: after ∧ Unclosed t after) →
        (ofTokens ts).mapError Diagnostic.report = .error ⟨.unbalanced, "Missing closing `\x7d`", none⟩) ∧
      (Balanced ts → ∀ t, IsFirst TooDeep 0 ts t → (ofTokens ts).mapError Diagnostic.report =
        .error ⟨.malformed, "blocks are nested too deeply", some t.position⟩) ∧
      (Balanced ts → Lacks TooDeep 0 ts → Tokens.readStatements ts ≠ .error ⟨.missingClose, none⟩ ∧
        ((∃ s, ofTokens ts = .ok s) ∨ ∃ d, ofTokens ts = .error d ∧ d.fault.kind = .malformed)) := by
  refine ⟨⟨?_, ?_⟩, ?_, ?_, ?_, ?_⟩
  · rintro ⟨d, hd, hk⟩ hb
    rcases lacks_or_isFirst TooDeep 0 ts with hlacks | ⟨t, ht⟩
    · obtain ⟨heq, hgives⟩ := ofTokens_of_balanced hts hb hlacks
      rw [← heq, hd] at hgives
      simp [show d.fault.kind = .malformed from hgives] at hk
    · rw [ofTokens_of_tooDeep hb ht, Except.error.injEq] at hd
      simp [← hd, Fault.blame, Fault.kind] at hk
  · intro hb
    obtain ⟨d, hd, hk⟩ := fault?_of_not_balanced hb
    exact ⟨d, ofTokens_of_fault hd, hk⟩
  · intro t ht
    rw [ofTokens_of_fault (fault?_of_stray ht)]
    rfl
  · intro hs hu
    rw [ofTokens_of_fault (fault?_of_unclosed hs hu)]
    rfl
  · intro hb t ht
    rw [ofTokens_of_tooDeep hb ht]
    rfl
  · intro hb hlacks
    obtain ⟨heq, hgives⟩ := ofTokens_of_balanced hts hb hlacks
    rw [heq]
    cases hr : Tokens.readStatements ts with
    | ok s => exact ⟨nofun, .inl ⟨s, rfl⟩⟩
    | error d =>
      rw [hr] at hgives
      refine ⟨?_, .inr ⟨d, rfl, hgives⟩⟩
      rintro ⟨⟩
      simp [Gives, Fault.kind] at hgives

theorem Sheet.ofTokens_braces_stray :
    Token.Ended (Token.ofText "a\x7b\x7d\x7d\x7b".toList) ∧
      (∃ t, IsFirst Stray 0 (Token.ofText "a\x7b\x7d\x7d\x7b".toList) t ∧ t.position = ⟨1, 4⟩) ∧
      (ofTokens (Token.ofText "a\x7b\x7d\x7d\x7b".toList)).mapError Diagnostic.report =
        .error ⟨.unbalanced, "Unexpected `\x7d`", some ⟨1, 4⟩⟩ := by
  have hended := Token.ofText_ended "a\x7b\x7d\x7d\x7b".toList
  have htokens : Token.ofText "a\x7b\x7d\x7d\x7b".toList =
      [⟨.ident, ['a'], ⟨1, 1⟩, false⟩, ⟨.lbrace, ['{'], ⟨1, 2⟩, false⟩,
        ⟨.rbrace, ['}'], ⟨1, 3⟩, false⟩, ⟨.rbrace, ['}'], ⟨1, 4⟩, false⟩,
        ⟨.lbrace, ['{'], ⟨1, 5⟩, false⟩, ⟨.eof, [], ⟨1, 6⟩, false⟩] := by
    decide +kernel
  have hfirst : IsFirst Stray 0 (Token.ofText "a\x7b\x7d\x7d\x7b".toList) ⟨.rbrace, ['}'], ⟨1, 4⟩, false⟩ := by
    rw [htokens]
    simp [isFirst_cons, Stray, step]
  exact ⟨hended, ⟨_, hfirst, rfl⟩, (ofTokens_braces hended).2.1 _ hfirst⟩

end LessCss
