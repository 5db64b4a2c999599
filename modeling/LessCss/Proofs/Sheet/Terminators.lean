import Mathlib.Control.Monad.Basic
import LessCss.Proofs.Sheet.Selectors
import LessCss.Proofs.Sheet.Places
/-!
What ends a declaration, a definition, a directive or a call.

A sheet that is read lies in its row as `SheetOf` says: behind the last token of each of these stands a `;`, the `}` of
the block around it or `eof`, and only some calls run on into what comes next. Those are the calls that are marked
`! important` (`Sheet.ended_of_ofTokens`). The reader of calls asks for an end only where there is no mark, and takes
the `;` behind a call if there is one.
-/
namespace LessCss

open Tokens
open Written (Importance)

/-- What stands in a sheet or a block without a block of its own. -/
inductive Leaf
  | declaration (d : Declaration)
  | definition (d : Definition)
  | directive (d : Directive)
  | call (c : Call)

namespace Leaf

def toItem? : Leaf → Option Item
  | declaration d => some (.declaration d)
  | definition d => some (.definition d)
  | directive _ => none
  | call c => some (.call c)

def toStatement? : Leaf → Option Statement
  | declaration _ => none
  | definition d => some (.definition d)
  | directive d => some (.directive d)
  | call c => some (.call c)

/-- The tokens of a leaf, from its first to its last one. -/
inductive SpelledBy : Leaf → List Token → Prop
  | declaration (name : Written.Mark .ident) (colon : Written.Mark .colon) (value : Written.Value)
      (importance : Option Importance) :
      SpelledBy (.declaration ⟨name.1.text, value.tokens, importance.isSome⟩)
        (name.1 :: colon.1 :: (value.tokens ++ importance.elim [] Importance.tokens))
  | definition (name : Written.Mark .atKeyword) (colon : Written.Mark .colon) (value : Written.Value) :
      SpelledBy (.definition ⟨name.1.name, value.tokens⟩) (name.1 :: colon.1 :: value.tokens)
  | directive (name : Written.Mark .atKeyword) {params : List Token} (hparams : ∀ t ∈ params, inValue t = true) :
      SpelledBy (.directive ⟨name.1.name, Token.join params⟩) (name.1 :: params)
  | call {name : Text} {args : Option (List Token)} {own : List Token} (hown : Written.Spells own ⟨name, args, []⟩)
      (importance : Option Importance) :
      SpelledBy (.call ⟨name, arguments (args.getD []), importance.isSome, (next own).position⟩)
        (own ++ importance.elim [] Importance.tokens)

end Leaf

/-- The tokens before the `{` of a block. -/
inductive Header.SpelledBy : Header → List Token → Prop
  | rule {row : List Token} (hfits : ∀ t ∈ row, isComma t = true ∨ Written.inSelector t = true)
      (hne : ∀ g ∈ row.splitOnP isComma, g ≠ []) : SpelledBy (.rule ((row.splitOnP isComma).map Token.join)) row
  | atRule (name : Written.Mark .atKeyword) {params : List Token} (hparams : ∀ t ∈ params, isStop t = false) :
      SpelledBy (.atRule name.1.name (Token.join params)) (name.1 :: params)
  | mixin {name : Text} {args own : List Token} {params : List Parameter}
      (hown : Written.Spells own ⟨name, some args, []⟩)
      (hparams : (arguments args).mapM Signature.parameter = .ok params) : SpelledBy (.mixin name params) own

/-- How the items of a block lie in a row up to the `}` of the block. Behind the last token of a leaf stands a `;` or
that `}`, unless it is a call that may run on. -/
inductive BlockOf (runsOn : Call → Prop) : List Token → List Item → List Token → Prop
  | close {rbrace : Token} {rest} (hrbrace : rbrace.kind = .rbrace) : BlockOf runsOn (rbrace :: rest) [] rest
  | mark {t : Token} {ts is rest} (ht : t.kind = .semicolon) (hts : BlockOf runsOn ts is rest) :
      BlockOf runsOn (t :: ts) is rest
  | last {l : Leaf} {i own} {rbrace : Token} {rest} (hown : l.SpelledBy own) (hi : l.toItem? = some i)
      (hrbrace : rbrace.kind = .rbrace) : BlockOf runsOn (own ++ rbrace :: rest) [i] rest
  | next {l : Leaf} {i own} {stop : Token} {ts is rest} (hown : l.SpelledBy own) (hi : l.toItem? = some i)
      (hstop : stop.kind = .semicolon) (hts : BlockOf runsOn ts is rest) :
      BlockOf runsOn (own ++ stop :: ts) (i :: is) rest
  | runOn {c : Call} {own ts is rest} (hown : (Leaf.call c).SpelledBy own) (hc : runsOn c)
      (hts : BlockOf runsOn ts is rest) : BlockOf runsOn (own ++ ts) (.call c :: is) rest
  | block {h : Header} {own} {lbrace : Token} {inside body ts is rest} (hown : h.SpelledBy own)
      (hlbrace : lbrace.kind = .lbrace) (hbody : BlockOf runsOn inside body ts) (hts : BlockOf runsOn ts is rest) :
      BlockOf runsOn (own ++ lbrace :: inside) (h.toItem body :: is) rest

/-- How the statements of a sheet lie in a row up to `eof`. -/
inductive SheetOf (runsOn : Call → Prop) : List Token → Sheet → Prop
  | finish {ts} (hend : (Tokens.next ts).kind = .eof) : SheetOf runsOn ts []
  | mark {t : Token} {ts s} (ht : t.kind = .semicolon) (hts : SheetOf runsOn ts s) : SheetOf runsOn (t :: ts) s
  | last {l : Leaf} {x own rest} (hown : l.SpelledBy own) (hx : l.toStatement? = some x)
      (hend : (Tokens.next rest).kind = .eof) : SheetOf runsOn (own ++ rest) [x]
  | next {l : Leaf} {x own} {stop : Token} {ts s} (hown : l.SpelledBy own) (hx : l.toStatement? = some x)
      (hstop : stop.kind = .semicolon) (hts : SheetOf runsOn ts s) : SheetOf runsOn (own ++ stop :: ts) (x :: s)
  | runOn {c : Call} {own ts s} (hown : (Leaf.call c).SpelledBy own) (hc : runsOn c) (hts : SheetOf runsOn ts s) :
      SheetOf runsOn (own ++ ts) (.call c :: s)
  | block {h : Header} {own} {lbrace : Token} {inside body ts s} (hown : h.SpelledBy own)
      (hlbrace : lbrace.kind = .lbrace) (hbody : BlockOf runsOn inside body ts) (hts : SheetOf runsOn ts s) :
      SheetOf runsOn (own ++ lbrace :: inside) (h.toStatement body :: s)

section

variable {runsOn : Call → Prop} {ts rest : List Token} {is : List Item} {s : Sheet}

theorem BlockOf.of_skipSemicolon (h : BlockOf runsOn (skipSemicolon ts) is rest) : BlockOf runsOn ts is rest := by
  cases ts with
  | nil => exact h
  | cons t ts =>
    rw [skipSemicolon] at h
    split at h
    · next ht => exact .mark ht h
    · exact h

theorem SheetOf.of_skipSemicolon (h : SheetOf runsOn (skipSemicolon ts) s) : SheetOf runsOn ts s := by
  cases ts with
  | nil => exact h
  | cons t ts =>
    rw [skipSemicolon] at h
    split at h
    · next ht => exact .mark ht h
    · exact h

end

namespace Tokens

variable {t : Token} {ts value rest : List Token}

def endsLeaf (t : Token) : Bool := t.kind = .semicolon ∨ t.kind = .rbrace ∨ t.kind = .eof

theorem endsLeaf_of_isStop (h : isStop t = true) (hk : t.kind ≠ .lbrace) : endsLeaf t = true := by
  simpa [endsLeaf] using (isStop_eq_true_iff.mp h).resolve_left hk

/-- Where no block is opened, what stops the search ends a leaf. -/
theorem endsLeaf_of_opensBlock (hts : ∀ t ∈ ts, isStop t = false) (hstop : isStop (next rest) = true)
    (h : opensBlock (ts ++ rest) = false) : endsLeaf (next rest) = true := by
  cases rest with
  | nil => rfl
  | cons stop rest =>
    rw [opensBlock_append hts (by exact hstop)] at h
    exact endsLeaf_of_isStop hstop (of_decide_eq_false h)

theorem takeImportant_eq (value : List Token) :
    ∃ importance : Option Importance, value = (takeImportant value).1 ++ importance.elim [] Importance.tokens ∧
      (takeImportant value).2 = importance.isSome := by
  simp only [takeImportant]
  split
  · next hmark =>
    obtain ⟨mark, word, hdrop⟩ := pair_of_isImportant hmark
    rw [hdrop] at hmark
    refine ⟨some ⟨mark, word, hmark⟩, ?_, rfl⟩
    rw [Option.elim_some, Importance.tokens, ← hdrop, List.take_append_drop]
  · exact ⟨none, (List.append_nil _).symm, rfl⟩

/-- At the head of a row stands a leaf, which ends there or is a call that is marked important. What is left begins
behind the `;`, if there is one. -/
inductive LeafAt (l : Leaf) : List Token → List Token → Prop
  | mk {own ts} (hown : l.SpelledBy own) (hend : endsLeaf (next ts) = true ∨ ∃ c, l = .call c ∧ c.important = true) :
      LeafAt l (own ++ ts) (skipSemicolon ts)

/-- At the head of a row stand a header and a `{`. -/
inductive HeaderAt (h : Header) : List Token → List Token → Prop
  | mk {own} {lbrace : Token} {inside} (hown : h.SpelledBy own) (hlbrace : lbrace.kind = .lbrace) :
      HeaderAt h (own ++ lbrace :: inside) inside

theorem leafAt_definition {d : Definition} (hk : t.kind = .atKeyword) (hcolon : (next ts).kind = .colon)
    (h : readDefinition t ts.tail = .ok (d, rest)) : LeafAt (.definition d) (t :: ts) rest := by
  obtain @⟨value, rest, hvalue, hne, hbrace⟩ := definitionAt_of_readDefinition h
  have hown := Leaf.SpelledBy.definition ⟨t, hk⟩ ⟨next ts, hcolon⟩ ⟨value, hne, hvalue.fits⟩
  have hts : ts = next ts :: ts.tail := eq_next_cons (by simp [hcolon])
  rw [hts, hvalue.row]
  exact .mk hown (.inl (endsLeaf_of_isStop hvalue.stop hbrace))

theorem leafAt_directive {d : Directive} (hk : t.kind = .atKeyword) (hopens : opensBlock ts = false)
    (h : readDirective t ts = .ok (d, rest)) : LeafAt (.directive d) (t :: ts) rest := by
  obtain @⟨params, rest, rfl, hfits, hstop⟩ := directiveAt_of_readDirective h
  have hparams : ∀ t ∈ params, isStop t = false := fun t ht => (inValue_eq_true_iff.mp (hfits t ht)).1
  exact .mk (.directive ⟨t, hk⟩ hfits) (.inl (endsLeaf_of_opensBlock hparams hstop hopens))

theorem leafAt_declaration {d : Declaration} (hopens : opensBlock ts = false)
    (h : readDeclaration ts = .ok (d, rest)) : LeafAt (.declaration d) ts rest := by
  obtain @⟨name, colon, ts, written, rest, hname, hcolon, ⟨rfl, hfits, hstop⟩, hne⟩ :=
    declarationAt_of_readDeclaration h
  obtain ⟨importance, hwritten, himportance⟩ := takeImportant_eq written
  have hinside : ∀ t ∈ name :: colon :: written, isStop t = false := by
    refine List.forall_mem_cons.mpr ⟨by simp [isStop, hname], ?_⟩
    exact List.forall_mem_cons.mpr ⟨by simp [isStop, hcolon], fun t ht => (inValue_eq_true_iff.mp (hfits t ht)).1⟩
  have hend := endsLeaf_of_opensBlock hinside hstop hopens
  have hvalue : ∀ t ∈ (takeImportant written).1, inValue t = true := fun t ht =>
    hfits t ((isPrefix_takeImportant written).subset ht)
  have hown := Leaf.SpelledBy.declaration ⟨name, hname⟩ ⟨colon, hcolon⟩ ⟨_, hne, hvalue⟩ importance
  rw [← hwritten] at hown
  rw [himportance]
  exact .mk hown (.inl hend)

theorem leafAt_call {s : Signature} (hread : Signature.read? ts = some s) (hs : s.isCall = true) :
    LeafAt (.call (readCall (next ts).position s).1) ts (readCall (next ts).position s).2 := by
  obtain ⟨own, rfl, hown⟩ := (Written.spells_of_read? hread).cut
  have hposition : next (own ++ s.rest) = next own := by
    obtain ⟨t, own, rfl, -⟩ := hown.begins
    rfl
  rw [hposition]
  cases himportant : isImportant (s.rest.take 2) with
  | true =>
    obtain ⟨mark, word, hpair⟩ := pair_of_isImportant himportant
    rw [hpair] at himportant
    have hrest : s.rest = [mark, word] ++ s.rest.drop 2 := by rw [← hpair, List.take_append_drop]
    have hmark : (next s.rest).isDelim '!' = true := by
      rw [hrest]
      exact (isDelim_of_isImportant himportant).1
    have hcall := Leaf.SpelledBy.call hown (some ⟨mark, word, himportant⟩)
    have hleaf : LeafAt _ (_ ++ s.rest.drop 2) _ := .mk hcall (.inr ⟨_, rfl, rfl⟩)
    rw [Option.elim_some, Importance.tokens, List.append_assoc, ← hrest] at hleaf
    simpa [readCall, hmark, Signature.argumentList] using hleaf
  | false =>
    have hend : endsLeaf (next s.rest) = true := by
      simpa [Signature.isCall, himportant, endsLeaf, or_assoc] using hs
    have hmark : (next s.rest).isDelim '!' = false := by
      refine isDelim_eq_false fun hk => ?_
      simp [endsLeaf, hk] at hend
    have hleaf := LeafAt.mk (.call hown none) (.inl hend)
    rw [Option.elim_none, List.append_nil] at hleaf
    simpa [readCall, hmark, Signature.argumentList] using hleaf

/-- A row that opens a block goes up to a `{` without another stop. -/
theorem exists_of_opensBlock (h : opensBlock ts = true) : ∃ before lbrace inside, ts = before ++ lbrace :: inside ∧
    (∀ t ∈ before, isStop t = false) ∧ lbrace.kind = .lbrace := by
  rw [opensBlock, Option.any_eq_true] at h
  obtain ⟨lbrace, hfind, hlbrace⟩ := h
  obtain ⟨-, before, inside, rfl, hbefore⟩ := List.find?_eq_some_iff_append.mp hfind
  exact ⟨before, lbrace, inside, rfl, fun t ht => by simpa using hbefore t ht, of_decide_eq_true hlbrace⟩

theorem headerAt_atRule (hk : t.kind = .atKeyword) (hopens : opensBlock ts = true) :
    HeaderAt (readAtHeader t ts).1 (t :: ts) (readAtHeader t ts).2 := by
  obtain ⟨params, lbrace, inside, rfl, hparams, hlbrace⟩ := exists_of_opensBlock hopens
  rw [readAtHeader_append hparams hlbrace]
  exact .mk (.atRule ⟨t, hk⟩ hparams) hlbrace

theorem headerAt_rule {selectors : List Text} (h : readSelectors [] ts = .ok (selectors, rest)) :
    HeaderAt (.rule selectors) ts rest := by
  obtain ⟨row, lbrace, rfl, hlbrace, hfits, rfl, hne⟩ := readSelectors_row h (List.forall_mem_nil _)
  exact .mk (.rule hfits hne) hlbrace

theorem headerAt_mixin {s : Signature} {params : List Parameter} (hread : Signature.read? ts = some s)
    (hs : s.isDefinition = true) (hparams : s.argumentList.mapM Signature.parameter = .ok params) :
    HeaderAt (.mixin s.name params) ts s.rest.tail := by
  obtain ⟨own, rfl, hown⟩ := (Written.spells_of_read? hread).cut
  obtain ⟨name, args, after⟩ := s
  cases args with
  | none => cases hs
  | some args =>
    have hlbrace : (next after).kind = .lbrace := of_decide_eq_true (Bool.and_eq_true_iff.mp hs).1
    have hheader : HeaderAt (.mixin name params) (own ++ next after :: after.tail) after.tail :=
      .mk (.mixin hown hparams) hlbrace
    rwa [← eq_next_cons (by simp [hlbrace])] at hheader

/-- What leads a row: a leaf of the sheet or of the block, or a header. -/
def Lead.Stands (ts : List Token) : Lead × List Token → Prop
  | (.definition d, rest) => LeafAt (.definition d) ts rest
  | (.call c, rest) => LeafAt (.call c) ts rest
  | (.opened h, inside) => HeaderAt h ts inside

theorem stands_of_lead? {p : Lead × List Token} (h : lead? (t :: ts) = .ok (some p)) : Lead.Stands (t :: ts) p := by
  cases leadsTo_of_lead? h with
  | definition hk hcolon hread => exact leafAt_definition hk hcolon hread
  | atRule hk _ hopens => exact headerAt_atRule hk hopens
  | mixin _ hread hs hparams => exact headerAt_mixin hread hs hparams
  | call _ hread hs => exact leafAt_call hread hs
  | rule _ hread => exact headerAt_rule hread

/-- What ends a leaf in a block that is read is a `;` or the `}` of the block. -/
theorem LeafAt.blockOf {l : Leaf} {i : Item} {is : List Item} (hat : LeafAt l ts value) (hi : l.toItem? = some i)
    (hread : readBlock value = .ok (is, rest)) (hvalue : BlockOf (·.important = true) value is rest) :
    BlockOf (·.important = true) ts (i :: is) rest := by
  obtain @⟨own, after, hown, hend | ⟨c, rfl, hc⟩⟩ := hat
  · cases after with
    | nil =>
      rw [skipSemicolon, readBlock_nil] at hread
      cases hread
    | cons stop after =>
      by_cases hsemicolon : stop.kind = .semicolon
      · rw [skipSemicolon_cons hsemicolon] at hvalue
        exact .next hown hi hsemicolon hvalue
      · rw [skipSemicolon, if_neg hsemicolon, readBlock_step, if_neg hsemicolon] at hread
        split at hread
        · next hrbrace =>
          obtain ⟨rfl, rfl⟩ := Prod.mk.inj (Except.ok.inj hread)
          exact .last hown hi hrbrace
        · next hrbrace =>
          rw [if_pos (by simpa [endsLeaf, hsemicolon, hrbrace] using hend)] at hread
          cases hread
  · obtain rfl := Option.some.inj hi
    exact .runOn hown hc (.of_skipSemicolon hvalue)

theorem blockOf_of_readBlock {is : List Item} (h : readBlock ts = .ok (is, rest)) :
    BlockOf (·.important = true) ts is rest := by
  -- on the tokens that are left, since an item may be a block of its own
  induction hn : ts.length using Nat.strongRecOn generalizing ts is rest with
  | ind n ih =>
    subst hn
    cases ts with
    | nil =>
      rw [readBlock_nil] at h
      cases h
    | cons t ts =>
      have hleaf : ∀ {l : Leaf} {i : Item} {after : List Token}, LeafAt l (t :: ts) after → l.toItem? = some i →
          after.length < (t :: ts).length → (readBlock after).map (consItem i) = .ok (is, rest) →
          BlockOf (·.important = true) (t :: ts) is rest := by
        intro l i after hat hi hlen hmap
        obtain ⟨⟨is, rest⟩, hread, heq⟩ := map_eq_ok hmap
        obtain ⟨rfl, rfl⟩ := Prod.mk.inj heq
        exact hat.blockOf hi hread (ih _ hlen hread rfl)
      rw [readBlock_step] at h
      split at h
      · next hk => exact .mark hk (ih _ (Nat.lt_succ_self _) h rfl)
      · split at h
        · next hk =>
          obtain ⟨rfl, rfl⟩ := Prod.mk.inj (Except.ok.inj h)
          exact .close hk
        · split at h
          · cases h
          · obtain ⟨found, hlead, h⟩ := bind_eq_ok h
            rcases found with _ | ⟨d | c | header, after⟩
            · dsimp only at h
              split at h
              · cases h
              · next hk =>
                obtain ⟨⟨d, after⟩, hread, h⟩ := bind_eq_ok h
                have hopens : opensBlock (t :: ts) = false := by
                  cases leadsTo_of_lead? hlead with
                  | statement hk' => exact absurd hk' hk
                  | declaration _ hopens => exact hopens
                exact hleaf (leafAt_declaration hopens hread) rfl (readDeclaration_length hread) h
            · exact hleaf (stands_of_lead? hlead) rfl (lead?_length hlead) h
            · exact hleaf (stands_of_lead? hlead) rfl (lead?_length hlead) h
            · obtain ⟨⟨body, closed⟩, hbody, h⟩ := bind_eq_ok h
              obtain ⟨⟨is, rest⟩, hread, heq⟩ := map_eq_ok h
              obtain ⟨rfl, rfl⟩ := Prod.mk.inj heq
              have hinside := lead?_length hlead
              have hstands : HeaderAt header (t :: ts) after := stands_of_lead? hlead
              generalize t :: ts = row at hstands hinside ih
              obtain ⟨hown, hlbrace⟩ := hstands
              exact .block hown hlbrace (ih _ hinside hbody rfl)
                (ih _ (Nat.lt_trans (readBlock_length hbody) hinside) hread rfl)

theorem readStatements_rbrace (ht : t.kind = .rbrace) :
    readStatements (t :: ts) = .error (Fault.declarationOutsideRule.blame t.position) := by
  have hsignature : Signature.read? (t :: ts) = none := read?_eq_none (isDelim_eq_false (by simp [ht])) (by simp [ht])
  have hlead : lead? (t :: ts) = .ok none := by
    simp [lead?, hsignature, ruleHeader?, opensBlock, isStop, ht]
  rw [readStatements_step, if_neg (by simp [ht]), if_neg (by simp [ht]), readStatement, hlead, ok_bind]
  exact if_neg (by simp [ht])

/-- What ends a leaf of a sheet that is read is a `;` or the end of the sheet. -/
theorem LeafAt.sheetOf {l : Leaf} {x : Statement} {s : Sheet} (hat : LeafAt l ts rest) (hx : l.toStatement? = some x)
    (hread : readStatements rest = .ok s) (hrest : SheetOf (·.important = true) rest s) :
    SheetOf (·.important = true) ts (x :: s) := by
  obtain @⟨own, after, hown, hend | ⟨c, rfl, hc⟩⟩ := hat
  · cases after with
    | nil =>
      rw [skipSemicolon, readStatements_nil] at hread
      obtain rfl := Except.ok.inj hread
      exact .last hown hx rfl
    | cons stop after =>
      by_cases hsemicolon : stop.kind = .semicolon
      · rw [skipSemicolon_cons hsemicolon] at hrest
        exact .next hown hx hsemicolon hrest
      · rw [skipSemicolon, if_neg hsemicolon] at hread
        by_cases heof : stop.kind = .eof
        · rw [readStatements_eof heof] at hread
          obtain rfl := Except.ok.inj hread
          exact .last hown hx heof
        · have hrbrace : stop.kind = .rbrace := by simpa [endsLeaf, hsemicolon, heof] using hend
          rw [readStatements_rbrace hrbrace] at hread
          cases hread
  · obtain rfl := Option.some.inj hx
    exact .runOn hown hc (.of_skipSemicolon hrest)

theorem sheetOf_of_readStatements {s : Sheet} (h : readStatements ts = .ok s) : SheetOf (·.important = true) ts s := by
  induction hn : ts.length using Nat.strongRecOn generalizing ts s with
  | ind n ih =>
    subst hn
    cases ts with
    | nil =>
      rw [readStatements_nil] at h
      obtain rfl := Except.ok.inj h
      exact .finish rfl
    | cons t ts =>
      have hleaf : ∀ {l : Leaf} {x : Statement} {after : List Token}, LeafAt l (t :: ts) after →
          l.toStatement? = some x → after.length < (t :: ts).length →
          (readStatements after).map (x :: ·) = .ok s → SheetOf (·.important = true) (t :: ts) s := by
        intro l x after hat hx hlen hmap
        obtain ⟨others, hread, rfl⟩ := map_eq_ok hmap
        exact hat.sheetOf hx hread (ih _ hlen hread rfl)
      rw [readStatements_step] at h
      split at h
      · next hk =>
        obtain rfl := Except.ok.inj h
        exact .finish hk
      · split at h
        · next hk => exact .mark hk (ih _ (Nat.lt_succ_self _) h rfl)
        · obtain ⟨found, hlead, h⟩ := bind_eq_ok h
          rcases found with _ | ⟨d | c | header, after⟩
          · dsimp only at h
            split at h
            · next hk =>
              obtain ⟨⟨d, after⟩, hread, h⟩ := bind_eq_ok h
              have hopens : opensBlock ts = false := by
                cases leadsTo_of_lead? hlead with
                | statement _ _ hopens => exact hopens
                | declaration hk' => exact absurd hk hk'
              exact hleaf (leafAt_directive hk hopens hread) rfl (Nat.lt_succ_of_le (readDirective_length hread)) h
            · cases h
          · exact hleaf (stands_of_lead? hlead) rfl (lead?_length hlead) h
          · exact hleaf (stands_of_lead? hlead) rfl (lead?_length hlead) h
          · obtain ⟨⟨body, closed⟩, hbody, h⟩ := bind_eq_ok h
            obtain ⟨others, hread, rfl⟩ := map_eq_ok h
            have hinside := lead?_length hlead
            have hstands : HeaderAt header (t :: ts) after := stands_of_lead? hlead
            generalize t :: ts = row at hstands hinside ih
            obtain ⟨hown, hlbrace⟩ := hstands
            exact .block hown hlbrace (blockOf_of_readBlock hbody)
              (ih _ (Nat.lt_trans (readBlock_length hbody) hinside) hread rfl)

/-- Whatever follows a call that is marked important, the call is read. -/
theorem lead?_marked {c : Call} {own : List Token} (hown : (Leaf.call c).SpelledBy own) (hc : c.important = true)
    (ts : List Token) : lead? (own ++ ts) = .ok (some (.call c, skipSemicolon ts)) := by
  obtain _ | _ | _ | @⟨name, args, own, hown, importance⟩ := hown
  cases importance with
  | none => cases hc
  | some i =>
    rw [Option.elim_some, List.append_assoc]
    have hmark : (next (i.tokens ++ ts)).kind = .delim := kind_of_isDelim (isDelim_of_isImportant i.spells).1
    have himportant : (next (i.tokens ++ ts)).isDelim '!' = true := (isDelim_of_isImportant i.spells).1
    have hread : Signature.read? (own ++ (i.tokens ++ ts)) = some ⟨name, args, i.tokens ++ ts⟩ :=
      hown.read (by simp [hmark])
    have hfirst : next (own ++ (i.tokens ++ ts)) = next own ∧ (next own).kind ≠ .atKeyword := by
      obtain ⟨t, own, rfl, hk⟩ := hown.begins
      exact ⟨rfl, by rcases hk with hk | hk <;> simp [hk]⟩
    have hdefinition : Signature.isDefinition ⟨name, args, i.tokens ++ ts⟩ = false := by
      cases args <;> simp [Signature.isDefinition, hmark]
    have hcall : Signature.isCall ⟨name, args, i.tokens ++ ts⟩ = true := by
      simp [Signature.isCall, Importance.tokens, i.spells]
    simp only [lead?, hfirst.1, if_neg hfirst.2, hread, hdefinition, Bool.false_eq_true, if_false, hcall, if_true,
      readCall, himportant]
    rfl

theorem begins_of_call {c : Call} {own : List Token} (hown : (Leaf.call c).SpelledBy own) :
    ∃ t us, own = t :: us ∧ isStop t = false := by
  obtain _ | _ | _ | @⟨name, args, own, hown, importance⟩ := hown
  obtain ⟨t, us, rfl, hk⟩ := hown.begins
  exact ⟨t, us ++ importance.elim [] Importance.tokens, rfl, by rcases hk with hk | hk <;> simp [isStop, hk]⟩

end Tokens

/-- What is asked of the calls of a sheet. -/
def Criterion.calls (P : Call → Prop) : Criterion where
  call := P

namespace Item

variable (P : Call → Prop) [DecidablePred P]

mutual

def decideCalls : (i : Item) → Decidable (i.Meets (.calls P))
  | .declaration _ | .definition _ => .isTrue trivial
  | .call c => inferInstanceAs (Decidable (P c))
  | .rule _ body | .atRule _ _ body | .mixin _ _ body => @instDecidableAnd _ _ (.isTrue trivial) (decideCallsAll body)

def decideCallsAll : (is : List Item) → Decidable (MeetsAll (.calls P) is)
  | [] => .isTrue trivial
  | i :: is => @instDecidableAnd _ _ (decideCalls i) (decideCallsAll is)

end

end Item

instance (P : Call → Prop) [DecidablePred P] : (x : Statement) → Decidable (x.Meets (.calls P))
  | .directive _ | .definition _ => .isTrue trivial
  | .call c => inferInstanceAs (Decidable (P c))
  | .rule _ body | .atRule _ _ body | .mixin _ _ body =>
    @instDecidableAnd _ _ (.isTrue trivial) (Item.decideCallsAll P body)

section

variable {runsOn runsOn' : Call → Prop} {ts rest : List Token} {is : List Item} {s : Sheet}

/-- Fewer calls may run on if those that are read do not need to. -/
theorem BlockOf.mono (h : BlockOf runsOn ts is rest)
    (his : Item.MeetsAll (.calls fun c => runsOn c → runsOn' c) is) : BlockOf runsOn' ts is rest := by
  induction h with
  | close hrbrace => exact .close hrbrace
  | mark ht _ ih => exact .mark ht (ih his)
  | last hown hi hrbrace => exact .last hown hi hrbrace
  | next hown hi hstop _ ih => exact .next hown hi hstop (ih his.2)
  | runOn hown hc _ ih => exact .runOn hown (his.1 hc) (ih his.2)
  | @block h _ _ _ body _ _ _ hown hlbrace _ _ ihbody ih =>
    have hbody : Item.MeetsAll (.calls fun c => runsOn c → runsOn' c) body := by
      cases h <;> exact his.1.2
    exact .block hown hlbrace (ihbody hbody) (ih his.2)

theorem SheetOf.mono (h : SheetOf runsOn ts s) (hs : ∀ x ∈ s, x.Meets (.calls fun c => runsOn c → runsOn' c)) :
    SheetOf runsOn' ts s := by
  induction h with
  | finish hend => exact .finish hend
  | mark ht _ ih => exact .mark ht (ih hs)
  | last hown hx hend => exact .last hown hx hend
  | next hown hx hstop _ ih => exact .next hown hx hstop (ih (List.forall_mem_cons.mp hs).2)
  | runOn hown hc _ ih =>
    obtain ⟨hcall, hs⟩ := List.forall_mem_cons.mp hs
    exact .runOn hown (hcall hc) (ih hs)
  | @block h _ _ _ body _ _ hown hlbrace hbody _ ih =>
    obtain ⟨hx, hs⟩ := List.forall_mem_cons.mp hs
    have hitems : Item.MeetsAll (.calls fun c => runsOn c → runsOn' c) body := by
      cases h <;> exact hx.2
    exact .block hown hlbrace (hbody.mono hitems) (ih hs)

/-- The tokens that part the items of a block. -/
def Tokens.partsItems (t : Token) : Bool := t.kind = .semicolon ∨ t.kind = .rbrace

def Item.isLeaf : Item → Bool
  | .declaration _ | .definition _ | .call _ => true
  | .rule .. | .atRule .. | .mixin .. => false

/-- The number of leaves right in the block of a statement. -/
def Statement.leaves : Statement → Nat
  | .rule _ body | .atRule _ _ body | .mixin _ _ body => body.countP Item.isLeaf
  | .directive _ | .definition _ | .call _ => 0

theorem countP_cons_le {α : Type} (p : α → Bool) (a : α) (as : List α) : (a :: as).countP p ≤ as.countP p + 1 := by
  rw [List.countP_cons]
  split <;> omega

/-- Where no call runs on, each leaf of a block has a `;` or a `}` of its own. -/
theorem BlockOf.leaves_le (h : BlockOf (fun _ => False) ts is rest) :
    is.countP Item.isLeaf + rest.countP partsItems ≤ ts.countP partsItems := by
  induction h with
  | close hrbrace =>
    rw [List.countP_cons_of_pos (by simp [partsItems, hrbrace]), List.countP_nil]
    omega
  | mark ht _ ih =>
    rw [List.countP_cons_of_pos (by simp [partsItems, ht])]
    omega
  | @last _ i _ rbrace _ _ _ hrbrace =>
    have hone := countP_cons_le Item.isLeaf i []
    rw [List.countP_append, List.countP_cons_of_pos (a := rbrace) (by simp [partsItems, hrbrace])]
    rw [List.countP_nil] at hone
    omega
  | @next _ i _ stop _ is _ _ _ hstop _ ih =>
    have hone := countP_cons_le Item.isLeaf i is
    rw [List.countP_append, List.countP_cons_of_pos (a := stop) (by simp [partsItems, hstop])]
    omega
  | runOn _ hc => exact hc.elim
  | @block h _ _ _ body _ _ _ _ _ _ _ ihbody ih =>
    have hleaf : (h.toItem body).isLeaf = false := by cases h <;> rfl
    rw [List.countP_cons_of_neg (by simp [hleaf]), List.countP_append, List.countP_cons]
    omega

theorem SheetOf.leaves_le (h : SheetOf (fun _ => False) ts s) : ∀ x ∈ s, x.leaves ≤ ts.countP partsItems := by
  have hleaf : ∀ {l : Leaf} {x : Statement}, l.toStatement? = some x → x.leaves = 0 := by
    intro l x hx
    cases l with
    | declaration => cases hx
    | definition | directive | call =>
      obtain rfl := Option.some.inj hx
      rfl
  induction h with
  | finish => exact List.forall_mem_nil _
  | mark _ _ ih => exact fun x hx => Nat.le_trans (ih x hx) (List.Sublist.countP_le (List.sublist_cons_self _ _))
  | last _ hx => exact List.forall_mem_singleton.mpr (by simp [hleaf hx])
  | @next _ _ own stop _ _ _ hx _ _ ih =>
    refine List.forall_mem_cons.mpr ⟨by simp [hleaf hx], fun x hx => Nat.le_trans (ih x hx) ?_⟩
    exact List.Sublist.countP_le ((List.sublist_cons_self _ _).trans (List.sublist_append_right _ _))
  | runOn _ hc => exact hc.elim
  | @block h own lbrace inside body _ _ _ _ hbody _ ih =>
    have hinside := hbody.leaves_le
    have hrow : inside.countP partsItems ≤ (own ++ lbrace :: inside).countP partsItems :=
      List.Sublist.countP_le ((List.sublist_cons_self _ _).trans (List.sublist_append_right _ _))
    refine List.forall_mem_cons.mpr ⟨?_, fun x hx => Nat.le_trans (ih x hx) (by omega)⟩
    have hleaves : (h.toStatement body).leaves = body.countP Item.isLeaf := by cases h <;> rfl
    omega

end

/-- What is read is ended, up to calls that are marked important. Behind the last token of every declaration,
definition, directive and call in a sheet stands a `;`, the `}` of its block or `eof`, except behind calls with a mark:
so if there are none, without exception. A call with a mark may have anything behind it that could stand behind a `;`. -/
theorem Sheet.ended_of_ofTokens {ts : List Token} {s : Sheet} (h : Sheet.ofTokens ts = .ok s) :
    SheetOf (·.important = true) ts s ∧
      ((∀ x ∈ s, x.Meets (.calls fun c => ¬c.important = true)) → SheetOf (fun _ => False) ts s) ∧
      ∀ (c : Call) (own : List Token), (Leaf.call c).SpelledBy own → c.important = true → ∀ rest,
        readBlock (own ++ rest) = (readBlock (skipSemicolon rest)).map (consItem (.call c)) ∧
        readStatements (own ++ rest) = (readStatements (skipSemicolon rest)).map (.call c :: ·) := by
  have hread : readStatements ts = .ok s := by
    rw [ofTokens] at h
    split at h
    · cases h
    · exact h
  have hlies := sheetOf_of_readStatements hread
  refine ⟨hlies, hlies.mono, fun c own hown hc rest => ?_⟩
  have hlead := lead?_marked hown hc rest
  obtain ⟨t, us, rfl, hstop⟩ := begins_of_call hown
  exact ⟨readBlock_call hstop hlead, readStatements_call hstop hlead⟩

/-- The first block ends its declaration and the second one its last declaration, while a `;` ends what is before. -/
theorem Sheet.ended_of_ofTokens_calls :
    let ts := Token.ofText "@x: 1; .m(@y) \x7b b: @y !important \x7d a \x7b .m(@x); c: d \x7d".toList
    ∃ s, ofTokens ts = .ok s ∧ s.length = 3 ∧ SheetOf (fun _ => False) ts s := by
  intro ts
  have hread : (ofTokens ts).toOption.any fun s =>
      s.length = 3 ∧ ∀ x ∈ s, x.Meets (.calls fun c => ¬c.important = true) := by
    decide +kernel
  obtain ⟨s, hs, hall⟩ := (Option.any_eq_true _ _).mp hread
  obtain ⟨hlength, hunmarked⟩ := of_decide_eq_true hall
  have hs := eq_ok_of_toOption hs
  exact ⟨s, hs, hlength, (ended_of_ofTokens hs).2.1 hunmarked⟩

/-- Nothing stands between a call with a mark and the declaration behind it. -/
theorem Sheet.marked_call_unended :
    ¬∀ ts s, ofTokens ts = .ok s → SheetOf (fun _ => False) ts s := by
  intro h
  let ts := Token.ofText "a \x7b .m !important color: red \x7d".toList
  have hread : (ofTokens ts).toOption.any fun s => s.map Statement.leaves = [2] := by decide +kernel
  have hparts : ts.countP partsItems = 1 := by decide +kernel
  obtain ⟨s, hs, hleaves⟩ := (Option.any_eq_true _ _).mp hread
  have hlies := h ts s (eq_ok_of_toOption hs)
  obtain ⟨x, rfl, hx⟩ := List.map_eq_singleton_iff.mp (of_decide_eq_true hleaves)
  have hle := hlies.leaves_le x (List.mem_singleton_self x)
  omega

end LessCss
