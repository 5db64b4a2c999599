import LessCss.Proofs.Sheet.Lead
import LessCss.Proofs.Token.Places
/-!
The readers of sheets keep places for diagnostics and calls alone.

The syntax of a row of tokens is the syntax of the row without places, up to the places in it
(`Sheet.ofTokens_bare`). No value, argument or selector holds the end of the text, so what is before the end
counts for nothing either, and nor does what is before the first token (`Sheet.ofTokens_spaced`).
-/
namespace LessCss

open Token (unplaced bare)

def Declaration.unplaced (d : Declaration) : Declaration := { d with value := d.value.map Token.unplaced }

def Definition.unplaced (d : Definition) : Definition := { d with value := d.value.map Token.unplaced }

def Parameter.unplaced (p : Parameter) : Parameter :=
  { p with fallback := p.fallback.map (List.map Token.unplaced) }

def Call.unplaced (c : Call) : Call :=
  { c with args := c.args.map (List.map Token.unplaced), position := .start }

namespace Item

mutual

def unplaced : Item → Item
  | declaration d => declaration d.unplaced
  | definition d => definition d.unplaced
  | call c => call c.unplaced
  | rule selectors body => rule selectors (unplacedAll body)
  | atRule name params body => atRule name params (unplacedAll body)
  | mixin name params body => mixin name (params.map Parameter.unplaced) (unplacedAll body)

def unplacedAll : List Item → List Item
  | [] => []
  | i :: is => unplaced i :: unplacedAll is

end

theorem unplacedAll_eq_map (is : List Item) : unplacedAll is = is.map unplaced := by
  induction is with
  | nil => rfl
  | cons i is ih => rw [unplacedAll, ih, List.map_cons]

end Item

def Statement.unplaced : Statement → Statement
  | directive d => directive d
  | definition d => definition d.unplaced
  | call c => call c.unplaced
  | rule selectors body => rule selectors (Item.unplacedAll body)
  | atRule name params body => atRule name params (Item.unplacedAll body)
  | mixin name params body => mixin name (params.map Parameter.unplaced) (Item.unplacedAll body)

def Sheet.unplaced (s : Sheet) : Sheet := s.map Statement.unplaced

def Header.unplaced : Header → Header
  | rule selectors => rule selectors
  | atRule name params => atRule name params
  | mixin name params => mixin name (params.map Parameter.unplaced)

def Lead.unplaced : Lead → Lead
  | definition d => definition d.unplaced
  | call c => call c.unplaced
  | opened h => opened h.unplaced

/-- The arguments of a signature hold no end of the text, what follows it may. -/
def Signature.unplaced (s : Signature) : Signature :=
  ⟨s.name, s.args.map (List.map Token.unplaced), s.rest.map bare⟩

theorem Header.unplaced_toItem (h : Header) (body : List Item) :
    (h.toItem body).unplaced = h.unplaced.toItem (Item.unplacedAll body) := by
  cases h <;> rfl

theorem Header.unplaced_toStatement (h : Header) (body : List Item) :
    (h.toStatement body).unplaced = h.unplaced.toStatement (Item.unplacedAll body) := by
  cases h <;> rfl

namespace Tokens

variable {ts group : List Token}

theorem next_map_bare (ts : List Token) : next (ts.map bare) = (next ts).bare := by
  cases ts <;> rfl

theorem next_map_unplaced (ts : List Token) : next (ts.map unplaced) = (next ts).unplaced := by
  cases ts <;> rfl

theorem isStop_comp_bare : isStop ∘ bare = isStop := rfl

theorem opensBlock_map_bare (ts : List Token) : opensBlock (ts.map bare) = opensBlock ts := by
  rw [opensBlock, List.find?_map, isStop_comp_bare, Option.any_map]
  rfl

theorem skipSemicolon_map_bare (ts : List Token) : skipSemicolon (ts.map bare) = (skipSemicolon ts).map bare := by
  cases ts with
  | nil => rfl
  | cons t ts => by_cases h : t.kind = .semicolon <;> simp [skipSemicolon, h]

theorem kind_ne_eof_of_not_stop {t : Token} (h : isStop t = false) : t.kind ≠ .eof := by
  simp only [isStop, decide_eq_false_iff_not, not_or] at h
  exact h.2.2.2

/-- The tokens up to the first stop hold no end of the text. -/
theorem map_bare_takeWhile (ts : List Token) :
    (ts.map bare).takeWhile (!isStop ·) = (ts.takeWhile (!isStop ·)).map unplaced := by
  rw [List.takeWhile_map, Token.map_bare_eq_map_unplaced]
  · rfl
  · intro t ht
    have hs : (!isStop t) = true := List.all_eq_true.mp List.all_takeWhile t ht
    exact kind_ne_eof_of_not_stop (by simpa using hs)

theorem readValue_bare (ts : List Token) : readValue (ts.map bare) =
    forget (Prod.map (List.map unplaced) (List.map bare)) (readValue ts) := by
  have hdrop : (ts.map bare).dropWhile (!isStop ·) = (ts.dropWhile (!isStop ·)).map bare := by
    rw [List.dropWhile_map]
    rfl
  have hcomp : (fun t : Token => decide (t.kind = .unterminated)) ∘ unplaced =
      fun t => decide (t.kind = .unterminated) := rfl
  simp only [readValue, map_bare_takeWhile, hdrop, List.find?_map, hcomp]
  cases (ts.takeWhile (!isStop ·)).find? fun t => decide (t.kind = .unterminated) <;> rfl

theorem isImportant_map_unplaced (ts : List Token) : isImportant (ts.map unplaced) = isImportant ts := by
  rcases ts with _ | ⟨mark, _ | ⟨word, _ | ⟨t, ts⟩⟩⟩ <;> rfl

theorem isImportant_map_bare (ts : List Token) : isImportant (ts.map bare) = isImportant ts := by
  rcases ts with _ | ⟨mark, _ | ⟨word, _ | ⟨t, ts⟩⟩⟩ <;> rfl

theorem takeImportant_unplaced (value : List Token) : takeImportant (value.map unplaced) =
    ((takeImportant value).1.map unplaced, (takeImportant value).2) := by
  simp only [takeImportant, List.length_map, ← List.map_drop, ← List.map_take, isImportant_map_unplaced]
  split <;> rfl

end Tokens

namespace Signature

open Tokens

theorem opened_bare (name : Text) (ts : List Token) :
    opened name (ts.map bare) = (opened name ts).map Signature.unplaced := by
  rw [opened, opened, closeParen?_map (f := bare) (fun _ => rfl) (fun _ => rfl)]
  cases h : closeParen? endsArguments 0 ts with
  | none => rfl
  | some p =>
    obtain ⟨args, rest⟩ := p
    obtain ⟨close, -, -, hd⟩ := closeParen?_eq_some h
    have hargs : ∀ t ∈ args, t.kind ≠ .eof := by
      intro t ht
      have hb := barrier_of_mem hd t ht
      simp only [endsArguments, decide_eq_false_iff_not, not_or] at hb
      exact hb.2.2
    simp [Signature.unplaced, Token.map_bare_eq_map_unplaced hargs]

theorem named_bare (name : Text) (ts : List Token) :
    named name (ts.map bare) = (named name ts).map Signature.unplaced := by
  cases ts with
  | nil => rfl
  | cons t ts =>
    rw [List.map_cons, named, named, Token.bare_kind, opened_bare]
    split <;> rfl

theorem read?_bare (ts : List Token) : read? (ts.map bare) = (read? ts).map Signature.unplaced := by
  cases ts with
  | nil => rfl
  | cons t ts =>
    simp only [List.map_cons, read?, Token.bare_isDelim, Token.bare_kind, Token.bare_text, next_map_bare,
      named_bare, opened_bare, ← List.map_tail, Token.bare_name]
    split
    · by_cases hk : (next ts).kind = .eof
      · simp [hk]
      · have hs : (next ts).bare.spaced = (next ts).spaced := by simp [bare, hk]
        rw [hs]
        split
        · rfl
        · split <;> rfl
    · split <;> rfl

theorem isDefinition_unplaced (s : Signature) : s.unplaced.isDefinition = s.isDefinition := by
  obtain ⟨name, args, rest⟩ := s
  cases args with
  | none => rfl
  | some args =>
    simp [isDefinition, Signature.unplaced, next_map_bare, arguments_map (f := Token.unplaced) (fun _ => rfl),
      Function.comp_def, next_map_unplaced]

theorem isCall_unplaced (s : Signature) : s.unplaced.isCall = s.isCall := by
  simp only [isCall, Signature.unplaced, next_map_bare, Token.bare_kind, ← List.map_take, isImportant_map_bare]

theorem argumentList_unplaced (s : Signature) :
    s.unplaced.argumentList = s.argumentList.map (List.map Token.unplaced) := by
  obtain ⟨name, args, rest⟩ := s
  cases args with
  | none => rfl
  | some args => exact arguments_map (f := Token.unplaced) (fun _ => rfl) args

theorem parameter_unplaced (ts : List Token) :
    parameter (ts.map Token.unplaced) = forget Parameter.unplaced (parameter ts) := by
  simp only [parameter, next_map_unplaced, ← List.map_tail, Token.unplaced_kind, Token.unplaced_position,
    Token.unplaced_name]
  by_cases hk : (next ts).kind = .atKeyword
  · cases ts.tail with
    | nil => simp [hk, Parameter.unplaced]
    | cons c fallback =>
      by_cases hc : c.kind = .colon
      · cases fallback <;> simp [hk, hc, Parameter.unplaced]
      · simp [hk, hc]
  · simp [hk]

end Signature

namespace Tokens

variable {t : Token} {ts group : List Token}

theorem readSelectors_bare (group : List Token) (hg : ∀ t ∈ group, t.kind ≠ .eof) (ts : List Token) :
    readSelectors (group.map unplaced) (ts.map bare) =
      forget (Prod.map id (List.map bare)) (readSelectors group ts) := by
  induction ts generalizing group with
  | nil => rfl
  | cons t ts ih =>
    have hnext := ih [] nofun
    have hmore : t.kind ≠ .eof → readSelectors (group.map unplaced ++ [t.bare]) (ts.map bare) =
        forget (Prod.map id (List.map bare)) (readSelectors (group ++ [t]) ts) := by
      intro ht
      rw [Token.bare_of_kind_ne_eof ht, ← List.map_singleton, ← List.map_append]
      refine ih _ fun u hu => ?_
      rcases List.mem_append.mp hu with hu | hu
      · exact hg u hu
      · rwa [List.mem_singleton.mp hu]
    unfold readSelectors
    simp only [List.map_cons, Token.bare_kind, Token.bare_isDelim, List.isEmpty_map, Token.join_map_unplaced]
    split
    · cases group <;> rfl
    · cases group with
      | nil => rfl
      | cons u us =>
        rw [List.map_nil] at hnext
        rw [hnext]
        exact forget_bind fun p _ => rfl
    case h_3 | h_4 | h_5 | h_6 | h_7 | h_8 => rfl
    case h_9 hk =>
      by_cases hd : t.isDelim '!' = true
      · simp [hd]
      · simpa [hd] using hmore hk

theorem readDefinition_bare (t : Token) (ts : List Token) : readDefinition t.bare (ts.map bare) =
    forget (Prod.map Definition.unplaced (List.map bare)) (readDefinition t ts) := by
  rw [readDefinition, readDefinition, readValue_bare]
  refine forget_bind fun p _ => ?_
  simp only [Prod.map_fst, Prod.map_snd, List.isEmpty_map, next_map_bare, Token.bare_kind, Token.bare_name,
    Token.bare_position, skipSemicolon_map_bare]
  split <;> rfl

theorem readDeclaration_bare (ts : List Token) : readDeclaration (ts.map bare) =
    forget (Prod.map Declaration.unplaced (List.map bare)) (readDeclaration ts) := by
  simp only [readDeclaration, next_map_bare, ← List.map_tail, Token.bare_kind, Token.bare_text,
    Token.bare_position, readValue_bare]
  split
  · rfl
  · split
    · rfl
    · refine forget_bind fun p _ => ?_
      simp only [Prod.map_fst, Prod.map_snd, takeImportant_unplaced, List.isEmpty_map, next_map_bare,
        Token.bare_position, skipSemicolon_map_bare]
      split <;> rfl

theorem readDirective_bare (t : Token) (ts : List Token) : readDirective t.bare (ts.map bare) =
    forget (Prod.map id (List.map bare)) (readDirective t ts) := by
  rw [readDirective, readDirective, readValue_bare]
  refine forget_bind fun p _ => ?_
  simp [skipSemicolon_map_bare]

/-- The `{` that opens a block is the first stop. -/
theorem takeWhile_of_opensBlock (h : opensBlock ts = true) :
    ts.takeWhile (·.kind ≠ .lbrace) = ts.takeWhile (!isStop ·) := by
  induction ts with
  | nil => rfl
  | cons t ts ih =>
    by_cases hk : t.kind = .lbrace
    · simp [isStop, hk]
    · have hs : isStop t = false := by
        cases hs : isStop t with
        | false => rfl
        | true => simp [opensBlock, hs, hk] at h
      rw [List.takeWhile_cons_of_pos (by simpa using hk), List.takeWhile_cons_of_pos (by simp [hs]), ih]
      simpa [opensBlock, hs] using h

theorem readAtHeader_bare (t : Token) (h : opensBlock ts = true) : readAtHeader t.bare (ts.map bare) =
    Prod.map Header.unplaced (List.map bare) (readAtHeader t ts) := by
  have hdrop : (ts.map bare).dropWhile (fun t => decide (t.kind ≠ .lbrace)) =
      (ts.dropWhile fun t => decide (t.kind ≠ .lbrace)).map bare := by
    rw [List.dropWhile_map]
    rfl
  simp only [readAtHeader, takeWhile_of_opensBlock h, hdrop,
    takeWhile_of_opensBlock ((opensBlock_map_bare ts).trans h), map_bare_takeWhile, Token.join_map_unplaced,
    ← List.map_tail, Token.bare_name]
  rfl

theorem readCall_bare (p : Position) (s : Signature) : readCall .start s.unplaced =
    Prod.map Call.unplaced (List.map bare) (readCall p s) := by
  have hd : (next s.unplaced.rest).isDelim '!' = (next s.rest).isDelim '!' := by
    rw [Signature.unplaced, next_map_bare, Token.bare_isDelim]
  simp only [readCall, hd, Signature.argumentList_unplaced]
  cases (next s.rest).isDelim '!' <;>
    simp [Signature.unplaced, Call.unplaced, ← List.map_drop, skipSemicolon_map_bare]

theorem ruleHeader?_bare (ts : List Token) : ruleHeader? (ts.map bare) =
    forget (Option.map (Prod.map Lead.unplaced (List.map bare))) (ruleHeader? ts) := by
  rw [ruleHeader?, ruleHeader?, opensBlock_map_bare]
  split
  · have h := readSelectors_bare [] (List.forall_mem_nil _) ts
    rw [List.map_nil] at h
    rw [h, map_forget, forget_map]
    rfl
  · rfl

/-- What leads a row of tokens leads the row without places. -/
theorem lead?_bare (ts : List Token) : lead? (ts.map bare) =
    forget (Option.map (Prod.map Lead.unplaced (List.map bare))) (lead? ts) := by
  unfold lead?
  simp only [next_map_bare, Token.bare_kind, ← List.map_tail, Token.bare_position, readDefinition_bare,
    opensBlock_map_bare, Signature.read?_bare]
  by_cases hk : (next ts).kind = .atKeyword
  · rw [if_pos hk, if_pos hk]
    by_cases hc : (next ts.tail).kind = .colon
    · rw [if_pos hc, if_pos hc, map_forget, forget_map]
      rfl
    · rw [if_neg hc, if_neg hc]
      cases ho : opensBlock ts.tail with
      | false => rfl
      | true =>
        rw [readAtHeader_bare _ ho]
        rfl
  · rw [if_neg hk, if_neg hk]
    cases Signature.read? ts with
    | none => exact ruleHeader?_bare ts
    | some s =>
      simp only [Option.map_some, Signature.isDefinition_unplaced, Signature.isCall_unplaced,
        Signature.argumentList_unplaced]
      cases s.isDefinition with
      | true =>
        simp only [if_true]
        rw [forget_mapM Signature.parameter_unplaced, map_forget, forget_map]
        simp [Lead.unplaced, Header.unplaced, Signature.unplaced]
      | false =>
        cases s.isCall with
        | true => simp [readCall_bare (next ts).position, Lead.unplaced]
        | false => exact ruleHeader?_bare ts

/-- One step of a block, if what follows an item is read without places. -/
theorem readItem_bare (t : Token) (ts : List Token)
    (ih : ∀ us, us.length ≤ ts.length →
      readBlock (us.map bare) = forget (Prod.map Item.unplacedAll (List.map bare)) (readBlock us)) :
    readItem t.bare (ts.map bare) = forget (Prod.map Item.unplacedAll (List.map bare)) (readItem t ts) := by
  have hcons : ∀ (i : Item) (us : List Token), us.length ≤ ts.length →
      (readBlock (us.map bare)).map (consItem i.unplaced) =
        forget (Prod.map Item.unplacedAll (List.map bare)) ((readBlock us).map (consItem i)) := by
    intro i us hus
    rw [ih us hus, map_forget, forget_map]
    rfl
  rw [readItem, readItem, ← List.map_cons, lead?_bare]
  refine forget_bind fun r hr => ?_
  cases r with
  | none =>
    rw [Option.map_none]
    by_cases hk : t.kind = .atKeyword
    · rw [if_pos (show t.bare.kind = .atKeyword from hk), if_pos hk]
      rfl
    · rw [if_neg (show t.bare.kind ≠ .atKeyword from hk), if_neg hk, readDeclaration_bare]
      refine forget_bind fun p hp => ?_
      exact hcons (.declaration p.1) p.2 (Nat.le_of_lt_succ (readDeclaration_length hp))
  | some r =>
    obtain ⟨l, after⟩ := r
    have hafter : after.length ≤ ts.length := Nat.le_of_lt_succ (lead?_length hr)
    cases l with
    | definition d => exact hcons (.definition d) after hafter
    | call c => exact hcons (.call c) after hafter
    | opened h =>
      simp only [Option.map_some, Prod.map_apply, Lead.unplaced]
      rw [ih after hafter]
      refine forget_bind fun p hp => ?_
      rw [Prod.map_fst, Prod.map_snd, ← Header.unplaced_toItem]
      exact hcons (h.toItem p.1) p.2 (Nat.le_trans (Nat.le_of_lt (readBlock_length hp)) hafter)

/-- The run over a block, by induction on the number of its tokens. -/
theorem readBlock_bare (ts : List Token) :
    readBlock (ts.map bare) = forget (Prod.map Item.unplacedAll (List.map bare)) (readBlock ts) := by
  induction hn : ts.length using Nat.strongRecOn generalizing ts with
  | ind n ih =>
    cases ts with
    | nil =>
      rw [List.map_nil, readBlock_nil]
      rfl
    | cons t ts =>
      subst hn
      have hitem := readItem_bare t ts fun us hus => ih us.length (Nat.lt_succ_of_le hus) us rfl
      rw [List.map_cons, readBlock_step, readBlock_step, Token.bare_kind]
      by_cases hs : t.kind = .semicolon
      · rw [if_pos hs, if_pos hs]
        exact ih ts.length (Nat.lt_succ_self _) ts rfl
      rw [if_neg hs, if_neg hs]
      by_cases hb : t.kind = .rbrace
      · rw [if_pos hb, if_pos hb]
        rfl
      rw [if_neg hb, if_neg hb]
      by_cases he : t.kind = .eof
      · rw [if_pos he, if_pos he]
        rfl
      rw [if_neg he, if_neg he, hitem]

theorem readStatement_bare (t : Token) (ts : List Token)
    (ih : ∀ us, us.length ≤ ts.length →
      readStatements (us.map bare) = forget (List.map Statement.unplaced) (readStatements us)) :
    readStatement t.bare (ts.map bare) = forget (List.map Statement.unplaced) (readStatement t ts) := by
  have hcons : ∀ (s : Statement) (us : List Token), us.length ≤ ts.length →
      (readStatements (us.map bare)).map (s.unplaced :: ·) =
        forget (List.map Statement.unplaced) ((readStatements us).map (s :: ·)) := by
    intro s us hus
    rw [ih us hus, map_forget, forget_map]
    rfl
  rw [readStatement, readStatement, ← List.map_cons, lead?_bare]
  refine forget_bind fun r hr => ?_
  cases r with
  | none =>
    rw [Option.map_none]
    by_cases hk : t.kind = .atKeyword
    · rw [if_pos (show t.bare.kind = .atKeyword from hk), if_pos hk, readDirective_bare]
      refine forget_bind fun p hp => ?_
      exact hcons (.directive p.1) p.2 (readDirective_length hp)
    · rw [if_neg (show t.bare.kind ≠ .atKeyword from hk), if_neg hk]
      rfl
  | some r =>
    obtain ⟨l, after⟩ := r
    have hafter : after.length ≤ ts.length := Nat.le_of_lt_succ (lead?_length hr)
    cases l with
    | definition d => exact hcons (.definition d) after hafter
    | call c => exact hcons (.call c) after hafter
    | opened h =>
      simp only [Option.map_some, Prod.map_apply, Lead.unplaced]
      rw [readBlock_bare]
      refine forget_bind fun p hp => ?_
      rw [Prod.map_fst, Prod.map_snd, ← Header.unplaced_toStatement]
      exact hcons (h.toStatement p.1) p.2 (Nat.le_trans (Nat.le_of_lt (readBlock_length hp)) hafter)

theorem readStatements_bare (ts : List Token) :
    readStatements (ts.map bare) = forget (List.map Statement.unplaced) (readStatements ts) := by
  induction hn : ts.length using Nat.strongRecOn generalizing ts with
  | ind n ih =>
    cases ts with
    | nil =>
      rw [List.map_nil, readStatements_nil]
      rfl
    | cons t ts =>
      subst hn
      have hstatement := readStatement_bare t ts fun us hus => ih us.length (Nat.lt_succ_of_le hus) us rfl
      rw [List.map_cons, readStatements_step, readStatements_step, Token.bare_kind]
      by_cases he : t.kind = .eof
      · rw [if_pos he, if_pos he]
        rfl
      rw [if_neg he, if_neg he]
      by_cases hs : t.kind = .semicolon
      · rw [if_pos hs, if_pos hs]
        exact ih ts.length (Nat.lt_succ_self _) ts rfl
      rw [if_neg hs, if_neg hs, hstatement]

end Tokens

namespace Braces

theorem unpaired?_bare (opened : Nat) (ts : List Token) :
    unpaired? opened (ts.map bare) = (unpaired? opened ts).map Diagnostic.unplaced := by
  fun_induction unpaired? opened ts <;> simp_all [unpaired?]

theorem tooDeep?_bare (opened : Nat) (ts : List Token) :
    tooDeep? opened (ts.map bare) = (tooDeep? opened ts).map Diagnostic.unplaced := by
  fun_induction tooDeep? opened ts with
  | case1 => rfl
  | case2 opened t ts hk hdeep => simp [tooDeep?, hk, hdeep]
  | case3 opened t ts hk hdeep ih => simp [tooDeep?, hk, if_neg hdeep, ih]
  | case4 opened t ts hk ih => simp [tooDeep?, hk, ih]
  | case5 opened t ts hl hr ih => simp_all [tooDeep?]

theorem fault?_bare (ts : List Token) : fault? (ts.map bare) = (fault? ts).map Diagnostic.unplaced := by
  rw [fault?, fault?, unpaired?_bare, tooDeep?_bare]
  cases unpaired? 0 ts <;> rfl

end Braces

/-- The syntax of a row of tokens does not depend on their places. -/
theorem Sheet.ofTokens_bare (ts : List Token) :
    Sheet.ofTokens (ts.map bare) = forget Sheet.unplaced (Sheet.ofTokens ts) := by
  rw [Sheet.ofTokens, Sheet.ofTokens, Braces.fault?_bare]
  cases Braces.fault? ts with
  | none => exact Tokens.readStatements_bare ts
  | some d => rfl

namespace Tokens

theorem readSelectors_group_respaced (s : Bool) (t : Token) (group ts : List Token) :
    readSelectors (t.respaced s :: group) ts = readSelectors (t :: group) ts := by
  induction ts generalizing group with
  | nil => rfl
  | cons u us ih =>
    unfold readSelectors
    simp only [List.isEmpty_cons, Token.join_respaced, List.cons_append, ih]

theorem readSelectors_respaced (s : Bool) (t : Token) (ts : List Token) :
    readSelectors [] (t.respaced s :: ts) = readSelectors [] (t :: ts) := by
  unfold readSelectors
  rw [List.nil_append, List.nil_append, readSelectors_group_respaced]
  rfl

theorem lead?_respaced (s : Bool) (t : Token) (ts : List Token) :
    lead? (t.respaced s :: ts) = lead? (t :: ts) := by
  have hrule : ruleHeader? (t.respaced s :: ts) = ruleHeader? (t :: ts) := by
    have hopen : opensBlock (t.respaced s :: ts) = opensBlock (t :: ts) := by
      have hs : isStop (t.respaced s) = isStop t := rfl
      rw [opensBlock, opensBlock, List.find?_cons, List.find?_cons, hs]
      cases isStop t <;> rfl
    rw [ruleHeader?, ruleHeader?, hopen, readSelectors_respaced]
  unfold lead?
  rw [hrule]
  rfl

theorem readStatements_respaced (s : Bool) (t : Token) (ts : List Token) :
    readStatements (t.respaced s :: ts) = readStatements (t :: ts) := by
  rw [readStatements_step, readStatements_step, readStatement, readStatement, lead?_respaced]
  rfl

end Tokens

theorem Sheet.ofTokens_respaced (s : Bool) (t : Token) (ts : List Token) :
    Sheet.ofTokens (t.respaced s :: ts) = Sheet.ofTokens (t :: ts) := by
  rw [Sheet.ofTokens, Sheet.ofTokens, Tokens.readStatements_respaced]
  rfl

end LessCss
