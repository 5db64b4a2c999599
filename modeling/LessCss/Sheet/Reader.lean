import LessCss.Sheet.Lead
/-!
The syntax tree of a row of tokens.

`readBlock` reads the items of a block up to its `}`, and `readStatements` the statements of a sheet up to
`eof`. Whatever is read leaves fewer tokens (`lead?_length`), so both end. `Sheet.ofTokens` looks at the braces
first: they must pair up, and no block may be nested deeper than `maxNesting`. A brace without a partner is reported even
where some other block is too deep.
-/
namespace LessCss

namespace Braces

/-- The fault of the first brace without a partner, after `opened` braces that are still open. -/
def unpaired? : Nat → List Token → Option Diagnostic
  | opened, [] => if opened = 0 then none else some ⟨.missingClose, none⟩
  | opened, t :: ts =>
    match t.kind with
    | .lbrace => unpaired? (opened + 1) ts
    | .rbrace => if opened = 0 then some (Fault.unexpectedClose.blame t.position) else unpaired? (opened - 1) ts
    | _ => unpaired? opened ts

/-- The first brace that opens a block deeper than the limit. -/
def tooDeep? : Nat → List Token → Option Diagnostic
  | _, [] => none
  | opened, t :: ts =>
    match t.kind with
    | .lbrace =>
      if maxNesting ≤ opened then some (Fault.blocksTooDeep.blame t.position) else tooDeep? (opened + 1) ts
    | .rbrace => tooDeep? (opened - 1) ts
    | _ => tooDeep? opened ts

/-- What is wrong with the braces of a sheet, if anything is. -/
def fault? (ts : List Token) : Option Diagnostic := (unpaired? 0 ts).or (tooDeep? 0 ts)

end Braces

namespace Tokens

theorem skipSemicolon_length (ts : List Token) : (skipSemicolon ts).length ≤ ts.length := by
  cases ts with
  | nil => simp [skipSemicolon]
  | cons t ts => rw [skipSemicolon]; split <;> simp

theorem readValue_length {ts value rest : List Token} (h : readValue ts = .ok (value, rest)) :
    rest.length ≤ ts.length := by
  simp only [readValue] at h
  split at h
  · simp at h
  · simp only [Except.ok.injEq, Prod.mk.injEq] at h
    rw [← h.2]
    exact (List.dropWhile_suffix _).length_le

theorem readSelectors_length {group ts rest : List Token} {selectors : List Text}
    (h : readSelectors group ts = .ok (selectors, rest)) : rest.length < ts.length := by
  fun_induction readSelectors group ts generalizing selectors rest <;>
    simp_all [bind, Except.bind] <;> grind

theorem readDefinition_length {t : Token} {ts rest : List Token} {d : Definition}
    (h : readDefinition t ts = .ok (d, rest)) : rest.length ≤ ts.length := by
  simp only [readDefinition, bind, Except.bind] at h
  split at h
  · simp at h
  · next p hv =>
    split at h
    · simp at h
    · simp only [Except.ok.injEq, Prod.mk.injEq] at h
      rw [← h.2]
      exact Nat.le_trans (skipSemicolon_length _) (readValue_length hv)

theorem readDeclaration_length {ts rest : List Token} {d : Declaration}
    (h : readDeclaration ts = .ok (d, rest)) : rest.length < ts.length := by
  simp only [readDeclaration, bind, Except.bind] at h
  split at h
  · simp at h
  · next hp =>
    split at h
    · simp at h
    · split at h
      · simp at h
      · next p hv =>
        split at h
        · simp at h
        · simp only [Except.ok.injEq, Prod.mk.injEq] at h
          rw [← h.2]
          have hs := skipSemicolon_length p.2
          have hr := readValue_length hv
          cases ts with
          | nil => simp [next] at hp
          | cons t ts => simp at hr ⊢; omega

theorem readDirective_length {t : Token} {ts rest : List Token} {d : Directive}
    (h : readDirective t ts = .ok (d, rest)) : rest.length ≤ ts.length := by
  simp only [readDirective, bind, Except.bind] at h
  split at h
  · simp at h
  · next p hv =>
    simp only [Except.ok.injEq, Prod.mk.injEq] at h
    rw [← h.2]
    exact Nat.le_trans (skipSemicolon_length _) (readValue_length hv)

theorem readAtHeader_length (t : Token) (ts : List Token) : (readAtHeader t ts).2.length ≤ ts.length := by
  have := (List.dropWhile_suffix (fun t : Token => decide (t.kind ≠ .lbrace)) (l := ts)).length_le
  simp [readAtHeader] at this ⊢
  omega

theorem readCall_length (p : Position) (s : Signature) : (readCall p s).2.length ≤ s.rest.length := by
  simp only [readCall]
  refine Nat.le_trans (skipSemicolon_length _) ?_
  split <;> simp

end Tokens

namespace Signature

open Tokens

theorem opened_length {name : Text} {ts : List Token} {s : Signature} (h : opened name ts = some s) :
    s.rest.length ≤ ts.length := by
  simp only [opened, Option.map_eq_some_iff] at h
  obtain ⟨p, hp, rfl⟩ := h
  exact Nat.le_of_lt (closeParen?_length hp)

theorem named_length {name : Text} {ts : List Token} {s : Signature} (h : named name ts = some s) :
    s.rest.length ≤ ts.length := by
  cases ts with
  | nil => simp only [named, Option.some.injEq] at h; simp [← h]
  | cons t ts =>
    simp only [named] at h
    split at h
    · have := opened_length h
      simp only [List.length_cons]
      omega
    · simp only [Option.some.injEq] at h; simp [← h]

theorem read?_length {ts : List Token} {s : Signature} (h : read? ts = some s) : s.rest.length < ts.length := by
  cases ts with
  | nil => simp [read?] at h
  | cons t ts =>
    have ht : ts.tail.length ≤ ts.length := by simp
    simp only [read?] at h
    rw [List.length_cons]
    split at h
    · split at h
      · simp at h
      · split at h
        · have := named_length h; omega
        · have := opened_length h; omega
        · simp at h
    · split at h
      · have := named_length h; omega
      · simp at h

end Signature

namespace Tokens

theorem ruleHeader?_length {ts rest : List Token} {l : Lead} (h : ruleHeader? ts = .ok (some (l, rest))) :
    rest.length < ts.length := by
  simp only [ruleHeader?] at h
  split at h
  · cases hs : readSelectors [] ts with
    | error d => simp [hs, Except.map] at h
    | ok p =>
      simp only [hs, Except.map, Except.ok.injEq, Option.some.injEq, Prod.mk.injEq] at h
      exact h.2 ▸ readSelectors_length hs
  · simp at h

/-- Whatever leads takes at least one token. -/
theorem lead?_length {ts rest : List Token} {l : Lead} (h : lead? ts = .ok (some (l, rest))) :
    rest.length < ts.length := by
  have htail : (next ts).kind = .atKeyword → ts.tail.length < ts.length := by
    cases ts <;> simp [next]
  have htail' : ts.tail.tail.length ≤ ts.tail.length := by simp
  unfold lead? at h
  dsimp only at h
  split at h
  · next hk =>
    have hlen := htail hk
    split at h
    · cases hd : readDefinition (next ts) ts.tail.tail with
      | error d => simp [hd, Except.map] at h
      | ok p =>
        simp only [hd, Except.map, Except.ok.injEq, Option.some.injEq, Prod.mk.injEq] at h
        have := readDefinition_length hd
        rw [← h.2]
        omega
    · split at h
      · simp only [Except.ok.injEq, Option.some.injEq, Prod.mk.injEq] at h
        have := readAtHeader_length (next ts) ts.tail
        rw [← h.2]
        omega
      · simp at h
  · split at h
    · exact ruleHeader?_length h
    · next s hs =>
      have hlen := Signature.read?_length hs
      split at h
      · cases hp : s.argumentList.mapM Signature.parameter with
        | error d => simp [hp, Except.map] at h
        | ok params =>
          simp only [hp, Except.map, Except.ok.injEq, Option.some.injEq, Prod.mk.injEq] at h
          simp only [← h.2, List.length_tail]
          omega
      · split at h
        · simp only [Except.ok.injEq, Option.some.injEq, Prod.mk.injEq] at h
          have := readCall_length (next ts).position s
          rw [← h.2]
          omega
        · exact ruleHeader?_length h

/-- The items of a block up to its `}` and the tokens after it, which are fewer. -/
def blockItems : (ts : List Token) →
    Except Diagnostic (List Item × { rest : List Token // rest.length < ts.length })
  | [] => .error ⟨.missingClose, none⟩
  | t :: ts =>
    if t.kind = .semicolon then do
      let (items, ⟨rest, hr⟩) ← blockItems ts
      .ok (items, ⟨rest, Nat.lt_succ_of_lt hr⟩)
    else if t.kind = .rbrace then .ok ([], ⟨ts, Nat.lt_succ_self _⟩)
    else if t.kind = .eof then .error ⟨.missingClose, none⟩
    else
      match hl : lead? (t :: ts) with
      | .error d => .error d
      | .ok (some (.definition d, after)) => do
        have ha := lead?_length hl
        let (items, ⟨rest, hr⟩) ← blockItems after
        .ok (.definition d :: items, ⟨rest, Nat.lt_trans hr ha⟩)
      | .ok (some (.call c, after)) => do
        have ha := lead?_length hl
        let (items, ⟨rest, hr⟩) ← blockItems after
        .ok (.call c :: items, ⟨rest, Nat.lt_trans hr ha⟩)
      | .ok (some (.opened header, inside)) => do
        have hi := lead?_length hl
        let (body, ⟨after, hb⟩) ← blockItems inside
        have ha := Nat.lt_trans hb hi
        let (items, ⟨rest, hr⟩) ← blockItems after
        .ok (header.toItem body :: items, ⟨rest, Nat.lt_trans hr ha⟩)
      | .ok none =>
        if t.kind = .atKeyword then .error ((Fault.unexpectedInBlock t.text).blame t.position)
        else match hd : readDeclaration (t :: ts) with
          | .error d => .error d
          | .ok (d, after) => do
            have ha := readDeclaration_length hd
            let (items, ⟨rest, hr⟩) ← blockItems after
            .ok (.declaration d :: items, ⟨rest, Nat.lt_trans hr ha⟩)
termination_by ts => ts.length
decreasing_by all_goals first | assumption | exact Nat.lt_succ_self _

/-- The items of a block up to its `}`, and the tokens after it. -/
def readBlock (ts : List Token) : Except Diagnostic (List Item × List Token) := do
  let (items, rest) ← blockItems ts
  .ok (items, rest.val)

theorem readBlock_length {ts rest : List Token} {items : List Item} (h : readBlock ts = .ok (items, rest)) :
    rest.length < ts.length := by
  simp only [readBlock, bind, Except.bind] at h
  split at h
  · simp at h
  · next p _ =>
    simp only [Except.ok.injEq, Prod.mk.injEq] at h
    exact h.2 ▸ p.2.property

/-- The statements of a sheet up to `eof`. -/
def readStatements : List Token → Except Diagnostic (List Statement)
  | [] => .ok []
  | t :: ts =>
    if t.kind = .eof then .ok []
    else if t.kind = .semicolon then readStatements ts
    else
      match hl : lead? (t :: ts) with
      | .error d => .error d
      | .ok (some (.definition d, after)) => do
        have _ha := lead?_length hl
        let statements ← readStatements after
        .ok (.definition d :: statements)
      | .ok (some (.call c, after)) => do
        have _ha := lead?_length hl
        let statements ← readStatements after
        .ok (.call c :: statements)
      | .ok (some (.opened header, inside)) =>
        match hb : readBlock inside with
        | .error d => .error d
        | .ok (body, after) => do
          have _ha := Nat.lt_trans (readBlock_length hb) (lead?_length hl)
          let statements ← readStatements after
          .ok (header.toStatement body :: statements)
      | .ok none =>
        if t.kind = .atKeyword then
          match hd : readDirective t ts with
          | .error d => .error d
          | .ok (d, after) => do
            have _ha := Nat.lt_succ_of_le (readDirective_length hd)
            let statements ← readStatements after
            .ok (.directive d :: statements)
        else .error (Fault.declarationOutsideRule.blame t.position)
termination_by ts => ts.length
decreasing_by all_goals first | assumption | exact Nat.lt_succ_self _

end Tokens

/-- The sheet that a row of tokens spells. -/
def Sheet.ofTokens (ts : List Token) : Except Diagnostic Sheet :=
  match Braces.fault? ts with
  | some d => .error d
  | none => Tokens.readStatements ts

end LessCss
