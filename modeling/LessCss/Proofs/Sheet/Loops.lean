import LessCss.Proofs.Sheet.Lookaheads
/-!
The loops in which a sheet is read.

A sheet is read in a loop over its statements, and each block in a loop over its items. `Progress` is what the loops
have got when an iteration begins, and `Progress.step` is the iteration. It returns or leaves fewer tokens, and as often
as it goes on, what will be returned stays the same (`Progress.outcome_step`). So the loops return what the readers
give, after no more iterations than there are tokens (`Progress.run_start`).
-/
namespace LessCss

open Tokens
open Token (Ended ended_cons not_ended_nil)

/-- A block that is being read: its header and the items so far. -/
structure OpenBlock where
  header : Header
  items : List Item

def OpenBlock.push (b : OpenBlock) (i : Item) : OpenBlock := { b with items := b.items ++ [i] }

/-- What has been read when an iteration begins: the statements so far, the blocks that are open, the innermost one
first, and the tokens that are left. -/
structure Progress where
  statements : List Statement
  blocks : List OpenBlock
  left : List Token

namespace Progress

def start (ts : List Token) : Progress := ⟨[], [], ts⟩

/-- One iteration of the loop over the statements of a sheet. -/
def sheetStep (statements : List Statement) : List Token → Except Diagnostic (Sheet ⊕ Progress)
  | [] => .ok (.inl statements)
  | t :: ts =>
    if t.kind = .eof then .ok (.inl statements)
    else if t.kind = .semicolon then .ok (.inr ⟨statements, [], ts⟩)
    else do
      match ← lead? (t :: ts) with
      | some (.definition d, after) => .ok (.inr ⟨statements ++ [.definition d], [], after⟩)
      | some (.call c, after) => .ok (.inr ⟨statements ++ [.call c], [], after⟩)
      | some (.opened header, inside) => .ok (.inr ⟨statements, [⟨header, []⟩], inside⟩)
      | none =>
        if t.kind = .atKeyword then do
          let (d, after) ← readDirective t ts
          .ok (.inr ⟨statements ++ [.directive d], [], after⟩)
        else .error (Fault.declarationOutsideRule.blame t.position)

/-- A block is closed and becomes an item of the block around it, or a statement. -/
def close (statements : List Statement) (b : OpenBlock) (left : List Token) : List OpenBlock → Progress
  | [] => ⟨statements ++ [b.header.toStatement b.items], [], left⟩
  | outer :: blocks => ⟨statements, outer.push (b.header.toItem b.items) :: blocks, left⟩

/-- One iteration of the loop over the items of the block `b`. -/
def blockStep (statements : List Statement) (b : OpenBlock) (blocks : List OpenBlock) :
    List Token → Except Diagnostic (Sheet ⊕ Progress)
  | [] => .error ⟨.missingClose, none⟩
  | t :: ts =>
    if t.kind = .semicolon then .ok (.inr ⟨statements, b :: blocks, ts⟩)
    else if t.kind = .rbrace then .ok (.inr (close statements b ts blocks))
    else if t.kind = .eof then .error ⟨.missingClose, none⟩
    else do
      match ← lead? (t :: ts) with
      | some (.definition d, after) => .ok (.inr ⟨statements, b.push (.definition d) :: blocks, after⟩)
      | some (.call c, after) => .ok (.inr ⟨statements, b.push (.call c) :: blocks, after⟩)
      | some (.opened header, inside) => .ok (.inr ⟨statements, ⟨header, []⟩ :: b :: blocks, inside⟩)
      | none =>
        if t.kind = .atKeyword then .error ((Fault.unexpectedInBlock t.text).blame t.position)
        else do
          let (d, after) ← readDeclaration (t :: ts)
          .ok (.inr ⟨statements, b.push (.declaration d) :: blocks, after⟩)

/-- One iteration of the innermost loop: it reports a fault, returns the sheet, or goes on. -/
def step (p : Progress) : Except Diagnostic (Sheet ⊕ Progress) :=
  match p.blocks with
  | [] => sheetStep p.statements p.left
  | b :: blocks => blockStep p.statements b blocks p.left

/-- What the loops return within a number of iterations, if they do. -/
def run (p : Progress) : Nat → Option (Except Diagnostic Sheet)
  | 0 => none
  | n + 1 =>
    match p.step with
    | .error d => some (.error d)
    | .ok (.inl s) => some (.ok s)
    | .ok (.inr p) => p.run n

/-- The rest of the innermost block is read, then that of the blocks around it, and then the rest of the sheet. -/
def finish (statements : List Statement) (b : OpenBlock) : List OpenBlock → List Token → Except Diagnostic Sheet
  | [], ts => do
    let (items, after) ← readBlock ts
    (readStatements after).map (statements ++ [b.header.toStatement (b.items ++ items)] ++ ·)
  | outer :: blocks, ts => do
    let (items, after) ← readBlock ts
    finish statements (outer.push (b.header.toItem (b.items ++ items))) blocks after

/-- What has been read, and what the readers give for the tokens that are left. -/
def outcome (p : Progress) : Except Diagnostic Sheet :=
  match p.blocks with
  | [] => (readStatements p.left).map (p.statements ++ ·)
  | b :: blocks => finish p.statements b blocks p.left

theorem outcome_start (ts : List Token) : (start ts).outcome = readStatements ts := by
  cases h : readStatements ts <;> simp [outcome, start, h, Except.map]

variable {statements : List Statement} {b : OpenBlock} {blocks : List OpenBlock} {ts after : List Token}

theorem finish_eq (statements : List Statement) (b : OpenBlock) (blocks : List OpenBlock) (ts : List Token) :
    finish statements b blocks ts = readBlock ts >>= fun p =>
      (close statements { b with items := b.items ++ p.1 } p.2 blocks).outcome := by
  cases blocks <;> rfl

theorem finish_push (i : Item) (after : List Token) :
    ((readBlock after).map (consItem i) >>= fun p =>
      (close statements { b with items := b.items ++ p.1 } p.2 blocks).outcome) =
      finish statements (b.push i) blocks after := by
  rw [finish_eq]
  cases readBlock after with
  | error d => rfl
  | ok p => simp [Except.map, ok_bind, consItem, OpenBlock.push]

/-- A statement of the sheet is read before those that follow it. -/
theorem outcome_statement (x : Statement) (after : List Token) :
    ((readStatements after).map (x :: ·)).map (statements ++ ·) = outcome ⟨statements ++ [x], [], after⟩ := by
  rw [map_map, outcome]
  simp

theorem sheetStep_outcome (statements : List Statement) (ts : List Token) :
    (readStatements ts).map (statements ++ ·) = sheetStep statements ts >>= Sum.elim .ok outcome := by
  cases ts with
  | nil => simp [readStatements_nil, sheetStep, Except.map, ok_bind]
  | cons t ts =>
    rw [readStatements_step, sheetStep]
    split
    · simp [Except.map, ok_bind]
    · split
      · rfl
      · rw [readStatement]
        cases lead? (t :: ts) with
        | error d => rfl
        | ok found =>
          rcases found with _ | ⟨d | c | header, after⟩
          · rw [ok_bind, ok_bind]
            dsimp only
            split
            · cases readDirective t ts with
              | error d => rfl
              | ok p => exact outcome_statement (.directive p.1) p.2
            · rfl
          · exact outcome_statement (.definition d) after
          · exact outcome_statement (.call c) after
          · -- the block is read to its end before the sheet goes on
            change (readBlock after >>= fun p => (readStatements p.2).map (header.toStatement p.1 :: ·)).map _ =
              finish statements ⟨header, []⟩ [] after
            rw [finish_eq, map_bind]
            cases readBlock after with
            | error d => rfl
            | ok p => exact outcome_statement (header.toStatement p.1) p.2

theorem blockStep_outcome (statements : List Statement) (b : OpenBlock) (blocks : List OpenBlock) (ts : List Token) :
    finish statements b blocks ts = blockStep statements b blocks ts >>= Sum.elim .ok outcome := by
  rw [finish_eq]
  cases ts with
  | nil => rw [readBlock_nil]; rfl
  | cons t ts =>
    rw [readBlock_step, blockStep]
    split
    · rw [← finish_eq]
      rfl
    · split
      · rw [ok_bind, ok_bind, List.append_nil]
        rfl
      · split
        · rfl
        · rw [readItem]
          cases lead? (t :: ts) with
          | error d => rfl
          | ok found =>
            rcases found with _ | ⟨d | c | header, after⟩
            · rw [ok_bind, ok_bind]
              dsimp only
              split
              · rfl
              · cases readDeclaration (t :: ts) with
                | error d => rfl
                | ok p => exact finish_push (.declaration p.1) p.2
            · exact finish_push (.definition d) after
            · exact finish_push (.call c) after
            · -- the inner block is read to its end before the outer one goes on
              change (readBlock after >>= fun p => (readBlock p.2).map (consItem (header.toItem p.1))) >>= _ =
                finish statements ⟨header, []⟩ (b :: blocks) after
              rw [finish_eq]
              cases readBlock after with
              | error d => rfl
              | ok p => exact finish_push (header.toItem p.1) p.2

/-- An iteration does not change what the loops are about to return. -/
theorem outcome_step (p : Progress) : p.outcome = p.step >>= Sum.elim .ok outcome := by
  obtain ⟨statements, blocks, left⟩ := p
  cases blocks with
  | nil => exact sheetStep_outcome statements left
  | cons b blocks => exact blockStep_outcome statements b blocks left

theorem close_left (statements : List Statement) (b : OpenBlock) (left : List Token) (blocks : List OpenBlock) :
    (close statements b left blocks).left = left := by
  cases blocks <;> rfl

theorem sheetStep_goesOn {p : Progress} (h : sheetStep statements ts = .ok (.inr p)) : GoesOn ts p.left := by
  cases ts with
  | nil => cases h
  | cons t ts =>
    rw [sheetStep] at h
    split at h
    · cases h
    · split at h
      · next hk =>
        cases h
        exact .mark (.inl hk)
      · obtain ⟨found, hlead, h⟩ := bind_eq_ok h
        rcases found with _ | ⟨d | c | header, after⟩
        · dsimp only at h
          split at h
          · next hk =>
            obtain ⟨⟨d, after⟩, hread, h⟩ := bind_eq_ok h
            cases h
            exact .directive hk hread
          · cases h
        · cases h
          exact .lead hlead
        · cases h
          exact .lead hlead
        · cases h
          exact .lead hlead

theorem blockStep_goesOn {p : Progress} (h : blockStep statements b blocks ts = .ok (.inr p)) : GoesOn ts p.left := by
  cases ts with
  | nil => cases h
  | cons t ts =>
    rw [blockStep] at h
    split at h
    · next hk =>
      cases h
      exact .mark (.inl hk)
    · split at h
      · next hk =>
        obtain rfl := Sum.inr.inj (Except.ok.inj h)
        rw [close_left]
        exact .mark (.inr hk)
      · split at h
        · cases h
        · obtain ⟨found, hlead, h⟩ := bind_eq_ok h
          rcases found with _ | ⟨d | c | header, after⟩
          · dsimp only at h
            split at h
            · cases h
            · obtain ⟨⟨d, after⟩, hread, h⟩ := bind_eq_ok h
              cases h
              exact .declaration hread
          · cases h
            exact .lead hlead
          · cases h
            exact .lead hlead
          · cases h
            exact .lead hlead

/-- An iteration that goes on has taken one of the constructs at whose end items are looked for. -/
theorem step_goesOn {p p' : Progress} (h : p.step = .ok (.inr p')) : GoesOn p.left p'.left := by
  obtain ⟨statements, blocks, left⟩ := p
  cases blocks with
  | nil => exact sheetStep_goesOn h
  | cons b blocks => exact blockStep_goesOn h

/-- The loops go on from one iteration to another. -/
def Reaches : Progress → Progress → Prop := Relation.ReflTransGen fun p p' => p.step = .ok (.inr p')

theorem Reaches.visits {p p' : Progress} (h : Reaches p p') : Visits p.left p'.left := by
  induction h with
  | refl => exact .refl
  | tail _ hstep ih => exact ih.tail (step_goesOn hstep)

theorem outcome_of_run {n : Nat} {p : Progress} {r : Except Diagnostic Sheet} (h : p.run n = some r) :
    p.outcome = r := by
  induction n generalizing p with
  | zero => cases h
  | succ n ih =>
    rw [run] at h
    rw [outcome_step]
    cases hstep : p.step with
    | error d =>
      rw [hstep] at h
      exact Option.some.inj h
    | ok next =>
      rw [hstep] at h
      cases next with
      | inl s => exact Option.some.inj h
      | inr p' => exact ih h

/-- By induction on the iterations: each that goes on leaves fewer tokens, and the last one looks at `eof`. -/
theorem run_eq_outcome {n : Nat} {p : Progress} (hp : Ended p.left) (hn : p.left.length ≤ n) :
    p.run n = some p.outcome := by
  induction n generalizing p with
  | zero =>
    obtain ⟨t, us, hcons⟩ := exists_cons_of_ended hp
    simp [hcons] at hn
  | succ n ih =>
    rw [run, outcome_step]
    cases hstep : p.step with
    | error d => rfl
    | ok next =>
      cases next with
      | inl s => rfl
      | inr p' =>
        have hgoes := step_goesOn hstep
        exact ih (hgoes.ended hp) (Nat.le_of_lt_succ (Nat.lt_of_lt_of_le hgoes.length_lt hn))

theorem run_start (hts : Ended ts) : (start ts).run ts.length = some (readStatements ts) := by
  have hrun : (start ts).run ts.length = some (start ts).outcome := run_eq_outcome hts (Nat.le_refl _)
  rw [hrun, outcome_start]

def extend (more : List Token) (p : Progress) : Progress := { p with left := p.left ++ more }

theorem sheetStep_extend (statements : List Statement) (hts : Ended ts) (more : List Token) :
    sheetStep statements (ts ++ more) = (sheetStep statements ts).map (Sum.map id (extend more)) := by
  obtain ⟨t, us, rfl⟩ := exists_cons_of_ended hts
  rw [List.cons_append, sheetStep, sheetStep, ← List.cons_append, lead?_extend hts]
  split
  · rfl
  · next heof =>
    have hus : Ended us := ended_tail hts heof
    rw [readDirective_extend t hus]
    split
    · rfl
    · cases lead? (t :: us) with
      | error d => rfl
      | ok found =>
        rcases found with _ | ⟨d | c | header, after⟩
        · simp only [Except.map, Option.map_none, ok_bind]
          split
          · cases readDirective t us <;> rfl
          · rfl
        · rfl
        · rfl
        · rfl

theorem blockStep_extend (statements : List Statement) (b : OpenBlock) (blocks : List OpenBlock) (hts : Ended ts)
    (more : List Token) : blockStep statements b blocks (ts ++ more) =
      (blockStep statements b blocks ts).map (Sum.map id (extend more)) := by
  obtain ⟨t, us, rfl⟩ := exists_cons_of_ended hts
  rw [List.cons_append, blockStep, blockStep, ← List.cons_append, lead?_extend hts, readDeclaration_extend hts]
  split
  · rfl
  · split
    · cases blocks <;> rfl
    · split
      · rfl
      · cases lead? (t :: us) with
        | error d => rfl
        | ok found =>
          rcases found with _ | ⟨d | c | header, after⟩
          · simp only [Except.map, Option.map_none, ok_bind]
            split
            · rfl
            · cases readDeclaration (t :: us) <;> rfl
          · rfl
          · rfl
          · rfl

theorem step_extend {p : Progress} (hp : Ended p.left) (more : List Token) :
    (p.extend more).step = p.step.map (Sum.map id (extend more)) := by
  obtain ⟨statements, blocks, left⟩ := p
  cases blocks with
  | nil => exact sheetStep_extend statements hp more
  | cons b blocks => exact blockStep_extend statements b blocks hp more

theorem run_extend {p : Progress} (hp : Ended p.left) (more : List Token) (n : Nat) :
    (p.extend more).run n = p.run n := by
  induction n generalizing p with
  | zero => rfl
  | succ n ih =>
    rw [run, run, step_extend hp]
    cases hstep : p.step with
    | error d => rfl
    | ok next =>
      cases next with
      | inl s => rfl
      | inr p' => exact ih ((step_goesOn hstep).ended hp)

end Progress

theorem Tokens.readStatements_extend {ts : List Token} (hts : Ended ts) (more : List Token) :
    readStatements (ts ++ more) = readStatements ts := by
  have hrun : (Progress.start (ts ++ more)).run ts.length = (Progress.start ts).run ts.length :=
    Progress.run_extend (p := Progress.start ts) hts more _
  rw [Progress.run_start hts] at hrun
  rw [← Progress.outcome_start (ts ++ more)]
  exact Progress.outcome_of_run hrun

/-- How the loops read a row: they return within as many iterations as there are tokens, each iteration takes a token if
it goes on, and none looks behind `eof`. -/
structure LoopsEnd (ts : List Token) : Prop where
  returns : (Braces.fault? ts).elim ((Progress.start ts).run ts.length) (fun d => some (.error d)) =
    some (Sheet.ofTokens ts)
  takes : ∀ p, (Progress.start ts).Reaches p → ∃ i, i ≤ eofIndex ts ∧ p.left = ts.drop i ∧
    ∀ p', p.step = .ok (.inr p') → ∃ j, i < j ∧ j ≤ eofIndex ts ∧ p'.left = ts.drop j
  within : ∀ p, (Progress.start ts).Reaches p → ∀ more,
    (p.extend more).step = p.step.map (Sum.map id (Progress.extend more))

theorem loopsEnd {ts : List Token} (hts : Ended ts) : LoopsEnd ts where
  returns := by
    rw [Progress.run_start hts, Sheet.ofTokens]
    cases Braces.fault? ts <;> rfl
  takes p hp := by
    have hvisits : Visits ts p.left := hp.visits
    obtain ⟨i, hi, hleft⟩ := exists_place hts hvisits.suffix (hvisits.ended hts)
    refine ⟨i, hi, hleft, fun p' hstep => ?_⟩
    have hgoes := Progress.step_goesOn hstep
    have hnext : Visits ts p'.left := hvisits.tail hgoes
    obtain ⟨j, hj, hleft'⟩ := exists_place hts hnext.suffix (hnext.ended hts)
    have hlen := hgoes.length_lt
    rw [hleft, hleft', List.length_drop, List.length_drop] at hlen
    exact ⟨j, by omega, hj, hleft'⟩
  within p hp := Progress.step_extend (hp.visits.ended hts)

/-- A row that ends with its only `eof` is read inside of its bounds: the loops come to an end, and so does each search
for what comes next, wherever it begins. -/
theorem Sheet.ofTokens_in_bounds {ts : List Token} (hts : Ended ts) :
    eofIndex ts + 1 = ts.length ∧ LoopsEnd ts ∧ ∀ i, i ≤ eofIndex ts → Lookaheads ts i :=
  ⟨eofIndex_succ hts, loopsEnd hts, fun _ => lookaheads hts⟩

/-- A mixin with two parameters, an at-rule in it, and a call. -/
theorem Sheet.ofTokens_in_bounds_mixin :
    let ts := Token.ofText ".m(@a; @b: 1) \x7b @media print \x7b c: @a \x7d \x7d d \x7b .m(2; 3) \x7d".toList
    Ended ts ∧ Signature.read? ts = some ⟨".m".toList, some (ts.extract 2 7), ts.drop 8⟩ ∧ eofIndex ts = 26 ∧
      LoopsEnd ts ∧ ∀ i, i ≤ eofIndex ts → Lookaheads ts i := by
  intro ts
  have hts : Ended ts := Token.ofText_ended _
  have hsignature : Signature.read? ts = some ⟨".m".toList, some (ts.extract 2 7), ts.drop 8⟩ := by decide +kernel
  obtain ⟨hlen, hloops, hlookaheads⟩ := ofTokens_in_bounds hts
  have hlength : ts.length = 27 := by decide +kernel
  exact ⟨hts, hsignature, by omega, hloops, hlookaheads⟩

end LessCss
