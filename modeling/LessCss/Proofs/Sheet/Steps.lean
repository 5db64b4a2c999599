import LessCss.Sheet.Reader
/-!
What one step of the readers of blocks and sheets does, without the lengths that make them end.

A block and a sheet go on from one item to the next in the same way: `readBlock_step` and
`readStatements_step` are the two equations, and every statement about whole sheets rests on them.
-/
namespace LessCss

/-- An item before the items that follow it. -/
def consItem (i : Item) : List Item × List Token → List Item × List Token := fun p => (i :: p.1, p.2)

namespace Tokens

@[simp] theorem next_cons (t : Token) (ts : List Token) : next (t :: ts) = t := rfl

/-- One step of a block whose first token neither is a `;` nor ends it. -/
def readItem (t : Token) (ts : List Token) : Except Diagnostic (List Item × List Token) := do
  match ← lead? (t :: ts) with
  | some (.definition d, after) => (readBlock after).map (consItem (.definition d))
  | some (.call c, after) => (readBlock after).map (consItem (.call c))
  | some (.opened header, inside) =>
    let (body, after) ← readBlock inside
    (readBlock after).map (consItem (header.toItem body))
  | none =>
    if t.kind = .atKeyword then .error ((Fault.unexpectedInBlock t.text).blame t.position)
    else
      let (d, after) ← readDeclaration (t :: ts)
      (readBlock after).map (consItem (.declaration d))

theorem readBlock_nil : readBlock [] = .error ⟨.missingClose, none⟩ := by
  simp [readBlock, blockItems, bind, Except.bind]

theorem readBlock_step (t : Token) (ts : List Token) : readBlock (t :: ts) =
    if t.kind = .semicolon then readBlock ts
    else if t.kind = .rbrace then .ok ([], ts)
    else if t.kind = .eof then .error ⟨.missingClose, none⟩
    else readItem t ts := by
  unfold readBlock readItem
  rw [blockItems]
  split
  · cases blockItems ts <;> rfl
  · split
    · rfl
    · split
      · rfl
      · split
        · next h => simp [h, bind, Except.bind]
        · next d after h =>
          simp only [h, bind, Except.bind, readBlock]
          cases blockItems after <;> rfl
        · next c after h =>
          simp only [h, bind, Except.bind, readBlock]
          cases blockItems after <;> rfl
        · next header inside h =>
          simp only [h, bind, Except.bind, readBlock]
          cases blockItems inside with
          | error d => rfl
          | ok p =>
            obtain ⟨body, after, ha⟩ := p
            dsimp only
            cases blockItems after <;> rfl
        · next h =>
          by_cases hk : t.kind = .atKeyword
          · simp [h, hk, bind, Except.bind]
          · rw [if_neg hk, h]
            split
            · next hd => simp [hk, hd, bind, Except.bind]
            · next d after hd =>
              simp only [if_neg hk, hd, bind, Except.bind, readBlock]
              cases blockItems after <;> rfl

/-- One step of a sheet whose first token neither is a `;` nor ends it. -/
def readStatement (t : Token) (ts : List Token) : Except Diagnostic (List Statement) := do
  match ← lead? (t :: ts) with
  | some (.definition d, after) => (readStatements after).map (.definition d :: ·)
  | some (.call c, after) => (readStatements after).map (.call c :: ·)
  | some (.opened header, inside) =>
    let (body, after) ← readBlock inside
    (readStatements after).map (header.toStatement body :: ·)
  | none =>
    if t.kind = .atKeyword then
      let (d, after) ← readDirective t ts
      (readStatements after).map (.directive d :: ·)
    else .error (Fault.declarationOutsideRule.blame t.position)

theorem readStatements_nil : readStatements [] = .ok [] := by
  simp [readStatements]

theorem readStatements_step (t : Token) (ts : List Token) : readStatements (t :: ts) =
    if t.kind = .eof then .ok []
    else if t.kind = .semicolon then readStatements ts
    else readStatement t ts := by
  unfold readStatement
  rw [readStatements]
  split
  · rfl
  · split
    · rfl
    · split
      · next h => simp [h, bind, Except.bind]
      · next d after h =>
        simp only [h, bind, Except.bind]
        cases readStatements after <;> rfl
      · next c after h =>
        simp only [h, bind, Except.bind]
        cases readStatements after <;> rfl
      · next header inside h =>
        simp only [h, bind, Except.bind]
        split
        · next h => simp [h]
        · next body after h =>
          simp only [h]
          cases readStatements after <;> rfl
      · next h =>
        simp only [h, bind, Except.bind]
        split
        · split
          · next h => simp [h]
          · next d after h =>
            simp only [h]
            cases readStatements after <;> rfl
        · rfl

section Known

variable {t : Token} {ts after : List Token}

theorem readBlock_of_not_stop (ht : isStop t = false) : readBlock (t :: ts) = readItem t ts := by
  simp only [isStop, decide_eq_false_iff_not, not_or] at ht
  rw [readBlock_step, if_neg ht.2.1, if_neg ht.2.2.1, if_neg ht.2.2.2]

theorem readBlock_rbrace (ht : t.kind = .rbrace) : readBlock (t :: ts) = .ok ([], ts) := by
  rw [readBlock_step, if_neg (by simp [ht]), if_pos ht]

theorem readBlock_definition {d : Definition} (ht : isStop t = false)
    (hl : lead? (t :: ts) = .ok (some (.definition d, after))) :
    readBlock (t :: ts) = (readBlock after).map (consItem (.definition d)) := by
  rw [readBlock_of_not_stop ht, readItem, hl]
  rfl

theorem readBlock_call {c : Call} (ht : isStop t = false)
    (hl : lead? (t :: ts) = .ok (some (.call c, after))) :
    readBlock (t :: ts) = (readBlock after).map (consItem (.call c)) := by
  rw [readBlock_of_not_stop ht, readItem, hl]
  rfl

theorem readBlock_opened {h : Header} {inside : List Token} {body : List Item} (ht : isStop t = false)
    (hl : lead? (t :: ts) = .ok (some (.opened h, inside))) (hb : readBlock inside = .ok (body, after)) :
    readBlock (t :: ts) = (readBlock after).map (consItem (h.toItem body)) := by
  rw [readBlock_of_not_stop ht, readItem, hl]
  simp [hb, bind, Except.bind]

theorem readBlock_declaration {d : Declaration} (ht : isStop t = false) (hk : t.kind ≠ .atKeyword)
    (hl : lead? (t :: ts) = .ok none) (hd : readDeclaration (t :: ts) = .ok (d, after)) :
    readBlock (t :: ts) = (readBlock after).map (consItem (.declaration d)) := by
  rw [readBlock_of_not_stop ht, readItem, hl]
  simp [hk, hd, bind, Except.bind]

theorem readStatements_of_not_stop (ht : isStop t = false) :
    readStatements (t :: ts) = readStatement t ts := by
  simp only [isStop, decide_eq_false_iff_not, not_or] at ht
  rw [readStatements_step, if_neg ht.2.2.2, if_neg ht.2.1]

theorem readStatements_eof (ht : t.kind = .eof) : readStatements (t :: ts) = .ok [] := by
  rw [readStatements_step, if_pos ht]

theorem readStatements_definition {d : Definition} (ht : isStop t = false)
    (hl : lead? (t :: ts) = .ok (some (.definition d, after))) :
    readStatements (t :: ts) = (readStatements after).map (.definition d :: ·) := by
  rw [readStatements_of_not_stop ht, readStatement, hl]
  rfl

theorem readStatements_call {c : Call} (ht : isStop t = false)
    (hl : lead? (t :: ts) = .ok (some (.call c, after))) :
    readStatements (t :: ts) = (readStatements after).map (.call c :: ·) := by
  rw [readStatements_of_not_stop ht, readStatement, hl]
  rfl

theorem readStatements_opened {h : Header} {inside : List Token} {body : List Item} (ht : isStop t = false)
    (hl : lead? (t :: ts) = .ok (some (.opened h, inside))) (hb : readBlock inside = .ok (body, after)) :
    readStatements (t :: ts) = (readStatements after).map (h.toStatement body :: ·) := by
  rw [readStatements_of_not_stop ht, readStatement, hl]
  simp [hb, bind, Except.bind]

theorem readStatements_directive {d : Directive} (hk : t.kind = .atKeyword) (hl : lead? (t :: ts) = .ok none)
    (hd : readDirective t ts = .ok (d, after)) :
    readStatements (t :: ts) = (readStatements after).map (.directive d :: ·) := by
  rw [readStatements_of_not_stop (by simp [isStop, hk]), readStatement, hl]
  simp [hk, hd, bind, Except.bind]

end Known

end Tokens
end LessCss
