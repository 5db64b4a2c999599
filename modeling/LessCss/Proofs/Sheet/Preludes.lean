import Mathlib.Control.Monad.Basic
import LessCss.Compile
import LessCss.Proofs.Sheet.Grammar
import LessCss.Proofs.Outcome
/-!
At-rules with a block, whatever stands before the `{`.

An at-keyword begins a definition, a directive or an at-rule. `lead?` looks at the next token first, so a prelude that
does not begin with a colon can hold anything else: parentheses, colons, hashes, dots, even an at-keyword. What follows
the `{` is left to the reader of blocks, and the at-rule is there as soon as that reader accepts it.
-/
namespace LessCss.Written

open Tokens

/-- An at-keyword, a prelude and a block are read as the at-rule that has the name of the keyword, the prelude as its
params and the items of the block, in a sheet as well as in a block. Reading goes on behind the `}`. -/
theorem atRule_read (name : Mark .atKeyword) (prelude : Params) (lbrace : Mark .lbrace) {inside rest : List Token}
    {body : List LessCss.Item} (hbody : readBlock inside = .ok (body, rest)) :
    let row := name.1 :: (prelude.tokens ++ lbrace.1 :: inside)
    readBlock row =
        (readBlock rest).map (consItem (.atRule name.1.name (Token.join prelude.tokens) body)) ∧
      readStatements row =
        (readStatements rest).map (.atRule name.1.name (Token.join prelude.tokens) body :: ·) ∧
      (Braces.fault? row = none → LessCss.Sheet.ofTokens row =
        (readStatements rest).map (.atRule name.1.name (Token.join prelude.tokens) body :: ·)) := by
  intro row
  have hname : isStop name.1 = false := by simp [isStop, name.2]
  have hlead : lead? row = .ok (some (.opened (.atRule name.1.name (Token.join prelude.tokens)), inside)) :=
    (Header.atRule name prelude).lead lbrace inside
  have hsheet := readStatements_opened hname hlead hbody
  refine ⟨readBlock_opened hname hlead hbody, hsheet, fun hbraces => ?_⟩
  rw [LessCss.Sheet.ofTokens, hbraces]
  exact hsheet

/-- The prelude of `@x .a:b (@c, d) \x7b e: f; \x7d` holds what would begin a mixin, a declaration and a definition. -/
theorem atRule_read_mixed :
    let row := Token.ofText "@x .a:b (@c, d) \x7b e: f; \x7d".toList
    ∃ body, readStatements row = .ok [.atRule "x".toList ".a:b (@c, d)".toList body] ∧
      LessCss.Sheet.ofTokens row = .ok [.atRule "x".toList ".a:b (@c, d)".toList body] := by
  intro row
  let name : Mark .atKeyword := ⟨next row, by decide +kernel⟩
  let prelude : Params := ⟨(row.drop 1).take 9, by decide +kernel, by decide +kernel⟩
  let lbrace : Mark .lbrace := ⟨next (row.drop 10), by decide +kernel⟩
  have hrow : row = name.1 :: (prelude.tokens ++ lbrace.1 :: row.drop 11) := by decide +kernel
  have hrest : (readBlock (row.drop 11)).map (·.2) = .ok (row.drop 16) := by decide +kernel
  have hend : row.drop 16 = [⟨.eof, [], ⟨1, 26⟩, false⟩] := by decide +kernel
  have hname : name.1.name = "x".toList := by decide +kernel
  have hprelude : Token.join prelude.tokens = ".a:b (@c, d)".toList := by decide +kernel
  have hbraces : Braces.fault? row = none := by decide +kernel
  obtain ⟨⟨body, rest⟩, hbody, hafter⟩ := map_eq_ok hrest
  obtain rfl : rest = row.drop 16 := hafter
  have hread := atRule_read name prelude lbrace hbody
  rw [hend, readStatements_eof rfl, ← hrow, hname, hprelude] at hread
  exact ⟨body, hread.2.1, hread.2.2 hbraces⟩

/-- A prelude that begins with a colon makes a definition of it, which holds no block. -/
theorem atRule_colon :
    (¬∀ (name : Mark .atKeyword) (prelude : List Token) (lbrace : Mark .lbrace) (inside rest : List Token)
      (body : List LessCss.Item), (∀ t ∈ prelude, inValue t = true) → readBlock inside = .ok (body, rest) →
      readBlock (name.1 :: (prelude ++ lbrace.1 :: inside)) =
        (readBlock rest).map (consItem (.atRule name.1.name (Token.join prelude) body))) ∧
      (parse "a \x7b @x: \x7b \x7d \x7d".toList).map (fun _ => ()) =
        .error ((Fault.invalidVariable "x".toList).blame ⟨1, 9⟩) := by
  refine ⟨fun h => ?_, by decide +kernel⟩
  let inside := (Token.ofText "a \x7b @x: \x7b \x7d \x7d".toList).drop 5
  have hinside : (readBlock inside).map (·.2) = .ok (inside.drop 1) := by decide +kernel
  have hrest : (readBlock (inside.drop 1)).map (·.2) = .ok (inside.drop 2) := by decide +kernel
  obtain ⟨⟨body, rest⟩, hbody, hafter⟩ := map_eq_ok hinside
  obtain rfl : rest = inside.drop 1 := hafter
  have hat := h ⟨⟨.atKeyword, "@x".toList, ⟨1, 5⟩, true⟩, rfl⟩ [⟨.colon, [':'], ⟨1, 7⟩, false⟩]
    ⟨⟨.lbrace, ['{'], ⟨1, 9⟩, true⟩, rfl⟩ inside _ body (by decide) hbody
  have hrefused : (readBlock (⟨.atKeyword, "@x".toList, ⟨1, 5⟩, true⟩ :: ([⟨.colon, [':'], ⟨1, 7⟩, false⟩] ++
    ⟨.lbrace, ['{'], ⟨1, 9⟩, true⟩ :: inside))).toOption.isSome = false := by decide +kernel
  obtain ⟨p, hp, -⟩ := map_eq_ok hrest
  rw [hat, hp] at hrefused
  exact nomatch hrefused

end LessCss.Written
