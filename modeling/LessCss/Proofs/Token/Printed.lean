import LessCss.Proofs.Token.Spell
import LessCss.Compile
/-!
Texts that are read as given tokens, whatever boundary follows them, and the lines that printed sheets are made of.

`ReadAs text tokens` is said of a part of a line. A line that opens a block is read as the tokens of its text and
a brace (`spell_open`).
-/
namespace LessCss

open Token (spell)
open Lexeme (mayBeSign)

/-- A token without a place. -/
def token (kind : Token.Kind) (s : Bool) (text : Text) : Token := ⟨kind, text, .start, s⟩

/-- A text is read as tokens, where a minus in front would be a sign and a boundary follows. -/
def ReadAs (text : Text) (tokens : Bool → List Token) : Prop :=
  ∀ (b : Option Token.Kind) (s : Bool) (r : Text), mayBeSign b s = true → Bounded r →
    ∃ b', spell b s (text ++ r) = tokens s ++ spell b' false r

/-- The marks of punctuation that sheets are printed with, and the kinds of their tokens. -/
inductive Mark : Char → Token.Kind → Prop
  | lbrace : Mark '{' .lbrace
  | rbrace : Mark '}' .rbrace
  | semicolon : Mark ';' .semicolon
  | colon : Mark ':' .colon
  | comma : Mark ',' .comma
  | bang : Mark '!' .delim

theorem Mark.bounded {c : Char} {kind : Token.Kind} (h : Mark c kind) (r : Text) : Bounded (c :: r) := by
  cases h <;> exact .cons (by decide) r

theorem spell_mark {c : Char} {kind : Token.Kind} (h : Mark c kind) (b : Option Token.Kind) (s : Bool) (r : Text) :
    spell b s (c :: r) = token kind s [c] :: spell (some kind) false r := by
  have hread : Lexeme.read b s c r = ⟨kind, [c], r⟩ := by
    cases h <;> simp [Lexeme.read, Lexeme.startsNumeral, isNameStart, Lexeme.singleKind]
  have hnext : GapState.outside.next? c r = none := by
    cases h <;> simp [GapState.next?, Text.isBlank]
  rw [Token.spell_lexeme hnext, hread]
  rfl

/-- A space, or nothing at all. -/
def space (gap : Bool) : Text := if gap then [' '] else []

theorem spell_space (b : Option Token.Kind) (gap : Bool) (r : Text) : spell b false (space gap ++ r) = spell b gap r := by
  cases gap with
  | false => rfl
  | true => exact Token.spell_blank (by rfl)

theorem Bounded.space {r : Text} (h : Bounded r) (gap : Bool) : Bounded (space gap ++ r) := by
  cases gap with
  | false => exact h
  | true => exact Bounded.cons (by decide) r

theorem spell_blanks {b : Option Token.Kind} {s : Bool} (n : Nat) (r : Text) :
    spell b s (List.replicate n ' ' ++ r) = spell b (s || decide (0 < n)) r := by
  induction n generalizing s with
  | zero => simp
  | succ n ih =>
    rw [List.replicate_succ, List.cons_append, Token.spell_blank (by rfl), ih]
    simp

/-- Two texts with a space between them. -/
theorem ReadAs.spaced {text text' : Text} {tokens tokens' : Bool → List Token} (h : ReadAs text tokens)
    (h' : ReadAs text' tokens') : ReadAs (text ++ ' ' :: text') fun s => tokens s ++ tokens' true := by
  intro b s r hb hr
  obtain ⟨b₁, h₁⟩ := h b s (' ' :: (text' ++ r)) hb (Bounded.cons (by decide) _)
  obtain ⟨b₂, h₂⟩ := h' b₁ true r rfl hr
  refine ⟨b₂, ?_⟩
  rw [List.append_assoc, List.cons_append, h₁, Token.spell_blank (by rfl), h₂, List.append_assoc]

theorem spell_indent (b : Option Token.Kind) (s : Bool) (level : Nat) (r : Text) :
    spell b s (Css.indent level ++ r) = spell b (s || decide (0 < level)) r := by
  rw [Css.indent, spell_blanks]
  congr 2
  simp

theorem spell_close (level : Nat) (b : Option Token.Kind) (r : Text) :
    spell b true (Css.line level ['}'] ++ r) = token .rbrace true ['}'] :: spell (some .rbrace) true r := by
  have htext : Css.line level ['}'] ++ r = Css.indent level ++ '}' :: '\n' :: r := by simp [Css.line]
  rw [htext, spell_indent, Bool.true_or, spell_mark .rbrace, Token.spell_blank (by rfl)]

theorem spell_open {text : Text} {tokens : Bool → List Token} (h : ReadAs text tokens) (level : Nat)
    {b : Option Token.Kind} {s : Bool} (hb : mayBeSign b s = true) (r : Text) :
    spell b s (Css.line level (text ++ " \x7b".toList) ++ r) =
      tokens (s || decide (0 < level)) ++ token .lbrace true ['{'] :: spell (some .lbrace) true r := by
  have htext : Css.line level (text ++ " \x7b".toList) ++ r = Css.indent level ++ (text ++ ' ' :: '{' :: '\n' :: r) := by
    simp [Css.line]
  have hsign : mayBeSign b (s || decide (0 < level)) = true := by
    cases decide (0 < level) <;> simp_all [mayBeSign]
  obtain ⟨b', h'⟩ := h b (s || decide (0 < level)) (' ' :: '{' :: '\n' :: r) hsign (Bounded.cons (by decide) _)
  rw [htext, spell_indent, h', Token.spell_blank (by rfl), spell_mark .lbrace, Token.spell_blank (by rfl)]

end LessCss
