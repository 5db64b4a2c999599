/-!
Text as a list of characters, the form in which every reader and printer of this library handles it.

`isBlank` is the property White_Space. `trim` takes it off both ends, and `collapse` leaves at most one
space between two words.
-/
namespace LessCss

abbrev Text := List Char

namespace Text

/-- The characters with the property White_Space. -/
def isBlank (c : Char) : Bool :=
  let n := c.toNat
  (9 ≤ n && n ≤ 13) || n == 32 || n == 0x85 || n == 0xA0 || n == 0x1680 || (0x2000 ≤ n && n ≤ 0x200A) ||
    n == 0x2028 || n == 0x2029 || n == 0x202F || n == 0x205F || n == 0x3000

def trimStart (t : Text) : Text := t.dropWhile isBlank

def trimEnd (t : Text) : Text := (t.reverse.dropWhile isBlank).reverse

def trim (t : Text) : Text := trimEnd (trimStart t)

/-- Every run of blanks becomes one space. The flag says that the character before was blank. -/
def squeeze : Bool → Text → Text
  | _, [] => []
  | afterBlank, c :: cs =>
    if isBlank c then
      if afterBlank then squeeze true cs else ' ' :: squeeze true cs
    else c :: squeeze false cs

/-- The words of a text with one space between neighbours. -/
def collapse (t : Text) : Text := trim (squeeze false t)

/-- The parts in order, with `glue` between neighbours. -/
def join (glue : Text) (parts : List Text) : Text := List.intercalate glue parts

def substitute (old : Char) (new : Text) (t : Text) : Text :=
  t.flatMap fun c => if c = old then new else [c]

/-- The first character, if it is in the class. -/
def headIf (p : Char → Bool) : Text → Text
  | [] => []
  | c :: _ => if p c then [c] else []

def tailIf (p : Char → Bool) : Text → Text
  | [] => []
  | c :: cs => if p c then cs else c :: cs

@[simp] theorem headIf_append_tailIf (p : Char → Bool) (t : Text) : headIf p t ++ tailIf p t = t := by
  cases t with
  | nil => rfl
  | cons c cs => by_cases h : p c <;> simp [headIf, tailIf, h]

def sameLetters (a b : Text) : Bool := a.map Char.toLower = b.map Char.toLower

end Text
end LessCss
