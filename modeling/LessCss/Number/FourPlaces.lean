import LessCss.Text
/-!
The text of a double with at most four decimal places.

The magnitude of a finite double is a whole number of units of 2 ^ -1075. It is rounded to the nearest
ten-thousandth, a tie going to the even neighbour, and zeros at the end of the fraction are dropped.
-/
namespace LessCss.FourPlaces

structure Fields where
  negative : Bool
  exponent : Nat
  fraction : Nat
deriving DecidableEq, Repr

def fields (v : Float) : Fields :=
  let bits := v.toBits.toNat
  ⟨bits >>> 63 = 1, bits >>> 52 % 1 <<< 11, bits % 1 <<< 52⟩

namespace Fields

def isFinite (f : Fields) : Bool := f.exponent ≠ 2047

/-- The magnitude in units of 2 ^ -1075. Only a subnormal double lacks the leading bit. -/
def magnitude (f : Fields) : Nat :=
  if f.exponent = 0 then f.fraction * 2 else (f.fraction + 1 <<< 52) <<< f.exponent

/-- The double nearest to a thousand-millionth. A magnitude below it loses its sign. -/
def leastSigned : Fields := ⟨false, 993, 0x12E0BE826D695⟩

def isNegligible (f : Fields) : Bool := f.magnitude < leastSigned.magnitude

end Fields

/-- The quotient rounded to the nearest whole number, a tie to the even one. -/
def roundDiv (n d : Nat) : Nat :=
  let q := n / d
  let r := n % d
  if 2 * r < d then q else if d < 2 * r then q + 1 else if q % 2 = 0 then q else q + 1

def tenThousandths (f : Fields) : Nat := roundDiv (f.magnitude * 10000) (1 <<< 1075)

def digits (n : Nat) : Text := Nat.toDigits 10 n

/-- The four digits of a number of ten-thousandths below one, without zeros at the end. -/
def fractionDigits (n : Nat) : Text :=
  let ds := digits n
  ((List.replicate (4 - ds.length) '0' ++ ds).reverse.dropWhile (· = '0')).reverse

def decimal (n : Nat) : Text :=
  let fraction := fractionDigits (n % 10000)
  digits (n / 10000) ++ if fraction.isEmpty then [] else '.' :: fraction

/-- The text of a double. A negative double keeps its sign even when it rounds to zero, unless it is
negligible. -/
def render (v : Float) : Text :=
  let f := fields v
  if f.isFinite then
    (if f.negative && !f.isNegligible then ['-'] else []) ++ decimal (tenThousandths f)
  else if f.fraction ≠ 0 then "NaN".toList
  else if f.negative then "-inf".toList else "inf".toList

end LessCss.FourPlaces
