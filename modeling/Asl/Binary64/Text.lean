import Asl.Binary64.Shortest

/-!
# Numerals of numbers as text

A number is written with the digits of its shortest numeral in one of two layouts. A program and a
listing use the plain layout, which has no exponent and always a point with digits on both sides,
so that it is again a numeral of the language. A message uses the plain layout between `10 ^ -4`
and `10 ^ 16` and a leading digit with an exponent outside of that.
-/
namespace Asl

namespace Decimal

def trim (d : Decimal) : Decimal :=
  if h : d.digits ≠ 0 ∧ d.digits % 10 = 0 then trim ⟨d.digits / 10, d.exponent + 1⟩ else d
termination_by d.digits
decreasing_by omega

/-- The characters around the point: whole part and fraction, neither of them empty. -/
def parts (d : Decimal) : List Char × List Char :=
  let ds := Nat.toDigits 10 d.digits
  match d.exponent with
  | .ofNat e => (if d.digits = 0 then ds else ds ++ List.replicate e '0', ['0'])
  | .negSucc e =>
      let places := e + 1
      let padded := List.replicate (places + 1 - ds.length) '0' ++ ds
      (padded.take (padded.length - places), padded.drop (padded.length - places))

def plain (d : Decimal) : List Char := d.parts.1 ++ '.' :: d.parts.2

def leading (d : Decimal) : Int := (Nat.toDigits 10 d.digits).length - 1 + d.exponent

/-- The leading digit, a point before the further digits if there are any, and the exponent. -/
def scientific (d : Decimal) : List Char :=
  let mantissa := match Nat.toDigits 10 d.digits with
    | first :: second :: rest => first :: '.' :: second :: rest
    | ds => ds
  mantissa ++ 'e' :: (toString d.leading).toList

def ofParts (whole fraction : List Char) : Decimal :=
  ⟨Nat.ofDigitChars 10 (whole ++ fraction) 0, -(fraction.length : Int)⟩

end Decimal

namespace Binary64

def decimal (rank : Nat) : Decimal := (shortest rank).trim

def signed (negative : Bool) (cs : List Char) : String :=
  String.ofList (if negative then '-' :: cs else cs)

def text : Binary64 → String
  | .finite negative rank => signed negative (decimal rank).plain
  | .infinite negative => signed negative "inf.0".toList
  | .undefined => "NaN.0"

def message : Binary64 → String
  | .finite negative rank =>
      let d := decimal rank
      signed negative
        (if rank = 0 ∨ (-4 ≤ d.leading ∧ d.leading < 16) then d.plain else d.scientific)
  | .infinite negative => signed negative "inf".toList
  | .undefined => "NaN"

end Binary64

end Asl
