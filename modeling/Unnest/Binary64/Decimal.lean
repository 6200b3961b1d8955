import Unnest.Binary64.Basic
import Unnest.Text.Numeral

namespace Unnest.Binary64

-- The double nearest to digits · 10 ^ scale. A number with more than 310 digits before the point
-- is past every double, and one below 10 ^ -330 is nearest to zero.
def ofDecimal (negative : Bool) (digits : Nat) (scale : Int) : Binary64 :=
  if digits = 0 then ofRank negative 0
  else
    let top := digitCount digits + scale
    if 310 < top then infinite negative
    else if top < -330 then ofRank negative 0
    else if 0 ≤ scale then ofRatio negative (digits * Nat.pow 10 scale.toNat) 1
    else ofRatio negative digits (Nat.pow 10 (-scale).toNat)

def ofNumeral (n : Numeral) : Binary64 :=
  ofDecimal n.negative n.mantissa n.scale

-- The exponent of the leading decimal digit of a positive rank. Scaled by 10 ^ 400 even the
-- least positive double has an integral part.
def leadingExponent (rank : Nat) : Int :=
  (digitCount (units rank * Nat.pow 10 400 / unitsInOne) : Int) - 401

-- The two points of the grid of multiples of 10 ^ scale around a rank, nearest first; halfway,
-- the even one comes first.
def gridPoints (rank : Nat) (scale : Int) : List Nat :=
  let num := if 0 ≤ scale then units rank else units rank * Nat.pow 10 (-scale).toNat
  let den := if 0 ≤ scale then unitsInOne * Nat.pow 10 scale.toNat else unitsInOne
  let lower := num / den
  let rest := num % den
  if 2 * rest < den ∨ (2 * rest = den ∧ lower % 2 = 0) then [lower, lower + 1]
  else [lower + 1, lower]

-- The fewest digits that read back as the rank, at most seventeen, and of those the nearest.
def shortest (rank : Nat) : Nat × Int :=
  let top := leadingExponent rank
  let candidate (count : Nat) : Option (Nat × Int) :=
    let scale := top - count
    ((gridPoints rank scale).find? fun digits =>
      ofDecimal false digits scale = ofRank false rank).map (·, scale)
  ((List.range 17).findSome? candidate).getD (units rank, 0)

-- Trailing zeros carry nothing, as the exponent of the first digit is kept apart.
def significant (digits : Nat) : Text :=
  ((Text.ofNat digits).reverse.dropWhile (· = .char '0')).reverse

-- Exponents from -4 to 15 are written out, with at least one digit on either side of the point;
-- other exponents follow an `e`, with a sign and at least two digits.
def layOut (digits : Text) (exponent : Int) : Text :=
  if 0 ≤ exponent ∧ exponent < 16 then
    let whole := exponent.toNat + 1
    let digits := digits ++ List.replicate (whole - digits.length) (.char '0')
    let fraction := digits.drop whole
    .concat [digits.take whole, ".", if fraction.isEmpty then "0" else fraction]
  else if -4 ≤ exponent ∧ exponent < 0 then
    .concat ["0.", List.replicate ((-exponent).toNat - 1) (.char '0'), digits]
  else
    let power := Text.ofNat exponent.natAbs
    .concat [digits.take 1, if digits.length ≤ 1 then [] else ".", digits.drop 1,
      if exponent < 0 then "e-" else "e+", List.replicate (2 - power.length) (.char '0'), power]

def sign (negative : Bool) : Text :=
  if negative then "-" else []

-- The text from which the same double is read.
def text : Binary64 → Text
  | nan _ => "nan"
  | infinite negative => .concat [sign negative, "inf"]
  | finite negative rank =>
      if rank.val = 0 then .concat [sign negative, "0.0"]
      else
        let (digits, scale) := shortest rank
        sign negative ++ layOut (significant digits) (digitCount digits + scale - 1)

-- The nearest integer to a quotient; halfway, the even one.
def roundQuotient (num den : Nat) : Nat :=
  let lower := num / den
  let rest := num % den
  if den < 2 * rest ∨ (2 * rest = den ∧ lower % 2 = 1) then lower + 1 else lower

-- A fixed number of places after the point, at least one, rounded half to even.
def fixed (places : Nat) : Binary64 → Text
  | nan _ => "nan"
  | infinite negative => .concat [sign negative, "inf"]
  | finite negative rank =>
      let digits := Text.ofNat (roundQuotient (units rank * Nat.pow 10 places) unitsInOne)
      let digits := List.replicate (places + 1 - digits.length) (.char '0') ++ digits
      .concat [sign negative, digits.take (digits.length - places), ".",
        digits.drop (digits.length - places)]

end Unnest.Binary64
