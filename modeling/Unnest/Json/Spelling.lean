import Unnest.Datum.Display

namespace Unnest

-- The infinities and the NaN have spellings that no reader of JSON accepts.
def Binary64.spelling : Binary64 → Text
  | .nan _ => "NaN"
  | .infinite negative => if negative then "-Infinity" else "Infinity"
  | x => x.text

def Number.spelling : Number → Except Failure Text
  | .int n => numeral n
  | .real x => .ok x.spelling

namespace Json

def logicalSpelling (b : Bool) : Text :=
  if b then "true" else "false"

-- A scalar as text: a string stands for itself, and the rest is spelled as in JSON.
def scalarText : Json → Except Failure (Option Text)
  | string t => .ok (some t)
  | logical b => .ok (some (logicalSpelling b))
  | number n => n.spelling.map some
  | _ => .ok none

-- Numbers that a string spells, blanks around it left aside. An integer that is too long to be
-- read as such is read as a double, and what is not finite is no number.
def readNumber (t : Text) : Option Number :=
  let t := t.trim
  let real? : Option Number :=
    (t.numeral?.map Binary64.ofNumeral).bind fun x => if x.isFinite then some (.real x) else none
  match t.integer? with
  | some (negative, digits) =>
      if digits.length ≤ maxNumeralDigits then
        let n : Int := natOfDigits digits
        some (.int (if negative then -n else n))
      else real?
  | none => real?

-- A scalar as a number: a logical is worth 0 or 1.
def scalarNumber : Json → Option Number
  | string t => readNumber t
  | logical b => some (.int b.toInt)
  | number n => some n
  | _ => none

-- The two words may be written in any case and with blanks around them.
def readLogical (t : Text) : Option Bool :=
  let word := t.trim.map CodePoint.toAsciiLower
  if word = logicalSpelling true then some true
  else if word = logicalSpelling false then some false
  else none

-- A scalar as a logical: every number but zero counts as true.
def scalarLogical : Json → Option Bool
  | string t => readLogical t
  | logical b => some b
  | number n => some !n.isZero
  | _ => none

end Json

end Unnest
