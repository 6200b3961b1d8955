import Unnest.Text.Blank
import Unnest.Text.Digit

namespace Unnest

-- Decimal integers longer than this are neither read nor written.
def maxNumeralDigits : Nat := 4300

def digitCount (n : Nat) : Nat :=
  (Nat.toDigits 10 n).length

namespace Text

def ofNat (n : Nat) : Text :=
  (Nat.toDigits 10 n).map CodePoint.char

def ofInt (i : Int) : Text :=
  if i < 0 then [.char '-'] ++ ofNat i.natAbs else ofNat i.natAbs

end Text

def natOfDigits (digits : List Nat) : Nat :=
  digits.foldl (fun n d => 10 * n + d) 0

-- An underscore may stand between two digits, and is then skipped; anywhere else it is refused.
def Text.ungroup? (t : Text) : Option Text :=
  go false t
where
  go (afterDigit : Bool) : Text → Option Text
    | [] => some []
    | [c] => if c = .char '_' then none else some [c]
    | c :: d :: rest =>
        if c = .char '_' then
          if afterDigit && d.digit?.isSome then go false (d :: rest) else none
        else (go c.digit?.isSome (d :: rest)).map (c :: ·)

-- The longest run of digits, and what follows it.
def spanDigits (digit? : CodePoint → Option Nat) : Text → List Nat × Text
  | [] => ([], [])
  | c :: rest =>
      match digit? c with
      | none => ([], c :: rest)
      | some d =>
          let (digits, rest) := spanDigits digit? rest
          (d :: digits, rest)

-- A sign is a plus or a minus; the flag says whether it is a minus.
def spanSign : Text → Bool × Text
  | .char '-' :: rest => (true, rest)
  | .char '+' :: rest => (false, rest)
  | t => (false, t)

-- The digits of a decimal number: those before the point, those after it, and a power of ten.
structure Numeral where
  negative : Bool
  whole : List Nat
  fraction : List Nat
  exponent : Int
  deriving Repr, DecidableEq

namespace Numeral

def mantissa (n : Numeral) : Nat :=
  natOfDigits (n.whole ++ n.fraction)

def scale (n : Numeral) : Int :=
  n.exponent - n.fraction.length

end Numeral

-- A signed run of digits of any script and nothing else, as digits.
def Text.integer? (t : Text) : Option (Bool × List Nat) :=
  match t.ungroup? with
  | none => none
  | some t =>
      let (negative, t) := spanSign t
      match spanDigits CodePoint.digit? t with
      | (d :: digits, []) => some (negative, d :: digits)
      | _ => none

-- A fraction may lack its digits before or after the point, but not both.
def Text.numeral? (t : Text) : Option Numeral :=
  match t.ungroup? with
  | none => none
  | some t =>
      let (negative, t) := spanSign t
      let (whole, t) := spanDigits CodePoint.digit? t
      let (fraction, t) :=
        match t with
        | .char '.' :: rest => spanDigits CodePoint.digit? rest
        | t => ([], t)
      if whole.isEmpty && fraction.isEmpty then none
      else
        match t with
        | [] => some ⟨negative, whole, fraction, 0⟩
        | e :: rest =>
            if e = .char 'e' ∨ e = .char 'E' then
              let (down, rest) := spanSign rest
              match spanDigits CodePoint.digit? rest with
              | (d :: digits, []) =>
                  let power : Int := natOfDigits (d :: digits)
                  some ⟨negative, whole, fraction, if down then -power else power⟩
              | _ => none
            else none

end Unnest
