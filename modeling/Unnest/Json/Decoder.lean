import Unnest.Json.Basic
import Unnest.Headroom

namespace Unnest.Json.Decoder

inductive Problem where
  | value
  | trailingText
  | comma
  | colon
  | propertyName
  | unterminatedString
  | controlCharacter
  | escape
  | unicodeEscape
  | byteOrderMark
  deriving DecidableEq, Repr

-- Why reading stops. A problem lies at the first character of the text that is left.
inductive Stop where
  | problem (what : Problem) (rest : Text)
  | constant (name : Text)
  | longInteger (digits : Nat)
  | tooDeep
  deriving DecidableEq, Repr

def isBlank (c : CodePoint) : Bool :=
  c = .char ' ' || c = .char '\t' || c = .char '\n' || c = .char '\r'

def skip (s : Text) : Text :=
  s.dropWhile isBlank

-- A string is made of characters that stand for themselves and of escapes, which spell
-- sixteen bits each.
inductive Unit where
  | plain (c : CodePoint)
  | escaped (n : Nat)
  deriving DecidableEq, Repr

-- Two neighbouring escapes that form a surrogate pair spell one character.
def joinPairs : List Unit → Text
  | [] => []
  | .plain c :: us => c :: joinPairs us
  | .escaped hi :: .escaped lo :: us =>
      if 0xD800 ≤ hi ∧ hi < 0xDC00 ∧ 0xDC00 ≤ lo ∧ lo < 0xE000 then
        .ofCode (0x10000 + (hi - 0xD800) * 0x400 + (lo - 0xDC00)) :: joinPairs us
      else .ofCode hi :: joinPairs (.escaped lo :: us)
  | .escaped n :: us => .ofCode n :: joinPairs us

def hexUnit? (a b c d : CodePoint) : Option Nat := do
  return (((← a.hexDigit?) * 16 + (← b.hexDigit?)) * 16 + (← c.hexDigit?)) * 16 + (← d.hexDigit?)

def shortEscape? (c : CodePoint) : Option CodePoint :=
  [('"', '"'), ('\\', '\\'), ('/', '/'), ('b', '\x08'), ('f', '\x0c'), ('n', '\n'), ('r', '\r'),
    ('t', '\t')].findSome? fun (letter, meant) =>
      if c = .char letter then some (.char meant) else none

-- Reads a string after its opening quote. An unterminated string is a problem of the quote, and
-- a long escape has to be followed by something.
def scanUnits (opening : Text) : Text → Except Stop (List Unit × Text)
  | [] => .error (.problem .unterminatedString opening)
  | c :: rest =>
      if c = .char '"' then .ok ([], rest)
      else if c = .char '\\' then
        match rest with
        | [] => .error (.problem .unterminatedString opening)
        | e :: after =>
            if e = .char 'u' then
              match after with
              | h₁ :: h₂ :: h₃ :: h₄ :: after =>
                  match hexUnit? h₁ h₂ h₃ h₄, after.isEmpty with
                  | some n, false =>
                      (scanUnits opening after).map fun (us, s) => (.escaped n :: us, s)
                  | _, _ => .error (.problem .unicodeEscape rest)
              | _ => .error (.problem .unicodeEscape rest)
            else
              match shortEscape? e with
              | some meant => (scanUnits opening after).map fun (us, s) => (.plain meant :: us, s)
              | none => .error (.problem .escape (c :: rest))
      else if c.code < 0x20 then .error (.problem .controlCharacter (c :: rest))
      else (scanUnits opening rest).map fun (us, s) => (.plain c :: us, s)

def scanString (opening rest : Text) : Except Stop (Text × Text) :=
  (scanUnits opening rest).map fun (us, s) => (joinPairs us, s)

-- An integral part is a zero, or digits that start with another digit.
def scanWhole (s : Text) : Option (List Nat × Text) :=
  match s with
  | [] => none
  | c :: rest =>
      match c.asciiDigit? with
      | none => none
      | some 0 => some ([0], rest)
      | some _ => some (spanDigits CodePoint.asciiDigit? s)

-- A point counts only if a digit follows it.
def scanFraction (s : Text) : Option (List Nat) × Text :=
  match s with
  | .char '.' :: rest =>
      match spanDigits CodePoint.asciiDigit? rest with
      | ([], _) => (none, s)
      | (digits, rest) => (some digits, rest)
  | _ => (none, s)

-- An exponent mark counts only if digits follow it and its sign.
def scanExponent (s : Text) : Option Int × Text :=
  match s with
  | [] => (none, s)
  | e :: rest =>
      if e = .char 'e' ∨ e = .char 'E' then
        let (down, rest) := spanSign rest
        match spanDigits CodePoint.asciiDigit? rest with
        | ([], _) => (none, s)
        | (digits, rest) =>
            let power : Int := natOfDigits digits
            (some (if down then -power else power), rest)
      else (none, s)

-- Without fraction and exponent a number is an integer, and otherwise a double.
def scanNumber (s : Text) : Except Stop (Number × Text) :=
  let (negative, unsigned) :=
    match s with
    | .char '-' :: rest => (true, rest)
    | _ => (false, s)
  match scanWhole unsigned with
  | none => .error (.problem .value s)
  | some (whole, rest) =>
      let (fraction, rest) := scanFraction rest
      let (exponent, rest) := scanExponent rest
      match fraction, exponent with
      | none, none =>
          if maxNumeralDigits < whole.length then .error (.longInteger whole.length)
          else
            let n : Int := natOfDigits whole
            .ok (.int (if negative then -n else n), rest)
      | _, _ =>
          .ok (.real (.ofNumeral ⟨negative, whole, fraction.getD [], exponent.getD 0⟩), rest)

-- Constants that look like numbers but that JSON does not have.
def constants : List Text :=
  ["NaN", "Infinity", "-Infinity"]

def words : List (Text × Json) :=
  [("null", .null), ("true", .logical true), ("false", .logical false)]

def scanPlain (s : Text) : Except Stop (Json × Text) :=
  match words.findSome? fun (word, value) => (word.isPrefixOf? s).map (value, ·) with
  | some result => .ok result
  | none =>
      match constants.find? (·.isPrefixOf s) with
      | some name => .error (.constant name)
      | none => (scanNumber s).map fun (n, rest) => (.number n, rest)

-- The room inside of a list or an object whose opening bracket has been read.
def enter (room : Headroom) : Except Stop Headroom :=
  if room.Holds 1 then .ok (room.within 1) else .error .tooDeep

@[simp] theorem enter_none : enter none = .ok none := rfl

mutual

-- Each call passes less fuel on; running out of it is no case of its own, as `decode` gives more
-- than a text can use. Running out of room is one.
def scanValue : Nat → Headroom → Text → Except Stop (Json × Text)
  | 0, _, s => .error (.problem .value s)
  | _ + 1, _, [] => .error (.problem .value [])
  | fuel + 1, room, c :: rest =>
      if c = .char '"' then (scanString (c :: rest) rest).map fun (t, s) => (.string t, s)
      else if c = .char '[' then do
        let room ← enter room
        match skip rest with
        | .char ']' :: rest => .ok (.array [], rest)
        | rest => (scanElements fuel room rest).map fun (xs, s) => (.array xs, s)
      else if c = .char '\x7b' then do
        let room ← enter room
        match skip rest with
        | .char '\x7d' :: rest => .ok (.object [], rest)
        | rest => (scanEntries fuel room rest).map fun (es, s) => (.ofEntries es, s)
      else scanPlain (c :: rest)
  termination_by structural fuel => fuel

-- Elements up to the closing bracket; there is at least one.
def scanElements : Nat → Headroom → Text → Except Stop (List Json × Text)
  | 0, _, s => .error (.problem .value s)
  | fuel + 1, room, s => do
      let (x, rest) ← scanValue fuel room s
      match skip rest with
      | .char ']' :: rest => .ok ([x], rest)
      | .char ',' :: rest => (scanElements fuel room (skip rest)).map fun (xs, s) => (x :: xs, s)
      | rest => .error (.problem .comma rest)
  termination_by structural fuel => fuel

-- Entries up to the closing brace; there is at least one.
def scanEntries : Nat → Headroom → Text → Except Stop (List (Text × Json) × Text)
  | 0, _, s => .error (.problem .propertyName s)
  | _ + 1, _, [] => .error (.problem .propertyName [])
  | fuel + 1, room, c :: rest =>
      if c = .char '"' then do
        let (key, rest) ← scanString (c :: rest) rest
        match skip rest with
        | .char ':' :: rest =>
            let (x, rest) ← scanValue fuel room (skip rest)
            match skip rest with
            | .char '\x7d' :: rest => .ok ([(key, x)], rest)
            | .char ',' :: rest =>
                (scanEntries fuel room (skip rest)).map fun (es, s) => ((key, x) :: es, s)
            | rest => .error (.problem .comma rest)
        | rest => .error (.problem .colon rest)
      else .error (.problem .propertyName (c :: rest))
  termination_by structural fuel => fuel

end

-- Reads a document. Every list and every object takes one call inside of the one around it.
def decode (s : Text) (room : Headroom := none) : Except Stop Json :=
  if s.head? = some (.ofCode 0xFEFF) then .error (.problem .byteOrderMark s)
  else do
    let (value, rest) ← scanValue (2 * s.length + 2) room (skip s)
    match skip rest with
    | [] => .ok value
    | rest => .error (.problem .trailingText rest)

-- The line and the column at which the rest of a text begins, both counted from one.
def position (s rest : Text) : Nat × Nat :=
  let before := s.take (s.length - rest.length)
  let isBreak (c : CodePoint) : Bool := c = .char '\n'
  (before.countP isBreak + 1, (before.reverse.takeWhile (!isBreak ·)).length + 1)

end Unnest.Json.Decoder
