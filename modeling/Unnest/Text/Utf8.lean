import Unnest.Text.Basic

namespace Unnest

namespace Utf8

-- A byte that is part of no character stands in a text as a surrogate.
def ofStray (b : UInt8) : CodePoint :=
  .ofCode (0xDC00 + b.toNat)

def stray? (c : CodePoint) : Option UInt8 :=
  if 0xDC80 ≤ c.code ∧ c.code ≤ 0xDCFF then some (c.code - 0xDC00).toUInt8 else none

-- A surrogate that stands for no byte has no encoding.
def encodeCodePoint? : CodePoint → Option (List UInt8)
  | .char c => some (String.utf8EncodeChar c)
  | c => (stray? c).map ([·])

def encode? (t : Text) : Option (List UInt8) :=
  (t.mapM encodeCodePoint?).map List.flatten

-- A character that has been read in part: its bytes so far and the number that they spell, how many
-- bytes are to follow, and between which bounds the next of them has to lie.
structure Pending where
  bytes : List UInt8
  code : Nat
  count : Nat
  least : UInt8 := 0x80
  greatest : UInt8 := 0xBF

-- What a first byte begins. The bounds rule out what a shorter sequence could spell, surrogates,
-- and everything past the last code point.
def start? (b : UInt8) : Option Pending :=
  if b < 0x80 then some { bytes := [b], code := b.toNat, count := 0 }
  else if b < 0xC2 then none
  else if b < 0xE0 then some { bytes := [b], code := b.toNat - 0xC0, count := 1 }
  else if b < 0xF0 then
    some { bytes := [b], code := b.toNat - 0xE0, count := 2,
           least := if b = 0xE0 then 0xA0 else 0x80,
           greatest := if b = 0xED then 0x9F else 0xBF }
  else if b < 0xF5 then
    some { bytes := [b], code := b.toNat - 0xF0, count := 3,
           least := if b = 0xF0 then 0x90 else 0x80,
           greatest := if b = 0xF4 then 0x8F else 0xBF }
  else none

def Pending.next? (p : Pending) (b : UInt8) : Option Pending :=
  if p.least ≤ b ∧ b ≤ p.greatest then
    some { bytes := p.bytes ++ [b], code := 64 * p.code + (b.toNat - 0x80), count := p.count - 1 }
  else none

-- Where a character is over, the next one is awaited.
def Pending.settle (p : Pending) : Text × Option Pending :=
  if p.count = 0 then ([.ofCode p.code], none) else ([], some p)

-- What begins a character and does not end it is repaired as a whole, and a byte that begins none
-- by itself.
def first (repair : List UInt8 → Text) (b : UInt8) : Text × Option Pending :=
  match start? b with
  | some p => p.settle
  | none => (repair [b], none)

def read (repair : List UInt8 → Text) : Option Pending → UInt8 → Text × Option Pending
  | none, b => first repair b
  | some p, b =>
      match p.next? b with
      | some p => p.settle
      | none =>
          let (text, pending) := first repair b
          (repair p.bytes ++ text, pending)

-- The rest of a text of which a character may have been read in part.
def decodeFrom (repair : List UInt8 → Text) (pending : Option Pending) : List UInt8 → Text
  | [] => (pending.map fun p => repair p.bytes).getD []
  | b :: rest =>
      let (text, pending) := read repair pending b
      text ++ decodeFrom repair pending rest

def decode (repair : List UInt8 → Text) (bytes : List UInt8) : Text :=
  decodeFrom repair none bytes

-- Bytes that are part of no character are kept.
def keep (bytes : List UInt8) : Text :=
  bytes.map ofStray

-- A mark takes their place.
def replace (_ : List UInt8) : Text :=
  [.ofCode 0xFFFD]

end Utf8

end Unnest
