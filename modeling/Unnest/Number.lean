import Unnest.Binary64.Decimal

namespace Unnest

-- Integers are exact, however large; every other number is a double.
inductive Number where
  | int (n : Int)
  | real (x : Binary64)
  deriving Repr

-- The integers of 64 bits, with and without a sign.
def fitsSigned (n : Int) : Bool :=
  Int64.minValue.toInt ≤ n && n ≤ Int64.maxValue.toInt

def fitsUnsigned (n : Int) : Bool :=
  0 ≤ n && n < (UInt64.size : Int)

namespace Number

-- Both sides as multiples of the least positive double, so that no comparison rounds.
-- The infinities lie past every multiple, and a NaN compares with nothing.
inductive Level where
  | below
  | at (units : Int)
  | above
  deriving DecidableEq

def Level.ofReal? : Binary64 → Option Level
  | .nan _ => none
  | .infinite negative => some (if negative then .below else .above)
  | .finite negative rank =>
      let units : Int := Binary64.units rank
      some (.at (if negative then -units else units))

def level? : Number → Option Level
  | int n => some (.at (n * Binary64.unitsInOne))
  | real x => Level.ofReal? x

def Level.lt : Level → Level → Bool
  | below, below => false
  | below, _ => true
  | .at a, .at b => a < b
  | .at _, above => true
  | _, _ => false

-- Equality by value: 1 equals 1.0, and a NaN equals nothing.
def beq (a b : Number) : Bool :=
  match a.level?, b.level? with
  | some x, some y => x == y
  | _, _ => false

instance : BEq Number := ⟨beq⟩

-- Equal by value, or one and the same NaN.
def alike : Number → Number → Bool
  | real (.nan mark), real (.nan other) => mark == other
  | a, b => a == b

def lt (a b : Number) : Bool :=
  match a.level?, b.level? with
  | some x, some y => x.lt y
  | _, _ => false

-- The second number is taken only if it is greater.
def max (a b : Number) : Number :=
  if a.lt b then b else a

def isZero (a : Number) : Bool :=
  a == int 0

-- The nearest double, unless the integer is past every double.
def toReal? : Number → Option Binary64
  | int n => Binary64.ofInt? n
  | real x => some x

end Number

end Unnest
