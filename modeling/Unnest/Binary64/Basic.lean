namespace Unnest

-- How many doubles there are from a power of two up to the next.
def binadeSize : Nat := Nat.pow 2 52

-- One more than the rank of the largest finite double.
def finiteRanks : Nat := 2047 * binadeSize

-- The non-negative finite doubles are counted upwards from zero: a double is given by its sign
-- and its rank, so that neighbours have neighbouring ranks. A NaN has a mark by which it is known
-- again, as it is equal to no number, not even to itself.
inductive Binary64 where
  | nan (mark : Nat)
  | infinite (negative : Bool)
  | finite (negative : Bool) (rank : Fin finiteRanks)
  deriving DecidableEq, Repr

namespace Binary64

-- Every finite double is a multiple of the least positive one, 2 ^ -1074. So many of these
-- units make one.
def unitsInOne : Nat := Nat.pow 2 1074

-- The value of a rank as a multiple of the least positive double.
def units (rank : Nat) : Nat :=
  if rank < binadeSize then rank
  else (binadeSize + rank % binadeSize) * Nat.pow 2 (rank / binadeSize - 1)

-- The rank nearest to a quotient of units; halfway, the even rank is taken.
def nearestRank (num den : Nat) : Nat :=
  let shift := (num / den).log2 - 52
  let step := Nat.pow 2 shift * den
  let lower := num / step
  let rank := shift * binadeSize + lower
  let rest := num - lower * step
  if step < 2 * rest ∨ (2 * rest = step ∧ rank % 2 = 1) then rank + 1 else rank

-- A rank past the largest finite double is infinity.
def ofRank (negative : Bool) (rank : Nat) : Binary64 :=
  if h : rank < finiteRanks then finite negative ⟨rank, h⟩ else infinite negative

def ofRatio (negative : Bool) (num den : Nat) : Binary64 :=
  ofRank negative (nearestRank (unitsInOne * num) den)

def zero : Binary64 := ofRank false 0

def one : Binary64 := ofRatio false 1 1

instance : Inhabited Binary64 := ⟨zero⟩

def bounded? : Binary64 → Option Binary64
  | infinite _ => none
  | x => some x

-- The integer is out of range when it rounds to infinity.
def ofInt? (n : Int) : Option Binary64 :=
  (ofRatio (n < 0) n.natAbs 1).bounded?

def isFinite : Binary64 → Bool
  | finite _ _ => true
  | _ => false

def isNaN : Binary64 → Bool
  | nan _ => true
  | _ => false

-- A magnitude with its sign.
def signed (negative : Bool) (n : Nat) : Int :=
  if negative then -(n : Int) else n

-- The integer that is left without what lies behind the point.
def truncate? : Binary64 → Option Int
  | finite negative rank => some (signed negative (units rank / unitsInOne))
  | _ => none

def neg : Binary64 → Binary64
  | nan mark => nan mark
  | infinite negative => infinite !negative
  | finite negative rank => finite (!negative) rank

-- A sum of opposites is the positive zero; only two negative zeros add up to a negative one.
def add : Binary64 → Binary64 → Binary64
  | nan mark, _ => nan mark
  | _, nan mark => nan mark
  | infinite a, infinite b => if a = b then infinite a else nan 0
  | infinite a, finite _ _ => infinite a
  | finite _ _, infinite b => infinite b
  | finite a r, finite b s =>
      let sum := signed a (units r) + signed b (units s)
      if sum = 0 then ofRank (a && b) 0 else ofRank (sum < 0) (nearestRank sum.natAbs 1)

def sub (x y : Binary64) : Binary64 :=
  add x y.neg

def mul : Binary64 → Binary64 → Binary64
  | nan mark, _ => nan mark
  | _, nan mark => nan mark
  | infinite a, infinite b => infinite (a != b)
  | infinite a, finite b s => if s.val = 0 then nan 0 else infinite (a != b)
  | finite a r, infinite b => if r.val = 0 then nan 0 else infinite (a != b)
  | finite a r, finite b s =>
      ofRank (a != b) (nearestRank (units r * units s) unitsInOne)

def div : Binary64 → Binary64 → Binary64
  | nan mark, _ => nan mark
  | _, nan mark => nan mark
  | infinite _, infinite _ => nan 0
  | infinite a, finite b _ => infinite (a != b)
  | finite a _, infinite b => ofRank (a != b) 0
  | finite a r, finite b s =>
      if s.val = 0 then if r.val = 0 then nan 0 else infinite (a != b)
      else ofRank (a != b) (nearestRank (unitsInOne * units r) (units s))

instance : Neg Binary64 := ⟨neg⟩
instance : Add Binary64 := ⟨add⟩
instance : Sub Binary64 := ⟨sub⟩
instance : Mul Binary64 := ⟨mul⟩
instance : Div Binary64 := ⟨div⟩

end Binary64

end Unnest
