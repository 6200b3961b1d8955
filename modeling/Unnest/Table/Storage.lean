import Unnest.Journal
import Unnest.Table.Basic

namespace Unnest

namespace Datum

-- Numbers of a machine format become plain ones.
def unboxed : Datum → Datum
  | machineInt n => int n
  | machineBool b => bool b
  | d => d

-- A missing cell can be marked by a NaN, or by an object that says so.
def isMissing : Datum → Bool
  | none => true
  | float x => x.isNaN
  | foreign (.complex re im) => re.isNaN || im.isNaN
  | foreign (.custom c) => c.missing = .given true
  | _ => false

def isLogical : Datum → Bool
  | bool _ => true
  | _ => false

def isInteger : Datum → Bool
  | int _ => true
  | _ => false

def isReal : Datum → Bool
  | float _ => true
  | _ => false

def isText : Datum → Bool
  | text _ => true
  | _ => false

def hasValue (d : Datum) (n : Int) : Bool :=
  d.number?.any (· == .int n)

end Datum

-- How pandas 3.1 stores the cells of a column that is declared with a type. Older versions differ
-- in places. Frames use `nullable`, `machine` and `Format`, and nothing else of this.
namespace Storage

-- What the elements of a list are laid out as, side by side: the narrowest kind that has room for
-- all of them. Loose elements keep kinds of their own.
inductive Layout where
  | logical
  | signed
  | unsigned
  | double
  | complex
  | text
  | loose
  deriving DecidableEq, Repr

namespace Layout

-- Bytes are laid out like texts.
def ofDatum : Datum → Layout
  | .bool _ => logical
  | .int n => if fitsSigned n then signed else if fitsUnsigned n then unsigned else loose
  | .float _ => double
  | .text _ | .foreign .bytes => text
  | .foreign (.complex _ _) => complex
  | _ => loose

-- Integers with and without a sign have only the doubles in common, and next to texts everything
-- is spelled.
def join : Layout → Layout → Layout
  | loose, _ | _, loose => loose
  | text, _ | _, text => text
  | complex, _ | _, complex => complex
  | double, _ | _, double => double
  | logical, k | k, logical => k
  | signed, signed => signed
  | unsigned, unsigned => unsigned
  | _, _ => double

def ofList : List Datum → Layout
  | [] => double
  | d :: ds => ds.foldl (fun layout d => layout.join (ofDatum d)) (ofDatum d)

end Layout

def readInteger (t : Text) : Except Failure Int :=
  match t.trimNumeral.integer? with
  | none => .error .malformed
  | some (negative, digits) =>
      if maxNumeralDigits < digits.length then .error .malformed
      else
        let n : Int := natOfDigits digits
        .ok (if negative then -n else n)

-- Besides numerals there are words for the infinities and for a NaN.
def readReal (t : Text) : Except Failure Binary64 :=
  let t := t.trimNumeral
  match t.numeral? with
  | some n => .ok (.ofNumeral n)
  | none =>
      let (negative, word) := spanSign t
      let word := word.map CodePoint.toAsciiLower
      if word = "inf" ∨ word = "infinity" then .ok (.infinite negative)
      else if word = "nan" then .ok (.nan 0)
      else .error .malformed

def signedOf (n : Int) : Except Failure Int :=
  if fitsSigned n then .ok n else .error .overflow

-- An element as an integer of 64 bits, without regard to what lies behind the point.
def truncated : Datum → Except Failure Int
  | .bool b => .ok b.toInt
  | .int n => signedOf n
  | .float x =>
      match x.truncate? with
      | some n => signedOf n
      | none => .error (if x.isNaN then .malformed else .overflow)
  | .text t => readInteger t >>= signedOf
  | .foreign .bytes => .error .malformed
  | _ => .error .mismatch

def realOf : Datum → Except Failure Binary64
  | .bool b => .ok (.ofRatio false b.toNat 1)
  | .int n =>
      match Binary64.ofInt? n with
      | some x => .ok x
      | none => .error .overflow
  | .float x => .ok x
  | .text t => readReal t
  | .foreign .bytes => .error .malformed
  | _ => .error .mismatch

-- Stores the cells that are present.
def present (store : Datum → Except Failure Datum) (cells : List Datum) :
    Except Failure (List Datum) :=
  cells.mapM fun d => if d.isMissing then .ok .none else store d

def truncatedCells (cells : List Datum) : Except Failure (List Datum) :=
  present (fun d => (truncated d).map .int) cells

-- Loose elements are read one by one. Unless they are all texts or all logicals, nothing may be
-- lost.
def looseIntegers (cells : List Datum) : Except Failure (List Datum) := do
  let stored ← truncatedCells cells
  let found := cells.filter fun d => !d.isMissing
  let exact := (cells.zip stored).all fun (d, s) =>
    match s with
    | .int n => d.hasValue n
    | _ => true
  if found.all Datum.isText || found.all Datum.isLogical || exact then .ok stored
  else .error .mismatch

-- The greatest of the doubles that are numbers, with the element that it comes from. Of several
-- the first is taken.
def greatest? : List (Datum × Binary64) → Option (Datum × Binary64)
  | [] => none
  | (d, x) :: rest =>
      match greatest? rest with
      | none => if x.isNaN then none else some (d, x)
      | some (e, y) =>
          if x.isNaN || (Number.real x).lt (.real y) then some (e, y) else some (d, x)

-- A double as an integer of the same value.
def exactInteger (x : Binary64) : Except Failure Datum :=
  match x.truncate? with
  | some n =>
      if fitsSigned n && Number.real x == .int n then .ok (.int n) else .error .mismatch
  | none => .error .mismatch

-- Integers that have been laid out as doubles. If the greatest shows that digits were lost on the
-- way, the elements themselves are taken.
def roundedIntegers (cells : List Datum) : Except Failure (List Datum) := do
  let reals ← cells.mapM realOf
  match greatest? (cells.zip reals) with
  | none => return cells.map fun _ => .none
  | some (d, x) =>
      match x.truncate? with
      | none => throw .overflow
      | some n =>
          let found := cells.filter fun d => !d.isMissing
          if d.hasValue n then
            reals.mapM fun x => if x.isNaN then .ok .none else exactInteger x
          else if found.any Datum.isReal && !found.any Datum.isLogical then looseIntegers cells
          else if found.length < cells.length then looseIntegers cells
          else truncatedCells cells

-- Where texts are laid out side by side, short ones are filled up with null characters, which
-- makes those at the end of a text disappear.
def unpadded : Datum → Datum
  | .text t => .text (t.reverse.dropWhile (· = .char '\x00')).reverse
  | d => d

def integers (cells : List Datum) : Except Failure (List Datum) :=
  match Layout.ofList cells with
  | .logical | .signed => truncatedCells cells
  | .unsigned => .error .mismatch
  | .double => roundedIntegers cells
  | .text =>
      cells.mapM fun d =>
        match d with
        | .text _ | .int _ => (truncated (unpadded d)).map .int
        | _ => .error .malformed
  | .complex => .error .mismatch
  | .loose => looseIntegers cells

def realCell (x : Binary64) : Datum :=
  if x.isNaN then .none else .float x

-- Next to texts everything but a number is spelled as no numeral.
def numbers (cells : List Datum) : Except Failure (List Datum) :=
  match Layout.ofList cells with
  | .text =>
      present (fun d =>
        match d with
        | .text _ | .int _ | .float _ => (realOf (unpadded d)).map realCell
        | _ => .error .malformed) cells
  | .complex => .error .mismatch
  | _ => present (fun d => (realOf d).map realCell) cells

def oneOrZero (d : Datum) : Except Failure Datum :=
  if d.hasValue 0 then .ok (.bool false)
  else if d.hasValue 1 then .ok (.bool true)
  else .error .mismatch

-- Logicals, or else numbers that are one or zero. Those that nest have no place.
def logicals (cells : List Datum) : Except Failure (List Datum) := do
  let shape := (Datum.list cells).shape
  let scalars := (Datum.scalarsOf cells).map Datum.unboxed
  let found := scalars.filter fun d => !d.isMissing
  let areLogical := found.all Datum.isLogical
  if shape.isEven && (areLogical || found.all fun d => d.isInteger || d.isReal) then
    if 1 < shape.sizes.length then throw .nested
    else if areLogical then present .ok scalars
    else
      let _ ← found.mapM realOf
      present oneOrZero scalars
  else throw .mismatch

-- Numbers have to stand side by side. Sequences of one shape could be laid out, but not here.
def flat (store : List Datum → Except Failure (List Datum)) (cells : List Datum) :
    Except Failure (List Datum) :=
  let shape := (Datum.list cells).shape
  if !shape.isEven then .error .malformed
  else if 1 < shape.sizes.length then .error .mismatch
  else store (cells.map Datum.unboxed)

-- Every cell as it is spelled. Bytes spell what they encode.
def texts (cells : List Datum) : Except Failure (List Datum) :=
  present (fun d =>
    match d with
    | .foreign .bytes => .ok (.text "\x7b\x7d")
    | d => d.plain.map .text) cells

-- Storage that has room for missing cells.
def nullable (type : ColumnType) (cells : List Datum) : Except Failure (List Datum) :=
  match type with
  | .string => texts (cells.map Datum.unboxed)
  | .number => flat numbers cells
  | .integer => flat integers cells
  | .logical => logicals cells

-- Integers of the machine have to be exact, and texts to spell them as they are written.
def machineIntegers (cells : List Datum) : Except Failure (List Datum) := do
  let stored ← cells.mapM truncated
  let spelled := cells.any Datum.isText
  let exact := (cells.zip stored).all fun (d, n) =>
    match d with
    | .text t => t = Text.ofInt n
    | .int _ => true
    | d => !spelled && d.hasValue n
  if exact then return stored.map .int else throw .malformed

-- Storage without room for missing cells, though doubles have their NaN.
def machine (type : ColumnType) (cells : List Datum) : Except Failure (List Datum) :=
  let cells := cells.map Datum.unboxed
  match type with
  | .string => texts cells
  | .number => present (fun d => (realOf d).map realCell) cells
  | .integer => machineIntegers cells
  | .logical => .ok (cells.map fun d => .bool d.isTrue)

-- Cells are kept loosely, as they are, or all of them as one type, with room for missing cells or
-- without.
inductive Format where
  | loose
  | machine (type : ColumnType)
  | nullable (type : ColumnType)
  deriving DecidableEq, Repr

namespace Format

def type? : Format → Option ColumnType
  | loose => none
  | machine type | nullable type => some type

end Format

end Storage

end Unnest
