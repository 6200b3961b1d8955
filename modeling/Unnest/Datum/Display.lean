import Unnest.Failure

namespace Unnest

-- The decimal digits of an integer, unless there are too many.
def numeral (n : Int) : Except Failure Text :=
  if maxNumeralDigits < digitCount n.natAbs then .error (.longNumeral none) else .ok (.ofInt n)

namespace Kind

def member : Kind → Text
  | object => "OBJECT"
  | array => "ARRAY"
  | string => "STRING"
  | number => "NUMBER"
  | logical => "LOGICAL"
  | null => "NULL"

def quoted (k : Kind) : Text :=
  .concat ["<JsonType.", k.member, ": ", k.name.quoted, ">"]

end Kind

def Step.quoted : Step → Except Failure Text
  | .key k => .ok k.quoted
  | .index i => numeral i

-- The words for the two logicals outside JSON.
def logicalWord (b : Bool) : Text :=
  if b then "True" else "False"

def Descriptor.quoted (d : Descriptor) : Except Failure Text := do
  let steps ← d.path.mapM Step.quoted
  return .concat ["PathDescriptor(kind=", d.kind.kind.quoted, ", path=", tupleOf steps, ")"]

-- A part of a complex number. Nothing follows the digits of a whole one.
def partText (x : Binary64) : Text :=
  let t := x.text
  if t.drop (t.length - 2) = ".0" then t.take (t.length - 2) else t

-- Without a real part, the imaginary one stands alone.
def complexText (re im : Binary64) : Text :=
  if re = .zero then .concat [partText im, "j"]
  else
    let sign : Text := if (partText im).head? = some (.char '-') then [] else "+"
    .concat ["(", partText re, sign, partText im, "j)"]

def Foreign.quoted : Foreign → Text
  | bytes => "b'\x7b\x7d'"
  | bytearray => "bytearray(b'\x7b\x7d')"
  | set => "set()"
  | object => "<object object>"
  | complex re im => complexText re im
  | custom c => c.shown

namespace Datum

mutual

-- The spelling of a datum in messages. There is room for as many nested calls as there are levels:
-- `Failure.overflow` is left out.
def quoted : Datum → Except Failure Text
  | none => .ok "None"
  | bool b => .ok (logicalWord b)
  | int n => numeral n
  | float x => .ok x.text
  | text t => .ok t.quoted
  | list xs => (quotedAll xs).map listOf
  | tuple xs => (quotedAll xs).map tupleOf
  | dict es => (quotedEntries es).map fun items =>
      .concat ["\x7b", .join ", " items, "\x7d"]
  | kind k => .ok k.quoted
  | descriptor d => d.quoted
  | machineInt n => (numeral n).map fun digits => .concat ["np.int64(", digits, ")"]
  | machineBool b => .ok (.concat ["np.", logicalWord b, "_"])
  | foreign f => .ok f.quoted
  termination_by structural d => d

def quotedAll : List Datum → Except Failure (List Text)
  | [] => .ok []
  | x :: xs => do
      let item ← x.quoted
      return item :: (← quotedAll xs)
  termination_by structural xs => xs

def quotedEntries : List (Datum × Datum) → Except Failure (List Text)
  | [] => .ok []
  | (k, x) :: es => do
      let key ← k.quoted
      let item ← x.quoted
      return .concat [key, ": ", item] :: (← quotedEntries es)
  termination_by structural es => es

end

-- Text stands for itself where a datum is part of a sentence.
def plain : Datum → Except Failure Text
  | text t => .ok t
  | kind k => .ok (.concat ["JsonType.", k.member])
  | machineInt n => numeral n
  | machineBool b => .ok (logicalWord b)
  | d => d.quoted

end Datum

end Unnest
