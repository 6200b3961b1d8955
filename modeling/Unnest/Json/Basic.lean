import Unnest.Entries
import Unnest.Number

namespace Unnest

inductive Kind where
  | object
  | array
  | string
  | number
  | logical
  | null
  deriving DecidableEq, Repr

namespace Kind

def all : List Kind :=
  [object, array, string, number, logical, null]

def name : Kind → Text
  | object => "object"
  | array => "array"
  | string => "string"
  | number => "number"
  | logical => "logical"
  | null => "null"

def ofName? (t : Text) : Option Kind :=
  all.find? (·.name = t)

-- A null is not counted among the scalars.
def isScalar : Kind → Bool
  | string | number | logical => true
  | _ => false

end Kind

-- The entries of an object keep their order, and a well-formed object has no key twice.
inductive Json where
  | null
  | logical (b : Bool)
  | number (n : Number)
  | string (t : Text)
  | array (elements : List Json)
  | object (entries : List (Text × Json))

namespace Json

instance : Inhabited Json := ⟨null⟩

def kind : Json → Kind
  | null => .null
  | logical _ => .logical
  | number _ => .number
  | string _ => .string
  | array _ => .array
  | object _ => .object

def elements : Json → List Json
  | array xs => xs
  | _ => []

def entries : Json → List (Text × Json)
  | object es => es
  | _ => []

def keys (j : Json) : List Text :=
  j.entries.map Prod.fst

-- Containers count their entries; a scalar, and a null too, has length one.
def length : Json → Nat
  | array xs => xs.length
  | object es => es.length
  | _ => 1

mutual

-- How many strings, numbers and logicals lie at or below a value.
def leafCount : Json → Nat
  | null => 0
  | logical _ => 1
  | number _ => 1
  | string _ => 1
  | array xs => leafCountElements xs
  | object es => leafCountEntries es
  termination_by structural j => j

def leafCountElements : List Json → Nat
  | [] => 0
  | x :: xs => x.leafCount + leafCountElements xs
  termination_by structural xs => xs

def leafCountEntries : List (Text × Json) → Nat
  | [] => 0
  | (_, x) :: es => x.leafCount + leafCountEntries es
  termination_by structural es => es

end

mutual

-- The number of steps from a value to the deepest value below it.
def depth : Json → Nat
  | array xs => depthElements xs
  | object es => depthEntries es
  | _ => 0
  termination_by structural j => j

-- An element lies one step below its array.
def depthElements : List Json → Nat
  | [] => 0
  | x :: xs => max (x.depth + 1) (depthElements xs)
  termination_by structural xs => xs

def depthEntries : List (Text × Json) → Nat
  | [] => 0
  | (_, x) :: es => max (x.depth + 1) (depthEntries es)
  termination_by structural es => es

end

mutual

-- Equality of content: numbers are alike, logicals equal no number, and the order of the keys
-- counts.
def beq : Json → Json → Bool
  | null, null => true
  | logical a, logical b => a == b
  | number a, number b => a.alike b
  | string s, string t => s == t
  | array xs, array ys => beqElements xs ys
  | object es, object fs => beqEntries es fs
  | _, _ => false
  termination_by structural j => j

def beqElements : List Json → List Json → Bool
  | [], [] => true
  | x :: xs, y :: ys => x.beq y && beqElements xs ys
  | _, _ => false
  termination_by structural xs => xs

def beqEntries : List (Text × Json) → List (Text × Json) → Bool
  | [], [] => true
  | (k, x) :: es, (l, y) :: fs => k == l && x.beq y && beqEntries es fs
  | _, _ => false
  termination_by structural es => es

end

instance : BEq Json := ⟨beq⟩

-- A repeated key keeps its first place and its last value.
def ofEntries (es : List (Text × Json)) : Json :=
  object (Entries.ofList es)

end Json

end Unnest
