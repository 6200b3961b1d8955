import Unnest.Json.Path

namespace Unnest

-- The kinds of value that fill a cell.
inductive ScalarKind where
  | string
  | number
  | logical
  deriving DecidableEq, Repr

namespace ScalarKind

def kind : ScalarKind → Kind
  | string => .string
  | number => .number
  | logical => .logical

def ofKind? : Kind → Option ScalarKind
  | .string => some string
  | .number => some number
  | .logical => some logical
  | _ => none

end ScalarKind

-- Where to look for a scalar, and of which kind it has to be.
structure Descriptor where
  kind : ScalarKind
  path : Path
  deriving DecidableEq, Repr

-- What an object says when it is asked something. An array, say, has no truth value of its own.
inductive Answer (α : Type) where
  | given (a : α)
  | ambiguous (isEmpty : Bool)
  | refused
  deriving DecidableEq, Repr

-- The single value that an object stands for.
inductive Content where
  | none
  | logical (b : Bool)
  | integer (n : Int)
  | real (x : Binary64)
  | text (t : Text)
  | other
  deriving DecidableEq, Repr

-- An object of a class that is not known here: what its class is called, how it is written, whether
-- it may be a key, and what it says when it is asked whether it counts as true, whether it marks a
-- missing cell, and which value it stands for. It says the same each time, and it equals itself
-- alone; members of classes derived from the ones of `Datum` are not among these objects.
structure Custom where
  className : Text
  shown : Text
  isKey : Bool := true
  truth : Answer Bool := .given true
  missing : Answer Bool := .given false
  item : Option (Answer Content) := none
  deriving DecidableEq, Repr

-- Values that callers may hand in but that no document, cell or step can be.
inductive Foreign where
  | bytes
  | bytearray
  | set
  | object
  | complex (re im : Binary64)
  | custom (c : Custom)
  deriving DecidableEq, Repr

namespace Foreign

-- The root of minus one.
def imaginaryUnit : Foreign :=
  complex .zero .one

def all : List Foreign :=
  [bytes, bytearray, set, object, imaginaryUnit]

def name : Foreign → Text
  | bytes => "bytes"
  | bytearray => "bytearray"
  | set => "set"
  | object => "object"
  | complex _ _ => "complex"
  | custom c => c.className

def isTrue : Foreign → Bool
  | set => false
  | complex re im => !((Number.real re).isZero && (Number.real im).isZero)
  | custom c => c.truth = .given true
  | _ => true

-- Only what cannot change may be a key of a mapping.
def isKey : Foreign → Bool
  | bytearray | set => false
  | custom c => c.isKey
  | _ => true

end Foreign

-- An argument of a call, before anything is known about it. Besides what JSON can spell it may be
-- a tuple, a mapping with keys of any kind, a member of this library's own types, a number of a
-- fixed machine format, or something foreign.
inductive Datum where
  | none
  | bool (b : Bool)
  | int (n : Int)
  | float (x : Binary64)
  | text (t : Text)
  | list (xs : List Datum)
  | tuple (xs : List Datum)
  | dict (entries : List (Datum × Datum))
  | kind (k : Kind)
  | descriptor (d : Descriptor)
  | machineInt (n : Int)
  | machineBool (b : Bool)
  | foreign (f : Foreign)

namespace Datum

instance : Inhabited Datum := ⟨none⟩

instance : Coe Text Datum := ⟨text⟩

instance : Coe Bool Datum := ⟨bool⟩

def ofNat (n : Nat) : Datum := int n

-- A mapping whose keys are names.
def record (fields : List (Text × Datum)) : Datum :=
  dict (fields.map fun (name, d) => (text name, d))

def ofNumber : Number → Datum
  | .int n => int n
  | .real x => float x

def ofStep : Step → Datum
  | .key k => text k
  | .index i => int i

def step? : Datum → Option Step
  | text t => some (.key t)
  | int n => some (.index n)
  | _ => Option.none

def typeName : Datum → Text
  | none => "NoneType"
  | bool _ => "bool"
  | int _ => "int"
  | float _ => "float"
  | text _ => "str"
  | list _ => "list"
  | tuple _ => "tuple"
  | dict _ => "dict"
  | kind _ => "JsonType"
  | descriptor _ => "PathDescriptor"
  | machineInt _ => "int64"
  | machineBool _ => "bool"
  | foreign f => f.name

-- Whatever is empty, zero or absent counts as false, and so does what has no truth value.
def isTrue : Datum → Bool
  | none => false
  | bool b => b
  | int n => n != 0
  | float x => !(Number.real x).isZero
  | text t => !t.isEmpty
  | list xs => !xs.isEmpty
  | tuple xs => !xs.isEmpty
  | dict es => !es.isEmpty
  | machineInt n => n != 0
  | machineBool b => b
  | foreign f => f.isTrue
  | _ => true

-- Logicals are worth 0 and 1 where data are compared.
def number? : Datum → Option Number
  | bool b => some (.int b.toInt)
  | int n => some (.int n)
  | float x => some (.real x)
  | machineInt n => some (.int n)
  | machineBool b => some (.int b.toInt)
  | _ => Option.none

-- The bytes that are handed in, as numbers.
def byteValues : List Datum :=
  [int 0x7B, int 0x7D]

-- What a datum holds, piece by piece: a mapping its keys, a text its characters. Scalars hold
-- nothing that could be gone through.
def pieces? : Datum → Option (List Datum)
  | list xs | tuple xs => some xs
  | dict es => some (es.map Prod.fst)
  | text t => some (t.map fun c => text [c])
  | foreign .bytes | foreign .bytearray => some byteValues
  | foreign .set => some []
  | _ => Option.none

mutual

-- A tuple may be a key if all that it holds may be one.
def isKey : Datum → Bool
  | list _ => false
  | dict _ => false
  | foreign f => f.isKey
  | tuple xs => areKeys xs
  | _ => true
  termination_by structural d => d

def areKeys : List Datum → Bool
  | [] => true
  | x :: xs => x.isKey && areKeys xs
  termination_by structural xs => xs

end

mutual

-- Numbers and logicals are alike by value; mappings are equal whatever the order of their keys.
def beq : Datum → Datum → Bool
  | none, none => true
  | text s, text t => s == t
  | list xs, list ys => beqAll xs ys
  | tuple xs, tuple ys => beqAll xs ys
  | dict es, dict fs => es.length == fs.length && within es fs
  | kind k, kind l => k == l
  | descriptor d, descriptor e => d == e
  | foreign f, foreign g => f == g
  | bool a, d => d.number?.any (Number.int a.toInt == ·)
  | int n, d => d.number?.any (Number.int n == ·)
  | float x, d => d.number?.any (Number.real x).alike
  | machineInt n, d => d.number?.any (Number.int n == ·)
  | machineBool a, d => d.number?.any (Number.int a.toInt == ·)
  | _, _ => false
  termination_by structural d => d

def beqAll : List Datum → List Datum → Bool
  | [], [] => true
  | x :: xs, y :: ys => x.beq y && beqAll xs ys
  | _, _ => false
  termination_by structural xs => xs

def within : List (Datum × Datum) → List (Datum × Datum) → Bool
  | [], _ => true
  | (k, x) :: es, fs => (fs.any fun (l, y) => k.beq l && x.beq y) && within es fs
  termination_by structural es => es

end

instance : BEq Datum := ⟨beq⟩

-- A mapping from its entries in order, unless one of them has no proper key.
def ofEntries? (es : List (Datum × Datum)) : Option Datum :=
  if es.all (·.1.isKey) then some (dict (Entries.ofList es))
  else Option.none

mutual

-- Mappings and lists nest, tuples do not.
def depth : Datum → Nat
  | list xs => depthElements xs
  | dict es => depthEntries es
  | _ => 0
  termination_by structural d => d

def depthElements : List Datum → Nat
  | [] => 0
  | x :: xs => max (x.depth + 1) (depthElements xs)
  termination_by structural xs => xs

def depthEntries : List (Datum × Datum) → Nat
  | [] => 0
  | (_, x) :: es => max (x.depth + 1) (depthEntries es)
  termination_by structural es => es

end

-- The same for a datum that lies some steps below its root.
def depthFrom (start : Int) (d : Datum) : Int :=
  start + d.depth

end Datum

def Content.toDatum : Content → Datum
  | none => .none
  | logical b => .bool b
  | integer n => .int n
  | real x => .float x
  | text t => .text t
  | other => .foreign .object

namespace Json

mutual

def toDatum : Json → Datum
  | null => .none
  | logical b => .bool b
  | number n => .ofNumber n
  | string t => .text t
  | array xs => .list (toDatumElements xs)
  | object es => .dict (toDatumEntries es)
  termination_by structural j => j

def toDatumElements : List Json → List Datum
  | [] => []
  | x :: xs => x.toDatum :: toDatumElements xs
  termination_by structural xs => xs

def toDatumEntries : List (Text × Json) → List (Datum × Datum)
  | [] => []
  | (k, x) :: es => (.text k, x.toDatum) :: toDatumEntries es
  termination_by structural es => es

end

end Json

end Unnest
