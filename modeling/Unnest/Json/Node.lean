import Unnest.Datum.Basic

namespace Unnest

-- A value, the path that leads to it from a root, and what is recorded as the path of that root.
-- What is inside the value has the paths that follow from this one, as it has in everything that is
-- read or made from plain data. A tree that is put together by hand, with other paths recorded
-- inside, is not a node. Equality of nodes is equality of their values.
structure Node where
  json : Json
  path : Path := []
  origin : List Datum := []

namespace Node

instance : BEq Node := ⟨fun v w => v.json == w.json⟩

def null : Node := { json := .null }

def kind (v : Node) : Kind := v.json.kind

def recordedPath (v : Node) : List Datum :=
  v.origin ++ v.path.map Datum.ofStep

-- The node one step further down.
def below (v : Node) (s : Step) (json : Json) : Node :=
  { v with json, path := v.path ++ [s] }

def child? (v : Node) (s : Step) : Option Node :=
  (v.json.child? s).map (v.below s)

def walk? (v : Node) : Path → Option Node
  | [] => some v
  | s :: path => (v.child? s).bind (·.walk? path)

-- The elements of an array, each with its position; nothing for any other value.
def elements (v : Node) : List (Nat × Node) :=
  v.json.elements.zipIdx.map fun (x, i) => (i + 1, v.below (.index (i + 1)) x)

-- The entries of an object, each with its key; nothing for any other value.
def members (v : Node) : List (Text × Node) :=
  v.json.entries.map fun (k, x) => (k, v.below (.key k) x)

def children (v : Node) : List Node :=
  v.elements.map Prod.snd ++ v.members.map Prod.snd

end Node

end Unnest
