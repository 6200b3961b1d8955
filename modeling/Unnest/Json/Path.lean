import Unnest.Json.Basic

namespace Unnest

-- A step goes to a key of an object, or to an element of an array, counted from one.
inductive Step where
  | key (k : Text)
  | index (i : Int)
  deriving DecidableEq, Repr

abbrev Path := List Step

namespace Json

-- Of several entries of one key the last counts. No document has such an object.
def get? (j : Json) (key : Text) : Option Json :=
  j.entries.reverse.lookup key

def element? (j : Json) (i : Int) : Option Json :=
  match j with
  | array xs => if 1 ≤ i then xs[(i - 1).toNat]? else none
  | _ => none

def child? (j : Json) : Step → Option Json
  | .key k => j.get? k
  | .index i => j.element? i

def walk? (j : Json) : Path → Option Json
  | [] => some j
  | s :: path => (j.child? s).bind (·.walk? path)

end Json

end Unnest
