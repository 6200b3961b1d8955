import Unnest.Json.Node
import Unnest.Validation

namespace Unnest

namespace Descriptor

-- A descriptor asks for a scalar, and its path has at least one step.
def make (kind : Kind) (steps : List Datum) : Traced Descriptor := do
  match ScalarKind.ofKind? kind with
  | none => throw (.reject (.descriptorKind kind))
  | some kind =>
      let found ← liftM (Validation.path steps)
      let found ← found.warn .paths
      found.require .paths (.record [("path", .list steps)])
      return ⟨kind, steps.filterMap Datum.step?⟩

def locate (d : Descriptor) (v : Node) : Option Node :=
  v.walk? d.path

-- The scalar at the end of the path, if it is there and of the right kind.
def resolve (d : Descriptor) (v : Node) : Option Datum :=
  match d.locate v with
  | none => none
  | some w => if w.kind = d.kind.kind then some w.json.toDatum else none

end Descriptor

end Unnest
