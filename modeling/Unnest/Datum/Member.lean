import Unnest.Datum.Display

namespace Unnest

-- The member of a fixed collection that a datum names, if it names one.
def memberOf (collection : Text) (found : Option α) (d : Datum) : Except Failure α :=
  match found with
  | some a => .ok a
  | none => do throw (.notMember (← d.quoted) collection)

namespace Kind

-- Kinds are given as such or by name.
def ofDatum? : Datum → Option Kind
  | .kind k => some k
  | .text name => ofName? name
  | _ => none

def ofDatum (d : Datum) : Except Failure Kind :=
  memberOf "JsonType" (ofDatum? d) d

end Kind

namespace ColumnType

def ofDatum (d : Datum) : Except Failure ColumnType :=
  memberOf "ColumnType" (all.find? fun type => d == .text type.name) d

end ColumnType

namespace FaultType

def ofDatum (d : Datum) : Except Failure FaultType :=
  memberOf "ErrorType" (all.find? fun type => d == .text type.name) d

end FaultType

-- A kind is found under its name.
theorem Kind.ofDatum_name (k : Kind) : ofDatum (.text k.name) = .ok k := by
  cases k <;> rfl

end Unnest
