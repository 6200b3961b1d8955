import Unnest.Datum.Shape
import Unnest.Failure

namespace Unnest

-- A number of the machine equals another integer exactly, and a double as a double.
def Number.equalsMachine (a b : Number) : Bool :=
  match a, b with
  | .int _, .int _ => a == b
  | _, _ =>
      match a.toReal?, b.toReal? with
      | some x, some y => real x == real y
      | _, _ => false

namespace Datum

def equalsScalar (a : Number) (d : Datum) : Bool :=
  d.number?.any a.equalsMachine

-- Next to a number of the machine, sequences are tables of numbers that are compared one by one,
-- and only for a table of one does this tell whether both are equal.
def equalsSequence (a : Number) (d : Datum) : Except Failure Bool :=
  if d.shape.isEven then
    match d.scalars with
    | [x] => .ok (equalsScalar a x)
    | scalars => .error (.noSingleTruth scalars.isEmpty)
  else .error (.uneven d.shape.sizes)

def equalsMachineInt (n : Int) (d : Datum) : Except Failure Bool :=
  match d with
  | list _ | tuple _ | foreign .bytearray => equalsSequence (.int n) d
  | d => .ok (equalsScalar (.int n) d)

-- A logical of the machine is compared with integers of the machine only.
def equalsMachineBool (b : Bool) (d : Datum) : Except Failure Bool :=
  match d with
  | list _ | tuple _ | foreign .bytearray => equalsSequence (.int b.toInt) d
  | int n => if fitsSigned n then .ok (b.toInt == n) else .error .overflow
  | d => .ok (equalsScalar (.int b.toInt) d)

mutual

-- Equality of what tables hold, which fails where a number of the machine meets what it cannot be
-- compared with. Pieces are compared in order up to the first that differ.
def equals : Datum → Datum → Except Failure Bool
  | machineInt n, d => equalsMachineInt n d
  | machineBool b, d => equalsMachineBool b d
  | list xs, list ys => if xs.length = ys.length then equalsAll xs ys else .ok false
  | tuple xs, tuple ys => equalsAll xs ys
  | dict es, dict fs => if es.length = fs.length then equalsEntries es fs else .ok false
  | foreign .bytearray, d => .ok (d == foreign .bytes || d == foreign .bytearray)
  | foreign .bytes, foreign .bytearray => .ok true
  | d, machineInt n => equalsMachineInt n d
  | d, machineBool b => equalsMachineBool b d
  | d, e => .ok (d == e)
  termination_by structural d => d

def equalsAll : List Datum → List Datum → Except Failure Bool
  | [], [] => .ok true
  | x :: xs, y :: ys => do
      if ← x.equals y then equalsAll xs ys else return false
  | _, _ => .ok false
  termination_by structural xs => xs

-- Keys are equal or not, whatever they are.
def equalsEntries : List (Datum × Datum) → List (Datum × Datum) → Except Failure Bool
  | [], _ => .ok true
  | (k, x) :: es, fs =>
      match fs.find? fun (l, _) => k == l with
      | some (_, y) => do
          if ← x.equals y then equalsEntries es fs else return false
      | Option.none => .ok false
  termination_by structural es => es

end

end Datum

end Unnest
