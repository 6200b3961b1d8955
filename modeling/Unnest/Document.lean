import Unnest.Descriptor
import Unnest.Json.Decoder

namespace Unnest

namespace Json

mutual

-- Builds the value that a datum spells. The first offence in reading order is reported, with the
-- place where it was found; a key is looked at before its value.
def ofDatum (place : List Datum) : Datum → Except Failure Json
  | .none => .ok .null
  | .bool b => .ok (.logical b)
  | .int n => .ok (.number (.int n))
  | .float x => .ok (.number (.real x))
  | .text t => .ok (.string t)
  | .list xs => (ofDatumElements place 1 xs).map .array
  | .tuple xs => (ofDatumElements place 1 xs).map .array
  | .dict es => (ofDatumEntries place es).map .object
  | d =>
      .error (.reject (.notJsonValue d.typeName)
        (.record [("path", .list place)]))
  termination_by structural d => d

def ofDatumElements (place : List Datum) (position : Nat) : List Datum → Except Failure (List Json)
  | [] => .ok []
  | x :: xs => do
      let value ← ofDatum (place ++ [.ofNat position]) x
      return value :: (← ofDatumElements place (position + 1) xs)
  termination_by structural xs => xs

def ofDatumEntries (place : List Datum) : List (Datum × Datum) → Except Failure (List (Text × Json))
  | [] => .ok []
  | (key, x) :: es =>
      match key with
      | .text k => do
          let value ← ofDatum (place ++ [.text k]) x
          return (k, value) :: (← ofDatumEntries place es)
      | key =>
          .error (.reject (.objectKey key.typeName)
            (.record [("path", .list place)]))
  termination_by structural es => es

end

mutual

-- The datum that a value is turned back into, where only so many calls fit. A value takes a call,
-- and another one to go through what it holds, inside of which its parts are turned back.
def toDatumWithin : Json → Headroom → Except Failure Datum
  | array xs, room =>
      if room.Holds 2 then (toDatumElementsWithin xs (room.within 2)).map .list
      else .error .overflow
  | object es, room =>
      if room.Holds 2 then (toDatumEntriesWithin es (room.within 2)).map .dict
      else .error .overflow
  | j, room => if room.Holds 1 then .ok j.toDatum else .error .overflow
  termination_by structural j => j

def toDatumElementsWithin : List Json → Headroom → Except Failure (List Datum)
  | [], _ => .ok []
  | x :: xs, room => do
      let d ← x.toDatumWithin room
      return d :: (← toDatumElementsWithin xs room)
  termination_by structural xs => xs

def toDatumEntriesWithin : List (Text × Json) → Headroom → Except Failure (List (Datum × Datum))
  | [], _ => .ok []
  | (k, x) :: es, room => do
      let d ← x.toDatumWithin room
      return (.text k, d) :: (← toDatumEntriesWithin es room)
  termination_by structural es => es

end

end Json

namespace Node

-- A root, with what is to be recorded as its path.
def ofDatum (origin : List Datum) (d : Datum) : Except Failure Node :=
  (Json.ofDatum origin d).map fun json => { json, origin }

-- A key that is no text is found nowhere, but it has to be one that a mapping could have.
def get? (v : Node) (key : Datum) : Except Failure (Option Node) :=
  match v.json with
  | .object _ =>
      if key.isKey then
        match key with
        | .text k => .ok (v.child? (.key k))
        | _ => .ok none
      else .error .mismatch
  | _ => .ok none

-- An index in range has to be an integer; what cannot be compared with one is refused.
def element? (v : Node) (index : Datum) : Except Failure (Option Node) :=
  match v.json with
  | .array xs =>
      match index with
      | .bool _ => .ok none
      | .int i => .ok (v.child? (.index i))
      | .machineInt i => .ok (v.child? (.index i))
      | .machineBool b => .ok (v.child? (.index b.toInt))
      | .float x =>
          let inRange := !(Number.real x).lt (.int 1) && !(Number.int xs.length).lt (.real x) &&
            !x.isNaN
          if inRange then .error .mismatch else .ok none
      | _ => .error .mismatch
  | _ => .ok none

end Node

namespace Json.Decoder.Problem

def message : Problem → Text
  | value => "Expecting value"
  | trailingText => "Extra data"
  | comma => "Expecting ',' delimiter"
  | colon => "Expecting ':' delimiter"
  | propertyName => "Expecting property name enclosed in double quotes"
  | unterminatedString => "Unterminated string starting at"
  | controlCharacter => "Invalid control character at"
  | escape => "Invalid \\escape"
  | unicodeEscape => "Invalid \\uXXXX escape"
  | byteOrderMark => "Unexpected UTF-8 BOM (decode using utf-8-sig)"

end Json.Decoder.Problem

namespace Document

-- Deeper documents are read too, with a warning.
def maxDepth : Nat := 100

-- Reads one document. Every refusal of what is no JSON names the document, counted from one. A
-- document that nests too deeply to be read overflows.
def parse (channel : Channel) (source : Datum) (document : Int := 1) (room : Headroom := none) :
    Traced Node := do
  let context (details : List (Text × Datum)) : Datum :=
    .record (("document", .int document) :: details)
  (Validation.documentText source).require channel (context [])
  let text := match source with
    | .text t => t
    | _ => []
  match Json.Decoder.decode text room with
  | .ok json =>
      if maxDepth < json.depth then do
        let shown ← liftM (numeral document)
        .note .warning channel (.concat ["Deep nesting detected in document ", shown,
          " (depth: ", .ofNat json.depth, ")"])
      return { json }
  | .error (.constant name) =>
      let shown ← liftM (numeral document)
      ({ faults := [.notJsonConstant shown name] } : Findings).require channel
        (context [("constant", .text name)])
      return .null
  | .error (.longInteger digits) => throw (.longNumeral (some digits))
  | .error .tooDeep => throw .overflow
  | .error (.problem what rest) =>
      let (line, column) := Json.Decoder.position text rest
      let shown ← liftM (numeral document)
      ({ faults := [.notJson shown what.message line column] } : Findings).require channel
        (context [("line", .ofNat line), ("column", .ofNat column)])
      return .null

-- Reads documents in order; an absent one becomes a null.
def parseAll (channel : Channel) (sources : List Datum) (room : Headroom := none) :
    Traced (List Node) := do
  let nodes ← (sources.zipIdx 1).mapM fun (source, document) =>
    match source with
    | .none => pure Node.null
    | source => parse channel source document room
  .note .info channel (.concat ["Parsed ", .ofNat nodes.length, " JSON documents"])
  return nodes

end Document

end Unnest
