import Unnest.Table.Frame

namespace Unnest

namespace Text

-- A field is quoted if it would not be read as one field otherwise. A quote inside is doubled.
def csvField (t : Text) : Text :=
  if t.any fun c => c = .char ',' || c = .char '"' || c = .char '\n' then
    .concat ["\"", t.flatMap fun c => if c = .char '"' then [c, c] else [c], "\""]
  else t

def csvLine (fields : List Text) : Text :=
  .concat [.join "," (fields.map csvField), "\n"]

end Text

namespace Table

-- The rows of equally long columns.
def cellRows (columns : List (Text × Column)) : List (List Datum) :=
  match columns with
  | [] => []
  | (_, c) :: _ =>
      (List.range c.cells.length).map fun row => columns.map fun (_, c) => c.cell row

def csvText : Datum → Text
  | .bool b => logicalWord b
  | .int n => .ofInt n
  | .float x => x.text
  | .text t => t
  | _ => []

-- A line of names and a line for each row. A missing cell is an empty field.
def toCsv (t : Table) : Except Failure Text := do
  let columns ← t.stored
  let lines := columns.map Prod.fst :: (cellRows columns).map (·.map csvText)
  return .concat (lines.map Text.csvLine)

end Table

end Unnest
