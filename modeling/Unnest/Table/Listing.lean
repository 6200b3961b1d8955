import Unnest.Table.Csv

namespace Unnest

namespace Text

-- Line breaks and tabulators would break the lines of a listing.
def oneLine (t : Text) : Text :=
  t.flatMap fun c =>
    if c = .char '\t' then "\\t"
    else if c = .char '\n' then "\\n"
    else if c = .char '\r' then "\\r"
    else [c]

end Text

-- Six places without trailing zeros, of which one stays, and a blank in the place of a plus.
def Binary64.listed (x : Binary64) : Text :=
  let digits := x.fixed 6
  let digits := (digits.reverse.dropWhile (· = .char '0')).reverse
  let digits := if digits.getLast? = some (.char '.') then digits ++ [.char '0'] else digits
  if digits.head? = some (.char '-') then digits else .char ' ' :: digits

namespace Table

-- How a cell looks in a listing.
def listed : Datum → Text
  | .bool b => logicalWord b
  | .int n => .ofInt n
  | .float x => x.listed
  | .text t => t.oneLine
  | _ => "<NA>"

-- The name of a column that holds no text stands after a blank.
def heading (name : Text) (type : ColumnType) : Text :=
  if type = .string then name.oneLine else .char ' ' :: name.oneLine

-- The names that are listed for a table without rows.
def maxListedNames : Nat := 100

def emptyListing (names : List Text) : Text :=
  .concat ["Empty DataFrame\nColumns: [", .join ", " (names.take maxListedNames),
    if maxListedNames < names.length then ", ..." else [], "]\nIndex: []"]

-- All texts as wide as the widest.
def alignRight (texts : List Text) : List Text :=
  let width := (texts.map List.length).foldl max 0
  texts.map (.padLeft width)

-- Every column is as wide as its widest entry, and a blank separates it from the next.
def toListing (t : Table) : Except Failure Text := do
  let columns ← t.stored
  if t.rowCount = 0 then return emptyListing t.names
  let blocks := columns.map fun (name, c) =>
    alignRight (heading name c.type :: c.cells.map listed)
  let lines := (List.range (t.rowCount + 1)).map fun i =>
    Text.join " " (blocks.map (·.getD i []))
  return .join "\n" lines

end Table

end Unnest
