import Unnest.Text.Printable

namespace Unnest

namespace Text

-- At least `width` hexadecimal digits.
def hexDigits (width n : Nat) : Text :=
  let digits := (Nat.toDigits 16 n).map CodePoint.char
  List.replicate (width - digits.length) (.char '0') ++ digits

-- The quote and the backslash are escaped, as is whatever does not print: line breaks and the
-- tabulator by a letter, the rest by two, four or eight hexadecimal digits.
def escape (quote c : CodePoint) : Text :=
  if c = quote ∨ c = .char '\\' then [.char '\\', c]
  else if c = .char '\n' then "\\n"
  else if c = .char '\r' then "\\r"
  else if c = .char '\t' then "\\t"
  else if c.isPrintable then [c]
  else if c.code < 0x100 then .concat ["\\x", hexDigits 2 c.code]
  else if c.code < 0x10000 then .concat ["\\u", hexDigits 4 c.code]
  else .concat ["\\U", hexDigits 8 c.code]

-- Single quotes, unless the text holds one and no double quote.
def quoteMark (t : Text) : CodePoint :=
  if t.contains (.char '\'') && !t.contains (.char '"') then .char '"' else .char '\''

def quoted (t : Text) : Text :=
  [quoteMark t] ++ t.flatMap (escape (quoteMark t)) ++ [quoteMark t]

end Text

-- A tuple of one keeps a comma, which tells it from a mere bracket.
def tupleOf (items : List Text) : Text :=
  .concat ["(", .join ", " items, if items.length = 1 then ",)" else ")"]

def listOf (items : List Text) : Text :=
  .concat ["[", .join ", " items, "]"]

end Unnest
