import Unnest.Text.Blank

namespace Unnest

-- The characters that end a line, a carriage return before a line feed aside.
def CodePoint.isLineEnd (c : CodePoint) : Bool :=
  let n := c.code
  (0x0A ≤ n && n ≤ 0x0D) || (0x1C ≤ n && n ≤ 0x1E) || n == 0x85 || n == 0x2028 || n == 0x2029

namespace Text

-- Line ends of all systems become line feeds.
def unifyLineEnds : Text → Text
  | [] => []
  | .char '\r' :: .char '\n' :: rest => .char '\n' :: unifyLineEnds rest
  | .char '\r' :: rest => .char '\n' :: unifyLineEnds rest
  | c :: rest => c :: unifyLineEnds rest

-- The pieces between line ends. There is one more of them than there are line ends.
def pieces : Text → List Text
  | [] => [[]]
  | c :: rest =>
      if c.isLineEnd then [] :: pieces rest
      else
        match pieces rest with
        | [] => [[c]]
        | piece :: later => (c :: piece) :: later

-- The lines on which something is written.
def writtenLines (t : Text) : List Text :=
  t.pieces.filter (!·.isBlank)

end Text

end Unnest
