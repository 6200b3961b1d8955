import Unnest.Text.Basic

namespace Unnest

-- The white space of Unicode: the characters of bidirectional type WS, B or S, and the
-- separators of category Zs.
def CodePoint.isBlank (c : CodePoint) : Bool :=
  let n := c.code
  (0x09 ≤ n && n ≤ 0x0D) || (0x1C ≤ n && n ≤ 0x20) || n == 0x85 || n == 0xA0 || n == 0x1680 ||
    (0x2000 ≤ n && n ≤ 0x200A) || n == 0x2028 || n == 0x2029 || n == 0x202F || n == 0x205F ||
    n == 0x3000

namespace Text

def isBlank (t : Text) : Bool :=
  t.all CodePoint.isBlank

-- Text without what is left and right of it.
def trimBy (isOutside : CodePoint → Bool) (t : Text) : Text :=
  ((t.dropWhile isOutside).reverse.dropWhile isOutside).reverse

def trim (t : Text) : Text :=
  t.trimBy CodePoint.isBlank

-- Around a numeral there may be white space, except for the separators among the control
-- characters.
def trimNumeral (t : Text) : Text :=
  t.trimBy fun c => c.isBlank && !(0x1C ≤ c.code && c.code ≤ 0x1F)

end Text

end Unnest
