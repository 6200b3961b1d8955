import Mathlib.Data.List.Forall2
import Mathlib.Data.Nat.Digits.Defs
import Unnest.Json.Basic
import Unnest.Proofs.Binary64.Rounding

-- Which texts are JSON, and which value each of them has. No relation here looks at how a text
-- is read: each splits a text into its parts.
namespace Unnest.Json.Grammar

def IsBlank (c : CodePoint) : Prop :=
  c = .char ' ' ∨ c = .char '\t' ∨ c = .char '\n' ∨ c = .char '\r'

instance (c : CodePoint) : Decidable (IsBlank c) :=
  inferInstanceAs (Decidable (c = .char ' ' ∨ c = .char '\t' ∨ c = .char '\n' ∨ c = .char '\r'))

def Blanks (t : Text) : Prop :=
  ∀ c ∈ t, IsBlank c

def IsDigit (c : CodePoint) (d : Nat) : Prop :=
  d < 10 ∧ c.code = 0x30 + d

def AreDigits (t : Text) (ds : List Nat) : Prop :=
  ds ≠ [] ∧ List.Forall₂ IsDigit t ds

-- The first digit is the most significant one.
def decimal (ds : List Nat) : Nat :=
  Nat.ofDigits 10 ds.reverse

inductive IsSign : Text → Bool → Prop
  | plus : IsSign [] false
  | minus : IsSign [.char '-'] true

-- No digit follows a leading zero.
inductive IsWhole : Text → List Nat → Prop
  | zero {c} : IsDigit c 0 → IsWhole [c] [0]
  | other {t d ds} : d ≠ 0 → AreDigits t (d :: ds) → IsWhole t (d :: ds)

inductive IsFraction : Text → Option (List Nat) → Prop
  | absent : IsFraction [] none
  | digits {t ds} : AreDigits t ds → IsFraction (.char '.' :: t) (some ds)

inductive IsExponent : Text → Option Int → Prop
  | absent : IsExponent [] none
  | unsigned {e t ds} : e = .char 'e' ∨ e = .char 'E' → AreDigits t ds →
      IsExponent (e :: t) (some (decimal ds))
  | up {e t ds} : e = .char 'e' ∨ e = .char 'E' → AreDigits t ds →
      IsExponent (e :: .char '+' :: t) (some (decimal ds))
  | down {e t ds} : e = .char 'e' ∨ e = .char 'E' → AreDigits t ds →
      IsExponent (e :: .char '-' :: t) (some (-decimal ds))

-- What the parts of a literal are worth, its sign left aside.
def worth (whole : List Nat) (fraction : Option (List Nat)) (exponent : Option Int) : ℚ :=
  (decimal whole + decimal (fraction.getD []) / 10 ^ (fraction.getD []).length) *
    10 ^ exponent.getD 0

-- The last argument of this relation and of those below is the number of digits of the longest
-- integer literal.
inductive IsNumber : Text → Number → Nat → Prop
  | int {s w negative ds} : IsSign s negative → IsWhole w ds →
      IsNumber (s ++ w) (.int (if negative then -decimal ds else decimal ds)) ds.length
  | real {s w f e negative ds fraction exponent x} : IsSign s negative → IsWhole w ds →
      IsFraction f fraction → IsExponent e exponent → fraction.isSome ∨ exponent.isSome →
      Binary64.Rounds negative (worth ds fraction exponent) x →
      IsNumber (s ++ w ++ f ++ e) (.real x) 0

inductive ShortEscape : CodePoint → CodePoint → Prop
  | quote : ShortEscape (.char '"') (.char '"')
  | backslash : ShortEscape (.char '\\') (.char '\\')
  | slash : ShortEscape (.char '/') (.char '/')
  | backspace : ShortEscape (.char 'b') (.char '\x08')
  | formFeed : ShortEscape (.char 'f') (.char '\x0c')
  | lineFeed : ShortEscape (.char 'n') (.char '\n')
  | carriageReturn : ShortEscape (.char 'r') (.char '\r')
  | tab : ShortEscape (.char 't') (.char '\t')

inductive IsHex : CodePoint → Nat → Prop
  | digit {c d} : d < 10 → c.code = 0x30 + d → IsHex c d
  | upper {c d} : d < 6 → c.code = 0x41 + d → IsHex c (10 + d)
  | lower {c d} : d < 6 → c.code = 0x61 + d → IsHex c (10 + d)

inductive LongEscape : Text → Nat → Prop
  | intro {h₁ h₂ h₃ h₄ i j k l} : IsHex h₁ i → IsHex h₂ j → IsHex h₃ k → IsHex h₄ l →
      LongEscape [.char '\\', .char 'u', h₁, h₂, h₃, h₄] (0x1000 * i + 0x100 * j + 0x10 * k + l)

def IsHigh (n : Nat) : Prop :=
  0xD800 ≤ n ∧ n < 0xDC00

def IsLow (n : Nat) : Prop :=
  0xDC00 ≤ n ∧ n < 0xE000

-- What stands between the quotes of a string, and the characters that it spells. Half of a pair
-- stands alone only if the other half does not follow.
inductive Characters : Text → Text → Prop
  | nil : Characters [] []
  | plain {c t u} : 0x20 ≤ c.code → c ≠ .char '"' → c ≠ .char '\\' → Characters t u →
      Characters (c :: t) (c :: u)
  | short {letter meant t u} : ShortEscape letter meant → Characters t u →
      Characters (.char '\\' :: letter :: t) (meant :: u)
  | pair {h l hi lo c t u} : LongEscape h hi → LongEscape l lo → IsHigh hi → IsLow lo →
      c.code = 0x10000 + 0x400 * (hi - 0xD800) + (lo - 0xDC00) → Characters t u →
      Characters (h ++ l ++ t) (c :: u)
  | alone {e n c t u} : LongEscape e n →
      (IsHigh n → ∀ l lo, LongEscape l lo → IsLow lo → ¬l <+: t) → c.code = n →
      Characters t u → Characters (e ++ t) (c :: u)

inductive IsString : Text → Text → Prop
  | quoted {t u} : Characters t u → IsString (.char '"' :: t ++ [.char '"']) u

-- The entries of an object: keys stand where they first stood, with the last of their values.
structure KeepsLast (written kept : List (Text × Json)) : Prop where
  keys : kept.map Prod.fst = (written.map Prod.fst).eraseDups
  values : ∀ key, kept.lookup key = written.reverse.lookup key

mutual

inductive IsValue : Text → Json → Nat → Prop
  | null : IsValue "null" .null 0
  | true : IsValue "true" (.logical true) 0
  | false : IsValue "false" (.logical false) 0
  | number {t n k} : IsNumber t n k → IsValue t (.number n) k
  | string {t u} : IsString t u → IsValue t (.string u) 0
  | emptyArray {b} : Blanks b → IsValue (.char '[' :: b ++ [.char ']']) (.array []) 0
  | array {b t xs k} : Blanks b → AreElements t xs k →
      IsValue (.char '[' :: b ++ t ++ [.char ']']) (.array xs) k
  | emptyObject {b} : Blanks b →
      IsValue (.char '\x7b' :: b ++ [.char '\x7d']) (.object []) 0
  | object {b t es fs k} : Blanks b → AreEntries t es k → KeepsLast es fs →
      IsValue (.char '\x7b' :: b ++ t ++ [.char '\x7d']) (.object fs) k

-- One or more values with commas between them, and blanks after each.
inductive AreElements : Text → List Json → Nat → Prop
  | last {t b x k} : IsValue t x k → Blanks b → AreElements (t ++ b) [x] k
  | more {t b c u x xs k m} : IsValue t x k → Blanks b → Blanks c → AreElements u xs m →
      AreElements (t ++ b ++ .char ',' :: c ++ u) (x :: xs) (max k m)

inductive IsEntry : Text → Text × Json → Nat → Prop
  | intro {s b c t key x k} : IsString s key → Blanks b → Blanks c → IsValue t x k →
      IsEntry (s ++ b ++ .char ':' :: c ++ t) (key, x) k

inductive AreEntries : Text → List (Text × Json) → Nat → Prop
  | last {t b e k} : IsEntry t e k → Blanks b → AreEntries (t ++ b) [e] k
  | more {t b c u e es k m} : IsEntry t e k → Blanks b → Blanks c → AreEntries u es m →
      AreEntries (t ++ b ++ .char ',' :: c ++ u) (e :: es) (max k m)

end

inductive IsText : Text → Json → Nat → Prop
  | intro {b t c j k} : Blanks b → IsValue t j k → Blanks c → IsText (b ++ t ++ c) j k

end Unnest.Json.Grammar
