namespace Unnest

-- A JSON escape can spell half of a surrogate pair, which no `Char` holds.
inductive CodePoint where
  | char (c : Char)
  | surrogate (s : Fin 0x800)
  deriving DecidableEq, Repr

namespace CodePoint

def code : CodePoint → Nat
  | char c => c.toNat
  | surrogate s => 0xD800 + s.val

-- Codes above the last code point have no meaning and become the null character.
def ofCode (n : Nat) : CodePoint :=
  if h : 0xD800 ≤ n ∧ n < 0xE000 then surrogate ⟨n - 0xD800, by omega⟩ else char (Char.ofNat n)

def toChar? : CodePoint → Option Char
  | char c => some c
  | surrogate _ => none

-- Letters of ASCII lose their capitals, and nothing else changes.
def toAsciiLower (c : CodePoint) : CodePoint :=
  if 0x41 ≤ c.code ∧ c.code ≤ 0x5A then ofCode (c.code + 0x20) else c

instance : Coe Char CodePoint := ⟨char⟩

instance : Inhabited CodePoint := ⟨char ' '⟩

end CodePoint

abbrev Text := List CodePoint

namespace Text

def ofString (s : String) : Text :=
  s.toList.map CodePoint.char

instance : Coe String Text := ⟨ofString⟩

-- Text without surrogates is an ordinary string.
def toString? (t : Text) : Option String :=
  (t.mapM CodePoint.toChar?).map String.ofList

-- Lets literals stand among the parts of a message.
def concat (parts : List Text) : Text :=
  parts.flatten

def join (separator : Text) : List Text → Text
  | [] => []
  | [t] => t
  | t :: rest => t ++ separator ++ join separator rest

-- The text before the first separator, and the text after it if there is one.
def cut (separator : CodePoint) : Text → Text × Option Text
  | [] => ([], none)
  | c :: rest =>
      if c = separator then ([], some rest)
      else
        let (before, after) := cut separator rest
        (c :: before, after)

-- Empty pieces count, so there is always one piece more than there are separators.
def split (separator : CodePoint) : Text → List Text
  | [] => [[]]
  | c :: rest =>
      if c = separator then [] :: split separator rest
      else
        match split separator rest with
        | [] => [[c]]
        | piece :: pieces => (c :: piece) :: pieces

def padLeft (width : Nat) (t : Text) : Text :=
  List.replicate (width - t.length) (.char ' ') ++ t

theorem split_ne_nil (separator : CodePoint) (t : Text) : split separator t ≠ [] := by
  cases t with
  | nil => simp [split]
  | cons c rest =>
      simp only [split]
      split
      · simp
      · split <;> simp

-- What splitting takes apart, joining puts together.
theorem join_split (separator : CodePoint) (t : Text) :
    join [separator] (split separator t) = t := by
  induction t with
  | nil => simp [split, join]
  | cons c rest ih =>
      obtain ⟨piece, pieces, hp⟩ := List.exists_cons_of_ne_nil (split_ne_nil separator rest)
      rw [hp] at ih
      by_cases h : c = separator
      · simp [split, h, hp, join, ih]
      · simp only [split, h, if_false, hp]
        cases pieces with
        | nil => simpa [join] using ih
        | cons next later => simpa [join] using ih

end Text

end Unnest
