import Unnest.Text.Basic

namespace Unnest.Text

def commonStart : Text → Text → Nat
  | c :: s, d :: t => if c = d then commonStart s t + 1 else 0
  | _, _ => 0

-- Where the longest run that two texts share begins in each, and its length. Of several the one
-- that begins first is taken.
def longestRun (s t : Text) : Nat × Nat × Nat :=
  let starts := (List.range s.length).flatMap fun i => (List.range t.length).map fun j =>
    (i, j, commonStart (s.drop i) (t.drop j))
  starts.foldl (fun best run => if best.2.2 < run.2.2 then run else best) (0, 0, 0)

-- How many characters two texts share: those of the longest run, and those that the parts before
-- it and the parts after it share.
def sharedLength (s t : Text) : Nat :=
  go s.length s t
where
  go : Nat → Text → Text → Nat
    | 0, _, _ => 0
    | fuel + 1, s, t =>
        let (i, j, n) := longestRun s t
        if n = 0 then 0
        else go fuel (s.take i) (t.take j) + n + go fuel (s.drop (i + n)) (t.drop (j + n))

-- Texts are close if they share at least three fifths of their characters.
def isClose (s t : Text) : Bool :=
  3 * (s.length + t.length) ≤ 10 * sharedLength s t

-- Whether a text shares more than another with the same third.
def isCloserTo (word s t : Text) : Bool :=
  let shared (s : Text) := sharedLength s word
  let size (s : Text) := s.length + word.length
  shared t * size s < shared s * size t

-- The order of a dictionary, letter by letter.
def precedes (s t : Text) : Bool :=
  s.map CodePoint.code < t.map CodePoint.code

-- How many texts are offered at most in the place of one that is not known.
def maxOffers : Nat := 3

-- The candidates that are closest to a word, in the order of a dictionary. Of candidates that are
-- equally close the later ones are preferred.
def closest (word : Text) (candidates : List Text) : List Text :=
  let better (s t : Text) : Bool := isCloserTo word s t || !isCloserTo word t s && !precedes s t
  (((candidates.filter (isClose · word)).mergeSort better).take maxOffers).mergeSort
    fun s t => !precedes t s

end Unnest.Text
