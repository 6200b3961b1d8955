import Unnest.Datum.Basic

namespace Unnest

-- How sequences nest: the number of elements on each level, from the outermost on, as far as the
-- sequences of a level agree. They are even if they agree down to the scalars.
structure Shape where
  sizes : List Nat
  isEven : Bool
  deriving DecidableEq, Repr

namespace Shape

def scalar : Shape := ⟨[], true⟩

def row (length : Nat) : Shape := ⟨[length], true⟩

-- What two lists of sizes begin with.
def common : List Nat → List Nat → List Nat
  | m :: ms, n :: ns => if m = n then m :: common ms ns else []
  | _, _ => []

-- A sequence whose elements have the given shapes.
def ofElements : List Shape → Shape
  | [] => row 0
  | s :: rest =>
      { sizes := (rest.length + 1) :: rest.foldl (fun sizes t => common sizes t.sizes) s.sizes
        isEven := s.isEven && rest.all (· = s) }

-- How many scalars sequences of the given sizes hold.
def count (sizes : List Nat) : Nat :=
  sizes.foldr (· * ·) 1

end Shape

namespace Datum

mutual

-- Texts and mappings count as scalars.
def shape : Datum → Shape
  | list xs => .ofElements (shapes xs)
  | tuple xs => .ofElements (shapes xs)
  | foreign .bytearray => .row byteValues.length
  | _ => .scalar
  termination_by structural d => d

def shapes : List Datum → List Shape
  | [] => []
  | x :: xs => x.shape :: shapes xs
  termination_by structural xs => xs

end

mutual

-- The scalars that sequences hold, in order.
def scalars : Datum → List Datum
  | list xs => scalarsOf xs
  | tuple xs => scalarsOf xs
  | foreign .bytearray => byteValues
  | d => [d]
  termination_by structural d => d

def scalarsOf : List Datum → List Datum
  | [] => []
  | x :: xs => x.scalars ++ scalarsOf xs
  termination_by structural xs => xs

end

-- The elements of a sequence of the given sizes, filled with scalars in order.
def nest : List Nat → List Datum → List Datum
  | size :: next :: sizes, ds =>
      let step := Shape.count (next :: sizes)
      (List.range size).map fun i => list (nest (next :: sizes) ((ds.drop (i * step)).take step))
  | _, ds => ds

end Datum

namespace Shape

theorem common_self (sizes : List Nat) : common sizes sizes = sizes := by
  induction sizes with
  | nil => rfl
  | cons n sizes ih => simp [common, ih]

theorem foldl_common_self {shapes : List Shape} {s : Shape} (h : ∀ t ∈ shapes, t = s) :
    shapes.foldl (fun sizes t => common sizes t.sizes) s.sizes = s.sizes := by
  induction shapes with
  | nil => rfl
  | cons t shapes ih =>
      simp only [List.mem_cons, forall_eq_or_imp] at h
      simp only [List.foldl_cons, h.1, common_self]
      exact ih h.2

-- Elements of one even shape make a sequence with one more level.
theorem ofElements_of_forall_eq {shapes : List Shape} {s : Shape} (hs : s.isEven = true)
    (h : ∀ t ∈ shapes, t = s) (hne : shapes ≠ []) :
    ofElements shapes = ⟨shapes.length :: s.sizes, true⟩ := by
  cases shapes with
  | nil => exact absurd rfl hne
  | cons t shapes =>
      simp only [List.mem_cons, forall_eq_or_imp] at h
      obtain ⟨rfl, h⟩ := h
      simp [ofElements, foldl_common_self h, hs, List.all_eq_true]
      exact h

-- An even sequence has elements of one even shape.
theorem forall_eq_of_isEven {shapes : List Shape} {s : Shape}
    (h : (ofElements (s :: shapes)).isEven = true) :
    s.isEven = true ∧ ∀ t ∈ shapes, t = s := by
  simpa [ofElements, List.all_eq_true] using h

end Shape

namespace Datum

theorem length_shapes (xs : List Datum) : (shapes xs).length = xs.length := by
  induction xs with
  | nil => simp [shapes]
  | cons x xs ih => simp [shapes, ih]

-- Even sequences hold as many scalars as their sizes tell, given that this is so for what they
-- hold.
theorem length_scalarsOf_of_even {xs : List Datum}
    (h : ∀ s : Shape, s.isEven = true → (∀ t ∈ shapes xs, t = s) →
      (scalarsOf xs).length = xs.length * Shape.count s.sizes)
    (heven : (Shape.ofElements (shapes xs)).isEven = true) :
    (scalarsOf xs).length = Shape.count (Shape.ofElements (shapes xs)).sizes := by
  cases xs with
  | nil => simp [scalarsOf, shapes, Shape.ofElements, Shape.row, Shape.count]
  | cons x xs =>
      obtain ⟨hs, hall⟩ := Shape.forall_eq_of_isEven heven
      have hall : ∀ t ∈ shapes (x :: xs), t = x.shape := by simpa [shapes] using hall
      rw [h x.shape hs hall, Shape.ofElements_of_forall_eq hs hall (by simp [shapes])]
      simp [Shape.count, length_shapes]

mutual

theorem length_scalars (d : Datum) (h : d.shape.isEven = true) :
    d.scalars.length = Shape.count d.shape.sizes :=
  match d with
  | list xs => by
      simpa [scalars, shape] using
        length_scalarsOf_of_even (length_scalarsOf xs) (by simpa [shape] using h)
  | tuple xs => by
      simpa [scalars, shape] using
        length_scalarsOf_of_even (length_scalarsOf xs) (by simpa [shape] using h)
  | foreign f => by cases f <;> simp [scalars, shape, Shape.scalar, Shape.row, Shape.count]
  | none | bool _ | int _ | float _ | text _ | dict _ | kind _ | descriptor _ | machineInt _
  | machineBool _ => by simp [scalars, shape, Shape.scalar, Shape.count]

theorem length_scalarsOf (xs : List Datum) (s : Shape) (hs : s.isEven = true)
    (h : ∀ t ∈ shapes xs, t = s) :
    (scalarsOf xs).length = xs.length * Shape.count s.sizes :=
  match xs with
  | [] => by simp [scalarsOf]
  | x :: xs => by
      simp only [shapes, List.mem_cons, forall_eq_or_imp] at h
      have hx := length_scalars x (by rw [h.1]; exact hs)
      have hxs := length_scalarsOf xs s hs h.2
      rw [h.1] at hx
      simp only [scalarsOf, List.length_append, hx, hxs, List.length_cons, Nat.succ_mul]
      omega

end

end Datum

end Unnest
