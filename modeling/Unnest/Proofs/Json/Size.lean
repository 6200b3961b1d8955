import Unnest.Proofs.Json.Levels
import Unnest.Proofs.Json.Throughout

namespace Unnest.Json

-- The number of values at and below a value.
def size (j : Json) : Nat :=
  j.preorder.length

theorem size_eq (j : Json) : j.size = 1 + (j.branches.map fun b => b.2.size).sum := by
  rw [size, preorder_eq, List.length_cons, List.length_flatMap]
  simp only [List.length_map]
  exact Nat.add_comm ..

theorem size_scalar {j : Json} (h : j.branches = []) : j.size = 1 := by
  rw [size_eq, h]
  rfl

theorem size_pos (j : Json) : 0 < j.size := by
  rw [size_eq]
  omega

theorem branches_array (xs : List Json) (f : Json → β) :
    ((array xs).branches.map fun b => f b.2) = xs.map f := by
  rw [branches, List.map_map]
  calc
    xs.zipIdx.map _ = (xs.zipIdx.map Prod.fst).map f := by rw [List.map_map]; rfl
    _ = xs.map f := by rw [List.zipIdx_map_fst]

theorem size_array (xs : List Json) : (array xs).size = 1 + (xs.map size).sum := by
  rw [size_eq, branches_array]

theorem size_object (es : List (Text × Json)) :
    (object es).size = 1 + (es.map fun e => e.2.size).sum := by
  rw [size_eq, branches, List.map_map]
  rfl

theorem size_le_of_mem_branches {j : Json} {b : Step × Json} (h : b ∈ j.branches) :
    b.2.size ≤ j.size := by
  have hle := List.single_le_sum (fun _ _ => Nat.zero_le _) _
    (List.mem_map_of_mem (f := fun b : Step × Json => b.2.size) h)
  rw [size_eq j]
  omega

theorem inherited_size_le (bound : Nat) : Inherited fun j => j.size ≤ bound :=
  fun _ hj _ hb => (size_le_of_mem_branches hb).trans hj

theorem length_le_size (j : Json) : j.length ≤ j.size := by
  have hlength {α : Type} (l : List α) (f : α → Nat) (hf : ∀ a ∈ l, 1 ≤ f a) :
      l.length ≤ (l.map f).sum := by
    simpa using List.length_le_sum_of_one_le (l.map f) (by simpa using hf)
  cases j with
  | array xs =>
      have hle := hlength xs size fun x _ => x.size_pos
      rw [size_array]
      exact hle.trans (Nat.le_add_left ..)
  | object es =>
      have hle := hlength es (fun e => e.2.size) fun e _ => e.2.size_pos
      rw [size_object]
      exact hle.trans (Nat.le_add_left ..)
  | null | logical _ | number _ | string _ => exact size_pos _

theorem leafCount_le_size (j : Json) : j.leafCount ≤ j.size := by
  induction j using induction_branches with
  | step j ih =>
      cases j with
      | array xs =>
          rw [leafCount, leafCountElements_eq, size_array]
          have hle : (xs.map leafCount).sum ≤ (xs.map size).sum := by
            rw [← branches_array, ← branches_array xs size]
            exact List.sum_le_sum fun b hb => ih b hb
          exact hle.trans (Nat.le_add_left ..)
      | object es =>
          rw [leafCount, leafCountEntries_eq, size_object]
          have hle : (es.map fun e => e.2.leafCount).sum ≤ (es.map fun e => e.2.size).sum :=
            List.sum_le_sum fun e he => ih (.key e.1, e.2) (List.mem_map_of_mem he)
          exact hle.trans (Nat.le_add_left ..)
      | null => exact Nat.zero_le _
      | logical _ | number _ | string _ => exact size_pos _

end Unnest.Json
