import Mathlib.Order.Bounds.Basic
import Unnest.Proofs.Datum.Inverse
import Unnest.Proofs.Json.Size

namespace Unnest

namespace Datum

-- What lies one step below a datum: the items of a list, or the values of a mapping.
def parts : Datum → List Datum
  | list xs => xs
  | dict es => es.map Prod.snd
  | _ => []

theorem lt_depthElements_iff {n : Nat} {xs : List Datum} :
    n < depthElements xs ↔ ∃ x ∈ xs, n ≤ x.depth := by
  induction xs with
  | nil => simp [depthElements]
  | cons x xs ih =>
      simp only [depthElements, lt_max_iff, Nat.lt_succ_iff, ih, List.mem_cons, exists_eq_or_imp]

theorem lt_depthEntries_iff {n : Nat} {es : List (Datum × Datum)} :
    n < depthEntries es ↔ ∃ e ∈ es, n ≤ e.2.depth := by
  induction es with
  | nil => simp [depthEntries]
  | cons e es ih =>
      simp only [depthEntries, lt_max_iff, Nat.lt_succ_iff, ih, List.mem_cons, exists_eq_or_imp]

theorem lt_depth_iff {n : Nat} {d : Datum} : n < d.depth ↔ ∃ x ∈ d.parts, n ≤ x.depth := by
  cases d with
  | list xs => exact lt_depthElements_iff
  | dict es =>
      rw [depth, lt_depthEntries_iff, parts]
      simp only [List.mem_map, exists_exists_and_eq_and]
  | none | bool _ | int _ | float _ | text _ | tuple _ | kind _ | descriptor _ | machineInt _
  | machineBool _ | foreign _ => simp [depth, parts]

theorem sum_sizeOf_parts_lt (d : Datum) : (d.parts.map fun x => sizeOf x).sum < sizeOf d := by
  cases d with
  | list xs =>
      have hlt := sum_sizeOf_numbered_lt 0 xs
      have hitems : (xs.map fun x => sizeOf x) = (numbered 0 xs).map fun e => sizeOf e.2 := by
        conv_lhs => rw [← map_snd_numbered 0 xs, List.map_map]
        rfl
      rw [parts, hitems, list.sizeOf_spec]
      omega
  | dict es =>
      have hlt := sum_sizeOf_items_lt es
      rw [parts, List.map_map, dict.sizeOf_spec]
      simp only [Function.comp_def]
      omega
  | none | bool _ | int _ | float _ | text _ | tuple _ | kind _ | descriptor _ | machineInt _
  | machineBool _ | foreign _ => exact sizeOf_pos _

end Datum

namespace Json

mutual

theorem depth_toDatum : (j : Json) → j.toDatum.depth = j.depth
  | null | logical _ | string _ => rfl
  | number (.int _) | number (.real _) => rfl
  | array xs => depthElements_toDatum xs
  | object es => depthEntries_toDatum es

theorem depthElements_toDatum :
    (xs : List Json) → Datum.depthElements (toDatumElements xs) = depthElements xs
  | [] => rfl
  | x :: xs => by
      rw [toDatumElements, Datum.depthElements, depth_toDatum, depthElements_toDatum, depthElements]

theorem depthEntries_toDatum :
    (es : List (Text × Json)) → Datum.depthEntries (toDatumEntries es) = depthEntries es
  | [] => rfl
  | (k, x) :: es => by
      rw [toDatumEntries, Datum.depthEntries, depth_toDatum, depthEntries_toDatum, depthEntries]

end

theorem parts_toDatum (j : Json) : j.toDatum.parts = j.branches.map fun b => b.2.toDatum := by
  cases j with
  | array xs => rw [branches_array, toDatum, toDatumElements_eq, Datum.parts]
  | object es =>
      rw [toDatum, toDatumEntries_eq, Datum.parts, branches, List.map_map, List.map_map]
      rfl
  | null | logical _ | string _ => rfl
  | number n => cases n <;> rfl

-- A value is deeper than each of its branches, and not deeper than the deepest of them needs.
theorem lt_depth_iff {n : Nat} {j : Json} : n < j.depth ↔ ∃ b ∈ j.branches, n ≤ b.2.depth := by
  rw [← depth_toDatum, Datum.lt_depth_iff, parts_toDatum]
  simp only [List.mem_map, exists_exists_and_eq_and, depth_toDatum]

theorem le_depth_iff {n : Nat} {j : Json} : n ≤ j.depth ↔ ∃ e, e ∈ j.level n := by
  induction n generalizing j with
  | zero => simp [level]
  | succ n ih =>
      rw [Nat.succ_le_iff, lt_depth_iff]
      simp only [ih, level, List.mem_flatMap, List.mem_map]
      constructor
      · rintro ⟨b, hb, e, he⟩
        exact ⟨_, b, hb, e, he, rfl⟩
      · rintro ⟨_, b, hb, e, he, -⟩
        exact ⟨b, hb, e, he⟩

end Json

namespace Node

-- How far the paths lead that lead to something.
def reach (v : Node) : Set Nat :=
  {n | ∃ path w, v.walk? path = some w ∧ path.length = n}

theorem mem_reach_iff {v : Node} (h : v.json.WellFormed) {n : Nat} :
    n ∈ v.reach ↔ n ≤ v.json.depth := by
  rw [Json.le_depth_iff]
  constructor
  · rintro ⟨path, w, hw, hlength⟩
    obtain ⟨x, hx, -⟩ := walk?_eq_some_iff.mp hw
    exact ⟨(path, x), (Json.mem_level_iff h).mpr ⟨hlength, hx⟩⟩
  · rintro ⟨⟨path, x⟩, hx⟩
    obtain ⟨hlength, hx⟩ := (Json.mem_level_iff h).mp hx
    exact ⟨path, _, walk?_eq_some_iff.mpr ⟨x, hx, rfl⟩, hlength⟩

theorem isGreatest_reach {v : Node} (h : v.json.WellFormed) : IsGreatest v.reach v.json.depth :=
  ⟨(mem_reach_iff h).mpr (Nat.le_refl _), fun _ hn => (mem_reach_iff h).mp hn⟩

end Node

end Unnest
