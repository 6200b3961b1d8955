import Mathlib.Algebra.Order.BigOperators.Group.List
import Mathlib.Algebra.Order.Group.Nat
import Mathlib.Algebra.Ring.Nat
import Mathlib.Data.List.Flatten
import Unnest.Proofs.Json.Branches

namespace Unnest

namespace Json

-- The paths to all values at and below a value. A value comes before what lies below it, and
-- what lies below one branch before what lies below the next.
def preorder (j : Json) : List Path :=
  [] :: j.branches.attach.flatMap fun ⟨b, _⟩ => b.2.preorder.map (b.1 :: ·)
termination_by sizeOf j
decreasing_by exact sizeOf_lt_of_mem_branches ‹_›

theorem preorder_eq (j : Json) :
    j.preorder = [] :: j.branches.flatMap fun b => b.2.preorder.map (b.1 :: ·) := by
  rw [preorder]
  simp only [List.flatMap_subtype, List.unattach_attach]

-- The values that lie a number of steps below a value, with the paths that lead to them.
def level : Nat → Json → List (Path × Json)
  | 0, j => [([], j)]
  | n + 1, j => j.branches.flatMap fun b => (b.2.level n).map fun e => (b.1 :: e.1, e.2)

theorem mem_level_iff {n : Nat} {j x : Json} {p : Path} (h : j.WellFormed) :
    (p, x) ∈ j.level n ↔ p.length = n ∧ j.walk? p = some x := by
  induction n generalizing j p with
  | zero =>
      simp only [level, List.mem_singleton, Prod.mk.injEq, List.length_eq_zero_iff]
      constructor
      · rintro ⟨rfl, rfl⟩
        exact ⟨rfl, rfl⟩
      · rintro ⟨rfl, hx⟩
        exact ⟨rfl, (Option.some.inj hx).symm⟩
  | succ n ih =>
      simp only [level, List.mem_flatMap, List.mem_map]
      constructor
      · rintro ⟨⟨s, y⟩, hb, ⟨q, z⟩, hz, heq⟩
        obtain ⟨rfl, rfl⟩ := Prod.mk.inj heq
        obtain ⟨hlength, hwalk⟩ := (ih (h.branch hb)).mp hz
        refine ⟨congrArg (· + 1) hlength, ?_⟩
        rw [walk?, (child?_eq_some_iff h).mpr hb]
        exact hwalk
      · rintro ⟨hlength, hwalk⟩
        cases p with
        | nil => cases hlength
        | cons s q =>
            obtain ⟨y, hy, hz⟩ := Option.bind_eq_some_iff.mp hwalk
            have hb := (child?_eq_some_iff h).mp hy
            exact ⟨(s, y), hb, (q, x), (ih (h.branch hb)).mpr ⟨Nat.succ.inj hlength, hz⟩, rfl⟩

theorem level_add (m n : Nat) (j : Json) :
    j.level (m + n) =
      (j.level m).flatMap fun e => (e.2.level n).map fun f => (e.1 ++ f.1, f.2) := by
  induction m generalizing j with
  | zero => simp [level]
  | succ m ih =>
      rw [Nat.succ_add]
      simp only [level, ih, List.flatMap_assoc, List.flatMap_map, List.map_flatMap, List.map_map]
      rfl

-- Values equally far below a value stand in the order of all values.
theorem level_sublist_preorder (n : Nat) (j : Json) :
    ((j.level n).map Prod.fst).Sublist j.preorder := by
  induction n generalizing j with
  | zero =>
      rw [preorder_eq]
      exact List.singleton_sublist.mpr List.mem_cons_self
  | succ n ih =>
      rw [preorder_eq]
      simp only [level, List.map_flatMap, List.map_map]
      refine .cons _ (.flatMap_right _ fun b _ => ?_)
      have hbelow := (ih b.2).map (b.1 :: ·)
      rwa [List.map_map] at hbelow

theorem WellFormed.nodup_preorder {j : Json} (h : j.WellFormed) : j.preorder.Nodup := by
  induction h with
  | @intro j hkeys hbelow ih =>
      rw [preorder_eq, List.nodup_cons]
      constructor
      · simp
      · rw [List.nodup_flatMap]
        refine ⟨fun b hb => (ih b hb).map (List.cons_injective), ?_⟩
        -- two branches begin with different steps
        have hsteps := nodup_steps (.intro hkeys hbelow)
        refine (List.pairwise_map.mp hsteps).imp fun {b c} hne p hp hq => ?_
        obtain ⟨q, _, rfl⟩ := List.mem_map.mp hp
        obtain ⟨r, _, hr⟩ := List.mem_map.mp hq
        exact hne (List.cons.inj hr).1.symm

theorem leafCountElements_eq (xs : List Json) :
    leafCountElements xs = (xs.map leafCount).sum := by
  induction xs with
  | nil => rfl
  | cons x xs ih => rw [leafCountElements, ih, List.map_cons, List.sum_cons]

theorem leafCountEntries_eq (es : List (Text × Json)) :
    leafCountEntries es = (es.map fun e => e.2.leafCount).sum := by
  induction es with
  | nil => rfl
  | cons e es ih => rw [leafCountEntries, ih, List.map_cons, List.sum_cons]

theorem sum_leafCount_branches (j : Json) :
    (j.branches.map fun b => b.2.leafCount).sum ≤ j.leafCount := by
  cases j with
  | array xs =>
      have hbranches : (branches (.array xs)).map (fun b => b.2.leafCount) =
          (xs.zipIdx.map Prod.fst).map leafCount := by
        rw [branches, List.map_map, List.map_map]
        rfl
      rw [hbranches, List.zipIdx_map_fst, leafCount, leafCountElements_eq]
  | object es =>
      rw [branches, List.map_map, leafCount, leafCountEntries_eq]
      exact Nat.le_refl _
  | null | logical _ | number _ | string _ => exact Nat.zero_le _

-- No leaf lies below two values that are equally far below a third.
theorem sum_level_le (n : Nat) (j : Json) :
    ((j.level n).map fun e => e.2.leafCount).sum ≤ j.leafCount := by
  induction n generalizing j with
  | zero => simp [level]
  | succ n ih =>
      calc
        ((j.level (n + 1)).map fun e => e.2.leafCount).sum
            = (j.branches.map fun b => ((b.2.level n).map fun e => e.2.leafCount).sum).sum := by
          simp only [level, List.map_flatMap, List.map_map]
          rw [List.flatMap_def, List.sum_flatten, List.map_map]
          rfl
        _ ≤ (j.branches.map fun b => b.2.leafCount).sum :=
          List.sum_le_sum fun b _ => ih b.2
        _ ≤ j.leafCount := sum_leafCount_branches j

end Json

namespace Node

-- The nodes that lie a number of steps below a node.
def level (n : Nat) (v : Node) : List Node :=
  (v.json.level n).map fun e => { v with json := e.2, path := v.path ++ e.1 }

theorem level_add (m n : Nat) (v : Node) :
    v.level (m + n) = (v.level m).flatMap (level n) := by
  simp only [level, Json.level_add, List.map_flatMap, List.flatMap_map, List.map_map,
    Function.comp_def, List.append_assoc]

theorem level_one (v : Node) : v.level 1 = v.json.branches.map fun b => v.below b.1 b.2 := by
  rw [level]
  simp only [Json.level, List.map_cons, List.map_nil, List.map_flatMap]
  exact List.map_eq_flatMap.symm

theorem mem_level_iff {n : Nat} {v w : Node} (h : v.json.WellFormed) :
    w ∈ v.level n ↔ ∃ p, p.length = n ∧ v.walk? p = some w := by
  simp only [level, List.mem_map, Prod.exists, Json.mem_level_iff h, walk?_eq_some_iff]
  constructor
  · rintro ⟨p, x, ⟨hlength, hx⟩, rfl⟩
    exact ⟨p, hlength, x, hx, rfl⟩
  · rintro ⟨p, hlength, x, hx, rfl⟩
    exact ⟨p, x, ⟨hlength, hx⟩, rfl⟩

end Node

end Unnest
