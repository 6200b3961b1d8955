import Mathlib.Logic.Function.Iterate
import Unnest.Proofs.Json.Equality
import Unnest.Proofs.Json.Leaves

namespace Unnest

theorem Kind.isScalar_iff {k : Kind} :
    k.isScalar = true ↔ k = .string ∨ k = .number ∨ k = .logical := by
  cases k <;> simp [isScalar]

namespace Json

-- A scalar has nothing below it, and counts for one.
theorem leafCount_scalar {j : Json} (h : j.kind.isScalar = true) : j.leafCount = 1 := by
  cases j with
  | logical _ | number _ | string _ => rfl
  | null | array _ | object _ => cases h

theorem branches_scalar {j : Json} (h : j.kind.isScalar = true) : j.branches = [] := by
  cases j with
  | logical _ | number _ | string _ => rfl
  | null | array _ | object _ => cases h

-- A count that goes through a value with a stack: the scalars that have been counted, and the
-- values that are still to be looked at, the next one in front.
structure Tally where
  count : Nat
  pending : List Json

namespace Tally

def start (j : Json) : Tally :=
  ⟨0, [j]⟩

-- A scalar is counted. In the place of any other value come those one step below it, of which the
-- last is looked at first.
def round (t : Tally) : Tally :=
  match t.pending with
  | [] => t
  | j :: rest =>
      if j.kind.isScalar then ⟨t.count + 1, rest⟩
      else ⟨t.count, (j.branches.map Prod.snd).reverse ++ rest⟩

-- What a count comes to.
def total (t : Tally) : Nat :=
  t.count + (t.pending.map leafCount).sum

-- How many rounds there are to go, as every value is taken once.
def remaining (t : Tally) : Nat :=
  (t.pending.map size).sum

theorem pending_eq_nil_iff {t : Tally} : t.pending = [] ↔ t.remaining = 0 := by
  rw [remaining]
  cases t.pending with
  | nil => simp
  | cons j rest =>
      have hpos := j.size_pos
      simp only [List.map_cons, List.sum_cons, reduceCtorEq, false_iff]
      omega

theorem total_round (t : Tally) : t.round.total = t.total := by
  obtain ⟨count, _ | ⟨j, rest⟩⟩ := t
  · rfl
  · simp only [round]
    split
    · next hscalar =>
      simp only [total, List.map_cons, List.sum_cons, leafCount_scalar hscalar]
      omega
    · next hscalar =>
      have hbelow := leafCount_eq_sum (Bool.not_eq_true _ ▸ hscalar)
      simp only [total, List.map_append, List.map_reverse, List.sum_append, List.sum_reverse,
        List.map_map, Function.comp_def, List.map_cons, List.sum_cons, hbelow]

theorem remaining_round {t : Tally} (h : t.pending ≠ []) :
    t.remaining = t.round.remaining + 1 := by
  obtain ⟨count, _ | ⟨j, rest⟩⟩ := t
  · exact absurd rfl h
  · simp only [round]
    split
    · next hscalar =>
      simp only [remaining, List.map_cons, List.sum_cons, size_scalar (branches_scalar hscalar)]
      omega
    · simp only [remaining, List.map_append, List.map_reverse, List.sum_append, List.sum_reverse,
        List.map_map, Function.comp_def, List.map_cons, List.sum_cons, size_eq j]
      omega

-- A round leaves alone what the count comes to, and brings it one value closer to its end.
theorem total_rounds (t : Tally) (n : Nat) : (round^[n] t).total = t.total := by
  induction n with
  | zero => rfl
  | succ n ih => rw [Function.iterate_succ_apply', total_round, ih]

theorem remaining_rounds {t : Tally} {n : Nat} (h : n ≤ t.remaining) :
    t.remaining = (round^[n] t).remaining + n := by
  induction n with
  | zero => rfl
  | succ n ih =>
      have hleft := ih (Nat.le_of_succ_le h)
      have hpending : (round^[n] t).pending ≠ [] := by
        rw [ne_eq, pending_eq_nil_iff]
        omega
      rw [Function.iterate_succ_apply']
      have hround := remaining_round hpending
      omega

-- The count ends after as many rounds as there are values, and not before.
theorem ends (t : Tally) : round^[t.remaining] t = ⟨t.total, []⟩ ∧
    ∀ n < t.remaining, (round^[n] t).pending ≠ [] := by
  constructor
  · have hleft := remaining_rounds (Nat.le_refl t.remaining)
    have hpending := pending_eq_nil_iff.mpr (Nat.left_eq_add.mp (hleft.trans (Nat.add_comm ..)))
    have htotal := t.total_rounds t.remaining
    generalize round^[t.remaining] t = last at hpending htotal
    obtain ⟨count, pending⟩ := last
    obtain rfl : pending = [] := hpending
    rw [← htotal, total]
    rfl
  · intro n hn
    have hleft := remaining_rounds (Nat.le_of_lt hn)
    rw [ne_eq, pending_eq_nil_iff]
    omega

end Tally

-- Counting a value takes every value at and below it once.
theorem tally_start (j : Json) : Tally.round^[j.size] (.start j) = ⟨j.leafCount, []⟩ ∧
    ∀ n < j.size, (Tally.round^[n] (.start j)).pending ≠ [] := by
  have hends := (Tally.start j).ends
  have hremaining : (Tally.start j).remaining = j.size := Nat.add_zero _
  have htotal : (Tally.start j).total = j.leafCount := Nat.zero_add _
  rwa [hremaining, htotal] at hends

theorem leafCount_eq_countP (j : Json) :
    j.leafCount = j.traversal.countP fun e => e.2.kind.isScalar := by
  induction j using induction_branches with
  | step j ih =>
      rw [traversal_eq, List.countP_cons, List.countP_flatMap]
      by_cases hscalar : j.kind.isScalar = true
      · simp [leafCount_scalar hscalar, branches_scalar hscalar, hscalar]
      · have hbelow : (j.branches.map fun b => b.2.leafCount) = j.branches.map fun b =>
            (b.2.traversal.map fun e => (b.1 :: e.1, e.2)).countP fun e => e.2.kind.isScalar := by
          refine List.map_congr_left fun b hb => ?_
          rw [ih b hb, List.countP_map]
          rfl
        rw [leafCount_eq_sum (Bool.not_eq_true _ ▸ hscalar), hbelow, if_neg hscalar]
        rfl

-- The paths that lead to a scalar, in preorder.
def scalarPaths (j : Json) : List Path :=
  (j.traversal.filter fun e => e.2.kind.isScalar).map Prod.fst

theorem length_scalarPaths (j : Json) : j.scalarPaths.length = j.leafCount := by
  rw [scalarPaths, List.length_map, leafCount_eq_countP, List.countP_eq_length_filter]

theorem WellFormed.nodup_scalarPaths {j : Json} (h : j.WellFormed) : j.scalarPaths.Nodup := by
  have hpaths := h.nodup_preorder
  rw [← map_fst_traversal] at hpaths
  exact hpaths.sublist (List.filter_sublist.map _)

theorem WellFormed.mem_scalarPaths_iff {j : Json} (h : j.WellFormed) {path : Path} :
    path ∈ j.scalarPaths ↔ ∃ x, j.walk? path = some x ∧ x.kind.isScalar = true := by
  simp only [scalarPaths, List.mem_map, List.mem_filter, Prod.exists, exists_and_right,
    exists_eq_right, mem_traversal_iff h]

end Json

-- The same for the paths that a node is walked by.
theorem Node.mem_scalarPaths_iff {v : Node} (h : v.json.WellFormed) {path : Path} :
    path ∈ v.json.scalarPaths ↔
      ∃ w, v.walk? path = some w ∧ (w.kind = .string ∨ w.kind = .number ∨ w.kind = .logical) := by
  simp only [← Kind.isScalar_iff]
  rw [h.mem_scalarPaths_iff, walk?_eq_map]
  constructor
  · rintro ⟨x, hx, hscalar⟩
    exact ⟨_, Option.map_eq_some_iff.mpr ⟨x, hx, rfl⟩, hscalar⟩
  · rintro ⟨w, hw, hscalar⟩
    obtain ⟨x, hx, rfl⟩ := Option.map_eq_some_iff.mp hw
    exact ⟨x, hx, hscalar⟩

end Unnest
