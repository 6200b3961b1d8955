import Unnest.Document
import Unnest.Proofs.Outcome

namespace Unnest.Json

mutual

-- How many calls are nested in one another when a value is turned back into a datum.
def calls : Json → Nat
  | array xs => 2 + callsElements xs
  | object es => 2 + callsEntries es
  | _ => 1
  termination_by structural j => j

def callsElements : List Json → Nat
  | [] => 0
  | x :: xs => max x.calls (callsElements xs)
  termination_by structural xs => xs

def callsEntries : List (Text × Json) → Nat
  | [] => 0
  | (_, x) :: es => max x.calls (callsEntries es)
  termination_by structural es => es

end

mutual

-- Every level takes two calls, but for a scalar at the last one.
theorem calls_bounds : (j : Json) → 2 * j.depth < j.calls ∧ j.calls ≤ 2 * j.depth + 2
  | null | logical _ | number _ | string _ => by simp [depth, calls]
  | array xs => by
      have hbounds := callsElements_bounds xs
      rw [depth, calls]
      omega
  | object es => by
      have hbounds := callsEntries_bounds es
      rw [depth, calls]
      omega

theorem callsElements_bounds : (xs : List Json) →
    2 * depthElements xs ≤ callsElements xs + 1 ∧ callsElements xs ≤ 2 * depthElements xs
  | [] => by simp [depthElements, callsElements]
  | x :: xs => by
      have hbounds := calls_bounds x
      have hrest := callsElements_bounds xs
      rw [depthElements, callsElements]
      omega

theorem callsEntries_bounds : (es : List (Text × Json)) →
    2 * depthEntries es ≤ callsEntries es + 1 ∧ callsEntries es ≤ 2 * depthEntries es
  | [] => by simp [depthEntries, callsEntries]
  | (_, x) :: es => by
      have hbounds := calls_bounds x
      have hrest := callsEntries_bounds es
      rw [depthEntries, callsEntries]
      omega

end

-- What fits after some calls, or fails.
theorem ite_holds_within {room : Headroom} {calls inner : Nat} {x : Except Failure α}
    (h : room.Holds calls →
      x = if (room.within calls).Holds inner then .ok a else .error .overflow) :
    (if room.Holds calls then x else .error .overflow) =
      if room.Holds (calls + inner) then .ok a else .error .overflow := by
  by_cases hcalls : room.Holds calls
  · rw [if_pos hcalls, h hcalls, if_congr (Headroom.holds_within hcalls) rfl rfl]
  · rw [if_neg hcalls, if_neg fun hall => hcalls (hall.mono (Nat.le_add_right ..))]

-- Of two results that are come by one after the other, each has to fit by itself.
theorem bind_ite_holds {room : Headroom} {calls others : Nat} {a : α} {b : β}
    {f : α → β → Except Failure γ} :
    ((if room.Holds calls then .ok a else .error .overflow) >>= fun a =>
      (if room.Holds others then .ok b else .error .overflow) >>= f a) =
      if room.Holds (max calls others) then f a b else .error .overflow := by
  by_cases hcalls : room.Holds calls
  · by_cases hothers : room.Holds others
    · rw [if_pos hcalls, if_pos hothers, if_pos (Headroom.holds_max.mpr ⟨hcalls, hothers⟩)]
      rfl
    · rw [if_pos hcalls, if_neg hothers, if_neg fun h => hothers (Headroom.holds_max.mp h).2]
      rfl
  · rw [if_neg hcalls, if_neg fun h => hcalls (Headroom.holds_max.mp h).1]
    rfl

mutual

-- A value is turned back if its calls fit.
theorem toDatumWithin_eq : (j : Json) → (room : Headroom) →
    j.toDatumWithin room = if room.Holds j.calls then .ok j.toDatum else .error .overflow
  | null, _ | logical _, _ | number _, _ | string _, _ => rfl
  | array xs, room => by
      rw [toDatumWithin, calls, toDatum]
      refine ite_holds_within fun _ => ?_
      rw [toDatumElementsWithin_eq]
      split <;> rfl
  | object es, room => by
      rw [toDatumWithin, calls, toDatum]
      refine ite_holds_within fun _ => ?_
      rw [toDatumEntriesWithin_eq]
      split <;> rfl

theorem toDatumElementsWithin_eq : (xs : List Json) → (room : Headroom) →
    toDatumElementsWithin xs room =
      if room.Holds (callsElements xs) then .ok (toDatumElements xs) else .error .overflow
  | [], room => (if_pos room.holds_zero).symm
  | x :: xs, room => by
      rw [toDatumElementsWithin, toDatumWithin_eq, toDatumElementsWithin_eq, callsElements]
      exact bind_ite_holds

theorem toDatumEntriesWithin_eq : (es : List (Text × Json)) → (room : Headroom) →
    toDatumEntriesWithin es room =
      if room.Holds (callsEntries es) then .ok (toDatumEntries es) else .error .overflow
  | [], room => (if_pos room.holds_zero).symm
  | (_, x) :: es, room => by
      rw [toDatumEntriesWithin, toDatumWithin_eq, toDatumEntriesWithin_eq, callsEntries]
      exact bind_ite_holds

end

end Unnest.Json
