import Unnest.Text.Basic

namespace Unnest.Entries

variable {κ : Type u} {α : Type v} [BEq κ]

-- Puts an entry in the place of the one with an equal key, or last.
def put (key : κ) (value : α) : List (κ × α) → List (κ × α)
  | [] => [(key, value)]
  | (k, x) :: es => if k == key then (k, value) :: es else (k, x) :: put key value es

-- A repeated key keeps its first place and its last value.
def ofList (es : List (κ × α)) : List (κ × α) :=
  es.foldl (fun fs (k, x) => put k x fs) []

variable [LawfulBEq κ]

theorem lookup_put_self (key : κ) (value : α) (es : List (κ × α)) :
    (put key value es).lookup key = some value := by
  induction es with
  | nil => simp [put]
  | cons e es ih =>
      obtain ⟨k, x⟩ := e
      by_cases h : k = key
      · simp [put, h]
      · have hne : (key == k) = false := beq_eq_false_iff_ne.mpr (Ne.symm h)
        simp [put, h, List.lookup_cons, hne, ih]

theorem lookup_put_of_ne {key other : κ} (h : other ≠ key) (value : α) (es : List (κ × α)) :
    (put key value es).lookup other = es.lookup other := by
  induction es with
  | nil =>
      have hne : (other == key) = false := beq_eq_false_iff_ne.mpr h
      simp [put, List.lookup_cons, hne]
  | cons e es ih =>
      obtain ⟨k, x⟩ := e
      by_cases hk : k = key
      · have hne : (other == key) = false := beq_eq_false_iff_ne.mpr h
        simp [put, hk, List.lookup_cons, hne]
      · simp only [put, beq_iff_eq, hk, if_false, List.lookup_cons]
        split <;> simp_all

-- An old key keeps its place, and a new one goes last.
theorem keys_put (key : κ) (value : α) (es : List (κ × α)) :
    (put key value es).map Prod.fst =
      if key ∈ es.map Prod.fst then es.map Prod.fst else es.map Prod.fst ++ [key] := by
  induction es with
  | nil => simp [put]
  | cons e es ih =>
      obtain ⟨k, x⟩ := e
      by_cases h : k = key
      · simp [put, h]
      · by_cases hm : key ∈ es.map Prod.fst
        · rw [if_pos hm] at ih
          rw [if_pos (by simp_all)]
          simp [put, h, ih]
        · rw [if_neg hm] at ih
          rw [if_neg (by simp_all [Ne.symm h])]
          simp [put, h, ih]

theorem nodup_keys_put (key : κ) (value : α) {es : List (κ × α)}
    (h : (es.map Prod.fst).Nodup) : ((put key value es).map Prod.fst).Nodup := by
  rw [keys_put]
  split
  · exact h
  · next hm =>
    rw [List.nodup_append]
    exact ⟨h, by simp, fun a ha b hb => by simp at hb; rintro rfl; exact hm (hb ▸ ha)⟩

theorem nodup_keys_ofList (es : List (κ × α)) : ((ofList es).map Prod.fst).Nodup := by
  have step (fs : List (κ × α)) (h : (fs.map Prod.fst).Nodup) :
      ((es.foldl (fun fs (k, x) => put k x fs) fs).map Prod.fst).Nodup := by
    induction es generalizing fs with
    | nil => exact h
    | cons e es ih => exact ih _ (nodup_keys_put _ _ h)
  exact step [] List.nodup_nil

end Unnest.Entries
