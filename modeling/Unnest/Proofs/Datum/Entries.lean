import Mathlib.Algebra.Order.Group.Nat
import Mathlib.Algebra.Ring.Nat
import Unnest.Document
import Unnest.Proofs.Entries

namespace Unnest

theorem exists_mem_zipIdx {l : List α} {a : α} (h : a ∈ l) : ∃ i, (a, i) ∈ l.zipIdx := by
  rw [← List.zipIdx_map_fst 0 l] at h
  obtain ⟨⟨_, i⟩, hmem, rfl⟩ := List.mem_map.mp h
  exact ⟨i, hmem⟩

namespace Datum

def isContainer : Datum → Bool
  | list _ | tuple _ | dict _ => true
  | _ => false

theorem container_cases {d : Datum} (h : d.isContainer = true) :
    (∃ xs, d = list xs) ∨ (∃ xs, d = tuple xs) ∨ ∃ es, d = dict es := by
  cases d <;> simp_all [isContainer]

-- The items of a sequence under their positions, of which those before the items are counted.
def numbered (before : Nat) (xs : List Datum) : List (Datum × Datum) :=
  (xs.zipIdx before).map fun (x, i) => (ofNat (i + 1), x)

theorem numbered_cons (before : Nat) (x : Datum) (xs : List Datum) :
    numbered before (x :: xs) = (ofNat (before + 1), x) :: numbered (before + 1) xs := rfl

theorem map_snd_numbered (before : Nat) (xs : List Datum) :
    (numbered before xs).map Prod.snd = xs := by
  rw [numbered, List.map_map]
  exact List.zipIdx_map_fst before xs

theorem forall_numbered {p : Datum → Prop} {before : Nat} {xs : List Datum} :
    (∀ e ∈ numbered before xs, p e.2) ↔ ∀ x ∈ xs, p x := by
  conv_rhs => rw [← map_snd_numbered before xs]
  exact List.forall_mem_map.symm

-- What a container holds: the items of a mapping under their keys, those of a sequence under their
-- positions, counted from one.
def entries : Datum → List (Datum × Datum)
  | list xs | tuple xs => numbered 0 xs
  | dict es => es
  | _ => []

theorem sizeOf_lt_of_mem_entries {d : Datum} {e : Datum × Datum} (h : e ∈ d.entries) :
    sizeOf e.2 < sizeOf d := by
  cases d with
  | list xs | tuple xs =>
      obtain ⟨⟨x, i⟩, hx, rfl⟩ := List.mem_map.mp h
      have hlt := List.sizeOf_lt_of_mem (List.fst_mem_of_mem_zipIdx hx)
      simp only [list.sizeOf_spec, tuple.sizeOf_spec] at hlt ⊢
      omega
  | dict es =>
      have hlt := List.sizeOf_lt_of_mem (show e ∈ es from h)
      obtain ⟨k, x⟩ := e
      simp only [dict.sizeOf_spec, Prod.mk.sizeOf_spec] at hlt ⊢
      omega
  | none | bool _ | int _ | float _ | text _ | kind _ | descriptor _ | machineInt _
  | machineBool _ | foreign _ => cases h

theorem sizeOf_pos (d : Datum) : 0 < sizeOf d := by
  cases d <;> simp

theorem sum_sizeOf_numbered_lt (before : Nat) (xs : List Datum) :
    ((numbered before xs).map fun e => sizeOf e.2).sum < sizeOf xs := by
  induction xs generalizing before with
  | nil => simp [numbered]
  | cons x xs ih =>
      have hrest := ih (before + 1)
      simp only [numbered_cons, List.map_cons, List.sum_cons, List.cons.sizeOf_spec]
      omega

theorem sum_sizeOf_items_lt (es : List (Datum × Datum)) :
    (es.map fun e => sizeOf e.2).sum < sizeOf es := by
  induction es with
  | nil => simp
  | cons e es ih =>
      obtain ⟨k, x⟩ := e
      simp only [List.map_cons, List.sum_cons, List.cons.sizeOf_spec, Prod.mk.sizeOf_spec]
      omega

-- The items are smaller than their container, even if one more is added.
theorem sum_sizeOf_entries_lt {d : Datum} (h : d.isContainer = true) :
    1 + (d.entries.map fun e => sizeOf e.2).sum < sizeOf d := by
  rcases container_cases h with ⟨xs, rfl⟩ | ⟨xs, rfl⟩ | ⟨es, rfl⟩
  · have hlt := sum_sizeOf_numbered_lt 0 xs
    simp only [entries, list.sizeOf_spec]
    omega
  · have hlt := sum_sizeOf_numbered_lt 0 xs
    simp only [entries, tuple.sizeOf_spec]
    omega
  · have hlt := sum_sizeOf_items_lt es
    simp only [entries, dict.sizeOf_spec]
    omega

-- What holds of a datum whenever it holds of its items, holds of every datum.
theorem induction_entries {motive : Datum → Prop}
    (step : ∀ d, (∀ e ∈ d.entries, motive e.2) → motive d) (d : Datum) : motive d :=
  step d fun e _ => induction_entries step e.2
termination_by sizeOf d
decreasing_by exact sizeOf_lt_of_mem_entries ‹_›

-- No mapping has a key that is like one before it, however deep it lies.
inductive Proper : Datum → Prop
  | intro {d : Datum} : (d.entries.map Prod.fst).Pairwise (fun k l => (l == k) = false) →
      (∀ e ∈ d.entries, Proper e.2) → Proper d

theorem Proper.keys {d : Datum} (h : d.Proper) :
    (d.entries.map Prod.fst).Pairwise fun k l => (l == k) = false := by
  cases h
  assumption

theorem Proper.entry {d : Datum} (h : d.Proper) {e : Datum × Datum} (he : e ∈ d.entries) :
    e.2.Proper := by
  cases h with
  | intro _ hbelow => exact hbelow e he

theorem Proper.scalar {d : Datum} (h : d.entries = []) : d.Proper :=
  .intro (by simp [h]) (by simp [h])

-- Texts are alike only where they are equal.
theorem pairwise_text {keys : List Text} (h : keys.Nodup) :
    (keys.map text).Pairwise fun k l => (l == k) = false := by
  refine List.pairwise_map.mpr (h.imp fun {k l} hne => ?_)
  have hother : (l == k) = false := beq_eq_false_iff_ne.mpr (Ne.symm hne)
  exact hother

end Datum

end Unnest
