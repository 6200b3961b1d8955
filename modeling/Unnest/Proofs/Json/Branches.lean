import Mathlib.Data.List.Nodup
import Unnest.Json.Node
import Unnest.Proofs.Entries

namespace Unnest

namespace Json

-- The values one step below a value, in the order in which they are read.
def branches : Json → List (Step × Json)
  | array xs => xs.zipIdx.map fun (x, i) => (.index (i + 1), x)
  | object es => es.map fun (k, x) => (.key k, x)
  | _ => []

theorem sizeOf_lt_of_mem_branches {j : Json} {b : Step × Json} (h : b ∈ j.branches) :
    sizeOf b.2 < sizeOf j := by
  cases j with
  | array xs =>
      simp only [branches, List.mem_map] at h
      obtain ⟨⟨x, i⟩, hx, rfl⟩ := h
      have hlt := List.sizeOf_lt_of_mem (List.fst_mem_of_mem_zipIdx hx)
      simp only [array.sizeOf_spec] at hlt ⊢
      omega
  | object es =>
      simp only [branches, List.mem_map] at h
      obtain ⟨⟨k, x⟩, hx, rfl⟩ := h
      have hlt := List.sizeOf_lt_of_mem hx
      simp only [object.sizeOf_spec, Prod.mk.sizeOf_spec] at hlt ⊢
      omega
  | null | logical _ | number _ | string _ => simp [branches] at h

-- What holds of a value whenever it holds one step below it, holds of every value.
theorem induction_branches {motive : Json → Prop}
    (step : ∀ j, (∀ b ∈ j.branches, motive b.2) → motive j) (j : Json) : motive j :=
  step j fun b _ => induction_branches step b.2
termination_by sizeOf j
decreasing_by exact sizeOf_lt_of_mem_branches ‹_›

-- No object has a key twice, however deep it lies.
inductive WellFormed : Json → Prop
  | intro {j : Json} : j.keys.Nodup → (∀ b ∈ j.branches, WellFormed b.2) → WellFormed j

theorem WellFormed.keys_nodup {j : Json} (h : j.WellFormed) : j.keys.Nodup := by
  cases h
  assumption

theorem WellFormed.branch {j : Json} (h : j.WellFormed) {b : Step × Json} (hb : b ∈ j.branches) :
    b.2.WellFormed := by
  cases h with
  | intro _ hbelow => exact hbelow b hb

theorem WellFormed.scalar {j : Json} (h : j.branches = []) (hk : j.entries = []) : j.WellFormed :=
  .intro (by simp [keys, hk]) (by simp [h])

theorem WellFormed.array {xs : List Json} (h : ∀ x ∈ xs, x.WellFormed) :
    (Json.array xs).WellFormed := by
  refine .intro (by simp [keys, entries]) fun b hb => ?_
  simp only [branches, List.mem_map] at hb
  obtain ⟨⟨x, i⟩, hx, rfl⟩ := hb
  exact h x (List.fst_mem_of_mem_zipIdx hx)

theorem WellFormed.object {es : List (Text × Json)} (hk : (es.map Prod.fst).Nodup)
    (h : ∀ e ∈ es, e.2.WellFormed) : (Json.object es).WellFormed := by
  refine .intro hk fun b hb => ?_
  simp only [branches, List.mem_map] at hb
  obtain ⟨e, he, rfl⟩ := hb
  exact h e he

theorem nodup_steps {j : Json} (h : j.WellFormed) : (j.branches.map Prod.fst).Nodup := by
  cases j with
  | array xs =>
      have hsteps : (branches (.array xs)).map Prod.fst =
          (List.range' 0 xs.length).map fun i : Nat => Step.index (i + 1) := by
        rw [← List.zipIdx_map_snd 0 xs, branches, List.map_map, List.map_map]
        rfl
      rw [hsteps]
      refine List.Nodup.map (fun a b hab => ?_) List.nodup_range'
      have hint := Step.index.inj hab
      omega
  | object es =>
      have hsteps : (branches (.object es)).map Prod.fst = (es.map Prod.fst).map Step.key := by
        simp [branches]
      rw [hsteps]
      exact h.keys_nodup.map fun a b hab => by simpa using hab
  | null | logical _ | number _ | string _ => simp [branches]

-- A step leads to a value exactly if it is one of the branches.
theorem child?_eq_some_iff {j : Json} (h : j.WellFormed) {s : Step} {x : Json} :
    j.child? s = some x ↔ (s, x) ∈ j.branches := by
  cases j with
  | array xs =>
      cases s with
      | key k => simp [child?, get?, entries, branches]
      | index i =>
          simp only [child?, element?, branches, List.mem_map, Prod.exists,
            List.mem_zipIdx_iff_getElem?, Prod.mk.injEq, Step.index.injEq]
          constructor
          · intro hx
            split at hx
            · exact ⟨x, (i - 1).toNat, hx, by omega, rfl⟩
            · cases hx
          · rintro ⟨y, n, hy, rfl, rfl⟩
            simpa [show 1 ≤ (n : Int) + 1 by omega] using hy
  | object es =>
      cases s with
      | key k =>
          have hk : (es.map Prod.fst).Nodup := h.keys_nodup
          simp only [child?, get?, entries, branches, List.mem_map, Prod.mk.injEq, Step.key.injEq,
            Entries.lookup_reverse hk, Entries.lookup_eq_some_iff_mem hk]
          constructor
          · intro hm
            exact ⟨(k, x), hm, rfl, rfl⟩
          · rintro ⟨e, he, rfl, rfl⟩
            exact he
      | index i => simp [child?, element?, branches]
  | null | logical _ | number _ | string _ =>
      cases s <;> simp [child?, get?, element?, entries, branches]

theorem WellFormed.walk {j x : Json} (h : j.WellFormed) {p : Path} (hx : j.walk? p = some x) :
    x.WellFormed := by
  induction p generalizing j with
  | nil =>
      obtain rfl := Option.some.inj hx
      exact h
  | cons s p ih =>
      obtain ⟨y, hy, hw⟩ := Option.bind_eq_some_iff.mp hx
      exact ih (h.branch ((child?_eq_some_iff h).mp hy)) hw

theorem walk?_append (j : Json) (p q : Path) :
    j.walk? (p ++ q) = (j.walk? p).bind (·.walk? q) := by
  induction p generalizing j with
  | nil => rfl
  | cons s p ih => cases h : j.child? s <;> simp [walk?, h, ih]

end Json

namespace Node

-- A walk moves the value and the recorded path together, and leaves the origin alone.
theorem walk?_eq_some_iff {v w : Node} {p : Path} :
    v.walk? p = some w ↔
      ∃ x, v.json.walk? p = some x ∧ w = { v with json := x, path := v.path ++ p } := by
  induction p generalizing v with
  | nil => simp [walk?, Json.walk?, eq_comm]
  | cons s p ih =>
      cases h : v.json.child? s with
      | none => simp [walk?, Json.walk?, child?, h]
      | some y => simp [walk?, Json.walk?, child?, h, ih, below]

theorem walk?_eq_map (v : Node) (path : Path) : v.walk? path =
    (v.json.walk? path).map fun x => { v with json := x, path := v.path ++ path } := by
  ext w
  rw [walk?_eq_some_iff, Option.map_eq_some_iff]
  simp only [eq_comm]

theorem walk?_append (v : Node) (p q : Path) :
    v.walk? (p ++ q) = (v.walk? p).bind (·.walk? q) := by
  induction p generalizing v with
  | nil => rfl
  | cons s p ih => cases h : v.child? s <;> simp [walk?, h, ih]

end Node

end Unnest
