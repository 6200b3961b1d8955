import Unnest.Proofs.Datum.Display
import Unnest.Proofs.Json.Branches

namespace Unnest.Json

theorem mem_branches_of_child? {j x : Json} {s : Step} (h : j.child? s = some x) :
    (s, x) ∈ j.branches := by
  cases s with
  | key k =>
      cases j with
      | object es =>
          exact List.mem_map_of_mem (List.mem_reverse.mp (Entries.mem_of_lookup h))
      | null | logical _ | number _ | string _ | array _ => cases h
  | index i =>
      cases j with
      | array xs =>
          simp only [child?, element?] at h
          split at h
          · refine List.mem_map.mpr ⟨(x, (i - 1).toNat), List.mem_zipIdx_iff_getElem?.mpr h, ?_⟩
            simp only [Prod.mk.injEq, Step.index.injEq, and_true]
            omega
          · cases h
      | null | logical _ | number _ | string _ | object _ => cases h

-- What holds of a value holds of all values below it.
def Inherited (p : Json → Prop) : Prop :=
  ∀ j, p j → ∀ b ∈ j.branches, p b.2

theorem Inherited.walk {p : Json → Prop} (hp : Inherited p) {j x : Json} {path : Path}
    (h : j.walk? path = some x) (hj : p j) : p x := by
  induction path generalizing j with
  | nil =>
      obtain rfl := Option.some.inj h
      exact hj
  | cons s path ih =>
      obtain ⟨y, hy, hx⟩ := Option.bind_eq_some_iff.mp h
      exact ih hx (hp j hj _ (mem_branches_of_child? hy))

-- Something holds of a value and of all values below it.
inductive Throughout (p : Json → Prop) : Json → Prop
  | intro {j : Json} : p j → (∀ b ∈ j.branches, Throughout p b.2) → Throughout p j

theorem Throughout.own {p : Json → Prop} {j : Json} (h : j.Throughout p) : p j := by
  cases h
  assumption

theorem Throughout.mono {p q : Json → Prop} (h : ∀ j, p j → q j) {j : Json}
    (hj : j.Throughout p) : j.Throughout q := by
  induction hj with
  | intro hown _ ih => exact .intro (h _ hown) ih

theorem inherited_throughout (p : Json → Prop) : Inherited (Throughout p) := by
  intro j hj b hb
  cases hj with
  | intro _ hbelow => exact hbelow b hb

-- All the integers at and below a value can be written out.
def Spellable : Json → Prop :=
  Throughout fun j => ∀ n, j = .number (.int n) → Unnest.Spellable n

theorem Spellable.integer {n : Int} (h : (number (.int n)).Spellable) : Unnest.Spellable n :=
  h.own n rfl

theorem spellable_array {xs : List Json} (h : ∀ x ∈ xs, x.Spellable) : (array xs).Spellable := by
  refine .intro nofun fun b hb => ?_
  obtain ⟨⟨x, i⟩, hx, rfl⟩ := List.mem_map.mp hb
  exact h x (List.fst_mem_of_mem_zipIdx hx)

theorem spellable_object {es : List (Text × Json)} (h : ∀ e ∈ es, e.2.Spellable) :
    (object es).Spellable := by
  refine .intro nofun fun b hb => ?_
  obtain ⟨e, he, rfl⟩ := List.mem_map.mp hb
  exact h e he

end Unnest.Json
