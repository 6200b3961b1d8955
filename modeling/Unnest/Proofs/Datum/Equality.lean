import Unnest.Proofs.Datum.Entries
import Unnest.Proofs.Table.Equality

namespace Unnest

-- Every value equals itself, whatever its keys.
theorem Json.beq_self (j : Json) : (j == j) = true := by
  induction j using induction_branches with
  | step j ih =>
      rw [beq_iff_same]
      cases j with
      | null => exact .null
      | logical b => exact .logical b
      | number n => exact .number n.alike_self
      | string t => exact .string t
      | array xs =>
          refine .array (List.forall₂_same.mpr fun x hx => ?_)
          obtain ⟨i, hi⟩ := exists_mem_zipIdx hx
          exact ih (.index (i + 1), x) (List.mem_map.mpr ⟨(x, i), hi, rfl⟩)
      | object es =>
          refine .object (List.forall₂_same.mpr fun e he => ⟨rfl, ?_⟩)
          exact ih (.key e.1, e.2) (List.mem_map_of_mem he)

namespace Datum

theorem beqAll_self {xs : List Datum} (h : ∀ x ∈ xs, (x == x) = true) : beqAll xs xs = true := by
  induction xs with
  | nil => rfl
  | cons x xs ih =>
      obtain ⟨hx, hxs⟩ := List.forall_mem_cons.mp h
      rw [beqAll, Bool.and_eq_true]
      exact ⟨hx, ih hxs⟩

theorem within_self {es fs : List (Datum × Datum)} (hsub : es ⊆ fs)
    (h : ∀ e ∈ es, (e.1 == e.1) = true ∧ (e.2 == e.2) = true) : within es fs = true := by
  induction es with
  | nil => rfl
  | cons e es ih =>
      obtain ⟨he, hes⟩ := List.cons_subset.mp hsub
      obtain ⟨⟨hkey, hitem⟩, hrest⟩ := List.forall_mem_cons.mp h
      rw [within, Bool.and_eq_true]
      refine ⟨List.any_eq_true.mpr ⟨e, he, ?_⟩, ih hes hrest⟩
      rw [Bool.and_eq_true]
      exact ⟨hkey, hitem⟩

-- The induction is on keys as well as items, as a key may be a tuple.
theorem beq_self (d : Datum) : (d == d) = true := by
  cases d with
  | none => rfl
  | text t => exact beq_self_eq_true t
  | kind k => exact beq_self_eq_true k
  | descriptor d => exact beq_self_eq_true d
  | foreign f => exact beq_self_eq_true f
  | bool b | machineBool b => exact Number.int_beq_int.mpr rfl
  | int n | machineInt n => exact Number.int_beq_int.mpr rfl
  | float x => exact Number.alike_self (.real x)
  | list xs | tuple xs => exact beqAll_self fun x hx => beq_self x
  | dict es =>
      have hwithin : within es es = true :=
        within_self (List.Subset.refl es) fun e he => ⟨beq_self e.1, beq_self e.2⟩
      have hbeq : (dict es == dict es) = (es.length == es.length && within es es) := rfl
      rw [hbeq, hwithin, beq_self_eq_true]
      rfl
termination_by sizeOf d
decreasing_by
  · have hlt := List.sizeOf_lt_of_mem hx
    simp only [list.sizeOf_spec]
    omega
  · have hlt := List.sizeOf_lt_of_mem hx
    simp only [tuple.sizeOf_spec]
    omega
  all_goals
    have hlt := List.sizeOf_lt_of_mem he
    obtain ⟨k, x⟩ := e
    simp only [dict.sizeOf_spec, Prod.mk.sizeOf_spec] at hlt ⊢
    omega

theorem pairwise_numbered (before : Nat) (xs : List Datum) :
    ((numbered before xs).map Prod.fst).Pairwise fun k l => (l == k) = false := by
  have hkeys : (numbered before xs).map Prod.fst =
      (List.range' before xs.length).map fun i => ofNat (i + 1) := by
    rw [← List.zipIdx_map_snd before xs, numbered, List.map_map, List.map_map]
    rfl
  rw [hkeys, List.pairwise_map]
  refine (List.pairwise_lt_range' 1).imp fun {i j} hlt => ?_
  rw [ofNat, ofNat, int_beq_int, decide_eq_false_iff_not]
  omega

-- Positions are told apart anyway.
theorem Proper.list {xs : List Datum} (h : ∀ x ∈ xs, x.Proper) : (Datum.list xs).Proper :=
  .intro (pairwise_numbered 0 xs) (forall_numbered.mpr h)

-- An entry of a mapping is found under its key, as no key before it is like it.
theorem find?_key {es : List (Datum × Datum)}
    (hkeys : (es.map Prod.fst).Pairwise fun k l => (l == k) = false) {e : Datum × Datum}
    (he : e ∈ es) : es.find? (fun (l, _) => e.1 == l) = some e := by
  induction es with
  | nil => cases he
  | cons f es ih =>
      obtain ⟨hf, hrest⟩ := List.pairwise_cons.mp hkeys
      rcases List.mem_cons.mp he with rfl | he
      · exact List.find?_cons_of_pos (beq_self _)
      · rw [List.find?_cons_of_neg (by simp [hf e.1 (List.mem_map_of_mem he)])]
        exact ih hrest he

theorem equalsEntries_self {es fs : List (Datum × Datum)}
    (hkeys : (fs.map Prod.fst).Pairwise fun k l => (l == k) = false) (hsub : es ⊆ fs)
    (h : ∀ e ∈ es, e.2.Matches e.2) : equalsEntries es fs = .ok true := by
  induction es with
  | nil => rfl
  | cons e es ih =>
      obtain ⟨he, hes⟩ := List.cons_subset.mp hsub
      obtain ⟨hitem, hrest⟩ := List.forall_mem_cons.mp h
      obtain ⟨k, x⟩ := e
      rw [equalsEntries, find?_key hkeys he]
      exact Except.bind_eq_ok.mpr ⟨true, hitem, ih hes hrest⟩

-- A datum equals itself where it is compared, and the comparison does not fail.
theorem Proper.matches_self {d : Datum} (h : d.Proper) : d.Matches d := by
  induction d using induction_entries with
  | step d ih =>
      have hitems : ∀ e ∈ d.entries, e.2.Matches e.2 := fun e he => ih e he (h.entry he)
      have hsequence {xs : List Datum} (hxs : ∀ e ∈ numbered 0 xs, e.2.Matches e.2) :
          equalsAll xs xs = .ok true :=
        equalsAll_iff.mpr (List.forall₂_same.mpr (forall_numbered.mp hxs))
      cases d with
      | list xs => exact (if_pos rfl).trans (hsequence hitems)
      | tuple xs => exact hsequence hitems
      | dict es =>
          exact (if_pos rfl).trans (equalsEntries_self h.keys (List.Subset.refl es) hitems)
      | foreign f => cases f <;> exact congrArg Except.ok (beq_self _)
      | none | bool _ | int _ | float _ | text _ | kind _ | descriptor _ =>
          exact congrArg Except.ok (beq_self _)
      | machineInt n | machineBool b => exact congrArg Except.ok (Number.int_beq_int.mpr rfl)

end Datum

end Unnest
