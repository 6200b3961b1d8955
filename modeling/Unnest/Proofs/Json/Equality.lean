import Unnest.Proofs.Json.Size

namespace Unnest

variable {α : Type u} {β : Type v} {R : α → β → Prop}

theorem forall₂_getElem? {l : List α} {m : List β} (h : List.Forall₂ R l m) (i : Nat) :
    Option.Rel R l[i]? m[i]? := by
  induction h generalizing i with
  | nil => exact .none
  | cons hab _ ih =>
      cases i with
      | zero => exact .some hab
      | succ i => exact ih i

-- What stands beside an element.
theorem forall₂_beside {l : List α} {m : List β} (h : List.Forall₂ R l m) {i : Nat} {a : α}
    (ha : l[i]? = some a) : ∃ b, m[i]? = some b ∧ R a b := by
  have hrel := forall₂_getElem? h i
  rw [ha] at hrel
  cases hb : m[i]? with
  | none =>
      rw [hb] at hrel
      cases hrel
  | some b =>
      rw [hb] at hrel
      cases hrel with
      | some hab => exact ⟨b, rfl, hab⟩

theorem forall₂_zipIdx {l : List α} {m : List β} (h : List.Forall₂ R l m) (start : Nat) :
    List.Forall₂ (fun e f => R e.1 f.1 ∧ e.2 = f.2) (l.zipIdx start) (m.zipIdx start) := by
  induction h generalizing start with
  | nil => exact .nil
  | cons hab _ ih => exact .cons ⟨hab, rfl⟩ (ih (start + 1))

namespace Json

theorem beqElements_iff {xs ys : List Json} :
    beqElements xs ys = true ↔ List.Forall₂ (fun x y => (x == y) = true) xs ys := by
  induction xs generalizing ys with
  | nil => cases ys <;> simp [beqElements]
  | cons x xs ih =>
      cases ys with
      | nil => simp [beqElements]
      | cons y ys =>
          rw [beqElements, Bool.and_eq_true, List.forall₂_cons, ih]
          rfl

theorem beqEntries_iff {es fs : List (Text × Json)} :
    beqEntries es fs = true ↔ Entries.Paired (fun x y => (x == y) = true) es fs := by
  unfold Entries.Paired
  induction es generalizing fs with
  | nil => cases fs <;> simp [beqEntries]
  | cons e es ih =>
      cases fs with
      | nil => simp [beqEntries]
      | cons f fs =>
          rw [beqEntries, Bool.and_eq_true, Bool.and_eq_true, List.forall₂_cons, ih, beq_iff_eq]
          rfl

-- How two equal values look.
inductive Same : Json → Json → Prop
  | null : Same null null
  | logical (b : Bool) : Same (logical b) (logical b)
  | number {m n : Number} : m.alike n = true → Same (number m) (number n)
  | string (t : Text) : Same (string t) (string t)
  | array {xs ys : List Json} : List.Forall₂ (fun x y => (x == y) = true) xs ys →
      Same (array xs) (array ys)
  | object {es fs : List (Text × Json)} : Entries.Paired (fun x y => (x == y) = true) es fs →
      Same (object es) (object fs)

theorem beq_iff_same {x y : Json} : (x == y) = true ↔ Same x y := by
  constructor
  · intro h
    have h : x.beq y = true := h
    cases x <;> cases y <;> simp only [beq, Bool.false_eq_true, beq_iff_eq] at h
    · exact .null
    · exact h ▸ .logical _
    · exact .number h
    · exact h ▸ .string _
    · exact .array (beqElements_iff.mp h)
    · exact .object (beqEntries_iff.mp h)
  · intro h
    cases h with
    | null => rfl
    | logical b => exact beq_self_eq_true b
    | number h => exact h
    | string t => exact beq_self_eq_true t
    | array h => exact beqElements_iff.mpr h
    | object h => exact beqEntries_iff.mpr h

variable {x y : Json}

theorem Same.kind (h : Same x y) : x.kind = y.kind := by
  cases h <;> rfl

theorem Same.length (h : Same x y) : x.length = y.length := by
  cases h with
  | array h | object h => exact h.length_eq
  | null | logical _ | number _ | string _ => rfl

theorem Same.keys (h : Same x y) : x.keys = y.keys := by
  cases h with
  | object h =>
      rw [Json.keys, Json.keys, ← List.forall₂_eq_eq_eq, List.forall₂_map_left_iff,
        List.forall₂_map_right_iff]
      exact h.imp fun e f he => he.1
  | null | logical _ | number _ | string _ | array _ => rfl

-- The branches of equal values are equal one by one.
theorem Same.branches (h : Same x y) :
    Entries.Paired (fun v w => (v == w) = true) x.branches y.branches := by
  unfold Entries.Paired
  cases h with
  | array h =>
      rw [Json.branches, Json.branches, List.forall₂_map_left_iff, List.forall₂_map_right_iff]
      exact (forall₂_zipIdx h 0).imp fun e f he =>
        ⟨congrArg (fun i : Nat => Step.index (i + 1)) he.2, he.1⟩
  | object h =>
      rw [Json.branches, Json.branches, List.forall₂_map_left_iff, List.forall₂_map_right_iff]
      exact h.imp fun e f he => ⟨congrArg Step.key he.1, he.2⟩
  | null | logical _ | number _ | string _ => exact .nil

-- The leaves of a value that is no scalar are those of its branches.
theorem leafCount_eq_sum (h : x.kind.isScalar = false) :
    x.leafCount = (x.branches.map fun b => b.2.leafCount).sum := by
  cases x with
  | null => rfl
  | array xs => rw [leafCount, leafCountElements_eq, branches_array]
  | object es =>
      rw [leafCount, leafCountEntries_eq, Json.branches, List.map_map]
      rfl
  | logical _ | number _ | string _ => cases h

theorem Same.leafCount (h : Same x y) : x.leafCount = y.leafCount := by
  induction x using induction_branches generalizing y with
  | step x ih =>
      by_cases hscalar : x.kind.isScalar = true
      · cases h with
        | logical _ | number _ | string _ => rfl
        | null | array _ | object _ => cases hscalar
      · rw [Bool.not_eq_true] at hscalar
        rw [leafCount_eq_sum hscalar, leafCount_eq_sum (h.kind ▸ hscalar)]
        have hcounts : (x.branches.map fun b => b.2.leafCount) =
            y.branches.map fun b => b.2.leafCount := by
          rw [← List.forall₂_eq_eq_eq, List.forall₂_map_left_iff, List.forall₂_map_right_iff]
          have hboth := (List.forall₂_and_left _ _).mpr ⟨ih, h.branches⟩
          exact hboth.imp fun b c hb => hb.1 (beq_iff_same.mp hb.2.2)
        rw [hcounts]

-- A step leads from equal values to equal values, or from neither of them.
theorem Same.child? (h : Same x y) (s : Step) :
    Option.Rel (fun v w => (v == w) = true) (x.child? s) (y.child? s) := by
  cases s with
  | key k =>
      cases h with
      | object h => exact h.reverse.lookup k
      | null | logical _ | number _ | string _ | array _ => exact .none
  | index i =>
      cases h with
      | array h =>
          simp only [Json.child?, element?]
          split
          · exact forall₂_getElem? h _
          · exact .none
      | null | logical _ | number _ | string _ | object _ => exact .none

theorem walk?_of_beq (h : (x == y) = true) (path : Path) :
    Option.Rel (fun v w => (v == w) = true) (x.walk? path) (y.walk? path) := by
  induction path generalizing x y with
  | nil => exact .some h
  | cons s path ih =>
      have hchild := (beq_iff_same.mp h).child? s
      rw [walk?, walk?]
      generalize x.child? s = v at hchild
      generalize y.child? s = w at hchild
      cases hchild with
      | none => exact .none
      | some hnext => exact ih hnext

end Json

end Unnest
