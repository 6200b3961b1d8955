import Unnest.JsonTable.Spread
import Unnest.Proofs.Json.Levels

namespace Unnest

-- The key that a step goes to.
def Step.key? : Step → Option Text
  | key k => some k
  | index _ => none

theorem mapM_key?_cons (s : Step) (path : Path) :
    (s :: path).mapM Step.key? = s.key?.bind fun k => (path.mapM Step.key?).map (k :: ·) := by
  rw [List.mapM_cons]
  cases s.key? <;> cases path.mapM Step.key? <;> rfl

theorem mapM_key?_eq_some_iff {path : Path} {keys : List Text} :
    path.mapM Step.key? = some keys ↔ path = keys.map .key := by
  induction path generalizing keys with
  | nil => cases keys <;> simp
  | cons s path ih =>
      rw [mapM_key?_cons]
      cases s with
      | key k => cases keys <;> simp [Step.key?, ih, and_comm]
      | index i => cases keys <;> simp [Step.key?]

namespace Json

-- The values at and below a value, each with the path that leads to it, in preorder.
def traversal (j : Json) : List (Path × Json) :=
  ([], j) :: j.branches.attach.flatMap fun ⟨b, _⟩ => b.2.traversal.map fun e => (b.1 :: e.1, e.2)
termination_by sizeOf j
decreasing_by exact sizeOf_lt_of_mem_branches ‹_›

theorem traversal_eq (j : Json) : j.traversal =
    ([], j) :: j.branches.flatMap fun b => b.2.traversal.map fun e => (b.1 :: e.1, e.2) := by
  rw [traversal]
  simp only [List.flatMap_subtype, List.unattach_attach]

theorem map_fst_traversal (j : Json) : j.traversal.map Prod.fst = j.preorder := by
  induction j using induction_branches with
  | step j ih =>
      rw [traversal_eq, preorder_eq, List.map_cons, List.map_flatMap]
      refine congrArg ([] :: ·) (List.flatMap_congr fun b hb => ?_)
      rw [← ih b hb, List.map_map, List.map_map]
      rfl

theorem mem_traversal_iff {j x : Json} {path : Path} (h : j.WellFormed) :
    (path, x) ∈ j.traversal ↔ j.walk? path = some x := by
  induction path generalizing j with
  | nil =>
      rw [traversal_eq, walk?, Option.some.injEq]
      simp [eq_comm]
  | cons s path ih =>
      rw [traversal_eq, walk?, Option.bind_eq_some_iff]
      simp only [List.mem_cons, Prod.mk.injEq, reduceCtorEq, false_and, false_or, List.mem_flatMap,
        List.mem_map, List.cons.injEq]
      constructor
      · rintro ⟨b, hb, e, he, ⟨rfl, rfl⟩, rfl⟩
        exact ⟨b.2, (child?_eq_some_iff h).mpr hb, (ih (h.branch hb)).mp he⟩
      · rintro ⟨y, hy, hx⟩
        have hb := (child?_eq_some_iff h).mp hy
        exact ⟨(s, y), hb, (path, x), (ih (h.branch hb)).mpr hx, ⟨rfl, rfl⟩, rfl⟩

-- Neither object nor array.
def isLeaf (j : Json) : Bool :=
  j.kind != .object && j.kind != .array

-- The leaves that keys alone lead to, in preorder, each with these keys.
def keyedLeaves (j : Json) : List (List Text × Json) :=
  j.traversal.filterMap fun (path, x) =>
    if x.isLeaf then (path.mapM Step.key?).map (·, x) else none

theorem mem_keyedLeaves_iff {j x : Json} {keys : List Text} (h : j.WellFormed) :
    (keys, x) ∈ j.keyedLeaves ↔ j.walk? (keys.map .key) = some x ∧ x.isLeaf = true := by
  simp only [keyedLeaves, List.mem_filterMap, Prod.exists, Option.ite_none_right_eq_some,
    Option.map_eq_some_iff, Prod.mk.injEq, mapM_key?_eq_some_iff, mem_traversal_iff h]
  constructor
  · rintro ⟨path, y, hy, hleaf, keys', rfl, rfl, rfl⟩
    exact ⟨hy, hleaf⟩
  · rintro ⟨hx, hleaf⟩
    exact ⟨_, x, hx, hleaf, keys, rfl, rfl, rfl⟩

-- Behind a step that goes to no key there is nothing.
theorem filterMap_traversal_below (s : Step) (j : Json) :
    ((j.traversal.map fun e => (s :: e.1, e.2)).filterMap fun (path, x) =>
        if x.isLeaf then (path.mapM Step.key?).map (·, x) else none) =
      s.key?.elim [] fun k => j.keyedLeaves.map fun e => (k :: e.1, e.2) := by
  rw [List.filterMap_map]
  cases s with
  | index i =>
      refine List.filterMap_eq_nil_iff.mpr fun e _ => ?_
      simp [Step.key?]
  | key k =>
      rw [Step.key?, Option.elim_some, keyedLeaves, List.map_filterMap]
      refine List.filterMap_congr fun e _ => ?_
      simp only [Function.comp, mapM_key?_cons, Step.key?, Option.bind_some]
      split
      · simp only [Option.map_map, Function.comp_def]
      · rfl

theorem keyedLeaves_eq (j : Json) : j.keyedLeaves =
    (if j.isLeaf then [([], j)] else []) ++ j.branches.flatMap fun b =>
      b.1.key?.elim [] fun k => b.2.keyedLeaves.map fun e => (k :: e.1, e.2) := by
  rw [keyedLeaves, traversal_eq, List.filterMap_cons, List.filterMap_flatMap]
  simp only [filterMap_traversal_below]
  cases j.isLeaf <;> rfl

theorem leavesOfEntries_eq (keys : List Text) (es : List (Text × Json)) :
    leavesOfEntries keys es = es.flatMap fun e => e.2.leaves (keys ++ [e.1]) := by
  induction es with
  | nil => rfl
  | cons e es ih => rw [leavesOfEntries, ih, List.flatMap_cons]

-- What is read by going down one object after the other is what preorder gives.
theorem leaves_eq (keys : List Text) (j : Json) :
    j.leaves keys = j.keyedLeaves.map fun e => (keys ++ e.1, e.2) := by
  induction j using induction_branches generalizing keys with
  | step j ih =>
      rw [keyedLeaves_eq]
      cases j with
      | object es =>
          rw [leaves, leavesOfEntries_eq, branches, List.flatMap_map, isLeaf]
          simp only [Step.key?, Option.elim_some, List.map_append, List.map_flatMap, List.map_map,
            Function.comp_def]
          refine List.flatMap_congr fun e he => ?_
          have hbranch : (Step.key e.1, e.2) ∈ (object es).branches :=
            List.mem_map_of_mem (f := fun e => (Step.key e.1, e.2)) he
          rw [ih _ hbranch]
          simp only [List.append_assoc, List.singleton_append]
      | array xs =>
          have hnone : ((array xs).branches.flatMap fun b =>
              b.1.key?.elim [] fun k => b.2.keyedLeaves.map fun e => (k :: e.1, e.2)) = [] := by
            refine List.flatMap_eq_nil_iff.mpr fun b hb => ?_
            obtain ⟨e, -, rfl⟩ := List.mem_map.mp hb
            rfl
          rw [leaves, hnone]
          rfl
      | null | logical _ | number _ | string _ => simp [leaves, branches, isLeaf, kind]

-- The leaves of an object under their joined keys; an empty name is no name.
def scalarsNamed (separator : Text) (j : Json) : List (Text × Json) :=
  if j.kind = .object then
    (j.keyedLeaves.map fun (keys, x) => (Text.join separator keys, x)).filter fun (name, _) =>
      !name.isEmpty
  else []

theorem namedLeaves_filter (separator : Text) (j : Json) :
    ((j.namedLeaves separator).filter fun (name, _) => !name.isEmpty) =
      j.scalarsNamed separator := by
  cases j with
  | object es =>
      have hkind : (object es).kind = .object := rfl
      rw [namedLeaves, leaves_eq, scalarsNamed, if_pos hkind, List.map_map]
      rfl
  | null | logical _ | number _ | string _ | array _ => rfl

theorem isLeaf_of_mem_scalarsNamed {separator : Text} {j : Json} {e : Text × Json}
    (h : e ∈ j.scalarsNamed separator) : e.1 ≠ [] ∧ e.2.isLeaf = true := by
  unfold scalarsNamed at h
  split at h
  · obtain ⟨hmem, hname⟩ := List.mem_filter.mp h
    obtain ⟨leaf, hleaf, rfl⟩ := List.mem_map.mp hmem
    obtain ⟨⟨path, x⟩, -, hx⟩ := List.mem_filterMap.mp hleaf
    obtain ⟨hkind, hx⟩ := (Option.ite_none_right_eq_some ..).mp hx
    obtain ⟨keys, -, rfl⟩ := Option.map_eq_some_iff.mp hx
    exact ⟨by simpa using hname, hkind⟩
  · cases h

end Json

end Unnest
