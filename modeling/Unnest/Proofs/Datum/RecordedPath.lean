import Unnest.Proofs.Datum.Assembly
import Unnest.Proofs.Datum.Equality
import Unnest.Proofs.Json.Leaves

namespace Unnest

theorem Datum.ofStep_injective : Function.Injective ofStep := by
  intro s t h
  cases s <;> cases t <;> simp_all [ofStep]

namespace Json

-- The steps that lead from a value to nothing.
inductive Lacks : Json → Step → Prop
  | missing {es : List (Text × Json)} {k : Text} : k ∉ es.map Prod.fst → Lacks (object es) (.key k)
  | noObject {j : Json} {k : Text} : j.kind ≠ .object → Lacks j (.key k)
  | belowOne {j : Json} {i : Int} : i < 1 → Lacks j (.index i)
  | pastEnd {xs : List Json} {i : Int} : xs.length < i → Lacks (array xs) (.index i)
  | noArray {j : Json} {i : Int} : j.kind ≠ .array → Lacks j (.index i)

theorem child?_key_eq_none_iff {es : List (Text × Json)} {k : Text} :
    (object es).child? (.key k) = none ↔ k ∉ es.map Prod.fst := by
  rw [child?, get?, entries, Entries.lookup_eq_none, List.map_reverse, List.mem_reverse]

theorem child?_eq_none_iff {j : Json} {s : Step} : j.child? s = none ↔ j.Lacks s := by
  constructor
  · intro h
    cases s with
    | key k =>
        cases j with
        | object es => exact .missing (child?_key_eq_none_iff.mp h)
        | null | logical _ | number _ | string _ | array _ =>
            exact .noObject (by simp [kind])
    | index i =>
        cases j with
        | array xs =>
            simp only [child?, element?] at h
            split at h
            · refine .pastEnd ?_
              have hlength := List.getElem?_eq_none_iff.mp h
              omega
            · exact .belowOne (by omega)
        | null | logical _ | number _ | string _ | object _ =>
            exact .noArray (by simp [kind])
  · intro h
    cases h with
    | missing hk => exact child?_key_eq_none_iff.mpr hk
    | noObject hkind => cases j <;> first | rfl | exact absurd rfl hkind
    | @belowOne j i hi =>
        have hnot : ¬1 ≤ i := by omega
        cases j <;> simp [child?, element?, hnot]
    | @pastEnd xs i hi =>
        simp only [child?, element?]
        split
        · exact List.getElem?_eq_none_iff.mpr (by omega)
        · rfl
    | noArray hkind => cases j <;> first | rfl | exact absurd rfl hkind

-- The first step that leads to nothing ends a walk.
theorem walk?_eq_none_iff {j : Json} {path : Path} :
    j.walk? path = none ↔ ∃ before s after x, path = before ++ s :: after ∧
      j.walk? before = some x ∧ x.Lacks s := by
  constructor
  · intro h
    induction path generalizing j with
    | nil => cases h
    | cons s path ih =>
        cases hchild : j.child? s with
        | none => exact ⟨[], s, path, j, rfl, rfl, child?_eq_none_iff.mp hchild⟩
        | some y =>
            rw [walk?, hchild] at h
            obtain ⟨before, t, after, x, rfl, hx, hlacks⟩ := ih h
            refine ⟨s :: before, t, after, x, rfl, ?_, hlacks⟩
            rw [walk?, hchild]
            exact hx
  · rintro ⟨before, s, after, x, rfl, hx, hlacks⟩
    rw [walk?_append, hx, Option.bind_some, walk?, child?_eq_none_iff.mpr hlacks]
    rfl

theorem walk?_of_lacks {path : Path} {s : Step} (hmem : s ∈ path) (h : ∀ x : Json, x.Lacks s)
    (j : Json) : j.walk? path = none := by
  obtain ⟨before, after, rfl⟩ := List.append_of_mem hmem
  rw [walk?_append]
  cases j.walk? before with
  | none => rfl
  | some x =>
      rw [Option.bind_some, walk?, child?_eq_none_iff.mpr (h x)]
      rfl

end Json

namespace Node

theorem children_eq (v : Node) : v.children = v.json.branches.map fun b => v.below b.1 b.2 := by
  obtain ⟨json, path, origin⟩ := v
  cases json <;>
    simp [children, elements, members, Json.elements, Json.entries, Json.branches]

theorem sizeOf_lt_of_mem_children {v c : Node} (h : c ∈ v.children) :
    sizeOf c.json < sizeOf v.json := by
  rw [children_eq] at h
  obtain ⟨b, hb, rfl⟩ := List.mem_map.mp h
  exact Json.sizeOf_lt_of_mem_branches hb

-- A node and those that are reached from it by going to children, in preorder.
def descendants (v : Node) : List Node :=
  v :: v.children.attach.flatMap fun ⟨c, _⟩ => c.descendants
termination_by sizeOf v.json
decreasing_by exact sizeOf_lt_of_mem_children ‹_›

theorem descendants_eq (v : Node) : v.descendants = v :: v.children.flatMap descendants := by
  rw [descendants]
  simp only [List.flatMap_subtype, List.unattach_attach]

theorem descendants_eq_map (v : Node) : v.descendants =
    v.json.traversal.map fun e => { v with json := e.2, path := v.path ++ e.1 } := by
  induction hj : v.json using Json.induction_branches generalizing v with
  | step j ih =>
      subst hj
      rw [descendants_eq, children_eq, Json.traversal_eq, List.map_cons, List.append_nil,
        List.flatMap_map, List.map_flatMap]
      refine congrArg (v :: ·) (List.flatMap_congr fun b hb => ?_)
      rw [ih b hb _ rfl, List.map_map]
      refine List.map_congr_left fun e _ => ?_
      simp [below]

variable {v n : Node}

theorem mem_descendants_iff (h : v.json.WellFormed) :
    n ∈ v.descendants ↔ ∃ path, v.walk? path = some n := by
  rw [descendants_eq_map, List.mem_map]
  constructor
  · rintro ⟨⟨path, x⟩, hx, rfl⟩
    exact ⟨path, walk?_eq_some_iff.mpr ⟨x, (Json.mem_traversal_iff h).mp hx, rfl⟩⟩
  · rintro ⟨path, hn⟩
    obtain ⟨x, hx, rfl⟩ := walk?_eq_some_iff.mp hn
    exact ⟨(path, x), (Json.mem_traversal_iff h).mpr hx, rfl⟩

theorem recordedPath_of_walk {path : Path} (h : v.walk? path = some n) :
    n.recordedPath = v.recordedPath ++ path.map .ofStep := by
  obtain ⟨x, -, rfl⟩ := walk?_eq_some_iff.mp h
  simp [recordedPath]

theorem map_recordedPath_descendants (v : Node) : v.descendants.map recordedPath =
    v.json.preorder.map fun path => v.recordedPath ++ path.map .ofStep := by
  rw [descendants_eq_map, ← Json.map_fst_traversal, List.map_map, List.map_map]
  refine List.map_congr_left fun e _ => ?_
  simp [recordedPath]

-- Every path that can be walked leads to one node, which has been given this path behind the path
-- of the root. A walk ends at a step that leads to nothing.
structure Addressed (v : Node) : Prop where
  walk_iff : ∀ (path : Path) (n : Node), v.walk? path = some n ↔
    n ∈ v.descendants ∧ n.recordedPath = v.recordedPath ++ path.map .ofStep
  reached : ∀ n ∈ v.descendants, ∃ path : Path,
    n.recordedPath = v.recordedPath ++ path.map .ofStep
  distinct : (v.descendants.map recordedPath).Nodup
  walk_append : ∀ before after : Path,
    v.walk? (before ++ after) = (v.walk? before).bind (·.walk? after)
  lost_iff : ∀ path : Path, v.walk? path = none ↔ ∃ before s after n,
    path = before ++ s :: after ∧ v.walk? before = some n ∧ n.json.Lacks s
  belowOne : ∀ (path : Path) (i : Int), .index i ∈ path → i < 1 → v.walk? path = none

theorem addressed (h : v.json.WellFormed) : v.Addressed := by
  have hpaths : Function.Injective fun path : Path => v.recordedPath ++ path.map Datum.ofStep :=
    (List.append_right_injective _).comp (List.map_injective_iff.mpr Datum.ofStep_injective)
  refine ⟨fun path n => ?_, fun n hn => ?_, ?_, v.walk?_append, fun path => ?_,
    fun path i hi hlt => ?_⟩
  · constructor
    · intro hn
      exact ⟨(mem_descendants_iff h).mpr ⟨path, hn⟩, recordedPath_of_walk hn⟩
    · rintro ⟨hmem, hpath⟩
      obtain ⟨other, hn⟩ := (mem_descendants_iff h).mp hmem
      obtain rfl := hpaths ((recordedPath_of_walk hn).symm.trans hpath)
      exact hn
  · obtain ⟨path, hn⟩ := (mem_descendants_iff h).mp hn
    exact ⟨path, recordedPath_of_walk hn⟩
  · rw [map_recordedPath_descendants]
    exact h.nodup_preorder.map hpaths
  · rw [walk?_eq_map, Option.map_eq_none_iff, Json.walk?_eq_none_iff]
    constructor
    · rintro ⟨before, s, after, x, rfl, hx, hlacks⟩
      exact ⟨before, s, after, _, rfl, walk?_eq_some_iff.mpr ⟨x, hx, rfl⟩, hlacks⟩
    · rintro ⟨before, s, after, n, rfl, hn, hlacks⟩
      obtain ⟨x, hx, rfl⟩ := walk?_eq_some_iff.mp hn
      exact ⟨before, s, after, x, rfl, hx, hlacks⟩
  · rw [walk?_eq_map, Json.walk?_of_lacks hi fun _ => .belowOne hlt]
    rfl

end Node

namespace Labelled

mutual

-- The paths that are recorded in a value, in preorder.
def places : Labelled → List (List Datum)
  | scalar place _ => [place]
  | array place xs => place :: placesOfElements xs
  | object place es => place :: placesOfEntries es
  termination_by structural node => node

def placesOfElements : List Labelled → List (List Datum)
  | [] => []
  | x :: xs => x.places ++ placesOfElements xs
  termination_by structural xs => xs

def placesOfEntries : List (Text × Labelled) → List (List Datum)
  | [] => []
  | (_, x) :: es => x.places ++ placesOfEntries es
  termination_by structural es => es

end

theorem placesOfElements_eq (place : List Datum) (before : Nat) (xs : List Json) :
    placesOfElements (Json.labelledElements place before xs) = (xs.zipIdx before).flatMap
      fun (x, i) => (x.labelled (place ++ [.ofNat (i + 1)])).places := by
  induction xs generalizing before with
  | nil => rfl
  | cons x xs ih =>
      rw [Json.labelledElements, placesOfElements, ih, List.zipIdx_cons, List.flatMap_cons]

theorem placesOfEntries_eq (place : List Datum) (es : List (Text × Json)) :
    placesOfEntries (Json.labelledEntries place es) =
      es.flatMap fun (k, x) => (x.labelled (place ++ [.text k])).places := by
  induction es with
  | nil => rfl
  | cons e es ih =>
      rw [Json.labelledEntries, placesOfEntries, ih, List.flatMap_cons]

theorem places_branches (place : List Datum) (j : Json) : (j.labelled place).places =
    place :: j.branches.flatMap fun b => (b.2.labelled (place ++ [.ofStep b.1])).places := by
  cases j with
  | array xs =>
      rw [Json.labelled, places, placesOfElements_eq, Json.branches, List.flatMap_map]
      rfl
  | object es =>
      rw [Json.labelled, places, placesOfEntries_eq, Json.branches, List.flatMap_map]
      rfl
  | null | logical _ | number _ | string _ => rfl

-- What is recorded for a value is the path that leads to it.
theorem places_labelled (place : List Datum) (j : Json) :
    (j.labelled place).places = j.preorder.map fun path => place ++ path.map .ofStep := by
  induction j using Json.induction_branches generalizing place with
  | step j ih =>
      rw [places_branches, Json.preorder_eq, List.map_cons, List.map_flatMap, List.map_nil,
        List.append_nil]
      refine congrArg (place :: ·) (List.flatMap_congr fun b hb => ?_)
      rw [ih b hb, List.map_map]
      simp [Function.comp_def]

end Labelled

-- Keys that are all texts are told apart by their texts.
theorem nodup_keyText {items : List (Datum × α)} (h : ∀ e ∈ items, .text e.1.keyText = e.1)
    (hkeys : (items.map Prod.fst).Pairwise fun k l => (l == k) = false) :
    ((items.map fun (k, x) => (k.keyText, x)).map Prod.fst).Nodup := by
  rw [List.map_map, List.Nodup, List.pairwise_map]
  refine (List.pairwise_map.mp hkeys).imp_of_mem fun {e f} he hf hne heq => ?_
  have hkey : e.1 = f.1 := (h e he).symm.trans ((congrArg Datum.text heq).trans (h f hf))
  rw [hkey, Datum.beq_self] at hne
  cases hne

-- A mapping without repeated keys gives an object without repeated keys.
theorem Json.wellFormed_ofDatum {d : Datum} (hd : d.Proper) {place : List Datum} {j : Json}
    (h : ofDatum place d = .ok j) : j.WellFormed := by
  induction d using Datum.induction_entries generalizing place j with
  | step d ih =>
      cases hcontainer : d.isContainer with
      | true =>
          rw [Datum.ofDatum_container hcontainer] at h
          obtain ⟨items, hitems, rfl⟩ := Except.map_eq_ok.mp h
          have hbelow : ∀ e ∈ items, e.2.WellFormed := by
            intro item hitem
            obtain ⟨e, he, hread⟩ := Except.exists_of_mem_mapM hitems hitem
            exact ih e he (hd.entry he) (Datum.readEntry_eq_ok_iff.mp hread).2.2
          rcases Datum.container_cases hcontainer with ⟨xs, rfl⟩ | ⟨xs, rfl⟩ | ⟨es, rfl⟩
          · exact .array (List.forall_mem_map.mpr hbelow)
          · exact .array (List.forall_mem_map.mpr hbelow)
          · refine .object ?_ (List.forall_mem_map.mpr hbelow)
            refine nodup_keyText (Datum.keyText_readEntry hitems) ?_
            rw [Datum.keys_readEntry hitems]
            exact hd.keys
      | false =>
          cases d with
          | list _ | tuple _ | dict _ => cases hcontainer
          | none | bool _ | int _ | float _ | text _ =>
              obtain rfl := Except.ok.inj h
              exact .scalar rfl rfl
          | kind _ | descriptor _ | machineInt _ | machineBool _ | foreign _ => cases h

-- A datum becomes a tree in which recorded paths and walks belong together. Reading it with a stack
-- of open containers records the same paths.
theorem Node.recorded_paths {origin : List Datum} {d : Datum} {v : Node} (hd : d.Proper)
    (h : ofDatum origin d = .ok v) : v.recordedPath = origin ∧ v.Addressed ∧
      ∃ tree, Labelled.build origin d = .ok tree ∧
        tree.places = v.descendants.map recordedPath := by
  obtain ⟨json, hjson, rfl⟩ := Except.map_eq_ok.mp h
  have hrecorded : recordedPath { json, origin } = origin := List.append_nil origin
  refine ⟨hrecorded, addressed (Json.wellFormed_ofDatum hd hjson), json.labelled origin, ?_, ?_⟩
  · rw [Labelled.build_eq, Labelled.ofDatum, hjson]
    rfl
  · rw [Labelled.places_labelled, map_recordedPath_descendants, hrecorded]

-- An array with an object in it, below a key, and walks that find or miss what is in them.
theorem Node.recorded_paths_nested :
    ∃ v n : Node, ofDatum [.text "root"] (.dict
        [(.text "a", .list [.int 7, .dict [(.text "b", .none)]]), (.text "c", .tuple [])]) = .ok v ∧
      v.walk? [.key "a", .index 2, .key "b"] = some n ∧ n ∈ v.descendants ∧
      n.recordedPath = [.text "root", .text "a", .int 2, .text "b"] ∧
      v.walk? [.key "a", .index 0, .key "b"] = none ∧ v.walk? [.key "c", .key "a"] = none ∧
      (v.descendants.map recordedPath).Nodup := by
  have hproper : Datum.Proper (.dict
      [(.text "a", .list [.int 7, .dict [(.text "b", .none)]]), (.text "c", .tuple [])]) := by
    refine .intro (by decide) (List.forall_mem_cons.mpr ⟨?_, List.forall_mem_singleton.mpr ?_⟩)
    · refine .list (List.forall_mem_cons.mpr ⟨.scalar rfl, List.forall_mem_singleton.mpr ?_⟩)
      exact .intro (by decide) (List.forall_mem_singleton.mpr (.scalar rfl))
    · exact .scalar rfl
  obtain ⟨v, hv, hn, hlost⟩ : ∃ v, ofDatum [.text "root"] (.dict
        [(.text "a", .list [.int 7, .dict [(.text "b", .none)]]), (.text "c", .tuple [])]) = .ok v ∧
      (∃ n, v.walk? [.key "a", .index 2, .key "b"] = some n) ∧
      v.walk? [.key "c"] = some ⟨.array [], [.key "c"], [.text "root"]⟩ :=
    ⟨_, rfl, ⟨_, rfl⟩, rfl⟩
  obtain ⟨horigin, haddressed, -⟩ := recorded_paths hproper hv
  obtain ⟨n, hn⟩ := hn
  obtain ⟨hmem, hpath⟩ := (haddressed.walk_iff _ n).mp hn
  rw [horigin] at hpath
  refine ⟨v, n, hv, hn, hmem, hpath, haddressed.belowOne _ 0 (by simp) (by decide), ?_,
    haddressed.distinct⟩
  exact (haddressed.lost_iff _).mpr
    ⟨[.key "c"], .key "a", [], _, rfl, hlost, .noObject nofun⟩

end Unnest
