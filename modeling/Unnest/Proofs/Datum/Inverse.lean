import Unnest.Proofs.Datum.RecordedPath
import Unnest.Proofs.Json.Calls

namespace Unnest

namespace Datum

mutual

-- The same datum with a list in the place of each tuple.
def untupled : Datum → Datum
  | list xs => list (untupledItems xs)
  | tuple xs => list (untupledItems xs)
  | dict es => dict (untupledEntries es)
  | d => d
  termination_by structural d => d

def untupledItems : List Datum → List Datum
  | [] => []
  | x :: xs => x.untupled :: untupledItems xs
  termination_by structural xs => xs

-- Keys are not looked into.
def untupledEntries : List (Datum × Datum) → List (Datum × Datum)
  | [] => []
  | (k, x) :: es => (k, x.untupled) :: untupledEntries es
  termination_by structural es => es

end

theorem untupledItems_eq (xs : List Datum) : untupledItems xs = xs.map untupled := by
  induction xs with
  | nil => rfl
  | cons x xs ih => rw [untupledItems, ih, List.map_cons]

theorem untupledEntries_eq (es : List (Datum × Datum)) :
    untupledEntries es = es.map fun (k, x) => (k, x.untupled) := by
  induction es with
  | nil => rfl
  | cons e es ih => rw [untupledEntries, ih, List.map_cons]

-- A container that holds the given items, with a list for a tuple.
def holding (d : Datum) (items : List (Datum × Datum)) : Datum :=
  match d with
  | dict _ => dict items
  | _ => list (items.map Prod.snd)

theorem untupled_container {d : Datum} (h : d.isContainer = true) :
    d.untupled = d.holding (d.entries.map fun (k, x) => (k, x.untupled)) := by
  have hitems (xs : List Datum) :
      ((numbered 0 xs).map fun (k, x) => (k, x.untupled)).map Prod.snd = xs.map untupled := by
    conv_rhs => rw [← map_snd_numbered 0 xs]
    rw [List.map_map, List.map_map]
    rfl
  rcases container_cases h with ⟨xs, rfl⟩ | ⟨xs, rfl⟩ | ⟨es, rfl⟩
  · exact congrArg list ((untupledItems_eq xs).trans (hitems xs).symm)
  · exact congrArg list ((untupledItems_eq xs).trans (hitems xs).symm)
  · exact congrArg dict (untupledEntries_eq es)

end Datum

namespace Json

theorem toDatumElements_eq (xs : List Json) : toDatumElements xs = xs.map toDatum := by
  induction xs with
  | nil => rfl
  | cons x xs ih => rw [toDatumElements, ih, List.map_cons]

theorem toDatumEntries_eq (es : List (Text × Json)) :
    toDatumEntries es = es.map fun (k, x) => (.text k, x.toDatum) := by
  induction es with
  | nil => rfl
  | cons e es ih => rw [toDatumEntries, ih, List.map_cons]

theorem toDatum_assemble {d : Datum} (h : d.isContainer = true) {place : List Datum}
    {items : List (Datum × Json)}
    (hitems : d.entries.mapM (Datum.readEntry ofDatum place d) = .ok items) :
    (d.assemble items).toDatum = d.holding (items.map fun (k, x) => (k, x.toDatum)) := by
  have helements : toDatumElements (items.map Prod.snd) =
      (items.map fun (k, x) => (k, x.toDatum)).map Prod.snd := by
    rw [toDatumElements_eq, List.map_map, List.map_map]
    rfl
  rcases Datum.container_cases h with ⟨xs, rfl⟩ | ⟨xs, rfl⟩ | ⟨es, rfl⟩
  · exact congrArg Datum.list helements
  · exact congrArg Datum.list helements
  · have hkeys := Datum.keyText_readEntry hitems
    refine congrArg Datum.dict ((toDatumEntries_eq _).trans ?_)
    rw [List.map_map]
    exact List.map_congr_left fun e he => congrArg (·, e.2.toDatum) (hkeys e he)

-- What has been read is given back, but for the tuples.
theorem toDatum_of_ofDatum {place : List Datum} {d : Datum} {j : Json}
    (h : ofDatum place d = .ok j) : j.toDatum = d.untupled := by
  induction d using Datum.induction_entries generalizing place j with
  | step d ih =>
      cases hcontainer : d.isContainer with
      | true =>
          rw [Datum.ofDatum_container hcontainer] at h
          obtain ⟨items, hitems, rfl⟩ := Except.map_eq_ok.mp h
          rw [toDatum_assemble hcontainer hitems, Datum.untupled_container hcontainer]
          refine congrArg d.holding ?_
          rw [← List.forall₂_eq_eq_eq, List.forall₂_map_left_iff, List.forall₂_map_right_iff]
          have hread := List.forall₂_iff_zip.mp (Except.mapM_eq_ok_iff.mp hitems)
          refine (List.forall₂_iff_zip.mpr ⟨hread.1, fun {e item} hmem => ?_⟩).flip
          obtain ⟨-, hkey, hitem⟩ := Datum.readEntry_eq_ok_iff.mp (hread.2 hmem)
          exact Prod.ext hkey (ih e (List.of_mem_zip hmem).1 hitem)
      | false =>
          cases d with
          | list _ | tuple _ | dict _ => cases hcontainer
          | none | bool _ | int _ | float _ | text _ =>
              obtain rfl := Except.ok.inj h
              rfl
          | kind _ | descriptor _ | machineInt _ | machineBool _ | foreign _ => cases h

mutual

-- What a value is turned into is read as this value again, at any place.
theorem ofDatum_toDatum (place : List Datum) : (j : Json) → ofDatum place j.toDatum = .ok j
  | null | logical _ | string _ => rfl
  | number (.int _) | number (.real _) => rfl
  | array xs => by
      rw [toDatum, ofDatum, ofDatumElements_toDatum]
      rfl
  | object es => by
      rw [toDatum, ofDatum, ofDatumEntries_toDatum]
      rfl

theorem ofDatumElements_toDatum (place : List Datum) (position : Nat) :
    (xs : List Json) → ofDatumElements place position (toDatumElements xs) = .ok xs
  | [] => rfl
  | x :: xs => by
      rw [toDatumElements, ofDatumElements, ofDatum_toDatum, ofDatumElements_toDatum]
      rfl

theorem ofDatumEntries_toDatum (place : List Datum) :
    (es : List (Text × Json)) → ofDatumEntries place (toDatumEntries es) = .ok es
  | [] => rfl
  | (k, x) :: es => by
      rw [toDatumEntries, ofDatumEntries, ofDatum_toDatum, ofDatumEntries_toDatum]
      rfl

end

-- A value that a datum is read as, in which no mapping has a key twice.
def Built (j : Json) : Prop :=
  ∃ (place : List Datum) (d : Datum), d.Proper ∧ ofDatum place d = .ok j

theorem WellFormed.proper_toDatum {j : Json} (h : j.WellFormed) : j.toDatum.Proper := by
  induction h with
  | @intro j hkeys _ ih =>
      cases j with
      | array xs =>
          rw [toDatum, toDatumElements_eq]
          refine .list (List.forall_mem_map.mpr fun x hx => ?_)
          obtain ⟨i, hi⟩ := exists_mem_zipIdx hx
          exact ih (.index (i + 1), x) (List.mem_map_of_mem hi)
      | object es =>
          rw [toDatum, toDatumEntries_eq]
          refine .intro ?_ (List.forall_mem_map.mpr fun e he => ?_)
          · have htexts := Datum.pairwise_text (show (es.map Prod.fst).Nodup from hkeys)
            rw [List.map_map] at htexts
            rw [Datum.entries, List.map_map]
            exact htexts
          · exact ih (.key e.1, e.2) (List.mem_map_of_mem he)
      | null | logical _ | string _ => exact .scalar rfl
      | number n => cases n <;> exact .scalar rfl

-- So the well-formed values are just those that can be read.
theorem built_iff {j : Json} : j.Built ↔ j.WellFormed := by
  constructor
  · rintro ⟨place, d, hd, h⟩
    exact wellFormed_ofDatum hd h
  · intro h
    exact ⟨[], j.toDatum, h.proper_toDatum, ofDatum_toDatum [] j⟩

end Json

namespace Labelled

mutual

-- The value without what is recorded in it.
def content : Labelled → Json
  | scalar _ j => j
  | array _ xs => .array (contents xs)
  | object _ es => .object (contentsOfEntries es)
  termination_by structural node => node

def contents : List Labelled → List Json
  | [] => []
  | x :: xs => x.content :: contents xs
  termination_by structural xs => xs

def contentsOfEntries : List (Text × Labelled) → List (Text × Json)
  | [] => []
  | (k, x) :: es => (k, x.content) :: contentsOfEntries es
  termination_by structural es => es

end

def place : Labelled → List Datum
  | scalar place _ => place
  | array place _ => place
  | object place _ => place

mutual

-- A value and all that lie below it, in preorder.
def subtrees : Labelled → List Labelled
  | scalar place j => [scalar place j]
  | array place xs => array place xs :: subtreesOfElements xs
  | object place es => object place es :: subtreesOfEntries es
  termination_by structural node => node

def subtreesOfElements : List Labelled → List Labelled
  | [] => []
  | x :: xs => x.subtrees ++ subtreesOfElements xs
  termination_by structural xs => xs

def subtreesOfEntries : List (Text × Labelled) → List Labelled
  | [] => []
  | (_, x) :: es => x.subtrees ++ subtreesOfEntries es
  termination_by structural es => es

end

theorem place_labelled (place : List Datum) (j : Json) : (j.labelled place).place = place := by
  cases j <;> rfl

mutual

theorem content_labelled (place : List Datum) : (j : Json) → (j.labelled place).content = j
  | .null | .logical _ | .number _ | .string _ => rfl
  | .array xs => by rw [Json.labelled, content, contents_labelled]
  | .object es => by rw [Json.labelled, content, contentsOfEntries_labelled]

theorem contents_labelled (place : List Datum) (before : Nat) :
    (xs : List Json) → contents (Json.labelledElements place before xs) = xs
  | [] => rfl
  | x :: xs => by rw [Json.labelledElements, contents, content_labelled, contents_labelled]

theorem contentsOfEntries_labelled (place : List Datum) :
    (es : List (Text × Json)) → contentsOfEntries (Json.labelledEntries place es) = es
  | [] => rfl
  | (k, x) :: es => by
      rw [Json.labelledEntries, contentsOfEntries, content_labelled, contentsOfEntries_labelled]

end

mutual

-- What lies below a value is labelled as the value is.
theorem eq_labelled_of_mem_subtrees (place : List Datum) {s : Labelled} :
    (j : Json) → s ∈ (j.labelled place).subtrees → ∃ x p, s = Json.labelled p x
  | .null, h => ⟨.null, place, List.mem_singleton.mp h⟩
  | .logical b, h => ⟨.logical b, place, List.mem_singleton.mp h⟩
  | .number n, h => ⟨.number n, place, List.mem_singleton.mp h⟩
  | .string t, h => ⟨.string t, place, List.mem_singleton.mp h⟩
  | .array xs, h => by
      rw [Json.labelled, subtrees] at h
      rcases List.mem_cons.mp h with rfl | h
      · exact ⟨.array xs, place, rfl⟩
      · exact eq_labelled_of_mem_elements place 0 xs h
  | .object es, h => by
      rw [Json.labelled, subtrees] at h
      rcases List.mem_cons.mp h with rfl | h
      · exact ⟨.object es, place, rfl⟩
      · exact eq_labelled_of_mem_entries place es h

theorem eq_labelled_of_mem_elements (place : List Datum) (before : Nat) {s : Labelled} :
    (xs : List Json) → s ∈ subtreesOfElements (Json.labelledElements place before xs) →
      ∃ x p, s = Json.labelled p x
  | [], h => nomatch h
  | x :: xs, h => by
      rw [Json.labelledElements, subtreesOfElements] at h
      rcases List.mem_append.mp h with h | h
      · exact eq_labelled_of_mem_subtrees _ x h
      · exact eq_labelled_of_mem_elements place (before + 1) xs h

theorem eq_labelled_of_mem_entries (place : List Datum) {s : Labelled} :
    (es : List (Text × Json)) → s ∈ subtreesOfEntries (Json.labelledEntries place es) →
      ∃ x p, s = Json.labelled p x
  | [], h => nomatch h
  | (_, x) :: es, h => by
      rw [Json.labelledEntries, subtreesOfEntries] at h
      rcases List.mem_append.mp h with h | h
      · exact eq_labelled_of_mem_subtrees _ x h
      · exact eq_labelled_of_mem_entries place es h

end

-- A value that has been read with a stack of open containers, and each value below it, is read
-- again from what it is turned into, with the same recorded paths at and below it.
theorem build_content {origin : List Datum} {d : Datum} {tree s : Labelled}
    (h : build origin d = .ok tree) (hs : s ∈ tree.subtrees) :
    build s.place s.content.toDatum = .ok s := by
  rw [build_eq] at h
  obtain ⟨j, -, rfl⟩ := Except.map_eq_ok.mp h
  obtain ⟨x, place, rfl⟩ := eq_labelled_of_mem_subtrees origin j hs
  rw [build_eq, ofDatum, place_labelled, content_labelled, Json.ofDatum_toDatum]
  rfl

end Labelled

namespace Node

-- What is seen of a node and of all nodes below it: their recorded paths and their values.
def inventory (v : Node) : List (List Datum × Json) :=
  v.descendants.map fun n => (n.recordedPath, n.json)

theorem inventory_eq (v : Node) : v.inventory =
    v.json.traversal.map fun e => (v.recordedPath ++ e.1.map .ofStep, e.2) := by
  rw [inventory, descendants_eq_map, List.map_map]
  refine List.map_congr_left fun e _ => ?_
  simp [recordedPath]

end Node

end Unnest
