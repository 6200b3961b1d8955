import Unnest.Proofs.Source

namespace Unnest.JsonTable

open Document

-- A value is found in its document at its own path.
def Located (channel : Channel) (documents : List Datum) (e : Nat × Node) : Prop :=
  ∃ root, IsRoot channel documents e.1 root ∧ root.walk? e.2.path = some e.2

variable {channel : Channel} {documents : List Datum}

theorem IsRoot.located {number : Nat} {root : Node} (h : IsRoot channel documents number root) :
    Located channel documents (number, root) := by
  obtain ⟨-, source, -, hread⟩ := id h
  refine ⟨root, h, ?_⟩
  rw [(read_ok hread).2.1]
  rfl

theorem Located.wellFormed {e : Nat × Node} (h : Located channel documents e) :
    e.2.json.WellFormed ∧ e.2.origin = [] := by
  obtain ⟨root, ⟨-, source, -, hread⟩, hwalk⟩ := h
  obtain ⟨hroot, -, horigin⟩ := read_ok hread
  obtain ⟨x, hx, hv⟩ := Node.walk?_eq_some_iff.mp hwalk
  rw [hv]
  exact ⟨hroot.walk hx, horigin⟩

-- Values below a located value are located, and belong to the same document.
theorem Located.level {number n : Nat} {v w : Node} (h : Located channel documents (number, v))
    (hw : w ∈ v.level n) : Located channel documents (number, w) := by
  obtain ⟨p, -, hp⟩ := (Node.mem_level_iff h.wellFormed.1).mp hw
  obtain ⟨root, hroot, hwalk⟩ := h
  refine ⟨root, hroot, ?_⟩
  obtain ⟨x, -, rfl⟩ := Node.walk?_eq_some_iff.mp hp
  rw [Node.walk?_append, hwalk]
  exact hp

def AllLocated (channel : Channel) (documents : List Datum) (t : JsonTable) : Prop :=
  t.Aligned ∧ ∀ e ∈ t.places, Located channel documents e

theorem AllLocated.move {t u : JsonTable} (ht : AllLocated channel documents t) (h : Move t u) :
    AllLocated channel documents u := by
  obtain ⟨halign, hlocated⟩ := ht
  obtain ⟨hu, hsub | ⟨way, hplaces⟩⟩ := h.places halign
  · exact ⟨hu, fun e he => hlocated e (hsub.subset he)⟩
  · refine ⟨hu, fun e he => ?_⟩
    rw [hplaces] at he
    obtain ⟨⟨number, v⟩, hv, he⟩ := List.mem_flatMap.mp he
    obtain ⟨⟨cell, w⟩, hw, rfl⟩ := List.mem_map.mp he
    have hl := hlocated _ hv
    have hlevel := (way.children_sublist_level hl.wellFormed.1).subset
      (List.mem_map_of_mem hw)
    exact hl.level hlevel

theorem AllLocated.moves {t u : JsonTable} (ht : AllLocated channel documents t)
    (h : Moves t u) : AllLocated channel documents u := by
  induction h with
  | refl => exact ht
  | tail _ hmove ih => exact ih.move hmove

theorem AllLocated.append {t u v : JsonTable} (ht : AllLocated channel documents t)
    (hu : AllLocated channel documents u) (h : t.append u = .ok v) :
    AllLocated channel documents v := by
  obtain ⟨table, htable, hv⟩ := Except.bind_eq_ok.mp h
  obtain rfl := Except.ok.inj hv
  have hdocuments := Table.documents_append htable
  constructor
  · simp only [Aligned, hdocuments, List.length_append]
    exact congrArg₂ (· + ·) ht.1 hu.1
  · have hplaces : places ⟨table, t.nodes ++ u.nodes⟩ = t.places ++ u.places := by
      rw [places, hdocuments]
      exact List.zip_append ht.1
    rw [hplaces]
    intro e he
    rcases List.mem_append.mp he with he | he
    · exact ht.2 e he
    · exact hu.2 e he

-- The tables that operations make of one list of documents. Two of them may be put together.
inductive Reached (channel : Channel) (documents : List Datum) : JsonTable → Prop
  | load {t} : (Source.load channel (.datum (.list documents)) .none).result = .ok t →
      Reached channel documents t
  | run {t u} (operation : Operation) : Reached channel documents t → operation.run t = .ok u →
      Reached channel documents u
  | append {t u v} : Reached channel documents t → Reached channel documents u →
      t.append u = .ok v → Reached channel documents v

theorem Reached.allLocated {t : JsonTable} (h : Reached channel documents t) :
    AllLocated channel documents t := by
  induction h with
  | load hload =>
      obtain ⟨halign, -, hroots⟩ := Source.load_documents hload
      exact ⟨halign, fun e he => IsRoot.located (hroots e he)⟩
  | run operation _ hrun ih => exact ih.moves (Operation.moves_run hrun)
  | append _ _ happend iht ihu => exact iht.append ihu happend

-- Every row names the document that its value is from, and the value lies where it says in that
-- document.
theorem provenance {channel : Channel} {documents : List Datum} {t : JsonTable}
    (h : Reached channel documents t) :
    t.nodes.length = t.rowCount ∧
      ∀ i < t.rowCount, ∃ number v root,
        t.table.documents[i]? = some number ∧ t.nodes[i]? = some v ∧
          1 ≤ number ∧ number ≤ documents.length ∧ IsRoot channel documents number root ∧
            root.walk? v.path = some v ∧ v.recordedPath = v.path.map Datum.ofStep := by
  obtain ⟨halign, hlocated⟩ := h.allLocated
  refine ⟨halign.symm, fun i hi => ?_⟩
  have hi' : i < t.nodes.length := halign ▸ hi
  have hmem : (t.table.documents[i], t.nodes[i]) ∈ t.places := by
    have hlength : i < t.places.length := by
      rw [places, List.length_zip]
      exact Nat.lt_min.mpr ⟨hi, hi'⟩
    have hget : t.places[i] = (t.table.documents[i], t.nodes[i]) := List.getElem_zip
    exact hget ▸ List.getElem_mem hlength
  have hl := hlocated _ hmem
  obtain ⟨root, hroot, hwalk⟩ := id hl
  refine ⟨_, _, root, List.getElem?_eq_getElem hi, List.getElem?_eq_getElem hi', hroot.1,
    hroot.le_length, hroot, hwalk, ?_⟩
  rw [Node.recordedPath, hl.wellFormed.2]
  rfl

theorem provenance_gatherArray :
    ∃ t, Reached .parser [.text "[true]", .none] t ∧ t.rowCount = 1 ∧
      ∃ number v root, t.table.documents[0]? = some number ∧ t.nodes[0]? = some v ∧
        IsRoot .parser [.text "[true]", .none] number root ∧ root.walk? v.path = some v := by
  have hload : (Source.load .parser (.datum (.list [.text "[true]", .none])) .none).result =
      .ok (.ofDocuments [{ json := .array [.logical true] }, .null]) := rfl
  have hrun : Operation.run (.call .gatherArray .method {})
      (.ofDocuments [{ json := .array [.logical true] }, .null]) =
      .ok ⟨⟨[1], [("array.index", ⟨.integer, [.int 1]⟩)]⟩,
        [{ json := .logical true, path := [.index 1] }]⟩ := rfl
  have hreached := (Reached.load hload).run _ hrun
  obtain ⟨number, v, root, hnumber, hv, -, -, hroot, hwalk, -⟩ :=
    (provenance hreached).2 0 (by decide)
  exact ⟨_, hreached, rfl, number, v, root, hnumber, hv, hroot, hwalk⟩

end Unnest.JsonTable
