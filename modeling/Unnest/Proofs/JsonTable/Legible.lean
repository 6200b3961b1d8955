import Unnest.Proofs.Json.Grammar.Size
import Unnest.Proofs.JsonTable.Parts
import Unnest.Proofs.Source

namespace Unnest

namespace Document

-- Where a text was read, it spells the value.
theorem read_text {channel : Channel} {number : Nat} {s : Text} {v : Node}
    (h : read channel number (.text s) = .ok v) :
    Json.Decoder.decode s = .ok v.json ∧ v.json.size ≤ s.length ∧ v.json.Spellable := by
  obtain ⟨_, json, hdecode, -, rfl⟩ := parse_eq_ok_iff.mp h
  obtain ⟨k, hjson, hk⟩ := Json.Grammar.decode_eq_ok_iff.mp hdecode
  exact ⟨hdecode, hjson.fits.size, (hjson.fits.read hk).spellable⟩

theorem read_spellable {channel : Channel} {number : Nat} {source : Datum} {v : Node}
    (h : read channel number source = .ok v) : v.json.Spellable := by
  by_cases hnone : source = .none
  · subst hnone
    obtain rfl := Except.ok.inj h
    exact .intro nofun nofun
  · obtain ⟨s, rfl⟩ : ∃ s, source = .text s := by
      unfold read at h
      split at h
      · exact absurd rfl hnone
      · exact parse_text h
    exact (read_text h).2.2

end Document

namespace JsonTable

theorem Descent.json_children {p : Json → Prop} (hp : Json.Inherited p) (way : Descent) {v : Node}
    (hv : p v.json) : ∀ c ∈ way.children v, p c.2.json := by
  intro c hc
  cases way with
  | elements =>
      obtain ⟨e, he, rfl⟩ := List.mem_map.mp hc
      obtain ⟨⟨x, i⟩, hx, rfl⟩ := List.mem_map.mp he
      cases hjson : v.json with
      | array xs =>
          rw [hjson] at hv hx
          exact hp _ hv (.index (i + 1), x) (List.mem_map_of_mem (f := fun e =>
            (Step.index (e.2 + 1), e.1)) hx)
      | null | logical _ | number _ | string _ | object _ =>
          rw [hjson] at hx
          cases hx
  | members =>
      obtain ⟨e, he, rfl⟩ := List.mem_map.mp hc
      obtain ⟨⟨k, x⟩, hx, rfl⟩ := List.mem_map.mp he
      cases hjson : v.json with
      | object es =>
          rw [hjson] at hv hx
          exact hp _ hv (.key k, x) (List.mem_map_of_mem (f := fun e => (Step.key e.1, e.2)) hx)
      | null | logical _ | number _ | string _ | array _ =>
          rw [hjson] at hx
          cases hx
  | walk keys =>
      obtain ⟨w, hw, rfl⟩ := Option.map_eq_some_iff.mp (Option.mem_toList.mp hc)
      obtain ⟨x, hx, rfl⟩ := Node.walk?_eq_some_iff.mp hw
      exact hp.walk hx hv

theorem Move.nodes {p : Json → Prop} (hp : Json.Inherited p) {t u : JsonTable} (h : Move t u)
    (ht : ∀ v ∈ t.nodes, p v.json) : ∀ v ∈ u.nodes, p v.json := by
  cases h with
  | write hwritten =>
      rw [(withColumn_places hwritten).2]
      exact ht
  | keep hkept =>
      obtain ⟨_, _, hu⟩ := Except.bind_eq_ok.mp hkept
      obtain rfl := Except.ok.inj hu
      exact fun v hv => ht v ((kept_sublist t.nodes _).subset hv)
  | descend way =>
      intro v hv
      obtain ⟨o, ho, rfl⟩ := List.mem_map.mp hv
      obtain ⟨⟨w, i⟩, hw, ho⟩ := List.mem_flatMap.mp ho
      obtain ⟨c, hc, rfl⟩ := List.mem_map.mp ho
      exact way.json_children hp (ht w (List.fst_mem_of_mem_zipIdx hw)) c hc

-- Every row has a value, and all the integers in the values can be written out.
structure Legible (t : JsonTable) : Prop where
  aligned : t.Aligned
  spellable : ∀ v ∈ t.nodes, v.json.Spellable

theorem Legible.move {t u : JsonTable} (h : t.Legible) (hmove : Move t u) : u.Legible :=
  ⟨(hmove.places h.aligned).1, hmove.nodes (Json.inherited_throughout _) h.spellable⟩

theorem Legible.moves {t u : JsonTable} (h : t.Legible) (hmoves : Moves t u) : u.Legible := by
  induction hmoves with
  | refl => exact h
  | tail _ hmove ih => exact ih.move hmove

end JsonTable

namespace Source

open Document

-- What is loaded and no table with values already has the values of documents.
theorem load_read {channel : Channel} {source : Source} {column : Datum} {t : JsonTable}
    (h : (load channel source column).result = .ok t) (hsource : ∀ u, source ≠ .tidy u) :
    t.Aligned ∧ ∀ v ∈ t.nodes, ∃ document number, read channel number document = .ok v := by
  have hread {sources : List Datum} {nodes : List Node}
      (hnodes : (parseAll channel sources).result = .ok nodes) :
      ∀ v ∈ nodes, ∃ document number, read channel number document = .ok v := by
    intro v hv
    obtain ⟨i, hi, rfl⟩ := List.getElem_of_mem hv
    have hall := parseAll_ok hnodes
    have hlength := hall.length_eq
    exact ⟨_, _, hall.get (i := i) (by omega) hi⟩
  have htable {table : Table} (htable : (ofTable channel table column).result = .ok t) :
      t.Aligned ∧ ∀ v ∈ t.nodes, ∃ document number, read channel number document = .ok v := by
    obtain ⟨_, nodes, hnodes, hparts⟩ := ofTable_ok htable
    obtain ⟨rfl, haligned⟩ := JsonTable.ofParts_nodes hparts
    exact ⟨haligned, hread hnodes⟩
  cases source with
  | tidy u => exact absurd rfl (hsource u)
  | table table => exact htable h
  | frame f =>
      obtain ⟨table, _, h⟩ := Traced.result_bind_eq_ok.mp h
      exact htable h
  | datum d =>
      obtain ⟨nodes, rfl, hnodes⟩ := load_datum_ok h
      refine ⟨JsonTable.aligned_ofDocuments nodes, ?_⟩
      rcases hnodes with ⟨v, rfl, hv⟩ | ⟨sources, hsources⟩
      · obtain ⟨s, rfl⟩ := parse_text hv
        exact List.forall_mem_singleton.mpr ⟨.text s, 1, hv⟩
      · exact hread hsources

end Source

namespace JsonTable

-- What can be come by from a source through verbs. A table with values is a source as well.
inductive Gained : JsonTable → Prop
  | load {channel source column t} : (∀ u, source = .tidy u → Gained u) →
      (Source.load channel source column).result = .ok t → Gained t
  | call {t u} {verb : Verb} {form arguments} : Gained t →
      (verb.call form arguments t).result = .ok u → Gained u

theorem Gained.legible {t : JsonTable} (h : Gained t) : t.Legible := by
  induction h with
  | @load channel source column t hsource hload ih =>
      by_cases htidy : ∃ u, source = .tidy u
      · obtain ⟨u, rfl⟩ := htidy
        obtain rfl := Except.ok.inj hload
        exact ih u rfl
      · obtain ⟨haligned, hread⟩ := Source.load_read hload fun u hu => htidy ⟨u, hu⟩
        refine ⟨haligned, fun v hv => ?_⟩
        obtain ⟨document, number, hdocument⟩ := hread v hv
        exact Document.read_spellable hdocument
  | call _ hcall ih => exact ih.moves (moves_call hcall)

end JsonTable

end Unnest
