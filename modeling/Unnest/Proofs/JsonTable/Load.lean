import Unnest.Proofs.Document.Failure
import Unnest.Proofs.JsonTable.Exportable

namespace Unnest

theorem spellable_of_lt {n : Nat} (h : n < 2 ^ 63) : Spellable n := by
  have hlt : n < 10 ^ 19 := h.trans (by decide)
  have hcount : digitCount n ≤ 19 := (Nat.length_toDigits_le_iff (by decide) (by decide)).mpr hlt
  exact hcount.trans (by decide)

-- A refusal that can be explained to a user.
def Rejection.Answerable (r : Rejection) : Prop :=
  ∃ a, r.advice.result = .ok a

theorem Rejection.answerable_of_mem {r : Rejection} (h : r.type ∈ argumentFaults) :
    r.Answerable := by
  simp only [argumentFaults, List.mem_cons, List.not_mem_nil, or_false] at h
  unfold Answerable advice
  rcases h with h | h | h | h <;> rw [h] <;> exact ⟨_, rfl⟩

namespace Document

theorem Refuses.answerable {r : Rejection} {s : Text} {document : Int}
    (h : Refuses r (.text s) document) (hdocument : Spellable document) : r.Answerable := by
  obtain ⟨shown, hshown⟩ := Datum.plain_ok (d := .int document)
    (List.forall_mem_singleton.mpr hdocument)
  have htype : r.type = .syntaxFault := h.type
  unfold Rejection.Answerable Rejection.advice
  rw [htype]
  simp only [Traced.result_bind, Traced.result_note, Traced.result_liftM, h.document,
    Except.ok_bind]
  split
  · simp only [Traced.result_bind, Traced.result_liftM, hshown]
    exact ⟨_, rfl⟩
  · exact ⟨_, rfl⟩

-- A document that cannot be read, with an integer that has too many digits, or whose values cannot
-- be exported.
inductive Unfit (document : Text) : Prop
  | long {digits : Nat} : Json.Grammar.LongInteger document digits → Unfit document
  | value {j : Json} : Json.Decoder.decode document = .ok j → ¬j.Exportable → Unfit document

end Document

namespace Source

open Document

theorem load_texts_ok {channel : Channel} {documents : List Text} {t : JsonTable}
    (h : (load channel (.datum (.list (documents.map .text))) .none).result = .ok t) :
    ∃ nodes, t = .ofDocuments nodes ∧ List.Forall₂ (fun s (v : Node) =>
      Json.Decoder.decode s = .ok v.json ∧ v.json.size ≤ s.length ∧ v.json.Spellable)
        documents nodes := by
  simp only [load, Traced.result_bind_eq_ok] at h
  obtain ⟨nodes, hnodes, ht⟩ := h
  refine ⟨nodes, (Except.ok.inj ht).symm, ?_⟩
  have hread := parseAll_ok hnodes
  rw [List.zipIdx_map, List.forall₂_map_left_iff] at hread
  rw [← List.zipIdx_map_fst 1 documents, List.forall₂_map_left_iff]
  exact hread.imp fun e v hv => read_text hv

theorem load_texts_error {channel : Channel} {documents : List Text} {e : Failure}
    (h : (load channel (.datum (.list (documents.map .text))) .none).result = .error e) :
    ∃ s ∈ documents, ∃ number ≤ documents.length,
      (parse channel (.text s) number).result = .error e := by
  have hparse : (parseAll channel (documents.map .text)).result = .error e := by
    simp only [load, Traced.result_bind] at h
    rcases Except.bind_eq_error.mp h with h | ⟨_, _, h⟩
    · exact h
    · cases h
  simp only [parseAll, Traced.result_bind, Traced.result_mapM] at hparse
  rcases Except.bind_eq_error.mp hparse with hparse | ⟨_, _, hparse⟩
  · obtain ⟨⟨source, number⟩, hmem, herror⟩ := Except.exists_of_mapM_eq_error hparse
    rw [List.zipIdx_map] at hmem
    obtain ⟨⟨s, i⟩, hs, heq⟩ := List.mem_map.mp hmem
    obtain ⟨rfl, rfl⟩ := Prod.mk.inj heq
    have hlt := List.snd_lt_add_of_mem_zipIdx hs
    exact ⟨s, List.fst_mem_of_mem_zipIdx hs, i, by omega, herror⟩
  · cases hparse

-- The characters of documents, and an end for each of them.
def extent (documents : List Text) : Nat :=
  (documents.map fun s => s.length + 1).sum

theorem length_le_extent (documents : List Text) : documents.length ≤ extent documents := by
  have hle := List.length_le_sum_of_one_le (documents.map fun s => s.length + 1)
    (List.forall_mem_map.mpr fun s _ => Nat.le_add_left 1 s.length)
  rwa [List.length_map] at hle

-- Texts of documents give a table that can be exported, or are refused.
theorem load_texts {channel : Channel} {documents : List Text} {bound : Nat}
    (hextent : extent documents ≤ bound) (hbound : bound < 2 ^ 63)
    (hfit : ∀ document ∈ documents, ¬Unfit document) :
    (∃ t, (load channel (.datum (.list (documents.map .text))) .none).result = .ok t ∧
      t.Exportable bound) ∨
      ∃ r, (load channel (.datum (.list (documents.map .text))) .none).result =
        .error (.rejected r) ∧ r.Answerable := by
  cases hload : (load channel (.datum (.list (documents.map .text))) .none).result with
  | ok t =>
      refine .inl ⟨t, rfl, ?_⟩
      obtain ⟨nodes, rfl, hnodes⟩ := load_texts_ok hload
      have hnode : ∀ v ∈ nodes, v.json.Spellable ∧ v.json.Exportable := by
        intro v hv
        obtain ⟨i, hi, rfl⟩ := List.getElem_of_mem hv
        have hi' : i < documents.length := hnodes.length_eq ▸ hi
        obtain ⟨hdecode, -, hspellable⟩ := hnodes.get hi' hi
        have hfits := hfit _ (List.getElem_mem hi')
        exact ⟨hspellable, Classical.not_not.mp fun hnot => hfits (.value hdecode hnot)⟩
      have hweight : (JsonTable.ofDocuments nodes).weight ≤ bound := by
        have hsizes : List.Forall₂ (· ≤ ·) (nodes.map fun v => v.json.size)
            (documents.map fun s => s.length + 1) := by
          rw [List.forall₂_map_left_iff, List.forall₂_map_right_iff]
          exact hnodes.flip.imp fun v s h => h.2.1.trans (Nat.le_add_right _ 1)
        exact hsizes.sum_le_sum.trans hextent
      exact JsonTable.exportable_ofDocuments hnode hweight
  | error e =>
      refine .inr ?_
      obtain ⟨s, hs, number, hnumber, hparse⟩ := load_texts_error hload
      have hlength := (length_le_extent documents).trans hextent
      -- the message of a refusal shows the number of the document
      have hshown : Spellable number := spellable_of_lt (by omega)
      rcases parse_ends channel (.text s) number with
        ⟨v, hv⟩ | ⟨r, hr, hrefuses⟩ | ⟨text, digits, htext, hlong, -⟩ | ⟨_, -, -, hnumber, -⟩
      · cases hv.symm.trans hparse
      · obtain rfl := Except.error.inj (hr.symm.trans hparse)
        exact ⟨r, rfl, hrefuses.answerable hshown⟩
      · obtain rfl := Datum.text.inj htext
        exact absurd (.long hlong) (hfit s hs)
      · exact absurd hshown hnumber

end Source

end Unnest
