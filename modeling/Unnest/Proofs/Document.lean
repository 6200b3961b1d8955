import Unnest.Document
import Unnest.Proofs.Datum.Display
import Unnest.Proofs.Json.Grammar.Constant
import Unnest.Proofs.Validation

namespace Unnest

namespace Json.Grammar

open Decoder

theorem Delimited.nil : Delimited [] := by
  intro c hc
  cases hc

theorem Delimited.blanks {b : Text} (hb : Blanks b) : Delimited b := by
  intro c hc
  exact .inl (hb c (List.mem_of_mem_head? hc))

theorem decode_sound {s : Text} {room : Headroom} {j : Json} (h : decode s room = .ok j) :
    ∃ k, IsText s j k ∧ k ≤ maxNumeralDigits := by
  unfold decode at h
  split at h
  · cases h
  · obtain ⟨⟨value, after⟩, hvalue, hend⟩ := Except.bind_eq_ok.mp h
    simp only at hend
    split at hend
    · next hskip =>
      obtain rfl := Except.ok.inj hend
      obtain ⟨t, k, ht, hjson, hk⟩ := (scan_sound _).1 hvalue
      obtain ⟨c, rfl, hc⟩ := skip_sound hskip
      obtain ⟨b, rfl, hb⟩ := skip_sound ht
      refine ⟨k, ?_, hk⟩
      rw [← List.append_assoc]
      exact .intro hb hjson (by simpa using hc)
    · cases hend

-- A text begins with a blank or with a visible character, and has one of these.
theorem IsText.visible {s : Text} {j : Json} {k : Nat} (h : IsText s j k) :
    (∀ c ∈ s.head?, c.code < 0x80) ∧ ∃ c ∈ s, Starts c := by
  obtain @⟨b, t, c, j, k, hb, hj, _⟩ := h
  obtain ⟨a, u, rfl, ha⟩ := hj.begins
  refine ⟨fun d hd => ?_, a, by simp, ha⟩
  cases b with
  | nil =>
      obtain rfl := Option.some.inj hd
      exact ha.2.1
  | cons e b =>
      obtain rfl := Option.some.inj hd
      rcases hb e List.mem_cons_self with rfl | rfl | rfl | rfl <;> decide

theorem IsText.not_isBlank {s : Text} {j : Json} {k : Nat} (h : IsText s j k) :
    s.isBlank = false := by
  obtain ⟨c, hc, hlow, hhigh, -⟩ := h.visible.2
  have hblank : c.isBlank = false := by
    simp only [CodePoint.isBlank, Bool.or_eq_false_iff, Bool.and_eq_false_iff,
      decide_eq_false_iff_not, beq_eq_false_iff_ne]
    omega
  rw [Text.isBlank, List.all_eq_false]
  exact ⟨c, hc, by simp [hblank]⟩

theorem decode_complete {s : Text} {j : Json} {k : Nat} (h : IsText s j k) :
    Reads k (decode s) j := by
  have hcode := h.visible.1
  obtain @⟨b, t, c, j, k, hb, hj, hc⟩ := h
  have hbom : ¬(b ++ t ++ c).head? = some (.ofCode 0xFEFF) := by
    intro hhead
    exact absurd (hcode _ hhead) (by decide)
  unfold decode
  rw [if_neg hbom, List.append_assoc, skip_begins hb (hj.begins.append _)]
  refine ((scan_complete _).1 hj (by simp only [List.length_append]; omega) (.blanks hc)).bind_ok ?_
  have hskip : skip c = [] := by simpa using @skip_append c [] hc (by simp)
  simp only [hskip]

theorem decode_eq_ok_iff {s : Text} {j : Json} :
    decode s = .ok j ↔ ∃ k, IsText s j k ∧ k ≤ maxNumeralDigits := by
  constructor
  · exact decode_sound
  · rintro ⟨k, h, hk⟩
    exact (decode_complete h).1 hk

end Json.Grammar

namespace Document

open Json.Grammar

-- A document is read as its text is decoded, unless it is blank, or deep and under a number that
-- cannot be written into the warning.
theorem parse_eq_ok_iff {channel : Channel} {s : Text} {document : Int} {room : Headroom}
    {v : Node} :
    (parse channel (.text s) document room).result = .ok v ↔
      s.isBlank = false ∧ ∃ j, Json.Decoder.decode s room = .ok j ∧
        (maxDepth < j.depth → Spellable document) ∧ v = { json := j } := by
  unfold parse
  simp only [Traced.result_bind_eq_ok, Findings.require_eq_ok_iff]
  have htext : (Validation.documentText (.text s)).faults = [] ↔ s.isBlank = false := by
    cases hs : s.isBlank <;> simp [Validation.documentText, hs]
  rw [htext]
  cases hd : Json.Decoder.decode s room with
  | ok j =>
      have hpure : (pure { json := j } : Traced Node).result = .ok v ↔ v = { json := j } := by
        rw [Traced.result_pure, Except.ok.injEq, eq_comm]
      simp only [exists_const, Except.ok.injEq, exists_eq_left']
      refine and_congr_right fun _ => ?_
      split
      · next hdeep =>
        simp only [Traced.result_bind_eq_ok, Traced.result_liftM, numeral_eq_ok_iff,
          Traced.result_note, hpure, exists_const, exists_and_right, exists_and_left, exists_eq,
          and_true, true_and, hdeep, forall_const]
      · next hshallow => simp only [hshallow, false_implies, true_and, hpure]
  | error e =>
      simp only [reduceCtorEq, false_and, exists_false, and_false, iff_false, exists_const]
      rintro ⟨_, h⟩
      cases e with
      | problem what rest | constant name =>
          obtain ⟨_, -, h⟩ := Traced.result_bind_eq_ok.mp h
          obtain ⟨_, hfaults, _⟩ := Traced.result_bind_eq_ok.mp h
          cases Findings.require_eq_ok_iff.mp hfaults
      | longInteger digits => cases h
      | tooDeep => cases h

-- A document is read exactly if it is a JSON text whose integers are short enough, and then as the
-- value that it has in the grammar. Nothing that only looks like a number stands for a value. The
-- number of a document matters only if it has thousands of digits and the document is deep.
theorem parse_exact (channel : Channel) (document : Int) :
    (∀ (s : Text) (v : Node), (parse channel (.text s) document).result = .ok v ↔
      ∃ json longest, IsText s json longest ∧ longest ≤ maxNumeralDigits ∧
        (maxDepth < json.depth → Spellable document) ∧ v = { json }) ∧
    ∀ before name after : Text, Leads before →
      name ∈ (["NaN", "Infinity", "-Infinity"] : List Text) →
      ∀ v, (parse channel (.text (before ++ name ++ after)) document).result ≠ .ok v := by
  constructor
  · intro s v
    rw [parse_eq_ok_iff]
    constructor
    · rintro ⟨_, json, hdecode, hnumber, rfl⟩
      obtain ⟨longest, hjson, hlongest⟩ := decode_eq_ok_iff.mp hdecode
      exact ⟨json, longest, hjson, hlongest, hnumber, rfl⟩
    · rintro ⟨json, longest, hjson, hlongest, hnumber, rfl⟩
      exact ⟨hjson.not_isBlank, json, decode_eq_ok_iff.mpr ⟨longest, hjson, hlongest⟩, hnumber,
        rfl⟩
  · intro before name after hbefore hname v hparse
    obtain ⟨_, json, hdecode, _⟩ := parse_eq_ok_iff.mp hparse
    obtain ⟨e, hfails⟩ := hbefore.fails (noValue_constant hname after)
    rw [← List.append_assoc, hdecode] at hfails
    cases hfails

theorem parse_exact_array :
    Leads ("[" : Text) ∧ ("NaN" : Text) ∈ (["NaN", "Infinity", "-Infinity"] : List Text) ∧
      ∀ v, (parse .parser (.text (("[" : Text) ++ ("NaN" : Text) ++ ("]" : Text)))).result ≠
        .ok v := by
  have hlead : Leads ("[" : Text) := .first (s := []) (b := []) (.start nofun) nofun
  have hname : ("NaN" : Text) ∈ (["NaN", "Infinity", "-Infinity"] : List Text) :=
    List.mem_cons_self
  exact ⟨hlead, hname, (parse_exact .parser 1).2 "[" "NaN" "]" hlead hname⟩

end Document

end Unnest
