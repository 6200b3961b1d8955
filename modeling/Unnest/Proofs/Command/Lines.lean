import Unnest.Command.Files
import Unnest.Proofs.Json.Grammar.Character
import Unnest.Proofs.Outcome
import Unnest.Proofs.Text.Line

namespace Unnest

open Json.Grammar

-- The line ends that JSON lets stand in a string as they are.
def CodePoint.IsHiddenLineEnd (c : CodePoint) : Prop :=
  c.code = 0x85 ∨ c.code = 0x2028 ∨ c.code = 0x2029

instance (c : CodePoint) : Decidable c.IsHiddenLineEnd :=
  inferInstanceAs (Decidable (_ ∨ _ ∨ _))

theorem Json.Grammar.IsText.isLineEnd_iff {s : Text} {j : Json} {k : Nat} (h : IsText s j k)
    (hfeed : .char '\n' ∉ s) (hreturn : .char '\r' ∉ s) {c : CodePoint} (hc : c ∈ s) :
    c.isLineEnd = true ↔ c.IsHiddenLineEnd := by
  have hclean : c.code = 0x09 ∨ 0x20 ≤ c.code := by
    rcases h.clean c hc with (rfl | rfl | rfl | rfl) | hcode
    · exact .inr (by decide)
    · exact .inl rfl
    · exact absurd hc hfeed
    · exact absurd hc hreturn
    · exact .inr hcode
  simp only [CodePoint.isLineEnd, CodePoint.IsHiddenLineEnd, Bool.or_eq_true, Bool.and_eq_true,
    decide_eq_true_eq, beq_iff_eq]
  omega

namespace Command

-- Lines on which documents stand, one on each, with blank lines anywhere among them.
inductive OnLines : List Text → List Text → Prop
  | nil : OnLines [] []
  | blank {line : Text} {lines docs : List Text} : line.isBlank = true → OnLines lines docs →
      OnLines (line :: lines) docs
  | document {lines docs : List Text} (d : Text) : OnLines lines docs →
      OnLines (d :: lines) (d :: docs)

theorem OnLines.writtenLines {lines docs : List Text} (h : OnLines lines docs) :
    lines.flatMap Text.writtenLines = docs.flatMap Text.writtenLines := by
  induction h with
  | nil => rfl
  | blank hblank _ ih => rw [List.flatMap_cons, Text.writtenLines_of_isBlank hblank, ih]; rfl
  | document d _ ih => rw [List.flatMap_cons, List.flatMap_cons, ih]

theorem readDocuments_lines {bytes : ByteArray} {s : String} {lines : List Text}
    (hread : String.fromUTF8? bytes = some s) (hs : Text.ofString s = .join "\n" lines) :
    readDocuments true [bytes] = .ok (lines.flatMap Text.writtenLines) := by
  have hcontent : [bytes].mapM readText = .ok [(Text.join "\n" lines).unifyLineEnds] := by
    rw [Except.mapM_eq_ok_iff, List.forall₂_cons, readText, hread, ← hs]
    exact ⟨rfl, .nil⟩
  rw [readDocuments, hcontent, Except.ok_bind, List.flatMap_singleton, documentsOf, if_pos rfl,
    Text.writtenLines_unifyLineEnds, Text.writtenLines_join]
  rfl

-- A document on a line of its own is read as it is, unless one of the line ends that JSON leaves in
-- strings cuts it.
theorem readDocuments_byLine {bytes : ByteArray} {s : String} {lines docs : List Text}
    (hread : String.fromUTF8? bytes = some s) (hs : Text.ofString s = .join "\n" lines)
    (hlines : OnLines lines docs) (hjson : ∀ d ∈ docs, ∃ j k, IsText d j k)
    (hline : ∀ d ∈ docs, .char '\n' ∉ d ∧ .char '\r' ∉ d) :
    readDocuments true [bytes] = .ok (docs.flatMap Text.writtenLines) ∧
      (readDocuments true [bytes] = .ok docs ↔ ∀ d ∈ docs, ∀ c ∈ d, ¬c.IsHiddenLineEnd) := by
  have hdocuments : readDocuments true [bytes] = .ok (docs.flatMap Text.writtenLines) := by
    rw [readDocuments_lines hread hs, hlines.writtenLines]
  have hhidden {d : Text} (hd : d ∈ docs) {c : CodePoint} (hc : c ∈ d) :
      c.isLineEnd = true ↔ c.IsHiddenLineEnd := by
    obtain ⟨j, k, hj⟩ := hjson d hd
    exact hj.isLineEnd_iff (hline d hd).1 (hline d hd).2 hc
  refine ⟨hdocuments, ?_⟩
  rw [hdocuments, Except.ok.injEq]
  constructor
  · intro heq d hd c hc hend
    obtain ⟨e, -, hpiece⟩ := List.mem_flatMap.mp (heq ▸ hd)
    have hnone := (Text.mem_of_mem_pieces (List.mem_of_mem_filter hpiece) c hc).2
    rw [(hhidden hd hc).mpr hend] at hnone
    cases hnone
  · intro hnone
    have hwhole : ∀ d ∈ docs, Text.writtenLines d = [d] := by
      intro d hd
      obtain ⟨j, k, hj⟩ := hjson d hd
      refine (Text.writtenLines_eq_singleton_iff hj.not_isBlank).mpr fun c hc => ?_
      exact Bool.eq_false_iff.mpr fun hend => hnone d hd c hc ((hhidden hd hc).mp hend)
    rw [List.flatMap_congr hwhole, List.flatMap_singleton']

theorem readDocuments_byLine_blank :
    ∃ (bytes : ByteArray) (s : String) (lines docs : List Text),
      String.fromUTF8? bytes = some s ∧ Text.ofString s = .join "\n" lines ∧ OnLines lines docs ∧
      (∀ d ∈ docs, ∃ j k, IsText d j k) ∧ (∀ d ∈ docs, .char '\n' ∉ d ∧ .char '\r' ∉ d) ∧
      docs = ["[1]", "\"a\"", "[1]"] ∧ readDocuments true [bytes] = .ok docs := by
  let s := "[1]\n\n \n\"a\"\n[1]\n"
  have hread : String.fromUTF8? s.toUTF8 = some s := by decide +kernel
  have hlines : OnLines ["[1]", [], " ", "\"a\"", "[1]", []] ["[1]", "\"a\"", "[1]"] :=
    .document _ (.blank rfl (.blank rfl (.document _ (.document _ (.blank rfl .nil)))))
  have hjson : ∀ d ∈ (["[1]", "\"a\"", "[1]"] : List Text), ∃ j k, IsText d j k := by
    intro d hd
    have hdecode : ∃ j, Json.Decoder.decode d = .ok j := by
      simp only [List.mem_cons, List.not_mem_nil, or_false] at hd
      rcases hd with rfl | rfl | rfl <;> exact ⟨_, rfl⟩
    obtain ⟨j, hj⟩ := hdecode
    obtain ⟨k, hk, -⟩ := decode_eq_ok_iff.mp hj
    exact ⟨j, k, hk⟩
  have hline : ∀ d ∈ (["[1]", "\"a\"", "[1]"] : List Text),
      .char '\n' ∉ d ∧ .char '\r' ∉ d := by
    decide
  obtain ⟨-, hwhole⟩ := readDocuments_byLine hread (by decide) hlines hjson hline
  exact ⟨_, s, _, _, hread, by decide, hlines, hjson, hline, rfl, hwhole.mpr (by decide)⟩

-- A line separator may stand in a string of a document as it is, and yet cuts the document.
theorem readDocuments_byLine_cut :
    ∃ (bytes : ByteArray) (d : Text),
      (String.fromUTF8? bytes).map Text.ofString = some d ∧ (∃ j k, IsText d j k) ∧
      .char '\n' ∉ d ∧ .char '\r' ∉ d ∧ readDocuments true [bytes] ≠ .ok [d] ∧
      readDocuments true [bytes] = .ok ["\"a", "b\""] := by
  let s := "\"a\u2028b\""
  let inner : Text := [.char 'a', .char '\u2028', .char 'b']
  have hread : String.fromUTF8? s.toUTF8 = some s := by decide +kernel
  have hs : Text.ofString s = .char '"' :: inner ++ [.char '"'] := by decide +kernel
  have hjson : IsText (Text.ofString s) (.string inner) 0 := by
    have hinner : Characters inner inner :=
      .plain (by decide) (by decide) (by decide) (.plain (by decide) (by decide) (by decide)
        (.plain (by decide) (by decide) (by decide) .nil))
    rw [hs]
    exact @IsText.intro [] _ [] _ _ nofun (.string (.quoted hinner)) nofun
  have hcut : readDocuments true [s.toUTF8] = .ok ["\"a", "b\""] := by
    rw [@readDocuments_lines _ s [.ofString s] hread rfl, List.flatMap_singleton, hs]
    rfl
  refine ⟨s.toUTF8, .ofString s, congrArg _ hread, ⟨_, _, hjson⟩, by rw [hs]; decide,
    by rw [hs]; decide, ?_, hcut⟩
  rw [hcut]
  intro heq
  have hcount := congrArg List.length (Except.ok.inj heq)
  cases hcount

end Command

end Unnest
