import Unnest.Proofs.Json.Grammar.Deep

namespace Unnest.Document

open Json.Grammar

-- The type of the fault of a document that is refused.
def faultType (source : Datum) : FaultType :=
  match source with
  | .text _ => .syntaxFault
  | _ => .source

-- A refusal that tells which document is meant.
structure Refuses (r : Rejection) (source : Datum) (document : Int) : Prop where
  type : r.type = faultType source
  document : r.document = .ok (.int document)

theorem refuses_record {first : Fault} {source : Datum} (h : first.type = faultType source)
    (document : Int) (details : List (Text × Datum)) :
    Refuses { first, context := .record (("document", .int document) :: details) } source
      document :=
  ⟨h, rfl⟩

theorem documentText_cases (source : Datum) :
    (∃ s, source = .text s ∧ (Validation.documentText source).faults = []) ∨
      ∃ fault, (Validation.documentText source).faults = [fault] ∧
        fault.type = faultType source := by
  cases source with
  | text s =>
      cases hs : s.isBlank with
      | true => exact .inr ⟨.emptyDocument, by simp [Validation.documentText, hs], rfl⟩
      | false => exact .inl ⟨s, rfl, by simp [Validation.documentText, hs]⟩
  | _ => exact .inr ⟨_, rfl, rfl⟩

-- A text about which something is to be said, under the number of the document: it is no JSON text
-- with short integers only, or it is one that nests too deeply.
def IsReported (s : Text) : Prop :=
  ∀ json longest, IsText s json longest → longest ≤ maxNumeralDigits → maxDepth < json.depth

theorem isReported_of_decode {s : Text} (h : ∀ json, Json.Decoder.decode s = .ok json →
    maxDepth < json.depth) : IsReported s :=
  fun json longest htext hlongest => h json (decode_eq_ok_iff.mpr ⟨longest, htext, hlongest⟩)

-- A document is read, or it is refused by its number, or it has an integer that is too long, or
-- its own number is too long for what has to be said about it.
theorem parse_ends (channel : Channel) (source : Datum) (document : Int) :
    (∃ v, (parse channel source document).result = .ok v) ∨
      (∃ r, (parse channel source document).result = .error (.rejected r) ∧
        Refuses r source document) ∨
      (∃ s digits, source = .text s ∧ LongInteger s digits ∧
        (parse channel source document).result = .error (.longNumeral (some digits))) ∨
      ∃ s, source = .text s ∧ IsReported s ∧ ¬Spellable document ∧
        (parse channel source document).result = .error (.longNumeral none) := by
  unfold parse
  simp only [Traced.result_bind]
  rcases documentText_cases source with ⟨s, rfl, hvalid⟩ | ⟨fault, hfault, htype⟩
  · rw [(Findings.require_eq_ok_iff (u := ())).mpr hvalid, Except.ok_bind]
    cases hdecode : Json.Decoder.decode s with
    | ok json =>
        dsimp only
        split
        · next hdeep =>
          by_cases hnumber : Spellable document
          · refine .inl ⟨{ json }, ?_⟩
            rw [Traced.result_bind, Traced.result_liftM, numeral_of_spellable hnumber]
            rfl
          · refine .inr (.inr (.inr ⟨s, rfl, isReported_of_decode fun other hother => ?_, hnumber,
              ?_⟩))
            · obtain rfl := Except.ok.inj (hdecode.symm.trans hother)
              exact hdeep
            · rw [Traced.result_bind, Traced.result_liftM, numeral_of_not_spellable hnumber]
              rfl
        · exact .inl ⟨{ json }, rfl⟩
    | error e =>
        have hreported : IsReported s :=
          isReported_of_decode fun json hjson => by cases hdecode.symm.trans hjson
        cases e with
        | constant name | problem what rest =>
            by_cases hnumber : Spellable document
            · refine .inr (.inl ?_)
              dsimp only
              rw [Traced.result_bind, Traced.result_liftM, numeral_of_spellable hnumber]
              exact ⟨_, rfl, refuses_record rfl document _⟩
            · refine .inr (.inr (.inr ⟨s, rfl, hreported, hnumber, ?_⟩))
              dsimp only
              rw [Traced.result_bind, Traced.result_liftM, numeral_of_not_spellable hnumber]
              rfl
        | longInteger digits => exact .inr (.inr (.inl ⟨s, digits, rfl, decode_long hdecode, rfl⟩))
        | tooDeep => exact absurd hdecode decode_ne_tooDeep
  · rw [Findings.require_of_faults hfault]
    exact .inr (.inl ⟨_, rfl, refuses_record htype document []⟩)

-- A document that is one long integer is neither read nor refused.
theorem parse_whole {w : Text} {ds : List Nat} (hw : IsWhole w ds)
    (hlong : maxNumeralDigits < ds.length) (channel : Channel) (document : Int) :
    (parse channel (.text w) document).result = .error (.longNumeral (some ds.length)) := by
  obtain ⟨j, htext⟩ : ∃ j, IsText w j ds.length :=
    ⟨_, by simpa using @IsText.intro [] _ [] _ _ nofun (.number (.int .plus hw)) nofun⟩
  have hvalid : (Validation.documentText (.text w)).faults = [] := by
    simp [Validation.documentText, htext.not_isBlank]
  unfold parse
  simp only [Traced.result_bind, decode_whole hw hlong]
  rw [(Findings.require_eq_ok_iff (u := ())).mpr hvalid]
  rfl

-- A brace that stays open is refused, unless the number of the document cannot be shown.
theorem parse_brace {document : Int} (h : ¬Spellable document) (channel : Channel) :
    (parse channel (.text "\x7b") document).result = .error (.longNumeral none) := by
  have hdecode : Json.Decoder.decode "\x7b" = .error (.problem .propertyName []) := rfl
  have hvalid : (Validation.documentText (.text "\x7b")).faults = [] := rfl
  unfold parse
  simp only [Traced.result_bind, hdecode, Traced.result_liftM, numeral_of_not_spellable h]
  rw [(Findings.require_eq_ok_iff (u := ())).mpr hvalid]
  rfl

-- Neither a literal nor the number of a document may have more digits than can be converted.
theorem parse_ends_ones :
    (∃ s : Text, (parse .parser (.text s) 1).result = .error (.longNumeral (some 4301)) ∧
      ¬((∃ v, (parse .parser (.text s) 1).result = .ok v) ∨
        ∃ r, (parse .parser (.text s) 1).result = .error (.rejected r))) ∧
    ¬((∃ v, (parse .parser (.text "\x7b") (10 ^ maxNumeralDigits)).result = .ok v) ∨
      ∃ r, (parse .parser (.text "\x7b") (10 ^ maxNumeralDigits)).result =
        .error (.rejected r)) := by
  have hfails {source : Datum} {document : Int} {digits : Option Nat}
      (h : (parse .parser source document).result = .error (.longNumeral digits)) :
      ¬((∃ v, (parse .parser source document).result = .ok v) ∨
        ∃ r, (parse .parser source document).result = .error (.rejected r)) := by
    rw [h]
    rintro (⟨v, hv⟩ | ⟨r, hr⟩)
    · cases hv
    · cases hr
  have hone : IsDigit (.char '1') 1 := ⟨by decide, rfl⟩
  have hones (n : Nat) :
      List.Forall₂ IsDigit (List.replicate n (.char '1')) (List.replicate n 1) := by
    induction n with
    | zero => exact .nil
    | succ n ih => exact .cons hone ih
  have hdigits : AreDigits (.char '1' :: List.replicate 4300 (.char '1'))
      (1 :: List.replicate 4300 1) :=
    ⟨List.cons_ne_nil _ _, .cons hone (hones 4300)⟩
  have hlength : (1 :: List.replicate 4300 1).length = 4301 := by
    rw [List.length_cons, List.length_replicate]
  have hparse := parse_whole (.other (by decide) hdigits) (by rw [hlength]; decide) .parser 1
  rw [hlength] at hparse
  exact ⟨⟨_, hparse, hfails hparse⟩, hfails (parse_brace (not_spellable_pow le_rfl) .parser)⟩

end Unnest.Document
