import Unnest.Pipeline
import Unnest.Proofs.Json.Grammar.Deep

namespace Unnest

namespace Traced

theorem mapM_congr {f g : α → Traced β} {l : List α} (h : ∀ a ∈ l, f a = g a) :
    l.mapM f = l.mapM g := by
  induction l with
  | nil => rfl
  | cons a l ih =>
      obtain ⟨ha, hl⟩ := List.forall_mem_cons.mp h
      rw [List.mapM_cons, List.mapM_cons, ha, ih hl]

end Traced

namespace Document

-- A source holds a document that nests too deeply to be read.
def IsTooDeep (room : Headroom) (source : Datum) : Prop :=
  ∃ s, source = .text s ∧ Json.Decoder.decode s room = .error .tooDeep

-- But for such documents, all are read as where there is no limit.
theorem parse_of_not_isTooDeep {source : Datum} {room : Headroom} (h : ¬IsTooDeep room source)
    (channel : Channel) (document : Int) :
    parse channel source document room = parse channel source document := by
  cases source with
  | text s =>
      have hdecode := (Json.Grammar.decode_cut s room).resolve_right fun hdeep => h ⟨s, rfl, hdeep⟩
      unfold parse
      dsimp only
      rw [hdecode]
  | _ => rfl

theorem parseAll_of_not_isTooDeep {sources : List Datum} {room : Headroom}
    (h : ∀ source ∈ sources, ¬IsTooDeep room source) (channel : Channel) :
    parseAll channel sources room = parseAll channel sources := by
  unfold parseAll
  rw [Traced.mapM_congr]
  rintro ⟨source, number⟩ hmem
  have hshallow := h source (List.fst_mem_of_mem_zipIdx hmem)
  dsimp only
  split
  · rfl
  · exact parse_of_not_isTooDeep hshallow channel number

-- A text that is not blank and nests too deeply is no document at all.
theorem parse_of_tooDeep {s : Text} {room : Headroom}
    (h : Json.Decoder.decode s room = .error .tooDeep) (hblank : s.isBlank = false)
    (channel : Channel) (document : Int) :
    (parse channel (.text s) document room).result = .error .overflow := by
  have hvalid : (Validation.documentText (.text s)).faults = [] := by
    simp [Validation.documentText, hblank]
  unfold parse
  simp only [Traced.result_bind, h]
  rw [(Findings.require_eq_ok_iff (u := ())).mpr hvalid]
  rfl

end Document

namespace Source

theorem load_of_not_isTooDeep {documents : List Datum} {room : Headroom}
    (h : ∀ source ∈ documents, ¬Document.IsTooDeep room source) (channel : Channel) :
    load channel (.datum (.list documents)) .none room =
      load channel (.datum (.list documents)) .none := by
  unfold load
  dsimp only
  rw [Document.parseAll_of_not_isTooDeep h]

end Source

namespace Pipeline

variable {source : Source} {jsonColumn : Datum} {room : Headroom}

-- Room is needed for the documents only.
theorem run_of_load (stages : Pipeline)
    (h : source.load .pipeline jsonColumn room = source.load .pipeline jsonColumn) :
    stages.run source jsonColumn room = stages.run source jsonColumn := by
  unfold run begin
  rw [h]

theorem runProfiled_of_load (stages : Pipeline)
    (h : source.load .pipeline jsonColumn room = source.load .pipeline jsonColumn) (p : Profiler) :
    stages.runProfiled source jsonColumn p room = stages.runProfiled source jsonColumn p := by
  unfold runProfiled begin
  rw [h]

end Pipeline

end Unnest
