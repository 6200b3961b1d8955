import Unnest.Proofs.Pipeline.Basic
import Unnest.Proofs.Source

namespace Unnest.Pipeline

theorem after_append (first later : Pipeline) (t : JsonTable) :
    after (first ++ later) t = first.after t >>= later.after :=
  List.foldlM_append

theorem result_run_append (first later : Pipeline) (source : Source) (jsonColumn : Datum) :
    ((first ++ later).run source jsonColumn).result =
      (first.run source jsonColumn).result >>= fun t => (later.run (.tidy t)).result := by
  simp only [result_run]
  cases (source.load .pipeline jsonColumn).result with
  | error e => rfl
  | ok t => exact after_append first later t

-- A run breaks off at the conversion of its source, or at a stage that all stages before it have
-- led to.
inductive BreaksOff (stages : Pipeline) (source : Source) (jsonColumn : Datum) (e : Failure) : Prop
  | conversion : (source.load .pipeline jsonColumn).result = .error e →
      BreaksOff stages source jsonColumn e
  | stage {before later : Pipeline} {s : Stage} {t : JsonTable} : stages = before ++ s :: later →
      (before.run source jsonColumn).result = .ok t → (s.apply t).result = .error e →
      BreaksOff stages source jsonColumn e

theorem run_eq_error_iff {stages : Pipeline} {source : Source} {jsonColumn : Datum}
    (hspellable : ∀ s ∈ stages, s.arguments.Spellable) {e : Failure} :
    (stages.run source jsonColumn).result = .error e ↔ BreaksOff stages source jsonColumn e := by
  have hrun {s : Stage} (hs : s ∈ stages) (t : JsonTable) :
      (s.run t).result = (s.apply t).result := by
    obtain ⟨shown, hshown⟩ := Stage.describe_ok (hspellable s hs)
    exact Stage.result_run_of_describe hshown t
  rw [result_run, Except.bind_eq_error]
  constructor
  · rintro (hload | ⟨t, hload, hafter⟩)
    · exact .conversion hload
    · obtain ⟨before, s, later, u, rfl, hbefore, hfails⟩ := Except.foldlM_eq_error_iff.mp hafter
      have hs : s ∈ before ++ s :: later := List.mem_append_right _ List.mem_cons_self
      refine .stage rfl ?_ ((hrun hs u).symm.trans hfails)
      rw [result_run, hload]
      exact hbefore
  · rintro (hload | @⟨before, later, s, u, rfl, hbefore, hfails⟩)
    · exact .inl hload
    · rw [result_run] at hbefore
      obtain ⟨t, hload, hbefore⟩ := Except.bind_eq_ok.mp hbefore
      have hs : s ∈ before ++ s :: later := List.mem_append_right _ List.mem_cons_self
      exact .inr ⟨t, hload, Except.foldlM_eq_error_iff.mpr
        ⟨before, s, later, u, rfl, hbefore, (hrun hs u).trans hfails⟩⟩

theorem begin_congr {stages others : Pipeline} (h : stages.length = others.length)
    (source : Source) (jsonColumn : Datum) :
    begin stages source jsonColumn = begin others source jsonColumn := by
  rw [begin, begin, h]

-- Nothing of the later stages shows in a run that has failed before them, neither in its outcome
-- nor in its journal, which tells their number alone.
theorem run_append_congr {first : Pipeline} {source : Source} {jsonColumn : Datum} {e : Failure}
    (h : (first.run source jsonColumn).result = .error e) {later other : Pipeline}
    (hlength : other.length = later.length) :
    (first ++ other).run source jsonColumn = (first ++ later).run source jsonColumn := by
  have hlengths : (first ++ other).length = (first ++ later).length := by
    rw [List.length_append, List.length_append, hlength]
  rw [run, run, begin_congr hlengths]
  refine Traced.bind_congr fun t ht => ?_
  rw [List.foldlM_append, List.foldlM_append, bind_assoc, bind_assoc]
  refine Traced.bind_congr fun u hu => ?_
  -- the first stages would have come to an end
  have hload := (result_begin ..).symm.trans ht
  rw [result_run, hload, Except.ok_bind, after, ← Traced.result_foldlM, hu] at h
  cases h

-- The stages of a pipeline may be run in two goes, the second on what the first has come to. A run
-- fails with the failure of the first stage that fails, the conversion of the source being the
-- first of all, and what would come after it has no part in the run. Without stages there is
-- nothing but the conversion, which leaves a table with values as it is.
theorem run_composes (first later : Pipeline) (source : Source) (jsonColumn : Datum) :
    (∀ u, ((first ++ later).run source jsonColumn).result = .ok u ↔
      ∃ t, (first.run source jsonColumn).result = .ok t ∧ (later.run (.tidy t)).result = .ok u) ∧
    ((∀ s ∈ first ++ later, s.arguments.Spellable) → ∀ e,
      ((first ++ later).run source jsonColumn).result = .error e ↔
        BreaksOff (first ++ later) source jsonColumn e) ∧
    (∀ e, (first.run source jsonColumn).result = .error e →
      ((first ++ later).run source jsonColumn).result = .error e ∧
      ∀ other : Pipeline, other.length = later.length →
        (first ++ other).run source jsonColumn = (first ++ later).run source jsonColumn) ∧
    (∀ channel, (run [] source jsonColumn).result = (source.load channel jsonColumn).result) ∧
    ∀ t, (run [] (.tidy t) jsonColumn).result = .ok t := by
  refine ⟨fun u => ?_, fun hspellable e => run_eq_error_iff hspellable, fun e he => ⟨?_, ?_⟩,
    fun channel => ?_, fun t => rfl⟩
  · rw [result_run_append, Except.bind_eq_ok]
  · rw [result_run_append, he]
    rfl
  · exact fun other hlength => run_append_congr he hlength
  · rw [result_run, source.result_load_channel .pipeline channel]
    cases (source.load channel jsonColumn).result <;> rfl

-- The second of three stages is refused, and the third is never looked at.
theorem run_composes_refused :
    ∃ (first later other : Pipeline) (source : Source) (e : Failure),
      (∀ s ∈ first ++ later, s.arguments.Spellable) ∧
      (first.run source).result = .error e ∧ other.length = later.length ∧
      BreaksOff (first ++ later) source .none e ∧
      (first ++ other).run source = (first ++ later).run source := by
  let first : Pipeline := [{ verb := "gather_array" },
    { verb := "gather_array", arguments := ⟨[.text "document.id"], []⟩ }]
  let later : Pipeline := [{ verb := "json_types" }]
  let other : Pipeline := [{ verb := "unheard_of" }]
  let source : Source := .datum (.text "[true]")
  have hspellable : ∀ s ∈ first ++ later, s.arguments.Spellable := by
    have hnone : Arguments.Spellable {} := ⟨nofun, nofun⟩
    have hnamed : Arguments.Spellable ⟨[.text "document.id"], []⟩ :=
      ⟨List.forall_mem_singleton.mpr (Datum.spellable_text _), nofun⟩
    simp [first, later, hnone, hnamed]
  have hlength : other.length = later.length := by simp [other, later]
  obtain ⟨e, he⟩ : ∃ e, (first.run source).result = .error e := ⟨_, rfl⟩
  obtain ⟨-, hbreaks, hfails, -⟩ := run_composes first later source .none
  obtain ⟨hrun, hother⟩ := hfails e he
  exact ⟨first, later, other, source, e, hspellable, he, hlength, (hbreaks hspellable e).mp hrun,
    hother other hlength⟩

end Unnest.Pipeline
