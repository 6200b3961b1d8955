import Unnest.Proofs.Pipeline.Basic
import Unnest.Proofs.Profiler.Csv
import Unnest.Proofs.Profiler.History

namespace Unnest

open Profiler (Named)

namespace Stage

variable {s : Stage} {shown : Text}

theorem head?_describe {verb : Verb} (hverb : Verb.ofName? s.verb = some verb)
    (h : s.describe = .ok shown) : shown.head? ≠ some (.char '"') := by
  obtain ⟨arguments, -, hshown⟩ := Except.bind_eq_ok.mp h
  obtain rfl := Except.ok.inj hshown
  have hname : ∃ c rest, verb.name = c :: rest ∧ c ≠ .char '"' := by
    cases verb with
    | appendValues kind => cases kind <;> exact ⟨_, _, rfl, by decide⟩
    | _ => exact ⟨_, _, rfl, by decide⟩
  obtain ⟨c, rest, hname, hc⟩ := hname
  rw [← Verb.name_of_ofName? hverb, hname]
  exact fun hhead => hc (Option.some.inj hhead)

-- Arguments are separated by commas.
theorem comma_mem_describe (h : s.describe = .ok shown)
    (harguments : 2 ≤ s.arguments.positions.length + s.arguments.names.length) :
    .char ',' ∈ shown := by
  obtain ⟨arguments, hwritten, hshown⟩ := Except.bind_eq_ok.mp h
  obtain rfl := Except.ok.inj hshown
  obtain ⟨positions, hpositions, hwritten⟩ := Except.bind_eq_ok.mp hwritten
  obtain ⟨names, hnames, hwritten⟩ := Except.bind_eq_ok.mp hwritten
  obtain rfl := Except.ok.inj hwritten
  have hlength : 2 ≤ (positions ++ names).length := by
    rw [List.length_append, ← (Except.mapM_eq_ok_iff.mp hpositions).length_eq,
      ← (Except.mapM_eq_ok_iff.mp hnames).length_eq]
    exact harguments
  have hcomma : .char ',' ∈ Text.ofString ", " := by decide
  have hmem := Text.subset_join ", " hlength hcomma
  simp [Text.concat, hmem]

theorem named_runMeasured {names : Text → Prop} {p : Profiler} (hp : p.Named names)
    (hnames : ∀ shown, s.describe = .ok shown → names shown) (t : JsonTable) :
    (s.runMeasured t p).2.Named names := by
  unfold runMeasured
  split
  · exact hp
  · next shown hshown =>
    dsimp only
    refine hp.measure (hnames shown hshown) _ fun q => ?_
    split
    · exact ⟨rfl, rfl⟩
    · next u _ =>
      have hframe := q.record_frame u.rowCount
      rcases hrecord : q.record u.rowCount with ⟨recorded, r⟩
      rw [hrecord] at hframe
      exact hframe

end Stage

namespace Pipeline

variable {stages : Pipeline}

theorem named_runStages {names : Text → Prop}
    (hnames : ∀ s ∈ stages, ∀ shown, s.describe = .ok shown → names shown) {p : Profiler}
    (hp : p.Named names) (t : JsonTable) : (runStages stages t p).2.Named names := by
  induction stages generalizing t p with
  | nil => exact hp
  | cons s stages ih =>
      obtain ⟨hs, hstages⟩ := List.forall_mem_cons.mp hnames
      have hmeasured := Stage.named_runMeasured hp hs t
      rw [runStages]
      split
      next outcome q hrun =>
      rw [hrun] at hmeasured
      split
      · exact hmeasured
      · exact ih hstages hmeasured _

theorem named_runProfiled {names : Text → Prop}
    (hnames : ∀ s ∈ stages, ∀ shown, s.describe = .ok shown → names shown) {p : Profiler}
    (hp : p.Named names) (source : Source) (jsonColumn : Datum) :
    (stages.runProfiled source jsonColumn p).2.Named names := by
  unfold runProfiled
  dsimp only
  split
  · exact hp
  · exact named_runStages hnames hp _

-- What is exported of a measured run can be read again if in no description of a stage a field
-- ends. The descriptions of stages with more than one argument hold a comma.
theorem runProfiled_readsBack_iff {source : Source} {jsonColumn : Datum} {p : Profiler}
    (hverbs : ∀ s ∈ stages, ∃ verb, Verb.ofName? s.verb = some verb)
    (hearlier : ∀ m ∈ p.history, ∃ s ∈ stages, s.describe = .ok m.operation) :
    ((stages.runProfiled source jsonColumn p).2.ReadsBack ↔
      ∀ m ∈ (stages.runProfiled source jsonColumn p).2.history, ∀ c ∈ m.operation,
        c ≠ .char ',' ∧ c ≠ .char '\n' ∧ c ≠ .char '\r') ∧
    ∀ s ∈ stages, 2 ≤ s.arguments.positions.length + s.arguments.names.length →
      ∀ m ∈ (stages.runProfiled source jsonColumn p).2.history, s.describe = .ok m.operation →
        ¬(stages.runProfiled source jsonColumn p).2.ReadsBack := by
  let names (shown : Text) : Prop := ∃ s ∈ stages, s.describe = .ok shown
  have hbefore : p.Named names := hearlier
  have hnamed : (stages.runProfiled source jsonColumn p).2.Named names :=
    named_runProfiled (fun s hs shown hshown => ⟨s, hs, hshown⟩) hbefore source jsonColumn
  have hquote : ∀ m ∈ (stages.runProfiled source jsonColumn p).2.history,
      m.operation.head? ≠ some (.char '"') := by
    intro m hm
    obtain ⟨s, hs, hshown⟩ := hnamed m hm
    obtain ⟨verb, hverb⟩ := hverbs s hs
    exact s.head?_describe hverb hshown
  have hreads := Profiler.readsBack_iff hquote
  simp only [Text.IsCsvBreak, not_or] at hreads
  refine ⟨hreads, fun s _ harguments m hm hshown hback => ?_⟩
  exact (hreads.mp hback m hm _ (Stage.comma_mem_describe hshown harguments)).1 rfl

theorem runProfiled_readsBack_gatherArray :
    ∃ (stages : Pipeline) (source : Source) (p : Profiler),
      (∀ s ∈ stages, ∃ verb, Verb.ofName? s.verb = some verb) ∧
      (∀ m ∈ p.history, ∃ s ∈ stages, s.describe = .ok m.operation) ∧
      (stages.runProfiled source .none p).2.history.map Metrics.operation =
        [Text.ofString "gather_array('x\"y')"] ∧
      (stages.runProfiled source .none p).2.ReadsBack := by
  let s : Stage := { verb := "gather_array", arguments := ⟨[.text "x\"y"], []⟩ }
  let source : Source := .tidy (.ofDocuments [{ json := .array [.logical true] }])
  let p : Profiler := { channel := .pipeline, sensors := ⟨[], [], []⟩ }
  have hverbs : ∀ r ∈ [s], ∃ verb, Verb.ofName? r.verb = some verb :=
    List.forall_mem_singleton.mpr ⟨.gatherArray, by decide⟩
  have hhistory : (Pipeline.runProfiled [s] source .none p).2.history.map Metrics.operation =
      [Text.ofString "gather_array('x\"y')"] := by
    decide +kernel
  have hearlier : ∀ m ∈ p.history, ∃ r ∈ [s], r.describe = .ok m.operation :=
    fun m hm => absurd hm List.not_mem_nil
  refine ⟨[s], source, p, hverbs, hearlier, hhistory, ?_⟩
  refine (@runProfiled_readsBack_iff [s] source .none p hverbs hearlier).1.mpr fun m hm => ?_
  have hplain : ∀ c ∈ Text.ofString "gather_array('x\"y')",
      c ≠ .char ',' ∧ c ≠ .char '\n' ∧ c ≠ .char '\r' := by
    decide
  have hmem : m.operation ∈ [Text.ofString "gather_array('x\"y')"] := by
    rw [← hhistory]
    exact List.mem_map_of_mem hm
  rw [List.mem_singleton.mp hmem]
  exact hplain

-- The comma between two arguments makes a seventh field.
theorem runProfiled_readsBack_filterJsonTypes :
    ∃ (stages : Pipeline) (source : Source) (p : Profiler),
      (∀ s ∈ stages, ∃ verb, Verb.ofName? s.verb = some verb) ∧ p.history = [] ∧
      (stages.runProfiled source .none p).2.history.map Metrics.operation =
        [Text.ofString "filter_json_types('object', 'array')"] ∧
      (Text.readCsv (stages.runProfiled source .none p).2.toCsv).map List.length = [6, 7] ∧
      ¬(stages.runProfiled source .none p).2.ReadsBack := by
  let s : Stage :=
    { verb := "filter_json_types", arguments := ⟨[.text "object", .text "array"], []⟩ }
  let source : Source := .tidy (.ofDocuments [{ json := .object [] }])
  let p : Profiler := { channel := .pipeline, sensors := ⟨[], [], []⟩ }
  have hverbs : ∀ r ∈ [s], ∃ verb, Verb.ofName? r.verb = some verb :=
    List.forall_mem_singleton.mpr ⟨.filterJsonTypes, by decide⟩
  have hlengths : (Text.readCsv (Pipeline.runProfiled [s] source .none p).2.toCsv).map List.length =
      [6, 7] := by
    decide +kernel
  refine ⟨[s], source, p, hverbs, rfl, by decide +kernel, hlengths, ?_⟩
  rw [Profiler.readsBack_iff_toCsv]
  rintro ⟨records, hread, htells⟩
  rw [hread] at hlengths
  obtain ⟨row, _, rfl, hseven, -⟩ := List.map_eq_cons_iff.mp (List.cons.inj hlengths).2
  obtain ⟨m, _, htold, -⟩ := List.forall₂_cons_right_iff.mp htells
  exact absurd (hseven.symm.trans htold.length) (by decide)

end Pipeline

end Unnest
