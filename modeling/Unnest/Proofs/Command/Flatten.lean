import Unnest.Proofs.Command.Step
import Unnest.Proofs.Command.Words
import Unnest.Proofs.JsonTable.Load
import Unnest.Proofs.Source.Room
import Unnest.Proofs.Table.Print
import Unnest.Proofs.Text.Line

namespace Unnest

open Profiler (MemoryFinite)

namespace Pipeline

theorem result_runProfiled {stages : Pipeline} {source : Source} {jsonColumn : Datum}
    {p : Profiler} (hready : stages.Ready) (hmemory : MemoryFinite p.sensors.memory) {limit : Nat}
    (hlimit : limit < 2 ^ 63) (hload : ∀ t, (source.load .pipeline jsonColumn).result = .ok t →
      t.Exportable limit) :
    (stages.runProfiled source jsonColumn p).1.result = (stages.run source jsonColumn).result := by
  have hshown : ∀ s ∈ stages, ∃ shown, s.describe = .ok shown := by
    intro s hs
    obtain ⟨verb, bound, hs⟩ := hready s hs
    exact hs.describe
  rw [result_run]
  unfold runProfiled
  dsimp only
  split
  · next e hfails =>
    rw [hfails, (result_begin ..).symm.trans hfails]
    rfl
  · next t ht =>
    have hloaded := (result_begin ..).symm.trans ht
    have hrows := hready.rowsInRange (hload t hloaded) hlimit
    obtain ⟨hresult, -⟩ := runStages_ok hshown hmemory hrows
    rw [hloaded, Except.ok_bind]
    simp only [Traced.result_bind, ht, hresult, Except.ok_bind]
    cases after stages t <;> rfl

end Pipeline

theorem Text.ofString_of_toString? {t : Text} {s : String} (h : t.toString? = some s) :
    Text.ofString s = t := by
  obtain ⟨cs, hcs, rfl⟩ := Option.map_eq_some_iff.mp h
  obtain ⟨hall, rfl⟩ := Option.mapM_eq_some_iff.mp hcs
  rw [ofString, String.toList_ofList, List.map_filterMap, List.filterMap_congr, List.filterMap_some]
  intro c hc
  obtain ⟨b, hb⟩ := Option.isSome_iff_exists.mp (hall c hc)
  cases c with
  | char b => rfl
  | surrogate b => cases hb

theorem fromUTF8?_toUTF8 (s : String) : String.fromUTF8? s.toUTF8 = some s :=
  dif_pos s.isValidUTF8

namespace Command

theorem afterControl?_subset {t rest : Text} (h : afterControl? t = some rest) : rest ⊆ t := by
  unfold afterControl? at h
  split at h
  · next later =>
    split at h
    · next c final hfinal =>
      have hrest : rest = final := by
        split at h
        · exact (Option.some.inj h).symm
        · cases h
      intro a ha
      have hmem : a ∈ (later.dropWhile isControlParameter).dropWhile isControlIntermediate := by
        rw [hfinal]
        exact List.mem_cons_of_mem c (hrest ▸ ha)
      have hlater := (List.dropWhile_sublist _).subset ((List.dropWhile_sublist _).subset hmem)
      exact List.mem_cons_of_mem _ (List.mem_cons_of_mem _ hlater)
    · cases h
  · cases h

theorem withoutControl_subset (t : Text) : withoutControl t ⊆ t := by
  have hgo (fuel : Nat) (t : Text) : withoutControl.go fuel t ⊆ t := by
    fun_induction withoutControl.go fuel t with
    | case1 t => exact List.Subset.refl _
    | case2 => exact List.Subset.refl _
    | case3 fuel c rest after hafter ih =>
        exact fun a ha => afterControl?_subset hafter (ih ha)
    | case4 fuel c rest hnone ih => exact List.cons_subset_cons c ih
  exact hgo t.length t

-- A result that is meant for the user.
inductive Proper (result : Except Failure Text) : Prop
  | table {table : Text} : table.Whole → result = .ok table → Proper result
  | rejected {r : Rejection} : r.Answerable → result = .error (.rejected r) → Proper result
  | badStep {fault : StepFault} : result = .error (.badStep fault) → Proper result

-- A message about how the command is used.
def flattenRefusal (fault : UsageFault) (notes : Text := []) : Outcome :=
  usageError flattenCommand.usage (.concat [programName, " ", flattenCommand.name]) fault notes

-- The three ways in which the command ends: it prints the table, it reports why a call was refused,
-- or it says what is wrong with a step.
inductive Ends (result : Except Failure Text) (o : Outcome) : Prop
  | printed {table : Text} : result = .ok table → o.exit = 0 → o.crash = none →
      Text.ofString o.stdout = withoutControl table → Ends result o
  | reported {r : Rejection} (notes action : Text) : result = .error (.rejected r) →
      o = { exit := 1, stderr := escaped (notes ++ withoutControl
        (.concat ["❌ Error: ", r.message, "\n   ", action, "\n"])) } → Ends result o
  | refused {fault : StepFault} (notes : Text) : result = .error (.badStep fault) →
      o = flattenRefusal (.step fault) notes → Ends result o

-- A failure that no one reports is no way to end.
theorem not_ends_of_crash {result : Except Failure Text} {o : Outcome} {e : Failure}
    (h : o.crash = some e) : ¬Ends result o := by
  rintro (⟨-, -, hcrash, -⟩ | ⟨notes, action, -, rfl⟩ | ⟨notes, -, rfl⟩)
  · cases h.symm.trans hcrash
  · cases h
  · cases h

theorem ends_conclude (verbose : Bool) {work : Traced (Text × Option Text)}
    (h : Proper (work.result.map Prod.fst)) :
    Ends (work.result.map Prod.fst) (conclude flattenCommand verbose work) := by
  cases h with
  | @table table hwhole hresult =>
      obtain ⟨⟨text, report⟩, hwork, rfl⟩ := Except.map_eq_ok.mp hresult
      have hprinted := hwhole.subset (withoutControl_subset text)
      obtain ⟨s, hs⟩ := Text.toString?_of_whole hprinted
      refine .printed hresult ?_ ?_ ?_
      all_goals
        simp only [conclude, hwork, printed, hs]
      exact Text.ofString_of_toString? hs
  | @rejected r hanswer hresult =>
      obtain ⟨a, ha⟩ := hanswer
      have hwork := Except.map_eq_error.mp hresult
      refine .reported (journalLines verbose work.journal ++ journalLines verbose r.advice.journal)
        a.action hresult ?_
      simp only [conclude, hwork, ha]
  | badStep hresult =>
      refine .refused (journalLines verbose work.journal) hresult ?_
      have hwork := Except.map_eq_error.mp hresult
      simp only [conclude, hwork, flattenRefusal]

namespace Request

-- The documents in the files.
def documents (r : Request) (contents : List String) : List Text :=
  contents.flatMap fun s => documentsOf r.byLine (Text.ofString s).unifyLineEnds

-- The table that is asked for, as it is to be printed, or what went wrong.
def table (r : Request) (contents : List String) : Except Failure Text := do
  let stages ← r.steps.mapM fun s => (parseStep s).result
  let t ← (Pipeline.run stages (.datum (.list ((r.documents contents).map .text)))).result
  if r.csv then t.table.toCsv else t.table.toListing.map (· ++ [.char '\n'])

-- All files can be read, and they hold text in UTF-8.
def Readable (r : Request) (disk : Disk) (contents : List String) : Prop :=
  List.Forall₂ (fun path s => Disk.fault? path = none ∧ ∃ bytes,
    disk.find? path = some (.file bytes) ∧ String.fromUTF8? bytes = some s) r.paths contents

variable {r : Request} {disk : Disk} {contents : List String} {room : Headroom}

theorem Readable.openFiles (h : r.Readable disk contents) (hnamed : r.paths ≠ [])
    (refuse : UsageFault → Outcome) :
    ∃ files, openFiles disk r.paths refuse = .ok files ∧
      sourceOf r.byLine files = .ok (.datum (.list ((r.documents contents).map .text))) := by
  obtain ⟨files, hfiles, hcontents⟩ : ∃ files,
      List.Forall₂ (fun path bytes => Disk.fault? path = none ∧
        disk.find? path = some (.file bytes)) r.paths files ∧
      List.Forall₂ (fun bytes s => String.fromUTF8? bytes = some s) files contents := by
    clear hnamed
    unfold Readable at h
    generalize r.paths = paths at h ⊢
    induction h with
    | nil => exact ⟨[], .nil, .nil⟩
    | cons hfile _ ih =>
        obtain ⟨hfault, bytes, hbytes, hs⟩ := hfile
        obtain ⟨files, hfiles, hcontents⟩ := ih
        exact ⟨bytes :: files, .cons ⟨hfault, hbytes⟩ hfiles, .cons hs hcontents⟩
  have hread : files.mapM readText =
      .ok (contents.map fun s => (Text.ofString s).unifyLineEnds) := by
    rw [Except.mapM_eq_ok_iff, List.forall₂_map_right_iff]
    refine hcontents.imp fun bytes s hs => ?_
    rw [readText, hs]
  have hnamed : r.paths.isEmpty = false := List.isEmpty_eq_false_iff.mpr hnamed
  refine ⟨files, ?_, ?_⟩
  · rw [Command.openFiles, hnamed]
    refine Except.mapM_eq_ok_iff.mpr (hfiles.imp fun path bytes hfile => ?_)
    rw [hfile.1, hfile.2]
  · rw [sourceOf, readDocuments, hread, Except.ok_bind, List.flatMap_map]
    rfl

-- What the command is not prepared for: a step or a document that lets a failure through, or a
-- document that nests too deeply for the room that there is.
inductive Trips (r : Request) (contents : List String) (room : Headroom) : Prop
  | surrogate {s : Text} : s ∈ r.steps → ¬s.Whole → Trips r contents room
  | step {s : Text} : s ∈ r.steps → Stumbles s → Trips r contents room
  | document {s : Text} : s ∈ r.documents contents → Document.Unfit s → Trips r contents room
  | deep {s : Text} : s ∈ r.documents contents →
      Json.Decoder.decode s room = .error .tooDeep → Trips r contents room

theorem isRead_of_not_trips (h : ¬r.Trips contents room) : ∀ s ∈ r.steps, IsRead (parseStep s) := by
  intro s hs
  have hwhole : s.Whole := Classical.not_not.mp fun hnot => h (.surrogate hs hnot)
  exact (parseStep_cases hwhole).resolve_right fun hstumbles => h (.step hs hstumbles)

theorem stages_of_not_trips (h : ¬r.Trips contents room) :
    (∃ stages : Pipeline, (r.steps.mapM fun s => (parseStep s).result) = .ok stages ∧
      stages.Ready) ∨
      ∃ fault, (r.steps.mapM fun s => (parseStep s).result) = .error (.badStep fault) := by
  cases hsteps : r.steps.mapM fun s => (parseStep s).result with
  | ok stages =>
      refine .inl ⟨stages, rfl, fun stage hstage => ?_⟩
      obtain ⟨s, hs, hparse⟩ := Except.exists_of_mem_mapM hsteps hstage
      rcases isRead_of_not_trips h s hs with ⟨read, hread, hready⟩ | ⟨fault, hfault⟩
      · exact Except.ok.inj (hread.symm.trans hparse) ▸ hready
      · cases hfault.symm.trans hparse
  | error e =>
      obtain ⟨s, hs, hparse⟩ := Except.exists_of_mapM_eq_error hsteps
      rcases isRead_of_not_trips h s hs with ⟨read, hread, -⟩ | ⟨fault, hfault⟩
      · cases hread.symm.trans hparse
      · exact .inr ⟨fault, congrArg _ (Except.error.inj (hparse.symm.trans hfault))⟩

-- Where no document trips the command up, the limit makes no difference.
theorem flatten_of_not_trips (h : ¬r.Trips contents room) {files : List ByteArray}
    (hfiles : sourceOf r.byLine files = .ok (.datum (.list ((r.documents contents).map .text))))
    (sensors : Sensors) :
    flatten r.read files sensors room = flatten r.read files sensors := by
  have hshallow : ∀ source ∈ (r.documents contents).map Datum.text,
      ¬Document.IsTooDeep room source := by
    rintro source hsource ⟨s, rfl, hdeep⟩
    obtain ⟨t, ht, heq⟩ := List.mem_map.mp hsource
    obtain rfl := Datum.text.inj heq
    exact h (.deep ht hdeep)
  have hload := Source.load_of_not_isTooDeep hshallow .pipeline
  unfold flatten
  refine Traced.bind_congr fun stages _ => Traced.bind_congr fun source hsource => ?_
  rw [Traced.result_liftM, has_lines_read, hfiles] at hsource
  obtain rfl := Except.ok.inj hsource
  dsimp only
  rw [Pipeline.run_of_load stages hload, Pipeline.runProfiled_of_load stages hload]

variable (hextent : Source.extent (r.documents contents) < 2 ^ 63)

include hextent

theorem load_of_not_trips (h : ¬r.Trips contents room) :
    (∃ t, (Source.load .pipeline (.datum (.list ((r.documents contents).map .text)))
      .none).result = .ok t ∧ t.Exportable (Source.extent (r.documents contents))) ∨
      ∃ rejection, (Source.load .pipeline (.datum (.list ((r.documents contents).map .text)))
        .none).result = .error (.rejected rejection) ∧ rejection.Answerable :=
  Source.load_texts le_rfl hextent fun _ hs hunfit => h (.document hs hunfit)

theorem proper_of_not_trips (h : ¬r.Trips contents room) : Proper (r.table contents) := by
  unfold table
  rcases stages_of_not_trips h with ⟨stages, hstages, hready⟩ | ⟨fault, hfault⟩
  · rw [hstages, Except.ok_bind, Pipeline.result_run]
    rcases load_of_not_trips hextent h with ⟨t, ht, hexportable⟩ | ⟨rejection, hrejection, hanswer⟩
    · rw [ht, Except.ok_bind]
      -- from here on the documents can no longer fail, only a step can be refused
      cases hready.judged hexportable with
      | refused rejection htype hr =>
          rw [hr]
          exact .rejected (Rejection.answerable_of_mem htype) rfl
      | passed u hu =>
          have hexports := (hready.exportable hexportable hu).table
          rw [hu, Except.ok_bind]
          cases r.csv with
          | true =>
              obtain ⟨text, htext, hwhole⟩ := Table.toCsv_ok hextent hexports
              exact .table hwhole htext
          | false =>
              obtain ⟨text, htext, hwhole⟩ := Table.toListing_ok hextent hexports
              refine .table (hwhole.append (Text.whole_chars ['\n'])) ?_
              exact Except.map_eq_ok.mpr ⟨text, htext, rfl⟩
    · rw [hrejection]
      exact .rejected hanswer rfl
  · rw [hfault]
    exact .badStep rfl

theorem result_flatten (h : ¬r.Trips contents room) {files : List ByteArray} {sensors : Sensors}
    (hmemory : r.profiled = true → MemoryFinite sensors.memory)
    (hfiles : sourceOf r.byLine files = .ok (.datum (.list ((r.documents contents).map .text)))) :
    (flatten r.read files sensors).result.map Prod.fst = r.table contents := by
  unfold flatten table
  simp only [Traced.result_bind, Traced.result_mapM, Traced.result_liftM, values_step_read,
    has_lines_read, has_profile_read, values_format_read, hfiles, Except.ok_bind]
  rcases stages_of_not_trips h with ⟨stages, hstages, hready⟩ | ⟨fault, hfault⟩
  · rw [hstages, Except.ok_bind, Except.ok_bind]
    -- measured or not, the run gives the same table
    have hrun : (if r.profiled = true then
        ((stages.runProfiled (.datum (.list ((r.documents contents).map .text))) .none
          { channel := .pipeline, sensors }).1, some (stages.runProfiled
            (.datum (.list ((r.documents contents).map .text))) .none
              { channel := .pipeline, sensors }).2.report)
        else (stages.run (.datum (.list ((r.documents contents).map .text))), none)).1.result =
          (stages.run (.datum (.list ((r.documents contents).map .text)))).result := by
      cases hprofiled : r.profiled with
      | false => rfl
      | true =>
          refine Pipeline.result_runProfiled hready (hmemory hprofiled) hextent fun t ht => ?_
          rcases load_of_not_trips hextent h with ⟨u, hu, hexportable⟩ | ⟨rejection, hrejection, -⟩
          · exact Except.ok.inj (hu.symm.trans ht) ▸ hexportable
          · cases hrejection.symm.trans ht
    rw [hrun]
    cases (stages.run (.datum (.list ((r.documents contents).map .text)))).result with
    | error e => rfl
    | ok t =>
        have hfst (text : Except Failure Text) (report : Option Text) :
            (text >>= fun text => .ok (text, report)).map Prod.fst = text := by
          cases text <;> rfl
        rw [Except.ok_bind, Except.ok_bind]
        unfold format
        cases r.csv <;> exact hfst _ _
  · rw [hfault]
    rfl

end Request

theorem run_request {r : Request} (disk : Disk) (sensors : Sensors) (room : Headroom) :
    run disk sensors r.words room =
      match openFiles disk r.paths flattenRefusal with
      | .error outcome => outcome
      | .ok files => conclude flattenCommand r.verbose (flatten r.read files sensors room) := by
  have hformat : ((r.read.values "--format").getLast?.filter fun f => !outputFormats.contains f) =
      none := by
    rw [Request.values_format_read, Request.format]
    cases r.csv <;> decide
  rw [run_words, runCommand, Request.read_arguments]
  dsimp only
  rw [Request.has_help_read, hformat]
  rfl

def isMismatch : Option Failure → Bool
  | some .mismatch => true
  | _ => false

def isUnencodable : Option Failure → Bool
  | some .unencodable => true
  | _ => false

theorem eq_some_of_isMismatch {crash : Option Failure} (h : isMismatch crash = true) :
    crash = some .mismatch := by
  unfold isMismatch at h
  split at h
  · rfl
  · cases h

theorem eq_some_of_isUnencodable {crash : Option Failure} (h : isUnencodable crash = true) :
    crash = some .unencodable := by
  unfold isUnencodable at h
  split at h
  · rfl
  · cases h

-- Nothing catches the failure of one document that nests too deeply.
theorem Request.crash_of_deep {r : Request} {disk : Disk} {contents : List String} {room : Headroom}
    {s : Text} (hreadable : r.Readable disk contents) (hnamed : r.paths ≠ [])
    (hsteps : r.steps = [])
    (hprofiled : r.profiled = false) (hdocuments : r.documents contents = [s])
    (hblank : s.isBlank = false) (hdeep : Json.Decoder.decode s room = .error .tooDeep)
    (sensors : Sensors) : (run disk sensors r.words room).crash = some .overflow := by
  obtain ⟨files, hopened, hfiles⟩ := hreadable.openFiles hnamed flattenRefusal
  have hload : (Source.load .pipeline (.datum (.list ((r.documents contents).map .text))) .none
      room).result = .error .overflow := by
    rw [hdocuments]
    simp only [Source.load, Document.parseAll, Traced.result_bind, Traced.result_mapM]
    simp only [List.map_cons, List.map_nil, List.zipIdx_cons, List.zipIdx_nil, List.mapM_cons,
      Document.parse_of_tooDeep hdeep hblank]
    rfl
  have hresult : (flatten r.read files sensors room).result = .error .overflow := by
    unfold flatten
    simp only [Traced.result_bind, Traced.result_liftM, values_step_read, has_lines_read,
      has_profile_read, hsteps, hprofiled, hfiles, List.mapM_nil, Except.ok_bind,
      pure_bind, Bool.false_eq_true, if_false, Pipeline.result_run, hload]
    rfl
  rw [run_request, hopened]
  simp only [conclude, hresult]

end Command

end Unnest
