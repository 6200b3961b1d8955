import Unnest.Pipeline
import Unnest.Proofs.Call
import Unnest.Proofs.Outcome

namespace Unnest

theorem Verb.name_of_ofName? {name : Text} {verb : Verb} (h : ofName? name = some verb) :
    verb.name = name := by
  have hfound := List.find?_some h
  exact of_decide_eq_true hfound

-- A stage that has run could also be described, as its description is noted.
theorem Stage.result_run (s : Stage) (t : JsonTable) :
    (s.run t).result = (s.apply t).result >>= fun u => s.describe.map fun _ => u := by
  simp only [run, noteRowCounts, Traced.result_bind, Traced.result_liftM, Traced.result_note,
    Traced.result_pure]
  cases (s.apply t).result with
  | error e => rfl
  | ok u => cases s.describe <;> rfl

-- A stage that can be described has the outcome of its call.
theorem Stage.result_run_of_describe {s : Stage} {shown : Text} (h : s.describe = .ok shown)
    (t : JsonTable) : (s.run t).result = (s.apply t).result := by
  rw [result_run, h]
  cases (s.apply t).result <;> rfl

theorem Stage.describe_ok {s : Stage} (h : s.arguments.Spellable) :
    ∃ shown, s.describe = .ok shown := by
  obtain ⟨shown, hshown⟩ := h.shown_ok
  exact ⟨_, Except.bind_eq_ok.mpr ⟨shown, hshown, rfl⟩⟩

namespace Pipeline

-- What the stages make of a table.
def after (stages : Pipeline) (t : JsonTable) : Except Failure JsonTable :=
  stages.foldlM (fun t s => (s.run t).result) t

@[simp] theorem after_nil (t : JsonTable) : after [] t = .ok t := rfl

theorem after_cons_ok {s : Stage} {t u : JsonTable} (h : (s.run t).result = .ok u)
    (stages : Pipeline) : after (s :: stages) t = after stages u := by
  rw [after, List.foldlM_cons, h]
  rfl

theorem after_cons_error {s : Stage} {t : JsonTable} {e : Failure}
    (h : (s.run t).result = .error e) (stages : Pipeline) :
    after (s :: stages) t = .error e := by
  rw [after, List.foldlM_cons, h]
  rfl

-- A run that succeeds has come through all of its beginnings.
theorem exists_after_take {stages : Pipeline} {t u : JsonTable} (h : after stages t = .ok u)
    (k : Nat) : ∃ w, after (stages.take k) t = .ok w := by
  rw [← List.take_append_drop k stages, after, List.foldlM_append] at h
  obtain ⟨w, hw, -⟩ := Except.bind_eq_ok.mp h
  exact ⟨w, hw⟩

theorem result_begin (stages : Pipeline) (source : Source) (jsonColumn : Datum)
    {room : Headroom} : (begin stages source jsonColumn room).result =
      (source.load .pipeline jsonColumn room).result := by
  simp only [begin, Traced.result_bind, Traced.result_note, Traced.result_pure]
  cases (source.load .pipeline jsonColumn room).result <;> rfl

theorem result_run (stages : Pipeline) (source : Source) (jsonColumn : Datum) {room : Headroom} :
    (stages.run source jsonColumn room).result =
      (source.load .pipeline jsonColumn room).result >>= stages.after := by
  simp only [run, Traced.result_bind, result_begin, Traced.result_foldlM]
  cases (source.load .pipeline jsonColumn room).result with
  | error e => rfl
  | ok t =>
      simp only [Except.ok_bind]
      rw [← after]
      cases stages.after t <;> rfl

end Pipeline

end Unnest
