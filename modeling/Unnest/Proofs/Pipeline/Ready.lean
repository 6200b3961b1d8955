import Unnest.Proofs.JsonTable.Exportable
import Unnest.Proofs.Pipeline.Profiled

namespace Unnest

open JsonTable

-- A stage whose call binds, can be described and converts nothing. Its texts can be encoded.
structure Stage.Ready (s : Stage) (verb : Verb) (bound : Arguments) : Prop where
  named : Verb.ofName? s.verb = some verb
  spellable : s.arguments.Spellable
  binds : verb.receive .function s.arguments = .ok bound
  positions : ∀ d ∈ bound.positions, d.Whole
  names : ∀ e ∈ bound.names, e.1.Whole
  unforced : ∀ kind column force, verb.Forces bound.positions kind column force →
    force.truth = .ok false

namespace Stage.Ready

variable {s : Stage} {verb : Verb} {bound : Arguments}

theorem describe (h : s.Ready verb bound) : ∃ shown, s.describe = .ok shown :=
  Stage.describe_ok h.spellable

theorem result_run (h : s.Ready verb bound) (t : JsonTable) :
    (s.run t).result = (verb.apply bound.positions bound.names t).result := by
  obtain ⟨shown, hshown⟩ := h.describe
  rw [result_run_of_describe hshown, apply, h.named]
  exact Verb.result_call h.binds t

theorem exportable (h : s.Ready verb bound) {limit : Nat} {t u : JsonTable}
    (ht : t.Exportable limit) (hu : (s.run t).result = .ok u) : u.Exportable limit :=
  ht.apply h.positions h.names h.unforced ((h.result_run t).symm.trans hu)

theorem judged (h : s.Ready verb bound) {t : JsonTable} (ht : t.Legible) :
    Judged (s.run t).result := by
  rw [h.result_run]
  by_cases hverb : verb = .spreadAll
  · subst hverb
    obtain ⟨separator, hpositions⟩ : ∃ separator, bound.positions = [separator] := by
      obtain ⟨args, hfill, rfl⟩ := Option.map_eq_some_iff.mp (Verb.bind?_of_receive h.binds)
      exact List.length_eq_one_iff.mp (Arguments.length_fill hfill)
    rw [hpositions]
    exact judged_spreadAll ht separator
  · have hanswered : verb.Answered bound.positions := fun kind column force hforces =>
      ⟨false, h.unforced kind column force hforces⟩
    cases uniform_apply hverb (Verb.bind?_of_receive h.binds) h.spellable hanswered with
    | granted hgranted =>
        obtain ⟨u, hu, -⟩ := hgranted t ht
        exact .passed u hu
    | refused r htype hr => exact .refused r htype (hr t ht)

end Stage.Ready

namespace Pipeline

variable {stages : Pipeline} {limit : Nat} {t : JsonTable}

def Ready (stages : Pipeline) : Prop :=
  ∀ s ∈ stages, ∃ verb bound, s.Ready verb bound

theorem Ready.exportable (h : stages.Ready) (ht : t.Exportable limit) {u : JsonTable}
    (hu : stages.after t = .ok u) : u.Exportable limit := by
  refine Except.foldlM_keeps (fun s hs b c hb hc => ?_) ht hu
  obtain ⟨verb, bound, hready⟩ := h s hs
  exact hready.exportable hb hc

-- Stages that are ready come to their end or are refused.
theorem Ready.judged (h : stages.Ready) (ht : t.Exportable limit) : Judged (stages.after t) := by
  refine judged_foldlM (fun s hs u hu => ?_) ht
  obtain ⟨verb, bound, hready⟩ := h s hs
  exact ⟨hready.judged hu.legible, fun w hw => hready.exportable hu hw⟩

theorem Ready.rowsInRange (h : stages.Ready) (ht : t.Exportable limit) (hlimit : limit < 2 ^ 63) :
    RowsInRange stages t := by
  intro k _ w hw
  have htake : Ready (stages.take k) := fun s hs => h s (List.mem_of_mem_take hs)
  have hcount := (htake.exportable ht hw).rowCount_le
  obtain ⟨negative, rank, hx⟩ :=
    Binary64.ofInt?_eq_some (show (w.rowCount : Int).natAbs ≤ 2 ^ 64 by omega)
  exact ⟨_, hx⟩

end Pipeline

end Unnest
