import Unnest.Proofs.JsonTable.Descriptor
import Unnest.Proofs.Pipeline.Profiled

namespace Unnest

open Validation

-- The names that some form of a call keeps for itself.
def formNames : List Text :=
  ["self", "tbl", "func", "verb"]

namespace Arguments

-- No argument has a name that some form would take as its own.
def Unreserved (arguments : Arguments) : Prop :=
  ∀ e ∈ arguments.names, e.1 ∉ formNames

theorem Unreserved.refuses {arguments : Arguments} (h : arguments.Unreserved) (form : Form) :
    form.refuses arguments = false := by
  have hreserved : ∀ name ∈ form.reserved, name ∈ formNames := by
    cases form <;> decide
  refine List.any_eq_false.mpr fun e he => ?_
  rw [List.contains_iff_mem]
  exact fun hmem => h e he (hreserved e.1 hmem)

theorem fill_names {parameters : List Verb.Parameter} {arguments : Arguments} {args : List Datum}
    (h : fill parameters arguments = some args) :
    ∀ e ∈ arguments.names, e.1 ∈ parameters.map Verb.Parameter.name := by
  induction parameters generalizing arguments args with
  | nil =>
      unfold fill at h
      split at h
      · exact fun e he => absurd he List.not_mem_nil
      · cases h
      · next heq => cases heq
  | cons p parameters ih =>
      intro e he
      unfold fill at h
      split at h
      · split at h
        · cases h
        · obtain ⟨later, hlater, -⟩ := Option.map_eq_some_iff.mp h
          exact List.mem_cons_of_mem _ (ih hlater e he)
      · split at h
        · cases h
        · obtain ⟨later, hlater, -⟩ := Option.map_eq_some_iff.mp h
          by_cases hname : e.1 = p.name
          · exact hname ▸ List.mem_cons_self
          · refine List.mem_cons_of_mem _ (ih hlater e ?_)
            exact List.mem_filter.mpr ⟨he, by simpa using hname⟩

-- A verb that lists its parameters, or takes none by name, has no use for such a name.
theorem unreserved_of_bind? {arguments bound : Arguments} {verb : Verb}
    (hverb : verb ≠ .spreadValues) (h : arguments.bind? verb = some bound) :
    arguments.Unreserved := by
  have hlisted {parameters : List Verb.Parameter} (hsignature : verb.signature = .listed parameters)
      (hnames : ∀ name ∈ parameters.map Verb.Parameter.name, name ∉ formNames) :
      arguments.Unreserved := by
    rw [bind?, hsignature] at h
    obtain ⟨args, hargs, -⟩ := Option.map_eq_some_iff.mp h
    exact fun e he => hnames e.1 (fill_names hargs e he)
  cases verb with
  | spreadValues => exact absurd rfl hverb
  | enterObject | filterJsonTypes =>
      obtain ⟨hempty, -⟩ := (Option.ite_none_right_eq_some ..).mp h
      rw [List.isEmpty_iff] at hempty
      exact fun e he => absurd (hempty ▸ he) List.not_mem_nil
  | appendValues kind => exact hlisted rfl (by cases kind <;> decide)
  | gatherArray | gatherKeys | gatherObject | spreadAll | jsonTypes | jsonLengths
  | jsonComplexity => exact hlisted rfl (by decide)

end Arguments

-- What a verb receives is the same in all forms.
theorem Verb.receive_eq {verb : Verb} {arguments : Arguments}
    (h : verb = .spreadValues → arguments.Unreserved) (form : Form) :
    verb.receive form arguments = (arguments.bind? verb).elim (.error .mismatch) .ok := by
  unfold receive
  cases hbound : arguments.bind? verb with
  | none =>
      dsimp only
      split <;> rfl
  | some bound =>
      have hunreserved : arguments.Unreserved := by
        by_cases hverb : verb = .spreadValues
        · exact h hverb
        · exact Arguments.unreserved_of_bind? hverb hbound
      rw [hunreserved.refuses form]
      rfl

theorem Verb.call_eq {verb : Verb} {arguments : Arguments}
    (h : verb = .spreadValues → arguments.Unreserved) (form : Form) (t : JsonTable) :
    verb.call form arguments t = verb.call .function arguments t := by
  rw [call, call, receive_eq h form, receive_eq h .function]

theorem Verb.ofName?_name (verb : Verb) : ofName? verb.name = some verb := by
  cases verb with
  | appendValues kind => cases kind <;> decide
  | _ => decide

-- The ways to call a verb: in one of the forms, or as the only stage of a pipeline.
inductive Way where
  | call (form : Form)
  | pipeline

def Way.run (way : Way) (verb : Verb) (arguments : Arguments) (t : JsonTable) :
    Except Failure JsonTable :=
  match way with
  | call form => (verb.call form arguments t).result
  | pipeline => do
      let stage ← Stage.make verb.name arguments
      (Pipeline.run [stage] (.tidy t)).result

theorem Stage.make_of_unreserved {arguments : Arguments} (h : arguments.Unreserved) (verb : Verb) :
    make verb.name arguments = .ok { verb := verb.name, arguments } := by
  have hnames : (arguments.names.any fun e => reservedNames.contains e.1) = false := by
    have hreserved : ∀ name ∈ reservedNames, name ∈ formNames := by decide
    refine List.any_eq_false.mpr fun e he => ?_
    rw [List.contains_iff_mem]
    exact fun hmem => h e he (hreserved e.1 hmem)
  unfold make
  rw [hnames, Verb.ofName?_name]
  rfl

theorem Stage.apply_name (verb : Verb) (arguments : Arguments) (t : JsonTable) :
    apply { verb := verb.name, arguments } t = verb.call .function arguments t := by
  rw [apply, Verb.ofName?_name]

theorem Pipeline.result_run_single {stage : Stage} {shown : Text} (h : stage.describe = .ok shown)
    (t : JsonTable) : (Pipeline.run [stage] (.tidy t)).result = (stage.apply t).result := by
  rw [result_run, ← Stage.result_run_of_describe h]
  show after [stage] t = _
  cases hrun : (stage.run t).result with
  | error e => exact after_cons_error hrun []
  | ok u => exact after_cons_ok hrun []

-- Arguments that do not bind are refused before or when the stage runs.
theorem Way.run_pipeline_of_bind?_none {verb : Verb} {arguments : Arguments}
    (h : arguments.bind? verb = none) (t : JsonTable) :
    Way.pipeline.run verb arguments t = .error .mismatch := by
  have happly : (Stage.apply { verb := verb.name, arguments } t).result = .error .mismatch := by
    have hreceive : verb.receive .function arguments = .error .mismatch := by
      unfold Verb.receive
      rw [h]
      split <;> rfl
    rw [Stage.apply_name, Verb.call, hreceive]
    rfl
  simp only [run, Stage.make, Verb.ofName?_name]
  split
  · rfl
  · rw [Except.ok_bind, Pipeline.result_run]
    show Pipeline.after _ t = _
    refine Pipeline.after_cons_error ?_ []
    rw [Stage.result_run, happly]
    rfl

-- All ways of calling a verb come to the same.
theorem Way.run_eq {verb : Verb} {arguments : Arguments}
    (h : verb = .spreadValues → arguments.Unreserved) (hspellable : arguments.Spellable)
    (way : Way) (t : JsonTable) :
    way.run verb arguments t = (verb.call .function arguments t).result := by
  cases way with
  | call form => exact congrArg Traced.result (Verb.call_eq h form t)
  | pipeline =>
      cases hbound : arguments.bind? verb with
      | none =>
          rw [run_pipeline_of_bind?_none hbound, Verb.call, Verb.receive_eq h, hbound]
          rfl
      | some bound =>
          have hunreserved : arguments.Unreserved := by
            by_cases hverb : verb = .spreadValues
            · exact h hverb
            · exact Arguments.unreserved_of_bind? hverb hbound
          -- the stage is logged with its arguments before it is applied
          obtain ⟨shown, hdescribe⟩ :=
            Stage.describe_ok (s := { verb := verb.name, arguments }) hspellable
          rw [run, Stage.make_of_unreserved hunreserved, Except.ok_bind,
            Pipeline.result_run_single hdescribe, Stage.apply_name]

namespace Way

open JsonTable

-- The call that spreads descriptors under their names.
def spreading (fields : List (Text × Descriptor)) : Arguments :=
  { names := fields.map fun a => (a.1, .descriptor a.2) }

-- Each of the names is lost to some way of calling.
theorem run_reserved {name : Text} (h : name ∈ formNames) (t : JsonTable) :
    ∃ way : Way, ∀ d, way.run .spreadValues { names := [(name, d)] } t = .error .mismatch := by
  simp only [formNames, List.mem_cons, List.not_mem_nil, or_false] at h
  rcases h with rfl | rfl | rfl | rfl
  · exact ⟨.call .method, fun d => rfl⟩
  · exact ⟨.call .function, fun d => rfl⟩
  · exact ⟨.call .pipe, fun d => rfl⟩
  · exact ⟨.pipeline, fun d => rfl⟩

-- But for the names that some form keeps for itself, it makes no difference how a verb is called,
-- and descriptors fill the columns under all of their names. No such name is good in every form.
theorem run_agrees (t : JsonTable) :
    (∀ (verb : Verb) (arguments : Arguments), (verb = .spreadValues → arguments.Unreserved) →
      arguments.Spellable → ∀ way : Way,
        way.run verb arguments t = (verb.call .function arguments t).result) ∧
    (∀ fields : List (Text × Descriptor), t.Aligned → (fields.map Prod.fst).Nodup →
      (∀ a ∈ fields, Writable a.1 ∧ a.1 ∉ formNames ∧ Datum.Spellable (.descriptor a.2)) →
      ∃ u, (∀ way : Way, way.run .spreadValues (spreading fields) t = .ok u) ∧
        ∀ a ∈ fields, u.table.column (.text a.1) =
          .ok ⟨a.2.kind.columnType, t.nodes.map fun v => (a.2.resolve v).getD .none⟩) ∧
    ∀ name ∈ formNames, ∃ way : Way, ∀ d,
      way.run .spreadValues { names := [(name, d)] } t = .error .mismatch := by
  refine ⟨fun verb arguments h hspellable way => way.run_eq h hspellable t,
    fun fields ht hnodup hfields => ?_, fun name hname => run_reserved hname t⟩
  obtain ⟨u, hu, hwritten, -⟩ := foldlM_spread hnodup (fun a ha => (hfields a ha).1) ht
  have hunreserved : (spreading fields).Unreserved := by
    intro e he
    obtain ⟨a, ha, rfl⟩ := List.mem_map.mp he
    exact (hfields a ha).2.1
  have hspellable : (spreading fields).Spellable := by
    refine ⟨nofun, fun e he => ?_⟩
    obtain ⟨a, ha, rfl⟩ := List.mem_map.mp he
    exact (hfields a ha).2.2
  have hcall : (Verb.call .spreadValues .function (spreading fields) t).result = .ok u := by
    rw [Verb.call, Verb.receive_eq fun _ => hunreserved]
    exact (result_spreadValues (fieldDescriptors_descriptor fields) t).trans hu
  refine ⟨u, fun way => (way.run_eq (fun _ => hunreserved) hspellable t).trans hcall,
    fun a ha => ?_⟩
  simp only [Table.column, Table.column?, Datum.isKey, hwritten a ha]
  rfl

-- One call with a name that is not known to the verb, and one that spreads.
theorem run_agrees_spread :
    ∃ t u : JsonTable, t.Aligned ∧
      (∀ way : Way, way.run .jsonTypes { names := [("func", .none)] } t = .error .mismatch) ∧
      (∀ way : Way, way.run .spreadValues (spreading [("x", ⟨.string, [.key "a"]⟩)]) t = .ok u) ∧
      u.table.column (.text "x") = .ok ⟨.string, [.text "y"]⟩ := by
  let t : JsonTable := .ofDocuments [{ json := .object [("a", .string "y")] }]
  obtain ⟨hcalls, hspread, -⟩ := run_agrees t
  have hspellable : Arguments.Spellable { names := [("func", .none)] } :=
    ⟨nofun, by simp [Datum.Spellable, Datum.integers]⟩
  obtain ⟨u, hu, hcolumn⟩ := hspread [("x", ⟨.string, [.key "a"]⟩)] (aligned_ofDocuments _)
    (by decide) (by decide)
  exact ⟨t, u, aligned_ofDocuments _, hcalls .jsonTypes _ nofun hspellable, hu,
    hcolumn _ List.mem_cons_self⟩

-- A column that the fluent form writes cannot be written through a pipe.
theorem run_differs_func :
    ∃ t u : JsonTable, Writable "func" ∧
      (Way.call .method).run .spreadValues (spreading [("func", ⟨.string, [.key "a"]⟩)]) t =
        .ok u ∧
      u.table.column (.text "func") = .ok ⟨.string, [.text "x"]⟩ ∧
      (Way.call .pipe).run .spreadValues (spreading [("func", ⟨.string, [.key "a"]⟩)]) t =
        .error .mismatch :=
  ⟨.ofDocuments [{ json := .object [("a", .string "x")] }], _, by decide, rfl, rfl, rfl⟩

end Way

end Unnest
