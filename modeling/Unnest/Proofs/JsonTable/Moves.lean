import Unnest.Call
import Unnest.Proofs.Outcome

namespace Unnest.JsonTable

open Relation

-- The ways from a value to others below it.
inductive Descent where
  | elements
  | members
  | walk (keys : List Text)

def Descent.children : Descent → Node → List (Datum × Node)
  | elements, v => v.elements.map fun (position, w) => (.ofNat position, w)
  | members, v => v.members.map fun (key, w) => (.text key, w)
  | walk keys, v => ((v.walk? (keys.map .key)).map (.none, ·)).toList

-- What a verb is made of.
inductive Move (t : JsonTable) : JsonTable → Prop
  | write {name type cells u} : t.withColumn name type cells = .ok u → Move t u
  | keep {mask u} : t.filterRows mask = .ok u → Move t u
  | descend (way : Descent) : Move t (t.ofOffspring (t.offspring way.children))

abbrev Moves : JsonTable → JsonTable → Prop :=
  ReflTransGen Move

theorem moves_gather {t u : JsonTable} {verb : Text} {type : ColumnType} {column : Datum}
    {way : Descent} (h : (t.gather verb type column way.children).result = .ok u) :
    Moves t u := by
  simp only [gather, Traced.result_bind_eq_ok] at h
  obtain ⟨_, _, written, hwritten, _, _, hu⟩ := h
  obtain rfl := Except.ok.inj hu
  exact .tail (.single (.descend way)) (.write hwritten)

theorem moves_gatherArray {t u : JsonTable} {column : Datum}
    (h : (t.gatherArray column).result = .ok u) : Moves t u :=
  @moves_gather t u _ _ _ .elements h

theorem moves_gatherKeys {t u : JsonTable} {column : Datum}
    (h : (t.gatherKeys column).result = .ok u) : Moves t u :=
  @moves_gather t u _ _ _ .members h

theorem moves_enterObject {t u : JsonTable} {keys : List Datum}
    (h : (t.enterObject keys).result = .ok u) : Moves t u := by
  simp only [enterObject, Traced.result_bind_eq_ok] at h
  obtain ⟨path, _, _, _, hu⟩ := h
  obtain rfl := Except.ok.inj hu
  exact .single (.descend (.walk path))

theorem moves_filterJsonTypes {t u : JsonTable} {types : List Datum}
    (h : (t.filterJsonTypes types).result = .ok u) : Moves t u := by
  simp only [filterJsonTypes, Traced.result_bind_eq_ok] at h
  obtain ⟨_, _, kept, hkept, _, _, hu⟩ := h
  obtain rfl := Except.ok.inj hu
  exact .single (.keep hkept)

theorem moves_spreadValues {t u : JsonTable} {fields : List (Text × Datum)}
    (h : (t.spreadValues fields).result = .ok u) : Moves t u := by
  simp only [spreadValues, Traced.result_bind_eq_ok] at h
  obtain ⟨descriptors, _, hfold⟩ := h
  rw [Traced.result_foldlM] at hfold
  refine Except.reflTransGen_of_foldlM (fun v field w hw => ?_) hfold
  simp only [Traced.result_bind_eq_ok] at hw
  obtain ⟨_, _, hwritten⟩ := hw
  exact .write hwritten

theorem moves_spreadAll {t u : JsonTable} {separator : Datum}
    (h : (t.spreadAll separator).result = .ok u) : Moves t u := by
  simp only [spreadAll, Traced.result_bind_eq_ok] at h
  obtain ⟨_, _, _, _, spread, hfold, _, _, hu⟩ := h
  obtain rfl := Except.ok.inj hu
  rw [Traced.result_foldlM] at hfold
  refine Except.reflTransGen_of_foldlM (fun v name w hw => ?_) hfold
  -- a note about mixed kinds may come first
  split at hw
  · simp only [Traced.result_bind_eq_ok] at hw
    obtain ⟨_, _, cells, _, hwritten⟩ := hw
    exact .write hwritten
  · simp only [Traced.result_bind_eq_ok] at hw
    obtain ⟨cells, _, hwritten⟩ := hw
    exact .write hwritten

theorem moves_appendValues {t u : JsonTable} {kind : ScalarKind} {column force : Datum}
    (h : t.appendValues kind column force = .ok u) : Moves t u := by
  obtain ⟨cells, _, hwritten⟩ := Except.bind_eq_ok.mp h
  exact .single (.write hwritten)

theorem moves_apply {verb : Verb} {args : List Datum} {named : List (Text × Datum)}
    {t u : JsonTable} (h : (verb.apply args named t).result = .ok u) : Moves t u := by
  unfold Verb.apply at h
  split at h
  · exact moves_gatherArray h
  · exact moves_gatherKeys h
  · exact moves_gatherKeys h
  · exact moves_enterObject h
  · exact moves_filterJsonTypes h
  · exact moves_spreadValues h
  · exact moves_spreadAll h
  · exact moves_appendValues h
  · exact .single (.write h)
  · exact .single (.write h)
  · exact .single (.write h)
  · cases h

-- A call that succeeds only filters rows, descends into their values and writes columns.
theorem moves_call {verb : Verb} {form : Form} {arguments : Arguments} {t u : JsonTable}
    (h : (verb.call form arguments t).result = .ok u) : Moves t u := by
  obtain ⟨bound, _, happly⟩ := Traced.result_bind_eq_ok.mp h
  exact moves_apply happly

-- What may be done to a table with values: a verb in any form, rows that are kept by hand, and
-- columns that are written by hand.
inductive Operation where
  | call (verb : Verb) (form : Form) (arguments : Arguments)
  | filterRows (mask : List Bool)
  | withColumn (name : Datum) (type : ColumnType) (cells : List Datum)

namespace Operation

def run (operation : Operation) (t : JsonTable) : Except Failure JsonTable :=
  match operation with
  | call verb form arguments => (verb.call form arguments t).result
  | filterRows mask => t.filterRows mask
  | withColumn name type cells => t.withColumn name type cells

def runAll (operations : List Operation) (t : JsonTable) : Except Failure JsonTable :=
  operations.foldlM (fun t operation => operation.run t) t

theorem moves_run {operation : Operation} {t u : JsonTable} (h : operation.run t = .ok u) :
    Moves t u := by
  cases operation with
  | call verb form arguments => exact moves_call h
  | filterRows mask => exact .single (.keep h)
  | withColumn name type cells => exact .single (.write h)

theorem moves_runAll {operations : List Operation} {t u : JsonTable}
    (h : runAll operations t = .ok u) : Moves t u := by
  have hmoves : ReflTransGen Moves t u := by
    unfold runAll at h
    refine Except.reflTransGen_of_foldlM (fun v operation w hrun => ?_) h
    exact moves_run hrun
  rwa [reflTransGen_eq_self] at hmoves

end Operation

end Unnest.JsonTable
