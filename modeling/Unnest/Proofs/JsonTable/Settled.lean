import Unnest.Proofs.JsonTable.Refusal

namespace Unnest.JsonTable

open Validation

-- Whether a call goes through, and what it fails for, is the same for all tables, even where its
-- arguments cannot be shown.
def Settled (run : JsonTable → Except Failure JsonTable) : Prop :=
  (∀ t, t.Legible → ∃ u, run t = .ok u) ∨ ∃ e, ∀ t, t.Legible → run t = .error e

theorem Uniform.settled {run : JsonTable → Except Failure JsonTable} (h : Uniform run) :
    Settled run := by
  cases h with
  | granted hgranted =>
      refine .inl fun t ht => ?_
      obtain ⟨u, hu, -⟩ := hgranted t ht
      exact ⟨u, hu⟩
  | refused r _ hr => exact .inr ⟨.rejected r, hr⟩

theorem Settled.congr {run other : JsonTable → Except Failure JsonTable} (hother : Settled other)
    (h : ∀ t, t.Legible → run t = other t) : Settled run := by
  rcases hother with hgranted | ⟨e, he⟩
  · exact .inl fun t ht => h t ht ▸ hgranted t ht
  · exact .inr ⟨e, fun t ht => (h t ht).trans (he t ht)⟩

theorem settled_error (e : Failure) : Settled fun _ => .error e :=
  .inr ⟨e, fun _ _ => rfl⟩

-- A column may be written under a name, or the name is refused by every table.
theorem writable_or_refused (column : Datum) :
    (∃ key, column = .text key ∧ Writable key) ∨
      ∃ e, ∀ (t : JsonTable) type cells, t.withColumn column type cells = .error e := by
  cases hcheck : columnName false column >>= (·.check (.record [("column", column)])) with
  | error e =>
      refine .inr ⟨e, fun t type cells => ?_⟩
      unfold withColumn Table.withColumn
      rw [← bind_assoc, hcheck]
      rfl
  | ok _ =>
      obtain ⟨found, hfound, hpassed⟩ := Except.bind_eq_ok.mp hcheck
      obtain ⟨key, rfl, hnil, hdocument⟩ :=
        columnName_faults hfound (Findings.check_eq_ok_iff.mp hpassed)
      exact .inl ⟨key, rfl, hnil, hdocument rfl⟩

theorem gathered_or_refused (verb : Text) (column : Datum) :
    (∃ key, column = .text key ∧ Writable key) ∨
      ∃ e, ∀ (t : JsonTable) type children,
        (t.gather verb type column children).result = .error e := by
  cases hcheck : (checkNewColumn verb column).result with
  | error e =>
      refine .inr ⟨e, fun t type children => ?_⟩
      rw [gather, Traced.result_bind, hcheck]
      rfl
  | ok _ =>
      obtain ⟨found, hfound, hpassed⟩ := Traced.result_bind_eq_ok.mp hcheck
      obtain ⟨key, rfl, hnil, hdocument⟩ :=
        columnName_faults hfound (Findings.require_eq_ok_iff.mp hpassed)
      exact .inl ⟨key, rfl, hnil, hdocument rfl⟩

-- A name that is let through is a text, and a text can be shown.
theorem settled_withColumn (column : Datum) {type : ColumnType} {cells : JsonTable → List Datum}
    (hcells : ∀ t : JsonTable, t.Legible →
      (cells t).length = t.nodes.length ∧ ∀ d ∈ cells t, type.Fits d) :
    Settled fun t => t.withColumn column type (cells t) := by
  rcases writable_or_refused column with ⟨key, rfl, -⟩ | ⟨e, he⟩
  · exact (uniform_withColumn (Datum.spellable_text key) hcells).settled
  · exact .inr ⟨e, fun t _ => he t type (cells t)⟩

theorem settled_withColumn_map (column : Datum) {type : ColumnType} {f : Node → Datum}
    (hf : ∀ v, type.Fits (f v)) : Settled fun t => t.withColumn column type (t.nodes.map f) := by
  refine settled_withColumn column fun t _ => ⟨List.length_map _, fun d hd => ?_⟩
  obtain ⟨v, -, rfl⟩ := List.mem_map.mp hd
  exact hf v

theorem settled_gather (verb : Text) (column : Datum) {type : ColumnType} (way : Descent)
    (hfits : ∀ v, ∀ c ∈ way.children v, type.Fits c.1) :
    Settled fun t => (t.gather verb type column way.children).result := by
  rcases gathered_or_refused verb column with ⟨key, rfl, -⟩ | ⟨e, he⟩
  · exact (uniform_gather (Datum.spellable_text key) verb way hfits).settled
  · exact .inr ⟨e, fun t _ => he t type way.children⟩

theorem settled_filterJsonTypes (types : List Datum) :
    Settled fun t => (t.filterJsonTypes types).result := by
  cases hkinds : kindsNamed types with
  | error e =>
      refine .inr ⟨e, fun t _ => ?_⟩
      show (t.filterJsonTypes types).result = .error e
      rw [filterJsonTypes, Traced.result_bind, Traced.result_liftM, hkinds]
      rfl
  | ok kinds =>
      refine .inl fun t ht => ?_
      obtain ⟨u, hu, -⟩ := shows_filterJsonTypes ht.aligned hkinds
      exact ⟨u, hu⟩

theorem settled_appendValues (kind : ScalarKind) (column : Datum) {force : Datum}
    (hforce : force.HasTruth) : Settled fun t => t.appendValues kind column force := by
  obtain ⟨b, hb⟩ := hforce
  refine (settled_withColumn column fun _ ht => scalarCell_fits ht kind b).congr fun t ht => ?_
  rw [appendValues_of_truth hb]
  exact appendValues_of_legible ht kind column b

theorem settled_apply {verb : Verb} (h : verb ≠ .spreadAll) {args : List Datum}
    (hanswered : verb.Answered args) (named : List (Text × Datum)) :
    Settled fun t => (verb.apply args named t).result := by
  unfold Verb.apply
  split
  · exact settled_gather _ _ .elements elements_fits
  · exact settled_gather _ _ .members members_fits
  · exact settled_gather _ _ .members members_fits
  · exact (uniform_enterObject _).settled
  · exact settled_filterJsonTypes _
  · exact (uniform_spreadValues _).settled
  · exact absurd rfl h
  · exact settled_appendValues _ _ (hanswered _ _ _ ⟨rfl, rfl⟩)
  · exact settled_withColumn_map _ fun v => .inr rfl
  · exact settled_withColumn_map _ fun v => .inr rfl
  · exact settled_withColumn_map _ fun v => .inr rfl
  · exact settled_error .mismatch

-- The data has no say in whether a call goes through, unless it names the columns.
theorem settled_call {verb : Verb} (h : verb ≠ .spreadAll) {form : Form} {arguments : Arguments}
    (hanswered : ∀ bound, verb.receive form arguments = .ok bound →
      verb.Answered bound.positions) : Settled fun t => (verb.call form arguments t).result := by
  unfold Verb.call
  simp only [Traced.result_bind, Traced.result_liftM]
  cases hreceive : verb.receive form arguments with
  | error e => exact settled_error e
  | ok bound => exact settled_apply h (hanswered bound hreceive) _

end Unnest.JsonTable
