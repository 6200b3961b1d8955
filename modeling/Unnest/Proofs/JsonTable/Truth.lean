import Unnest.Proofs.Call
import Unnest.Proofs.JsonTable.Effect

namespace Unnest

-- A datum says whether it counts as true.
def Datum.HasTruth (d : Datum) : Prop :=
  ∃ b, d.truth = .ok b

-- A verb appends scalars of a kind, and converts the other ones if a datum counts as true. This is
-- the one argument of a verb that is asked for its truth.
def Verb.Forces (verb : Verb) (args : List Datum) (kind : ScalarKind) (column force : Datum) :
    Prop :=
  verb = .appendValues kind ∧ args = [column, force]

-- Every argument that is asked for its truth says whether it counts as true.
def Verb.Answered (verb : Verb) (args : List Datum) : Prop :=
  ∀ kind column force, verb.Forces args kind column force → force.HasTruth

namespace JsonTable

variable {kind : ScalarKind} {column force : Datum}

theorem cellOf_of_kind {j : Json} (h : j.kind = kind.kind) (force : Datum) :
    cellOf kind force j = .ok j.toDatum :=
  if_pos h

theorem cellOf_of_truth {b : Bool} (h : force.truth = .ok b) (j : Json) :
    cellOf kind force j = cellOf kind b j := by
  rw [cellOf, h]
  rfl

theorem cellOf_of_error {e : Failure} (h : force.truth = .error e) {j : Json}
    (hkind : j.kind ≠ kind.kind) : cellOf kind force j = .error e := by
  rw [cellOf, if_neg hkind, h]
  rfl

theorem appendValues_of_truth {b : Bool} (h : force.truth = .ok b) (t : JsonTable) :
    t.appendValues kind column force = t.appendValues kind column b := by
  simp only [appendValues, cellOf_of_truth h]

-- An object without a truth is not asked for it as long as there is no value of another kind.
theorem appendValues_of_error {e : Failure} (h : force.truth = .error e) (t : JsonTable) :
    t.appendValues kind column force =
      if ∀ v ∈ t.nodes, v.kind = kind.kind then t.appendValues kind column false
      else .error e := by
  unfold appendValues
  split
  · next hall =>
    have hcells (d : Datum) : (t.nodes.mapM fun v => cellOf kind d v.json) =
        .ok (t.nodes.map fun v => v.json.toDatum) := by
      rw [Except.mapM_eq_ok_iff, List.forall₂_map_right_iff, List.forall₂_same]
      exact fun v hv => cellOf_of_kind (hall v hv) d
    rw [hcells, hcells]
  · next hother =>
    obtain ⟨v, hv, hkind⟩ : ∃ v ∈ t.nodes, v.kind ≠ kind.kind := by
      simpa only [not_forall, exists_prop] using hother
    have hcells : (t.nodes.mapM fun v => cellOf kind force v.json) = .error e := by
      refine Except.mapM_eq_error (fun w _ => ?_) hv (cellOf_of_error h hkind)
      by_cases hw : w.kind = kind.kind
      · exact .inl ⟨_, cellOf_of_kind hw force⟩
      · exact .inr (cellOf_of_error h hw)
    rw [hcells]
    rfl

end JsonTable

theorem Verb.result_call_of_error {verb : Verb} {form : Form} {arguments bound : Arguments}
    (hbinds : verb.receive form arguments = .ok bound) {kind : ScalarKind} {column force : Datum}
    (hforces : verb.Forces bound.positions kind column force) {e : Failure}
    (h : force.truth = .error e) (t : JsonTable) :
    (verb.call form arguments t).result =
      if ∀ v ∈ t.nodes, v.kind = kind.kind then t.appendValues kind column false
      else .error e := by
  obtain ⟨rfl, hpositions⟩ := hforces
  rw [Verb.result_call hbinds, hpositions]
  exact JsonTable.appendValues_of_error h t

end Unnest
