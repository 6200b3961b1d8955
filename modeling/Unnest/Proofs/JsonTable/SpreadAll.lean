import Unnest.Proofs.Json.Leaves
import Unnest.Proofs.JsonTable.Refusal

namespace Unnest

namespace Json

-- What lies below a value through objects has what is handed down to it, and its keys are keys of
-- values that have it too.
theorem mem_leaves {p : Json → Prop} {q : Text → Prop} (hp : Inherited p)
    (hq : ∀ es, p (object es) → ∀ e ∈ es, q e.1) {j : Json} {keys : List Text} (hj : p j)
    (hkeys : ∀ k ∈ keys, q k) : ∀ e ∈ j.leaves keys, (∀ k ∈ e.1, q k) ∧ p e.2 := by
  induction j using induction_branches generalizing keys with
  | step j ih =>
      cases j with
      | object es =>
          rw [leaves, leavesOfEntries_eq]
          intro e he
          obtain ⟨⟨k, x⟩, hx, he⟩ := List.mem_flatMap.mp he
          have hbranch : (Step.key k, x) ∈ (object es).branches :=
            List.mem_map_of_mem (f := fun e => (Step.key e.1, e.2)) hx
          refine ih _ hbranch (hp _ hj _ hbranch) (List.forall_mem_append.mpr ⟨hkeys, ?_⟩) e he
          exact List.forall_mem_singleton.mpr (hq es hj _ hx)
      | array xs =>
          rw [leaves]
          exact fun e he => absurd he List.not_mem_nil
      | null | logical _ | number _ | string _ =>
          exact List.forall_mem_singleton.mpr ⟨hkeys, hj⟩

theorem mem_namedLeaves {p : Json → Prop} {q : Text → Prop} (hp : Inherited p)
    (hq : ∀ es, p (object es) → ∀ e ∈ es, q e.1) {separator : Text}
    (hjoin : ∀ keys : List Text, (∀ k ∈ keys, q k) → q (.join separator keys)) {j : Json}
    (hj : p j) : ∀ e ∈ j.namedLeaves separator, q e.1 ∧ p e.2 := by
  unfold namedLeaves
  split
  · intro e he
    obtain ⟨leaf, hleaf, rfl⟩ := List.mem_map.mp he
    obtain ⟨hkeys, hleaf⟩ := mem_leaves hp hq hj (List.forall_mem_nil q) leaf hleaf
    exact ⟨hjoin _ hkeys, hleaf⟩
  · intro e he
    cases he

end Json

namespace JsonTable

open Validation

-- The scalars that are spread over a row, under their names.
def spreadRow (separator : Text) (v : Node) : List (Text × Json) :=
  Entries.ofList ((v.json.namedLeaves separator).filter fun (name, _) => !name.isEmpty)

def spreadNames (rows : List (List (Text × Json))) : List Text :=
  (rows.flatMap (·.map Prod.fst)).eraseDups

-- Writes the column under one of the names.
def spreadName (rows : List (List (Text × Json))) (t : JsonTable) (name : Text) :
    Except Failure JsonTable :=
  let (_, type, cells) := spreadColumn (rows.map (·.lookup name))
  cells >>= t.withColumn (.text name) type

theorem result_spreadAll (t : JsonTable) (separator : Datum) :
    (t.spreadAll separator).result = separatorText separator >>= fun separator =>
      let rows := t.nodes.map (spreadRow separator)
      (spreadNames rows).foldlM (spreadName rows) t := by
  have hnotes (l : List (Text × Json)) (message : Text) :
      (l.forM fun _ => Traced.note .debug .extraction message).result = .ok () :=
    Traced.result_forM_ok (fun _ => rfl) l
  -- a note about mixed kinds may come first
  have hstep (rows : List (List (Text × Json))) (u : JsonTable) (name message : Text) :
      (if 1 < (spreadColumn (rows.map (·.lookup name))).1.length then do
        Traced.note .debug .extraction message
        let cells ← liftM (spreadColumn (rows.map (·.lookup name))).2.2
        liftM (u.withColumn (.text name) (spreadColumn (rows.map (·.lookup name))).2.1 cells)
      else do
        let cells ← liftM (spreadColumn (rows.map (·.lookup name))).2.2
        liftM (u.withColumn (.text name) (spreadColumn (rows.map (·.lookup name))).2.1 cells) :
          Traced JsonTable).result = spreadName rows u name := by
    split
    · simp only [Traced.result_bind, Traced.result_note, Traced.result_liftM]
      rfl
    · simp only [Traced.result_bind, Traced.result_liftM]
      rfl
  unfold spreadAll
  simp only [Traced.result_bind, Traced.result_liftM]
  cases separatorText separator with
  | error e => rfl
  | ok s =>
      have hrows : (t.nodes.map fun v => v.json.namedLeaves s).map (fun row =>
          Entries.ofList (row.filter fun (name, _) => !name.isEmpty)) =
          t.nodes.map (spreadRow s) := List.map_map
      simp only [Except.ok_bind, hnotes, Traced.result_foldlM, Traced.result_note,
        Traced.result_pure, hrows, hstep]
      exact bind_pure _

-- Scalars that are spread have what is handed down to them, and their names are joined keys.
theorem mem_spreadRow {p : Json → Prop} {q : Text → Prop} (hp : Json.Inherited p)
    (hq : ∀ es, p (.object es) → ∀ e ∈ es, q e.1) {separator : Text}
    (hjoin : ∀ keys : List Text, (∀ k ∈ keys, q k) → q (.join separator keys)) {v : Node}
    (hv : p v.json) : ∀ e ∈ spreadRow separator v, q e.1 ∧ p e.2 := by
  intro e he
  have hmem := (List.mem_filter.mp (Entries.mem_of_mem_ofList he)).1
  exact Json.mem_namedLeaves hp hq hjoin hv e hmem

-- Values that lie side by side under a name are stored as one type, and converted only to texts.
theorem spreadColumn_eq (cells : List (Option Json)) :
    ∃ kinds kind force, (force = true → kind = .string) ∧
      spreadColumn cells = (kinds, ScalarKind.columnType kind, cells.mapM fun cell =>
        match cell with
        | none => .ok .none
        | some j => cellOf kind force j) := by
  unfold spreadColumn
  dsimp only
  split
  · next kind _ => exact ⟨_, kind, false, nofun, rfl⟩
  · exact ⟨_, .string, true, fun _ => rfl, rfl⟩

theorem spreadName_eq (rows : List (List (Text × Json))) (t : JsonTable) (name : Text) :
    ∃ kind force, (force = true → kind = .string) ∧ spreadName rows t name =
      (rows.mapM fun row => (row.lookup name).elim (.ok .none) (cellOf kind force)) >>=
        t.withColumn (.text name) (ScalarKind.columnType kind) := by
  obtain ⟨kinds, kind, force, hforce, hcolumn⟩ := spreadColumn_eq (rows.map (·.lookup name))
  refine ⟨kind, force, hforce, ?_⟩
  rw [spreadName, hcolumn]
  dsimp only
  rw [List.mapM_map]
  congr 2
  funext row
  simp only [Function.comp]
  cases row.lookup name <;> rfl

-- There is a cell for each value, of whatever kind the cells are to be.
theorem exists_spreadCells {nodes : List Node} (h : ∀ v ∈ nodes, v.json.Spellable)
    (separator name : Text) (kind : ScalarKind) (force : Bool) :
    ∃ cells, ((nodes.map (spreadRow separator)).mapM fun row =>
        (row.lookup name).elim (.ok .none) (cellOf kind force)) = .ok cells ∧
      cells.length = nodes.length ∧ ∀ d ∈ cells, kind.columnType.Fits d := by
  have hcell : ∀ row ∈ nodes.map (spreadRow separator), ∃ d,
      (row.lookup name).elim (.ok .none) (cellOf kind force) = .ok d ∧
        kind.columnType.Fits d := by
    intro row hrow
    obtain ⟨v, hv, rfl⟩ := List.mem_map.mp hrow
    cases hlookup : (spreadRow separator v).lookup name with
    | none => exact ⟨.none, rfl, .inl rfl⟩
    | some j =>
        have hj := mem_spreadRow (q := fun _ => True) (Json.inherited_throughout _)
          (fun _ _ _ _ => trivial) (fun _ _ => trivial) (h v hv) _ (Entries.mem_of_lookup hlookup)
        exact cellOf_ok kind force hj.2
  obtain ⟨cells, hcells⟩ := Except.exists_mapM_eq_ok fun row hrow =>
    (hcell row hrow).imp fun d hd => hd.1
  refine ⟨cells, hcells, ?_, fun d hd => ?_⟩
  · rw [← (Except.mapM_eq_ok_iff.mp hcells).length_eq, List.length_map]
  · obtain ⟨row, hrow, heq⟩ := Except.exists_of_mem_mapM hcells hd
    obtain ⟨d', hd', hfits⟩ := hcell row hrow
    exact Except.ok.inj (heq.symm.trans hd') ▸ hfits

theorem judged_withColumn {t : JsonTable} (ht : t.Aligned) (name : Text) {type : ColumnType}
    {cells : List Datum} (hlength : cells.length = t.nodes.length)
    (hfits : ∀ d ∈ cells, type.Fits d) : Judged (t.withColumn (.text name) type cells) := by
  rcases columnName_cases (Datum.spellable_text name) with
    ⟨key, hname, hkey⟩ | ⟨found, fault, hfound, hfaults, htype⟩
  · obtain rfl := Datum.text.inj hname
    obtain ⟨u, hu, -⟩ := shows_withColumn ht hkey (hlength.trans ht.symm) hfits
    exact .passed u hu
  · exact .refused { first := fault, context := .record [("column", .text name)] } htype
      (withColumn_of_faults hfound hfaults t type cells)

-- Where the names come from the data, so may a refusal, but nothing else goes wrong.
theorem judged_spreadAll {t : JsonTable} (ht : t.Legible) (separator : Datum) :
    Judged (t.spreadAll separator).result := by
  rw [result_spreadAll]
  have hseparator : Judged (separatorText separator) := by
    unfold separatorText
    split
    · exact .passed _ rfl
    · exact judged_reject (by decide : FaultType.argument ∈ argumentFaults)
  cases hseparator with
  | refused r htype hr => exact .refused r htype (by rw [hr]; rfl)
  | passed s hs =>
      rw [hs, Except.ok_bind]
      -- the rows to spread are read before a column is written, and writing keeps the values
      refine judged_foldlM (p := fun u => u.Aligned ∧ u.nodes = t.nodes) (fun name _ u hu => ?_)
        ⟨ht.aligned, rfl⟩
      obtain ⟨haligned, hnodes⟩ := hu
      obtain ⟨kind, force, -, hname⟩ := spreadName_eq (t.nodes.map (spreadRow s)) u name
      rw [hname]
      obtain ⟨cells, hcells, hcount, hfits⟩ := exists_spreadCells ht.spellable s name kind force
      have hlength : cells.length = u.nodes.length := by rw [hcount, hnodes]
      rw [hcells, Except.ok_bind]
      refine ⟨judged_withColumn haligned name hlength hfits, fun w hw => ?_⟩
      obtain ⟨hdocuments, hsame⟩ := withColumn_places hw
      refine ⟨?_, hsame.trans hnodes⟩
      rw [Aligned, hdocuments, hsame]
      exact haligned

end JsonTable

end Unnest
