import Unnest.Proofs.JsonTable.Pool

namespace Unnest.JsonTable

open Validation

-- The names of the scalars that keys lead to, in the order in which they first come up: row by
-- row, and in preorder within a row.
def scalarNames (t : JsonTable) (separator : Text) : List Text :=
  (t.nodes.flatMap fun v => (v.json.scalarsNamed separator).map Prod.fst).eraseDups

-- The last scalar of a name in each row, if the row has one.
def scalars (t : JsonTable) (separator name : Text) : List (Option Json) :=
  t.nodes.map fun v => (v.json.scalarsNamed separator).reverse.lookup name

-- The table that has its scalars spread: under each name there is the column that they make up,
-- in the place of the column of that name or behind all others, and the rest stays.
structure Spread (t : JsonTable) (separator : Text) (u : JsonTable) : Prop where
  documents : u.table.documents = t.table.documents
  nodes : u.nodes = t.nodes
  names : u.table.names = t.table.names ++
    (t.scalarNames separator).filter fun name => !t.table.names.contains name
  written : ∀ name ∈ t.scalarNames separator,
    ∃ c, u.table.columns.lookup name = some c ∧ Pooled (t.scalars separator name) c
  kept : ∀ name ∉ t.scalarNames separator,
    u.table.columns.lookup name = t.table.columns.lookup name

variable {t u : JsonTable} {separator name : Text}

theorem ne_nil_of_mem_scalarNames (h : name ∈ t.scalarNames separator) : name ≠ [] := by
  obtain ⟨v, -, hname⟩ := List.mem_flatMap.mp (List.mem_eraseDups.mp h)
  obtain ⟨e, he, rfl⟩ := List.mem_map.mp hname
  exact (Json.isLeaf_of_mem_scalarsNamed he).1

theorem isLeaf_of_mem_scalars {x : Json} (h : some x ∈ t.scalars separator name) :
    x.isLeaf = true := by
  obtain ⟨v, -, hx⟩ := List.mem_map.mp h
  have hmem := List.mem_reverse.mp (Entries.mem_of_lookup hx)
  exact (Json.isLeaf_of_mem_scalarsNamed hmem).2

theorem spreadRow_eq (separator : Text) (v : Node) :
    spreadRow separator v = Entries.ofList (v.json.scalarsNamed separator) := by
  rw [spreadRow, Json.namedLeaves_filter]

theorem spreadNames_eq (t : JsonTable) (separator : Text) :
    spreadNames (t.nodes.map (spreadRow separator)) = t.scalarNames separator := by
  simp only [spreadNames, List.flatMap_map, spreadRow_eq, Entries.keys_ofList]
  exact eraseDups_flatMap_eraseDups t.nodes _

theorem lookup_spreadRow (t : JsonTable) (separator name : Text) :
    (t.nodes.map (spreadRow separator)).map (·.lookup name) = t.scalars separator name := by
  rw [List.map_map]
  refine List.map_congr_left fun v _ => ?_
  rw [Function.comp, spreadRow_eq, Entries.lookup_ofList]

theorem spreadName_scalars (t u : JsonTable) (separator name : Text) :
    spreadName (t.nodes.map (spreadRow separator)) u name =
      (spreadColumn (t.scalars separator name)).2.2 >>=
        u.withColumn (.text name) (spreadColumn (t.scalars separator name)).2.1 := by
  rw [spreadName, lookup_spreadRow]

-- The failures of spreading.
inductive SpreadFailure (t : JsonTable) (separator : Text) : Failure → Prop
  | reserved {r : Rejection} : documentColumn ∈ t.scalarNames separator →
      r.type = .reservedColumn → SpreadFailure t separator (.rejected r)
  | unspelled {name : Text} : name ∈ t.scalarNames separator →
      ¬Spelled (t.scalars separator name) → SpreadFailure t separator (.longNumeral none)

-- A name has its column written, whatever was written before, or it ends the call.
theorem spreadName_cases (hname : name ∈ t.scalarNames separator) :
    (Writable name ∧ Spelled (t.scalars separator name) ∧
      ∃ c, Pooled (t.scalars separator name) c ∧ ∀ u : JsonTable, u.rowCount = t.nodes.length →
        spreadName (t.nodes.map (spreadRow separator)) u name =
          .ok ⟨{ u.table with others := Entries.put name c u.table.others }, u.nodes⟩) ∨
    ∃ e, SpreadFailure t separator e ∧
      ∀ u, spreadName (t.nodes.map (spreadRow separator)) u name = .error e := by
  simp only [spreadName_scalars]
  have hleaf : ∀ x, some x ∈ t.scalars separator name → x.isLeaf = true :=
    fun _ => isLeaf_of_mem_scalars
  rcases pooled_or_refused hleaf with ⟨hspelled, c, hc, hcolumn⟩ | ⟨hunspelled, hcolumn⟩
  · simp only [hcolumn, Except.ok_bind]
    by_cases hdocument : name = documentColumn
    · subst hdocument
      exact .inr ⟨_, .reserved hname rfl, fun u => withColumn_of_faults rfl rfl u _ _⟩
    · have hwritable : Writable name := ⟨ne_nil_of_mem_scalarNames hname, hdocument⟩
      refine .inl ⟨hwritable, hspelled, c, hc, fun u hcount => ?_⟩
      have hlength : c.cells.length = u.table.rowCount := by
        rw [hc.length, scalars, List.length_map, ← hcount]
        rfl
      rw [withColumn, Table.withColumn_eq_ok hwritable hlength hc.fits]
      rfl
  · refine .inr ⟨_, .unspelled hname hunspelled, fun u => ?_⟩
    rw [hcolumn]
    rfl

-- Columns are written one after the other, unless the call ends at one of them.
theorem foldlM_spreadName {names : List Text} (hnames : names ⊆ t.scalarNames separator)
    (hcount : u.rowCount = t.nodes.length) :
    (∃ new : List (Text × Column), new.map Prod.fst = names ∧
      (∀ e ∈ new, Writable e.1 ∧ Spelled (t.scalars separator e.1) ∧
        Pooled (t.scalars separator e.1) e.2) ∧
      names.foldlM (spreadName (t.nodes.map (spreadRow separator))) u =
        .ok ⟨{ u.table with others := Entries.putAll new u.table.others }, u.nodes⟩) ∨
    ∃ e, SpreadFailure t separator e ∧
      names.foldlM (spreadName (t.nodes.map (spreadRow separator))) u = .error e := by
  induction names generalizing u with
  | nil => exact .inl ⟨[], rfl, nofun, rfl⟩
  | cons name names ih =>
      obtain ⟨hname, hnames⟩ := List.cons_subset.mp hnames
      rw [List.foldlM_cons]
      rcases spreadName_cases hname with ⟨hwritable, hspelled, c, hc, hstep⟩ | ⟨e, he, hstep⟩
      · rw [hstep u hcount, Except.ok_bind]
        have hrest := ih hnames
          (u := ⟨{ u.table with others := Entries.put name c u.table.others }, u.nodes⟩) hcount
        refine hrest.imp_left ?_
        rintro ⟨new, rfl, hnew, hfold⟩
        exact ⟨(name, c) :: new, rfl,
          List.forall_mem_cons.mpr ⟨⟨hwritable, hspelled, hc⟩, hnew⟩, hfold⟩
      · exact .inr ⟨e, he, by rw [hstep]; rfl⟩

theorem separatorText_eq_ok (hseparator : separator ≠ []) :
    separatorText (.text separator) = .ok separator := by
  obtain ⟨c, cs, rfl⟩ := List.exists_cons_of_ne_nil hseparator
  rfl

-- A table with new columns is spread.
theorem spread_putAll {new : List (Text × Column)}
    (hkeys : new.map Prod.fst = t.scalarNames separator)
    (hnew : ∀ e ∈ new, Writable e.1 ∧ Pooled (t.scalars separator e.1) e.2) :
    t.Spread separator
      ⟨{ t.table with others := Entries.putAll new t.table.others }, t.nodes⟩ := by
  have hnodup : (new.map Prod.fst).Nodup := hkeys ▸ nodup_eraseDups _
  have hdocument : documentColumn ∉ new.map Prod.fst := by
    intro hmem
    obtain ⟨e, he, heq⟩ := List.mem_map.mp hmem
    exact (hnew e he).1.2 heq
  have hcolumns := Table.columns_putAll (t := t.table) hdocument
  refine ⟨rfl, rfl, ?_, fun name hname => ?_, fun name hname => ?_⟩
  · rw [Table.names, hcolumns, Entries.keys_putAll hnodup, hkeys]
    rfl
  · rw [← hkeys, ← Entries.isSome_lookup] at hname
    obtain ⟨c, hc⟩ := Option.isSome_iff_exists.mp hname
    refine ⟨c, ?_, (hnew _ (Entries.mem_of_lookup hc)).2⟩
    rw [hcolumns, Entries.lookup_putAll hnodup, hc]
    rfl
  · rw [← hkeys, ← Entries.lookup_eq_none] at hname
    rw [hcolumns, Entries.lookup_putAll hnodup, hname]
    rfl

-- Spreading ends in one of two ways, and never fails for anything else.
theorem spreadAll_cases (ht : t.Aligned) (hseparator : separator ≠ []) :
    (∃ u, (t.spreadAll (.text separator)).result = .ok u ∧ t.Spread separator u ∧
      documentColumn ∉ t.scalarNames separator ∧
      ∀ name ∈ t.scalarNames separator, Spelled (t.scalars separator name)) ∨
    ∃ e, (t.spreadAll (.text separator)).result = .error e ∧ SpreadFailure t separator e := by
  have hresult : (t.spreadAll (.text separator)).result =
      (t.scalarNames separator).foldlM (spreadName (t.nodes.map (spreadRow separator))) t := by
    rw [result_spreadAll, separatorText_eq_ok hseparator, Except.ok_bind]
    dsimp only
    rw [spreadNames_eq]
  rw [hresult]
  rcases foldlM_spreadName (List.Subset.refl _) ht with ⟨new, hkeys, hnew, hfold⟩ | ⟨e, he, hfold⟩
  · have hall : ∀ name ∈ t.scalarNames separator,
        Writable name ∧ Spelled (t.scalars separator name) := by
      rw [← hkeys]
      intro name hname
      obtain ⟨e, he, rfl⟩ := List.mem_map.mp hname
      exact ⟨(hnew e he).1, (hnew e he).2.1⟩
    refine .inl ⟨_, hfold, spread_putAll hkeys fun e he => ⟨(hnew e he).1, (hnew e he).2.2⟩,
      fun hmem => (hall _ hmem).1.2 rfl, fun name hname => (hall name hname).2⟩
  · exact .inr ⟨e, hfold, he⟩

-- What spreading comes to. As long as numbers that are mixed with other values can be spelled, it
-- is refused if a scalar is named like the column of documents, and otherwise gives a table with
-- a column for each name; a number that has no spelling ends it.
theorem spreadAll_columns (ht : t.Aligned) (hseparator : separator ≠ []) :
    ((∀ name ∈ t.scalarNames separator, Spelled (t.scalars separator name)) →
      (documentColumn ∈ t.scalarNames separator →
        ∃ r, (t.spreadAll (.text separator)).result = .error (.rejected r) ∧
          r.type = .reservedColumn) ∧
      (documentColumn ∉ t.scalarNames separator →
        ∃ u, (t.spreadAll (.text separator)).result = .ok u ∧ t.Spread separator u)) ∧
    ((∃ name ∈ t.scalarNames separator, ¬Spelled (t.scalars separator name)) →
      ∃ e, (t.spreadAll (.text separator)).result = .error e ∧ SpreadFailure t separator e) := by
  rcases spreadAll_cases ht hseparator with
    ⟨u, hu, hspread, hdocument, hspelled⟩ | ⟨e, he, hfailure⟩
  · refine ⟨fun _ => ⟨fun hmem => absurd hmem hdocument, fun _ => ⟨u, hu, hspread⟩⟩, ?_⟩
    rintro ⟨name, hname, hunspelled⟩
    exact absurd (hspelled name hname) hunspelled
  · refine ⟨fun hspelled => ?_, fun _ => ⟨e, he, hfailure⟩⟩
    cases hfailure with
    | reserved hmem htype => exact ⟨fun _ => ⟨_, he, htype⟩, fun hnot => absurd hmem hnot⟩
    | unspelled hname hunspelled => exact absurd (hspelled _ hname) hunspelled

-- A string takes the place of a number of the same name in its row, and in another row a number
-- stays; so both become texts. A null makes a column without a value.
theorem spreadAll_columns_mixed :
    ∃ t : JsonTable, t.Aligned ∧ ∃ u, (t.spreadAll (.text ".")).result = .ok u ∧
      u.nodes = t.nodes ∧ u.table.names = [documentColumn, "a.b", "n"] ∧
      u.table.columns.lookup ("a.b" : Text) =
        some ⟨.string, [.text "s", .none, .text "2"]⟩ ∧
      u.table.columns.lookup ("n" : Text) = some ⟨.string, [.none, .none, .none]⟩ := by
  let t := ofDocuments [
    { json := .object [("a", .object [("b", .number (.int 1))]), ("n", .null),
        ("a.b", .string "s")] },
    { json := .array [.number (.int 3)] },
    { json := .object [("a.b", .number (.int 2)), ("e", .array [.null])] }]
  have ht : t.Aligned := rfl
  have hnames : t.scalarNames "." = ["a.b", "n"] := by
    rw [← spreadNames_eq]
    decide
  have hfirst : t.scalars "." "a.b" =
      [some (.string "s"), none, some (.number (.int 2))] := by
    rw [← lookup_spreadRow]
    rfl
  have hsecond : t.scalars "." "n" = [some .null, none, none] := by
    rw [← lookup_spreadRow]
    rfl
  have htwo : (Number.int 2).spelling = .ok "2" := by rfl
  have hspelled : ∀ name ∈ t.scalarNames ".", Spelled (t.scalars "." name) := by
    rw [hnames]
    refine List.forall_mem_cons.mpr ⟨.inr fun n hn => ?_, List.forall_mem_singleton.mpr ?_⟩
    · rw [hfirst] at hn
      simp at hn
      exact hn ▸ ⟨_, htwo⟩
    · rw [hsecond]
      exact .inr (by simp)
  have hseparator : ("." : Text) ≠ [] := by decide
  obtain ⟨u, hu, hspread⟩ :=
    ((spreadAll_columns ht hseparator).1 hspelled).2 (by rw [hnames]; decide)
  have hmixed : Pooled (t.scalars "." "a.b") ⟨.string, [.text "s", .none, .text "2"]⟩ := by
    rw [hfirst]
    refine .mixed (fun kind h => ?_) (.cons (.string _) (.cons .absent (.cons (.number htwo) .nil)))
    have hstring := h.agreed (.string "s") (by simp)
    have hnumber := h.agreed (.number (.int 2)) (by simp)
    cases kind <;> simp [Json.kind, ScalarKind.kind] at hstring hnumber
  have hnull : Pooled (t.scalars "." "n") ⟨.string, [.none, .none, .none]⟩ := by
    rw [hsecond]
    refine .mixed (fun kind h => ?_) (.cons .null (.cons .absent (.cons .absent .nil)))
    obtain ⟨x, hx, hkind⟩ := h.found
    simp at hx
    cases kind <;> simp [hx, Json.kind, ScalarKind.kind] at hkind
  obtain ⟨c, hc, hpooled⟩ := hspread.written "a.b" (by rw [hnames]; decide)
  obtain ⟨d, hd, hpooled'⟩ := hspread.written "n" (by rw [hnames]; decide)
  rw [hpooled.eq hmixed] at hc
  rw [hpooled'.eq hnull] at hd
  refine ⟨t, ht, u, hu, hspread.nodes, ?_, hc, hd⟩
  rw [hspread.names, hnames]
  rfl

end Unnest.JsonTable
