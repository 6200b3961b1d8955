import Unnest.Proofs.JsonTable.Parts
import Unnest.Proofs.JsonTable.Spread

namespace Unnest

-- What stands at the given positions of a list, in their order.
def arranged (rows : List Nat) (l : List α) : List α :=
  rows.filterMap fun i => l[i]?

section

variable {rows : List Nat} {l : List α}

theorem arranged_range (l : List α) : arranged (List.range l.length) l = l := by
  have hpresent : (List.range l.length).map (fun i => l[i]?) = l.map some := by
    refine List.ext_getElem (by simp) fun i hi hi' => ?_
    simp at hi
    simp [hi]
  have hsplit : arranged (List.range l.length) l =
      ((List.range l.length).map fun i => l[i]?).filterMap id := by
    rw [List.filterMap_map]
    rfl
  rw [hsplit, hpresent, List.filterMap_map]
  exact List.filterMap_some

theorem arranged_perm (h : rows.Perm (List.range l.length)) : (arranged rows l).Perm l := by
  have hperm := h.filterMap fun i => l[i]?
  rwa [← arranged, ← arranged, arranged_range] at hperm

theorem arranged_map (f : α → β) (rows : List Nat) (l : List α) :
    arranged rows (l.map f) = (arranged rows l).map f := by
  simp only [arranged, List.map_filterMap, List.getElem?_map]

theorem arranged_eq_map (h : ∀ i ∈ rows, i < l.length) (d : α) :
    arranged rows l = rows.map fun i => l.getD i d := by
  rw [← List.filterMap_eq_map]
  refine List.filterMap_congr fun i hi => ?_
  simp [h i hi]

theorem length_arranged (h : ∀ i ∈ rows, i < l.length) :
    (arranged rows l).length = rows.length := by
  cases l with
  | nil =>
      cases rows with
      | nil => rfl
      | cons i rows => exact absurd (h i List.mem_cons_self) (Nat.not_lt_zero i)
  | cons a l => rw [arranged_eq_map h a, List.length_map]

theorem forall₂_arranged {R : α → β → Prop} {m : List β} (h : List.Forall₂ R l m)
    (rows : List Nat) : List.Forall₂ R (arranged rows l) (arranged rows m) := by
  induction rows with
  | nil => exact .nil
  | cons i rows ih =>
      have hi := forall₂_getElem? h i
      rw [arranged, arranged, List.filterMap_cons, List.filterMap_cons]
      generalize l[i]? = x at hi
      generalize m[i]? = y at hi
      cases hi with
      | none => exact ih
      | some hab => exact .cons hab ih

end

theorem Column.select_eq_arranged {c : Column} {rows : List Nat}
    (h : ∀ i ∈ rows, i < c.cells.length) : c.select rows = ⟨c.type, arranged rows c.cells⟩ := by
  rw [Column.select, arranged_eq_map h .none]
  rfl

namespace Table

theorem columns_select {t : Table} {rows : List Nat} (h : ∀ i ∈ rows, i < t.rowCount) :
    (t.select rows).columns = t.columns.map fun e => (e.1, e.2.select rows) := by
  have hdocuments : (t.select rows).documentCells = t.documentCells.select rows := by
    have hcount : ∀ i ∈ rows, i < t.documents.length := h
    have hcells : ∀ i ∈ rows, i < t.documentCells.cells.length := by
      simpa [documentCells] using hcount
    rw [Column.select_eq_arranged hcells, documentCells, documentCells, Table.select,
      arranged_map, arranged_eq_map hcount 1]
  rw [columns, columns, hdocuments]
  rfl

end Table

namespace JsonTable

variable {t : JsonTable} {rows : List Nat} {separator name : Text}

-- A table with its rows in another order.
def arrange (t : JsonTable) (rows : List Nat) : JsonTable :=
  ⟨t.table.select rows, arranged rows t.nodes⟩

theorem restack_arranged (ht : t.Aligned) (h : ∀ i ∈ rows, i < t.rowCount) :
    t.restack (rows.map Int.ofNat) ((arranged rows t.nodes).map .node) = .ok (t.arrange rows) := by
  rw [restack, Table.take_ofNat h, Except.ok_bind, ofParts_of_length]
  · rfl
  · rw [Table.rowCount_select, length_arranged]
    exact fun i hi => ht ▸ h i hi

-- A scalar of a name has what is handed down to it.
theorem inherited_scalar {p : Json → Prop} (hp : Json.Inherited p) {j x : Json} (hj : p j)
    (h : (j.scalarsNamed separator).reverse.lookup name = some x) : p x := by
  have hmem := List.mem_reverse.mp (Entries.mem_of_lookup h)
  rw [← Json.namedLeaves_filter] at hmem
  exact (Json.mem_namedLeaves (q := fun _ => True) hp (fun _ _ _ _ => trivial)
    (fun _ _ => trivial) hj _ (List.mem_filter.mp hmem).1).2

theorem Legible.spelled (ht : t.Legible) (separator name : Text) :
    Spelled (t.scalars separator name) := by
  refine .inr fun n hn => ?_
  obtain ⟨v, hv, hlookup⟩ := List.mem_map.mp hn
  have hspellable := inherited_scalar (Json.inherited_throughout _) (ht.spellable v hv) hlookup
  cases n with
  | int n => exact ⟨_, numeral_of_spellable (Json.Spellable.integer hspellable)⟩
  | real x => exact ⟨_, rfl⟩

theorem Legible.arrange (ht : t.Legible) (h : rows.Perm (List.range t.rowCount)) :
    (t.arrange rows).Legible := by
  have hnodes : rows.Perm (List.range t.nodes.length) := ht.aligned ▸ h
  have hperm : (t.arrange rows).nodes.Perm t.nodes := arranged_perm hnodes
  refine ⟨?_, fun v hv => ht.spellable v (hperm.mem_iff.mp hv)⟩
  rw [Aligned, hperm.length_eq, ← ht.aligned]
  exact (Table.rowCount_select _ _).trans (h.length_eq.trans List.length_range)

theorem scalarNames_arrange (ht : t.Aligned) (h : rows.Perm (List.range t.rowCount))
    (separator : Text) :
    ((t.arrange rows).scalarNames separator).Perm (t.scalarNames separator) := by
  have hperm : (t.arrange rows).nodes.Perm t.nodes := arranged_perm (ht ▸ h)
  refine (List.perm_ext_iff_of_nodup (nodup_eraseDups _) (nodup_eraseDups _)).mpr fun name => ?_
  simp only [List.mem_eraseDups]
  exact (hperm.flatMap_right _).mem_iff

theorem scalars_arrange (t : JsonTable) (rows : List Nat) (separator name : Text) :
    (t.arrange rows).scalars separator name = arranged rows (t.scalars separator name) :=
  (arranged_map _ rows t.nodes).symm

theorem Unanimous.perm {values others : List (Option Json)} {kind : ScalarKind}
    (h : Unanimous values kind) (hperm : values.Perm others) : Unanimous others kind := by
  obtain ⟨x, hx, hkind⟩ := h.found
  exact ⟨⟨x, hperm.mem_iff.mp hx, hkind⟩, fun y hy => h.agreed y (hperm.mem_iff.mpr hy)⟩

-- Neither the type nor the cells depend on the order of the rows.
theorem Pooled.arranged {values : List (Option Json)} {c : Column} (hc : Pooled values c)
    (h : rows.Perm (List.range values.length)) :
    Pooled (arranged rows values) (c.select rows) := by
  have hperm := arranged_perm h
  have hrows : ∀ i ∈ rows, i < c.cells.length := by
    intro i hi
    rw [hc.length]
    exact List.mem_range.mp (h.mem_iff.mp hi)
  rw [Column.select_eq_arranged hrows]
  cases hc with
  | alike hkind =>
      rw [arranged_map]
      exact .alike (hkind.perm hperm.symm)
  | mixed hnone hcells =>
      exact .mixed (fun kind hkind => hnone kind (hkind.perm hperm)) (forall₂_arranged hcells rows)

-- With values that can be written out, only a name can be refused.
theorem Legible.spreadAll_cases (ht : t.Legible) (hseparator : separator ≠ []) :
    (∃ u, (t.spreadAll (.text separator)).result = .ok u ∧ t.Spread separator u ∧
      documentColumn ∉ t.scalarNames separator) ∨
    ∃ r, (t.spreadAll (.text separator)).result = .error (.rejected r) ∧
      r.type = .reservedColumn ∧ documentColumn ∈ t.scalarNames separator := by
  rcases JsonTable.spreadAll_cases ht.aligned hseparator with
    ⟨u, hu, hspread, hdocument, -⟩ | ⟨e, he, hfailure⟩
  · exact .inl ⟨u, hu, hspread, hdocument⟩
  · cases hfailure with
    | reserved hmem htype => exact .inr ⟨_, he, htype, hmem⟩
    | @unspelled name _ hunspelled => exact absurd (ht.spelled separator name) hunspelled

theorem Spread.lookup_arrange {u u' : JsonTable} (hspread : t.Spread separator u)
    (hspread' : (t.arrange rows).Spread separator u') (ht : t.Aligned)
    (h : rows.Perm (List.range t.rowCount)) (name : Text) :
    u'.table.columns.lookup name = (u.table.columns.lookup name).map (·.select rows) := by
  have hnames := scalarNames_arrange ht h separator
  by_cases hname : name ∈ t.scalarNames separator
  · obtain ⟨c, hc, hpooled⟩ := hspread.written name hname
    obtain ⟨c', hc', hpooled'⟩ := hspread'.written name (hnames.mem_iff.mpr hname)
    rw [scalars_arrange] at hpooled'
    have hcount : rows.Perm (List.range (t.scalars separator name).length) := by
      rw [scalars, List.length_map, ← ht]
      exact h
    rw [hc, hc', hpooled'.eq (hpooled.arranged hcount)]
    rfl
  · have hrows : ∀ i ∈ rows, i < t.rowCount := fun i hi => List.mem_range.mp (h.mem_iff.mp hi)
    rw [hspread.kept name hname, hspread'.kept name (mt hnames.mem_iff.mp hname), arrange,
      Table.columns_select hrows]
    exact Entries.lookup_map (fun _ c => c.select rows) t.table.columns name

-- The order of the rows makes no difference to spreading but for the order in which new columns
-- are added: it is refused for the same reason, or gives the same columns with their cells in the
-- order of the rows.
theorem spreadAll_arrange (ht : t.Legible) (h : rows.Perm (List.range t.rowCount))
    (hseparator : separator ≠ []) :
    ∃ t', t.restack (rows.map Int.ofNat) ((arranged rows t.nodes).map .node) = .ok t' ∧
      ((∃ r r', (t.spreadAll (.text separator)).result = .error (.rejected r) ∧
          (t'.spreadAll (.text separator)).result = .error (.rejected r') ∧ r.type = r'.type) ∨
        ∃ u u', (t.spreadAll (.text separator)).result = .ok u ∧
          (t'.spreadAll (.text separator)).result = .ok u' ∧
          u'.nodes = arranged rows u.nodes ∧
          (∀ name, u'.table.columns.lookup name =
            (u.table.columns.lookup name).map (·.select rows)) ∧
          ∃ new new', new'.Perm new ∧ u.table.names = t.table.names ++ new ∧
            u'.table.names = t.table.names ++ new') := by
  have hrows : ∀ i ∈ rows, i < t.rowCount := fun i hi => List.mem_range.mp (h.mem_iff.mp hi)
  have hnames := scalarNames_arrange ht.aligned h separator
  refine ⟨t.arrange rows, restack_arranged ht.aligned hrows, ?_⟩
  rcases ht.spreadAll_cases hseparator with ⟨u, hu, hspread, hnot⟩ | ⟨r, hr, htype, hmem⟩
  · rcases (ht.arrange h).spreadAll_cases hseparator with
      ⟨u', hu', hspread', -⟩ | ⟨_, -, -, hmem⟩
    · have hnodes : u'.nodes = arranged rows u.nodes := by
        rw [hspread'.nodes, hspread.nodes, arrange]
      have hnames' := hspread'.names
      rw [arrange, Table.names_select] at hnames'
      exact .inr ⟨u, u', hu, hu', hnodes, hspread.lookup_arrange hspread' ht.aligned h, _, _,
        hnames.filter _, hspread.names, hnames'⟩
    · exact absurd (hnames.mem_iff.mp hmem) hnot
  · rcases (ht.arrange h).spreadAll_cases hseparator with ⟨_, -, -, hnot⟩ | ⟨r', hr', htype', -⟩
    · exact absurd (hnames.mem_iff.mpr hmem) hnot
    · exact .inl ⟨r, r', hr, hr', htype.trans htype'.symm⟩

-- Two rows change places, and with them the columns that they bring in.
theorem spreadAll_arrange_swap :
    ∃ t t' u u' : JsonTable, t.Legible ∧ [1, 0].Perm (List.range t.rowCount) ∧
      t.restack [1, 0] ((arranged [1, 0] t.nodes).map .node) = .ok t' ∧
      (t.spreadAll (.text ".")).result = .ok u ∧ (t'.spreadAll (.text ".")).result = .ok u' ∧
      u.table.names = [documentColumn, "a", "b"] ∧
      u'.table.names = [documentColumn, "b", "a"] ∧
      ∀ name, u'.table.columns.lookup name =
        (u.table.columns.lookup name).map (·.select [1, 0]) := by
  let t := ofDocuments [
    { json := .object [("a", .logical true)] },
    { json := .object [("b", .string "x"), ("a", .null)] }]
  have hlogical : (Json.logical true).Spellable := .intro nofun nofun
  have hstring : (Json.string "x").Spellable := .intro nofun nofun
  have hnull : Json.null.Spellable := .intro nofun nofun
  have ht : t.Legible := by
    refine ⟨rfl, List.forall_mem_cons.mpr ⟨Json.spellable_object ?_,
      List.forall_mem_singleton.mpr (Json.spellable_object ?_)⟩⟩
    · exact List.forall_mem_singleton.mpr hlogical
    · exact List.forall_mem_cons.mpr ⟨hstring, List.forall_mem_singleton.mpr hnull⟩
  have hrows : [1, 0].Perm (List.range t.rowCount) := .swap 0 1 []
  have hseparator : ("." : Text) ≠ [] := by decide
  obtain ⟨t', ht', h⟩ := spreadAll_arrange ht hrows hseparator
  obtain rfl : t.arrange [1, 0] = t' := Except.ok.inj ht'
  have hfirst : ((t.spreadAll (.text ".")).result.map fun u => u.table.names) =
      .ok [documentColumn, "a", "b"] := by rfl
  have hsecond : (((t.arrange [1, 0]).spreadAll (.text ".")).result.map fun u => u.table.names) =
      .ok [documentColumn, "b", "a"] := by rfl
  rcases h with ⟨r, -, hr, -, -⟩ | ⟨u, u', hu, hu', -, hcolumns, -⟩
  · rw [hr] at hfirst
    cases hfirst
  · rw [hu] at hfirst
    rw [hu'] at hsecond
    exact ⟨t, _, u, u', ht, hrows, ht', hu, hu', Except.ok.inj hfirst, Except.ok.inj hsecond,
      hcolumns⟩

end JsonTable

end Unnest
