import Unnest.Proofs.JsonTable.Descriptor
import Unnest.Proofs.JsonTable.Spread

namespace Unnest

-- The verbs that read the values into columns and leave the rows as they are.
def Verb.isExtraction : Verb → Bool
  | spreadValues | spreadAll | appendValues _ | jsonTypes | jsonLengths | jsonComplexity => true
  | gatherArray | gatherKeys | gatherObject | enterObject | filterJsonTypes => false

-- The names of the columns that such a verb writes, in the order in which it writes them.
def Verb.written (verb : Verb) (args : List Datum) (named : List (Text × Datum))
    (t : JsonTable) : List Text :=
  match verb, args with
  | spreadValues, _ => (named.map Prod.fst).eraseDups
  | spreadAll, [.text separator] => t.scalarNames separator
  | appendValues _, [.text column, _] => [column]
  | jsonTypes, [.text column] => [column]
  | jsonLengths, [.text column] => [column]
  | jsonComplexity, [.text column] => [column]
  | _, _ => []

namespace JsonTable

-- Columns are written one after the other: each to the place of the column of its name, or behind
-- all others.
def write (t : JsonTable) (new : List (Text × Column)) : JsonTable :=
  ⟨{ t.table with others := Entries.putAll new t.table.others }, t.nodes⟩

theorem write_append (t : JsonTable) (new more : List (Text × Column)) :
    t.write (new ++ more) = (t.write new).write more := by
  rw [write, Entries.putAll_append]
  rfl

theorem Aligned.write {t : JsonTable} (h : t.Aligned) (new : List (Text × Column)) :
    (t.write new).Aligned :=
  h

-- A run that does nothing but write columns, and the same columns to all tables with these values.
structure Writes (nodes : List Node) (new : List (Text × Column))
    (run : JsonTable → Except Failure JsonTable) : Prop where
  writable : documentColumn ∉ new.map Prod.fst
  fits : ∀ e ∈ new, ∀ d ∈ e.2.cells, e.2.type.Fits d
  result : ∀ t : JsonTable, t.Aligned → t.nodes = nodes → run t = .ok (t.write new)

section

variable {nodes : List Node} {new more : List (Text × Column)}
  {run later : JsonTable → Except Failure JsonTable}

theorem writes_ok : Writes nodes [] .ok :=
  ⟨List.not_mem_nil, nofun, fun _ _ _ => rfl⟩

theorem Writes.bind (hrun : Writes nodes new run) (hlater : Writes nodes more later) :
    Writes nodes (new ++ more) fun t => run t >>= later := by
  constructor
  · rw [List.map_append, List.mem_append, not_or]
    exact ⟨hrun.writable, hlater.writable⟩
  · exact List.forall_mem_append.mpr ⟨hrun.fits, hlater.fits⟩
  · intro t ht hnodes
    rw [hrun.result t ht hnodes, Except.ok_bind, hlater.result _ (ht.write new) hnodes,
      write_append]

theorem Writes.congr (h : Writes nodes new later)
    (heq : ∀ t : JsonTable, t.nodes = nodes → run t = later t) : Writes nodes new run :=
  ⟨h.writable, h.fits, fun t ht hnodes => (heq t hnodes).trans (h.result t ht hnodes)⟩

-- A name that is written twice may be written once, with what is written last.
theorem Writes.ofList (h : Writes nodes new run) : Writes nodes (Entries.ofList new) run := by
  constructor
  · rw [Entries.keys_ofList, List.mem_eraseDups]
    exact h.writable
  · exact fun e he => h.fits e (Entries.mem_of_mem_ofList he)
  · intro t ht hnodes
    rw [write, Entries.putAll_ofList]
    exact h.result t ht hnodes

end

variable {nodes : List Node} {new : List (Text × Column)} {t u : JsonTable}

-- One table that takes a column shows that all tables with as many rows take it.
theorem writes_withColumn {column : Datum} {type : ColumnType} {cells : List Datum}
    (ht : t.Aligned) (h : t.withColumn column type cells = .ok u) :
    ∃ key, column = .text key ∧
      Writes t.nodes [(key, ⟨type, cells⟩)] (·.withColumn column type cells) := by
  obtain ⟨table, htable, -⟩ := Except.map_eq_ok.mp h
  obtain ⟨key, rfl, hnil, hdocument, hlength, hfits, -⟩ := Table.withColumn_ok htable
  refine ⟨key, rfl, by simpa using Ne.symm hdocument, List.forall_mem_singleton.mpr hfits,
    fun t' ht' hnodes => ?_⟩
  have hcount : cells.length = t'.table.rowCount := by
    rw [hlength, Table.rowCount, Table.rowCount, ht', hnodes]
    exact ht
  rw [withColumn, Table.withColumn_eq_ok ⟨hnil, hdocument⟩ hcount hfits]
  rfl

-- A fold whose steps write a column each writes them all.
theorem writes_foldlM {step : JsonTable → α → Except Failure JsonTable} {f : α → Text}
    {l : List α} (hstep : ∀ a ∈ l, ∀ t u : JsonTable, t.Aligned → t.nodes = nodes →
      step t a = .ok u → ∃ c, Writes nodes [(f a, c)] (step · a))
    (ht : t.Aligned) (hnodes : t.nodes = nodes) (h : l.foldlM step t = .ok u) :
    ∃ new, new.map Prod.fst = l.map f ∧ Writes nodes new (l.foldlM step) := by
  induction l generalizing t with
  | nil => exact ⟨[], rfl, writes_ok⟩
  | cons a l ih =>
      obtain ⟨ha, hl⟩ := List.forall_mem_cons.mp hstep
      rw [List.foldlM_cons] at h
      obtain ⟨w, hw, hrest⟩ := Except.bind_eq_ok.mp h
      obtain ⟨c, hc⟩ := ha t w ht hnodes hw
      obtain rfl := Except.ok.inj ((hc.result t ht hnodes).symm.trans hw)
      obtain ⟨new, hnew, hwrites⟩ := ih hl (ht.write _) hnodes hrest
      exact ⟨(f a, c) :: new, by rw [List.map_cons, List.map_cons, hnew], hc.bind hwrites⟩

-- The same where the cells are read off the values.
theorem writes_withColumn_map {column : Datum} {type : ColumnType} {f : Node → Datum}
    (ht : t.Aligned) (h : t.withColumn column type (t.nodes.map f) = .ok u) :
    ∃ key, column = .text key ∧ Writes t.nodes [(key, ⟨type, t.nodes.map f⟩)]
      fun t => t.withColumn column type (t.nodes.map f) := by
  obtain ⟨key, hkey, hwrites⟩ := writes_withColumn ht h
  exact ⟨key, hkey, hwrites.congr fun t' hnodes => by rw [hnodes]⟩

theorem writes_appendValues {kind : ScalarKind} {column force : Datum} (ht : t.Aligned)
    (h : t.appendValues kind column force = .ok u) :
    ∃ key c, column = .text key ∧
      Writes t.nodes [(key, c)] fun t => t.appendValues kind column force := by
  obtain ⟨cells, hcells, hwritten⟩ := Except.bind_eq_ok.mp h
  obtain ⟨key, hkey, hwrites⟩ := writes_withColumn ht hwritten
  refine ⟨key, _, hkey, hwrites.congr fun t' hnodes => ?_⟩
  rw [appendValues, hnodes, hcells, Except.ok_bind]

theorem writes_descriptor (a : Text × Descriptor) (t u : JsonTable) (ht : t.Aligned)
    (hnodes : t.nodes = nodes) (h : t.withColumn (.text a.1) a.2.kind.columnType
      (t.nodes.map fun v => (a.2.resolve v).getD .none) = .ok u) :
    ∃ c, Writes nodes [(a.1, c)] fun t => t.withColumn (.text a.1) a.2.kind.columnType
      (t.nodes.map fun v => (a.2.resolve v).getD .none) := by
  obtain ⟨key, hkey, hwrites⟩ := writes_withColumn_map ht h
  obtain rfl := Datum.text.inj hkey
  exact ⟨_, hnodes ▸ hwrites⟩

theorem writes_spreadValues {fields : List (Text × Datum)} (ht : t.Aligned)
    (h : (t.spreadValues fields).result = .ok u) :
    ∃ new, new.map Prod.fst = (fields.map Prod.fst).eraseDups ∧
      Writes t.nodes new fun t => (t.spreadValues fields).result := by
  cases hdescriptors : fieldDescriptors fields with
  | error e => cases (result_spreadValues_error hdescriptors t).symm.trans h
  | ok descriptors =>
      rw [result_spreadValues hdescriptors] at h
      rw [funext (result_spreadValues hdescriptors)]
      have hnames : descriptors.map Prod.fst = fields.map Prod.fst := by
        rw [← List.forall₂_eq_eq_eq, List.forall₂_map_left_iff, List.forall₂_map_right_iff]
        refine ((Except.mapM_eq_ok_iff.mp hdescriptors).imp fun field a ha => ?_).flip
        obtain ⟨d, -, rfl⟩ := Except.map_eq_ok.mp ha
        rfl
      obtain ⟨new, hnew, hwrites⟩ := writes_foldlM (fun a _ => writes_descriptor a) ht rfl h
      refine ⟨Entries.ofList new, ?_, hwrites.ofList⟩
      rw [Entries.keys_ofList, hnew, hnames]

-- The cells under a name are made of all rows, before the first column is written.
theorem writes_spreadName (rows : List (List (Text × Json))) (name : Text) (t u : JsonTable)
    (ht : t.Aligned) (hnodes : t.nodes = nodes) (h : spreadName rows t name = .ok u) :
    ∃ c, Writes nodes [(name, c)] (spreadName rows · name) := by
  have hspread (t : JsonTable) : spreadName rows t name =
      (spreadColumn (rows.map (·.lookup name))).2.2 >>=
        t.withColumn (.text name) (spreadColumn (rows.map (·.lookup name))).2.1 := rfl
  simp only [hspread] at h ⊢
  generalize spreadColumn (rows.map (·.lookup name)) = column at h
  obtain ⟨cells, hcells, hwritten⟩ := Except.bind_eq_ok.mp h
  obtain ⟨key, hkey, hwrites⟩ := writes_withColumn ht hwritten
  obtain rfl := Datum.text.inj hkey
  refine ⟨_, hnodes ▸ hwrites.congr fun t' _ => ?_⟩
  rw [hcells, Except.ok_bind]

theorem writes_spreadAll {separator : Datum} (ht : t.Aligned)
    (h : (t.spreadAll separator).result = .ok u) :
    ∃ text new, separator = .text text ∧ new.map Prod.fst = t.scalarNames text ∧
      Writes t.nodes new fun t => (t.spreadAll separator).result := by
  rw [result_spreadAll] at h
  obtain ⟨text, htext, hspread⟩ := Except.bind_eq_ok.mp h
  have hseparator : separator = .text text := by
    unfold separatorText at htext
    split at htext
    · exact congrArg Datum.text (Except.ok.inj htext)
    · cases htext
  obtain ⟨new, hnew, hwrites⟩ :=
    writes_foldlM (f := id) (fun name _ => writes_spreadName _ name) ht rfl hspread
  refine ⟨text, new, hseparator, ?_, hwrites.congr fun t' hnodes => ?_⟩
  · rw [hnew, List.map_id, spreadNames_eq]
  · rw [result_spreadAll, htext, Except.ok_bind, hnodes]

-- A verb that only reads the values writes its own columns, whatever else is in the table.
theorem writes_apply {verb : Verb} (hverb : verb.isExtraction = true) {args : List Datum}
    {named : List (Text × Datum)} (ht : t.Aligned) (h : (verb.apply args named t).result = .ok u) :
    ∃ new, new.map Prod.fst = verb.written args named t ∧ (new.map Prod.fst).Nodup ∧
      Writes t.nodes new fun t => (verb.apply args named t).result := by
  have hcolumn {column : Datum} {type : ColumnType} {f : Node → Datum}
      (hu : t.withColumn column type (t.nodes.map f) = .ok u) :
      ∃ key new, column = .text key ∧ new.map Prod.fst = [key] ∧
        Writes t.nodes new fun t => t.withColumn column type (t.nodes.map f) := by
    obtain ⟨key, hkey, hwrites⟩ := writes_withColumn_map ht hu
    exact ⟨key, _, hkey, rfl, hwrites⟩
  unfold Verb.apply at h
  split at h
  · cases hverb
  · cases hverb
  · cases hverb
  · cases hverb
  · cases hverb
  · obtain ⟨new, hnew, hwrites⟩ := writes_spreadValues ht h
    exact ⟨new, hnew, hnew ▸ nodup_eraseDups _, hwrites⟩
  · obtain ⟨separator, new, rfl, hnew, hwrites⟩ := writes_spreadAll ht h
    exact ⟨new, hnew, hnew ▸ nodup_eraseDups _, hwrites⟩
  · obtain ⟨key, c, rfl, hwrites⟩ := writes_appendValues ht h
    exact ⟨[(key, c)], rfl, List.nodup_singleton key, hwrites⟩
  · obtain ⟨key, new, rfl, hnew, hwrites⟩ := hcolumn h
    exact ⟨new, hnew, hnew ▸ List.nodup_singleton key, hwrites⟩
  · obtain ⟨key, new, rfl, hnew, hwrites⟩ := hcolumn h
    exact ⟨new, hnew, hnew ▸ List.nodup_singleton key, hwrites⟩
  · obtain ⟨key, new, rfl, hnew, hwrites⟩ := hcolumn h
    exact ⟨new, hnew, hnew ▸ List.nodup_singleton key, hwrites⟩
  · cases h

-- A call of a verb that only reads the values.
structure Extraction where
  verb : Verb
  form : Form
  arguments : Arguments
  isExtraction : verb.isExtraction = true

namespace Extraction

def run (e : Extraction) (t : JsonTable) : Except Failure JsonTable :=
  (e.verb.call e.form e.arguments t).result

-- The names of the columns that the call writes. Where its arguments do not bind there are none.
def written (e : Extraction) (t : JsonTable) : List Text :=
  match e.verb.receive e.form e.arguments with
  | .ok bound => e.verb.written bound.positions bound.names t
  | .error _ => []

theorem writes (e : Extraction) (ht : t.Aligned) (h : e.run t = .ok u) :
    ∃ new, new.map Prod.fst = e.written t ∧ (new.map Prod.fst).Nodup ∧
      Writes t.nodes new e.run := by
  unfold run at h
  cases hreceive : e.verb.receive e.form e.arguments with
  | error failure =>
      rw [Verb.call, hreceive] at h
      cases h
  | ok bound =>
      rw [Verb.result_call hreceive] at h
      obtain ⟨new, hnew, hnodup, hwrites⟩ := writes_apply e.isExtraction ht h
      refine ⟨new, ?_, hnodup, hwrites.congr fun t' _ => Verb.result_call hreceive t'⟩
      rw [written, hreceive]
      exact hnew

-- The names are chosen by the arguments and the values.
theorem written_eq_of_nodes {t t' : JsonTable} (e : Extraction) (h : t'.nodes = t.nodes) :
    e.written t' = e.written t := by
  have hnames (separator : Text) : t'.scalarNames separator = t.scalarNames separator := by
    rw [scalarNames, scalarNames, h]
  unfold written
  split
  · unfold Verb.written
    split
    · rfl
    · exact hnames _
    all_goals rfl
  · rfl

end Extraction

-- A table that has columns written under some names: rows and values are those of the first table,
-- all its columns stand where they stood, new ones follow them, and the columns of other names are
-- as they were.
structure Widened (names : List Text) (t u : JsonTable) : Prop where
  documents : u.table.documents = t.table.documents
  nodes : u.nodes = t.nodes
  order : u.table.names = t.table.names ++ names.filter fun name => !t.table.names.contains name
  kept : ∀ name ∉ names, u.table.columns.lookup name = t.table.columns.lookup name

theorem Widened.aligned {names : List Text} (h : Widened names t u) (ht : t.Aligned) :
    u.Aligned := by
  rw [Aligned, h.documents, h.nodes]
  exact ht

theorem columns_write (hnew : documentColumn ∉ new.map Prod.fst) (t : JsonTable) :
    (t.write new).table.columns = Entries.putAll new t.table.columns :=
  Table.columns_putAll hnew

theorem lookup_write (hnew : documentColumn ∉ new.map Prod.fst)
    (hnodup : (new.map Prod.fst).Nodup) (t : JsonTable) (name : Text) :
    (t.write new).table.columns.lookup name =
      (new.lookup name).or (t.table.columns.lookup name) := by
  rw [columns_write hnew, Entries.lookup_putAll hnodup]

theorem widened_write (hnew : documentColumn ∉ new.map Prod.fst)
    (hnodup : (new.map Prod.fst).Nodup) (t : JsonTable) :
    Widened (new.map Prod.fst) t (t.write new) := by
  refine ⟨rfl, rfl, ?_, fun name hname => ?_⟩
  · rw [Table.names, columns_write hnew, Entries.keys_putAll hnodup]
    rfl
  · rw [lookup_write hnew hnodup, Entries.lookup_eq_none.mpr hname]
    rfl

-- The same rows with the same columns, which may stand in another order.
structure Rearranged (t u : JsonTable) : Prop where
  documents : t.table.documents = u.table.documents
  nodes : t.nodes = u.nodes
  columns : Entries.Alike t.table.columns u.table.columns

theorem rearranged_write_write (hnew : (new.map Prod.fst).Nodup) {more : List (Text × Column)}
    (hmore : (more.map Prod.fst).Nodup) (hwritable : documentColumn ∉ new.map Prod.fst)
    (hwritable' : documentColumn ∉ more.map Prod.fst)
    (hdisjoint : (new.map Prod.fst).Disjoint (more.map Prod.fst)) (t : JsonTable) :
    Rearranged ((t.write new).write more) ((t.write more).write new) := by
  refine ⟨rfl, rfl, fun name => ?_⟩
  simp only [columns_write hwritable, columns_write hwritable']
  exact (Entries.lookup_putAll_comm hnew hmore hdisjoint _ name).symm

-- Where all the columns of one list are there already, the other one may come before or after it.
theorem write_write_comm {more : List (Text × Column)}
    (hwritable : documentColumn ∉ more.map Prod.fst)
    (hdisjoint : (new.map Prod.fst).Disjoint (more.map Prod.fst))
    (hmore : more.map Prod.fst ⊆ t.table.names) :
    (t.write more).write new = (t.write new).write more := by
  have hothers : more.map Prod.fst ⊆ t.table.others.map Prod.fst := by
    intro name hname
    rcases List.mem_cons.mp (hmore hname) with rfl | hother
    · exact absurd hname hwritable
    · exact hother
  rw [write, write, write, write, Entries.putAll_putAll_comm hdisjoint hothers]

namespace Extraction

-- A call that spreads values under the names of descriptors.
def spread (form : Form) (fields : List (Text × Descriptor)) : Extraction :=
  ⟨.spreadValues, form, { names := fields.map fun a => (a.1, .descriptor a.2) }, rfl⟩

theorem run_spread (form : Form) (fields : List (Text × Descriptor)) (t : JsonTable) :
    (spread form fields).run t =
      if ∀ a ∈ fields, a.1 ∉ form.reserved then
        fields.foldlM (fun u a => u.withColumn (.text a.1) a.2.kind.columnType
          (u.nodes.map fun v => (a.2.resolve v).getD .none)) t
      else .error .mismatch := by
  have hrefuses : form.refuses (spread form fields).arguments = true ↔
      ¬∀ a ∈ fields, a.1 ∉ form.reserved := by
    simp [Form.refuses, spread]
  change (Verb.call .spreadValues form (spread form fields).arguments t).result = _
  split
  · next hfields =>
    have hreceive : Verb.receive .spreadValues form (spread form fields).arguments =
        .ok (spread form fields).arguments := by
      rw [Verb.receive, if_neg (mt hrefuses.mp (not_not_intro hfields))]
      rfl
    exact (Verb.result_call hreceive t).trans
      (result_spreadValues (fieldDescriptors_descriptor fields) t)
  · next hfields =>
    rw [Verb.call, Verb.receive, if_pos (hrefuses.mpr hfields)]
    rfl

-- All values are spread at once as they are one by one.
theorem run_spread_eq_ok_iff (form : Form) (fields : List (Text × Descriptor)) (t u : JsonTable) :
    (spread form fields).run t = .ok u ↔
      fields.foldlM (fun w a => (spread form [a]).run w) t = .ok u := by
  simp only [run_spread, List.forall_mem_singleton, List.foldlM_cons, List.foldlM_nil, bind_pure]
  induction fields generalizing t with
  | nil => simp
  | cons a fields ih =>
      by_cases ha : a.1 ∈ form.reserved
      · simp [ha, bind, Except.bind]
      · have hcons : (∀ b ∈ a :: fields, b.1 ∉ form.reserved) ↔
            ∀ b ∈ fields, b.1 ∉ form.reserved := by
          rw [List.forall_mem_cons, and_iff_right ha]
        simp only [hcons, List.foldlM_cons, if_pos ha, Except.bind_eq_ok, ← ih]
        split
        · exact Except.bind_eq_ok
        · simp

end Extraction

-- Verbs that read the values into columns look at nothing but the values and change nothing but
-- their own columns. So two of them that write other columns may be called in either order, and
-- a call that spreads several values does what calls that spread one each do.
theorem extraction_frame :
    (∀ (e : Extraction) (t u : JsonTable), t.Aligned → e.run t = .ok u →
      Widened (e.written t) t u ∧
      ∀ t' : JsonTable, t'.Aligned → t'.nodes = t.nodes →
        e.written t' = e.written t ∧ ∃ u', e.run t' = .ok u' ∧ ∀ name ∈ e.written t,
          ∃ c, u.table.columns.lookup name = some c ∧ u'.table.columns.lookup name = some c) ∧
    (∀ (e f : Extraction) (t u w : JsonTable), t.Aligned → e.run t = .ok u → f.run t = .ok w →
      (e.written t).Disjoint (f.written t) →
      ∃ x y, f.run u = .ok x ∧ e.run w = .ok y ∧ Rearranged x y ∧
        (e.written t ⊆ t.table.names ∨ f.written t ⊆ t.table.names → x = y)) ∧
    ∀ (form : Form) (fields : List (Text × Descriptor)) (t u : JsonTable),
      (Extraction.spread form fields).run t = .ok u ↔
        fields.foldlM (fun w a => (Extraction.spread form [a]).run w) t = .ok u := by
  refine ⟨fun e t u ht hu => ?_, fun e f t u w ht hu hw hdisjoint => ?_,
    Extraction.run_spread_eq_ok_iff⟩
  · obtain ⟨new, hnew, hnodup, hwrites⟩ := e.writes ht hu
    obtain rfl := Except.ok.inj (hu.symm.trans (hwrites.result t ht rfl))
    rw [← hnew]
    refine ⟨widened_write hwrites.writable hnodup t, fun t' ht' hnodes => ?_⟩
    refine ⟨(e.written_eq_of_nodes hnodes).trans hnew.symm, t'.write new,
      hwrites.result t' ht' hnodes, fun name hname => ?_⟩
    obtain ⟨c, hc⟩ := Option.isSome_iff_exists.mp (Entries.isSome_lookup.mpr hname)
    refine ⟨c, ?_, ?_⟩
    · rw [lookup_write hwrites.writable hnodup, hc, Option.some_or]
    · rw [lookup_write hwrites.writable hnodup, hc, Option.some_or]
  · obtain ⟨new, hnew, hnodup, hwrites⟩ := e.writes ht hu
    obtain ⟨more, hmore, hnodup', hwrites'⟩ := f.writes ht hw
    obtain rfl := Except.ok.inj (hu.symm.trans (hwrites.result t ht rfl))
    obtain rfl := Except.ok.inj (hw.symm.trans (hwrites'.result t ht rfl))
    rw [← hnew, ← hmore] at hdisjoint ⊢
    refine ⟨_, _, hwrites'.result _ (ht.write new) rfl, hwrites.result _ (ht.write more) rfl,
      rearranged_write_write hnodup hnodup' hwrites.writable hwrites'.writable hdisjoint t, ?_⟩
    rintro (hthere | hthere)
    · exact write_write_comm hwrites.writable hdisjoint.symm hthere
    · exact (write_write_comm hwrites'.writable hdisjoint hthere).symm

-- Types that take the place of integers and scalars behind all other columns, in either order. A
-- table without other columns is given the same types.
theorem extraction_frame_types :
    ∃ t u w x : JsonTable, t.table.names = [documentColumn, "type", "note"] ∧
      (Verb.call .jsonTypes .function {} t).result = .ok u ∧
      u.table.names = [documentColumn, "type", "note"] ∧
      u.table.columns.lookup ("note" : Text) = t.table.columns.lookup ("note" : Text) ∧
      (∃ u' c, (Verb.call .jsonTypes .function {} (.ofDocuments t.nodes)).result = .ok u' ∧
        u.table.columns.lookup ("type" : Text) = some c ∧
        u'.table.columns.lookup ("type" : Text) = some c) ∧
      (Verb.call .spreadAll .function {} t).result = .ok w ∧
      (Verb.call .spreadAll .function {} u).result = .ok x ∧
      (Verb.call .jsonTypes .function {} w).result = .ok x ∧
      x.table.names = [documentColumn, "type", "note", "a", "b"] := by
  let types : Extraction := ⟨.jsonTypes, .function, {}, rfl⟩
  let spreading : Extraction := ⟨.spreadAll, .function, {}, rfl⟩
  let t : JsonTable :=
    ⟨⟨[1], [("type", ⟨.integer, [.int 0]⟩), ("note", ⟨.string, [.text "x"]⟩)]⟩,
      [{ json := .object [("a", .number (.int 1)), ("b", .string "y")] }]⟩
  have ht : t.Aligned := rfl
  obtain ⟨hframe, hcommute, -⟩ := extraction_frame
  obtain ⟨u, hu⟩ : ∃ u, types.run t = .ok u := ⟨_, rfl⟩
  obtain ⟨w, hw⟩ : ∃ w, spreading.run t = .ok w := ⟨_, rfl⟩
  have hnames : spreading.written t = ["a", "b"] := by
    have hspread : spreading.written t = t.scalarNames "." := rfl
    rw [hspread, ← spreadNames_eq]
    decide
  have hdisjoint : (types.written t).Disjoint (spreading.written t) := by
    rw [hnames, List.disjoint_left]
    decide
  obtain ⟨hwidened, hother⟩ := hframe types t u ht hu
  obtain ⟨x, y, hx, hy, -, hequal⟩ := hcommute types spreading t u w ht hu hw hdisjoint
  obtain rfl := hequal (.inl (by decide))
  obtain ⟨-, u', hu', hcolumns⟩ := hother (.ofDocuments t.nodes) rfl rfl
  obtain ⟨c, hc, hc'⟩ := hcolumns "type" (by decide)
  refine ⟨t, u, w, x, rfl, hu, hwidened.order, hwidened.kept "note" (by decide),
    ⟨u', c, hu', hc, hc'⟩, hw, hx, hy, ?_⟩
  have hspread := (hframe spreading u _ (hwidened.aligned ht) hx).1.order
  rw [Extraction.written_eq_of_nodes _ hwidened.nodes, hnames, hwidened.order] at hspread
  exact hspread

end JsonTable

end Unnest
