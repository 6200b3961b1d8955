import Unnest.Proofs.Json.Size
import Unnest.Proofs.JsonTable.SpreadAll
import Unnest.Proofs.Table.Export

namespace Unnest

open Text

namespace Json

-- What a value holds itself can be exported: an integer has room in a double, and texts can be
-- encoded.
def Plain : Json → Prop
  | number (.int n) => ∃ x, Binary64.ofInt? n = some x
  | string t => t.Whole
  | object es => ∀ e ∈ es, e.1.Whole
  | _ => True

def Exportable : Json → Prop :=
  Throughout Plain

theorem inherited_exportable : Inherited Exportable :=
  inherited_throughout Plain

theorem Exportable.toDatum {kind : ScalarKind} {j : Json} (h : j.Exportable)
    (hkind : j.kind = kind.kind) (bound : Nat) : kind.columnType.Exports bound j.toDatum := by
  have hplain := h.own
  cases j with
  | number n =>
      cases kind <;> cases hkind
      cases n with
      | int n =>
          obtain ⟨x, hx⟩ := hplain
          exact .whole hx
      | real x => exact .real
  | string s =>
      cases kind <;> cases hkind
      exact .text hplain
  | logical b =>
      cases kind <;> cases hkind
      exact .logical
  | null | array _ | object _ => cases kind <;> cases hkind

theorem Exportable.scalarText {j : Json} {t : Text} (h : j.Exportable)
    (ht : j.scalarText = .ok (some t)) : t.Whole := by
  have hplain := h.own
  cases j with
  | string s =>
      obtain rfl := Option.some.inj (Except.ok.inj ht)
      exact hplain
  | logical b =>
      obtain rfl := Option.some.inj (Except.ok.inj ht)
      cases b <;> exact whole_ofString _
  | number n =>
      obtain ⟨s, hs, heq⟩ := Except.map_eq_ok.mp ht
      obtain rfl := Option.some.inj heq
      cases n with
      | int n =>
          simp only [Number.spelling, numeral] at hs
          split at hs
          · cases hs
          · exact Except.ok.inj hs ▸ whole_ofInt n
      | real x =>
          obtain rfl := Except.ok.inj hs
          unfold Binary64.spelling
          split
          · exact whole_ofString _
          · split <;> exact whole_ofString _
          · exact x.whole_text
  | null | array _ | object _ => cases ht

end Json

theorem Descriptor.exports_resolve {v : Node} (h : v.json.Exportable) (bound : Nat)
    (d : Descriptor) : d.kind.columnType.Exports bound ((d.resolve v).getD .none) := by
  unfold resolve
  split
  · exact .missing
  · next w hw =>
    split
    · next hkind =>
      obtain ⟨x, hx, rfl⟩ := Node.walk?_eq_some_iff.mp hw
      have hfound : x.Exportable := Json.inherited_exportable.walk hx h
      exact hfound.toDatum hkind bound
    · exact .missing

namespace JsonTable

-- Nothing but texts comes from the values of other kinds.
theorem exports_cellOf {kind : ScalarKind} {force : Bool} (hforce : force = true → kind = .string)
    {j : Json} (h : j.Exportable) {d : Datum} (hd : cellOf kind force j = .ok d) (bound : Nat) :
    kind.columnType.Exports bound d := by
  rw [cellOf_bool] at hd
  split at hd
  · next hkind =>
    obtain rfl := Except.ok.inj hd
    exact h.toDatum hkind bound
  · split at hd
    · next hforced =>
      obtain rfl := hforce hforced
      obtain ⟨t, ht, rfl⟩ := Except.map_eq_ok.mp hd
      cases t with
      | none => exact .missing
      | some t => exact .text (h.scalarText ht)
    · obtain rfl := Except.ok.inj hd
      exact .missing

-- The number of values at and below the values of all rows.
def weight (t : JsonTable) : Nat :=
  (t.nodes.map fun v => v.json.size).sum

theorem size_le_weight {t : JsonTable} {v : Node} (h : v ∈ t.nodes) : v.json.size ≤ t.weight :=
  List.single_le_sum (fun _ _ => Nat.zero_le _) _
    (List.mem_map_of_mem (f := fun v : Node => v.json.size) h)

theorem length_nodes_le_weight (t : JsonTable) : t.nodes.length ≤ t.weight := by
  have hle := List.length_le_sum_of_one_le (t.nodes.map fun v => v.json.size)
    (List.forall_mem_map.mpr fun v _ => v.json.size_pos)
  rwa [List.length_map] at hle

theorem Descent.sum_size_le (way : Descent) (v : Node) :
    ((way.children v).map fun c => c.2.json.size).sum ≤ v.json.size := by
  cases way with
  | elements =>
      cases hjson : v.json with
      | array xs =>
          have hsizes : (v.elements.map fun e => e.2.json.size) = xs.map Json.size := by
            rw [Node.elements, hjson, Json.elements, List.map_map]
            show xs.zipIdx.map (Json.size ∘ Prod.fst) = _
            rw [← List.map_map, List.zipIdx_map_fst]
          rw [children, List.map_map]
          show (v.elements.map fun e => e.2.json.size).sum ≤ _
          rw [hsizes, Json.size_array]
          exact Nat.le_add_left ..
      | null | logical _ | number _ | string _ | object _ =>
          rw [children, Node.elements, hjson]
          exact Nat.zero_le _
  | members =>
      cases hjson : v.json with
      | object es =>
          have hsizes : (v.members.map fun e => e.2.json.size) = es.map fun e => e.2.size := by
            rw [Node.members, hjson, Json.entries, List.map_map]
            rfl
          rw [children, List.map_map]
          show (v.members.map fun e => e.2.json.size).sum ≤ _
          rw [hsizes, Json.size_object]
          exact Nat.le_add_left ..
      | null | logical _ | number _ | string _ | array _ =>
          rw [children, Node.members, hjson]
          exact Nat.zero_le _
  | walk keys =>
      cases hw : v.walk? (keys.map .key) with
      | none => simp [children, hw]
      | some w =>
          obtain ⟨x, hx, rfl⟩ := Node.walk?_eq_some_iff.mp hw
          have hle := (Json.inherited_size_le v.json.size).walk hx le_rfl
          simpa [children, hw] using hle

-- Values are dropped, or make room for values below them.
theorem Move.weight_le {t u : JsonTable} (h : Move t u) : u.weight ≤ t.weight := by
  cases h with
  | write hwritten =>
      rw [weight, (withColumn_places hwritten).2]
      exact le_rfl
  | keep hkept =>
      obtain ⟨_, _, hu⟩ := Except.bind_eq_ok.mp hkept
      obtain rfl := Except.ok.inj hu
      exact ((kept_sublist t.nodes _).map _).sum_le_sum fun _ _ => Nat.zero_le _
  | descend way =>
      -- the values of the new rows come from the old rows one after another
      have hnodes : (t.offspring way.children).map (fun o => o.node.json.size) =
          t.nodes.flatMap fun v => (way.children v).map fun c => c.2.json.size := by
        rw [offspring, List.map_flatMap]
        conv_rhs => rw [← List.zipIdx_map_fst 0 t.nodes, List.flatMap_map]
        simp only [List.map_map]
        rfl
      rw [weight, ofOffspring, List.map_map]
      show ((t.offspring way.children).map fun o => o.node.json.size).sum ≤ _
      rw [hnodes, List.flatMap_def, List.sum_flatten, List.map_map]
      exact List.sum_le_sum fun v _ => way.sum_size_le v

-- A table that can be exported, as can all that is still to be read from its values. There are no
-- more values than the bound.
structure Exportable (bound : Nat) (t : JsonTable) : Prop where
  legible : t.Legible
  values : ∀ v ∈ t.nodes, v.json.Exportable
  weight : t.weight ≤ bound
  table : t.table.Exports bound

variable {bound : Nat} {t u : JsonTable}

theorem Exportable.rowCount_le (h : t.Exportable bound) : t.rowCount ≤ bound := by
  have hcount : t.rowCount = t.nodes.length := h.legible.aligned
  rw [hcount]
  exact t.length_nodes_le_weight.trans h.weight

theorem exportable_ofDocuments {nodes : List Node}
    (h : ∀ v ∈ nodes, v.json.Spellable ∧ v.json.Exportable)
    (hweight : (ofDocuments nodes).weight ≤ bound) : (ofDocuments nodes).Exportable bound := by
  refine ⟨⟨aligned_ofDocuments nodes, fun v hv => (h v hv).1⟩, fun v hv => (h v hv).2, hweight,
    fun n hn => ?_, nofun, nofun⟩
  have hcount : nodes.length ≤ bound := (ofDocuments nodes).length_nodes_le_weight.trans hweight
  have hlast := (List.mem_range'_1.mp hn).2
  simp only [Int.toNat_natCast] at hlast
  omega

-- Moves that write no cells keep the cells that are there.
theorem Exportable.move (h : t.Exportable bound) (hmove : Move t u)
    (htable : u.table.Exports bound) : u.Exportable bound :=
  ⟨h.legible.move hmove, hmove.nodes Json.inherited_exportable h.values,
    hmove.weight_le.trans h.weight, htable⟩

theorem Exportable.write (h : t.Exportable bound) {name : Datum} {type : ColumnType}
    {cells : List Datum} (hname : name.Whole) (hcells : ∀ d ∈ cells, type.Exports bound d)
    (hu : t.withColumn name type cells = .ok u) : u.Exportable bound := by
  refine h.move (.write hu) ?_
  obtain ⟨table, htable, rfl⟩ := Except.map_eq_ok.mp hu
  exact h.table.write hname hcells htable

theorem Exportable.keep (h : t.Exportable bound) {mask : List Bool}
    (hu : t.filterRows mask = .ok u) : u.Exportable bound := by
  refine h.move (.keep hu) ?_
  obtain ⟨table, htable, hu⟩ := Except.bind_eq_ok.mp hu
  obtain rfl := Except.ok.inj hu
  obtain ⟨hlength, rfl⟩ := Table.filterRows_ok htable
  exact h.table.select fun r hr => hlength ▸ Table.lt_length_of_mem_marked hr

theorem Exportable.descend (h : t.Exportable bound) (way : Descent) :
    (t.ofOffspring (t.offspring way.children)).Exportable bound :=
  h.move (.descend way) (h.table.select (source_lt_rowCount h.legible.aligned way.children))

theorem Exportable.gather (h : t.Exportable bound) {verb : Text} {type : ColumnType}
    {column : Datum} (hcolumn : column.Whole) (way : Descent)
    (hcells : ∀ v ∈ t.nodes, ∀ c ∈ way.children v, type.Exports bound c.1)
    (hu : (t.gather verb type column way.children).result = .ok u) : u.Exportable bound := by
  simp only [JsonTable.gather, Traced.result_bind_eq_ok] at hu
  obtain ⟨_, _, written, hwritten, _, _, hu⟩ := hu
  obtain rfl := Except.ok.inj hu
  refine (h.descend way).write hcolumn (fun d hd => ?_) hwritten
  obtain ⟨o, ho, rfl⟩ := List.mem_map.mp hd
  obtain ⟨⟨v, i⟩, hv, ho⟩ := List.mem_flatMap.mp ho
  obtain ⟨c, hc, rfl⟩ := List.mem_map.mp ho
  exact hcells v (List.fst_mem_of_mem_zipIdx hv) c hc

theorem Exportable.elements (h : t.Exportable bound) :
    ∀ v ∈ t.nodes, ∀ c ∈ Descent.elements.children v, ColumnType.integer.Exports bound c.1 := by
  intro v hv c hc
  obtain ⟨e, he, rfl⟩ := List.mem_map.mp hc
  obtain ⟨⟨x, i⟩, hx, rfl⟩ := List.mem_map.mp he
  have hlt : i < v.json.elements.length := by simpa using List.snd_lt_of_mem_zipIdx hx
  have hlength : v.json.elements.length ≤ v.json.length := by
    cases v.json with
    | array xs => exact le_rfl
    | _ => exact Nat.zero_le _
  have hle := v.json.length_le_size.trans ((size_le_weight hv).trans h.weight)
  exact .integer (by omega)

theorem Exportable.members (h : t.Exportable bound) :
    ∀ v ∈ t.nodes, ∀ c ∈ Descent.members.children v, ColumnType.string.Exports bound c.1 := by
  intro v hv c hc
  obtain ⟨e, he, rfl⟩ := List.mem_map.mp hc
  obtain ⟨⟨k, x⟩, hx, rfl⟩ := List.mem_map.mp he
  have hplain := (h.values v hv).own
  cases hjson : v.json with
  | object es =>
      rw [hjson] at hplain hx
      exact .text (hplain _ hx)
  | null | logical _ | number _ | string _ | array _ =>
      rw [hjson] at hx
      cases hx

theorem Exportable.spreadValues (h : t.Exportable bound) {fields : List (Text × Datum)}
    (hnames : ∀ e ∈ fields, e.1.Whole) (hu : (t.spreadValues fields).result = .ok u) :
    u.Exportable bound := by
  cases hdescriptors : fieldDescriptors fields with
  | error e =>
      rw [result_spreadValues_error hdescriptors] at hu
      cases hu
  | ok descriptors =>
      rw [result_spreadValues hdescriptors] at hu
      refine Except.foldlM_keeps (fun a ha b c hb hc => ?_) h hu
      obtain ⟨e, he, hmap⟩ := Except.exists_of_mem_mapM hdescriptors ha
      obtain ⟨d, -, rfl⟩ := Except.map_eq_ok.mp hmap
      refine hb.write (fun _ htext => Datum.text.inj htext ▸ hnames e he) (fun x hx => ?_) hc
      obtain ⟨v, hv, rfl⟩ := List.mem_map.mp hx
      exact d.exports_resolve (hb.values v hv) bound

theorem Exportable.spreadAll (h : t.Exportable bound) {separator : Datum}
    (hseparator : separator.Whole) (hu : (t.spreadAll separator).result = .ok u) :
    u.Exportable bound := by
  rw [result_spreadAll] at hu
  obtain ⟨s, hs, hfold⟩ := Except.bind_eq_ok.mp hu
  have hwhole : s.Whole := by
    unfold separatorText at hs
    split at hs
    · exact Except.ok.inj hs ▸ hseparator _ rfl
    · cases hs
  have hrow : ∀ row ∈ t.nodes.map (spreadRow s), ∀ e ∈ row, e.1.Whole ∧ e.2.Exportable := by
    intro row hrow
    obtain ⟨v, hv, rfl⟩ := List.mem_map.mp hrow
    exact mem_spreadRow Json.inherited_exportable (fun es hes => hes.own)
      (fun keys hkeys => whole_join hwhole hkeys) (h.values v hv)
  refine Except.foldlM_keeps (fun name hname b c hb hc => ?_) h hfold
  obtain ⟨kind, force, hforce, heq⟩ := spreadName_eq (t.nodes.map (spreadRow s)) b name
  rw [heq] at hc
  obtain ⟨cells, hcells, hwritten⟩ := Except.bind_eq_ok.mp hc
  have hnamed : name.Whole := by
    rw [spreadNames, List.mem_eraseDups] at hname
    obtain ⟨row, hmem, hname⟩ := List.mem_flatMap.mp hname
    obtain ⟨e, he, rfl⟩ := List.mem_map.mp hname
    exact (hrow row hmem e he).1
  refine hb.write (fun _ htext => Datum.text.inj htext ▸ hnamed) (fun d hd => ?_) hwritten
  obtain ⟨row, hmem, hcell⟩ := Except.exists_of_mem_mapM hcells hd
  cases hlookup : row.lookup name with
  | none =>
      rw [hlookup] at hcell
      obtain rfl := Except.ok.inj hcell
      exact .missing
  | some j =>
      rw [hlookup] at hcell
      have hj := hrow row hmem (name, j) (Entries.mem_of_lookup hlookup)
      exact exports_cellOf hforce hj.2 hcell bound

theorem Exportable.appendValues (h : t.Exportable bound) {kind : ScalarKind} {column : Datum}
    {force : Bool} (hcolumn : column.Whole) (hforce : force = true → kind = .string)
    (hu : t.appendValues kind column force = .ok u) : u.Exportable bound := by
  obtain ⟨cells, hcells, hwritten⟩ := Except.bind_eq_ok.mp hu
  refine h.write hcolumn (fun d hd => ?_) hwritten
  obtain ⟨v, hv, hcell⟩ := Except.exists_of_mem_mapM hcells hd
  exact exports_cellOf hforce (h.values v hv) hcell bound

-- A verb that converts nothing leads to a table that can be exported again.
theorem Exportable.apply (h : t.Exportable bound) {verb : Verb} {args : List Datum}
    {named : List (Text × Datum)} (hargs : ∀ d ∈ args, d.Whole) (hnamed : ∀ e ∈ named, e.1.Whole)
    (hforce : ∀ kind column force, verb.Forces args kind column force → force.truth = .ok false)
    (hu : (verb.apply args named t).result = .ok u) : u.Exportable bound := by
  have hcolumn {column : Datum} {rest : List Datum} (heq : args = column :: rest) : column.Whole :=
    hargs column (heq ▸ List.mem_cons_self)
  unfold Verb.apply at hu
  split at hu
  · exact h.gather (hcolumn rfl) .elements h.elements hu
  · exact h.gather (hcolumn rfl) .members h.members hu
  · exact h.gather (hcolumn rfl) .members h.members hu
  · simp only [enterObject, Traced.result_bind_eq_ok] at hu
    obtain ⟨path, _, _, _, hu⟩ := hu
    obtain rfl := Except.ok.inj hu
    exact h.descend (.walk path)
  · simp only [filterJsonTypes, Traced.result_bind_eq_ok] at hu
    obtain ⟨_, _, kept, hkept, _, _, hu⟩ := hu
    obtain rfl := Except.ok.inj hu
    exact h.keep hkept
  · exact h.spreadValues hnamed hu
  · exact h.spreadAll (hcolumn rfl) hu
  · next kind column force =>
    rw [Traced.result_liftM, appendValues_of_truth (hforce kind column force ⟨rfl, rfl⟩)] at hu
    exact h.appendValues (hcolumn rfl) (fun htrue => absurd htrue Bool.false_ne_true) hu
  · refine h.write (hcolumn rfl) (fun d hd => ?_) hu
    obtain ⟨v, hv, rfl⟩ := List.mem_map.mp hd
    exact .text (by cases v.kind <;> exact whole_ofString _)
  · refine h.write (hcolumn rfl) (fun d hd => ?_) hu
    obtain ⟨v, hv, rfl⟩ := List.mem_map.mp hd
    exact .integer (v.json.length_le_size.trans ((size_le_weight hv).trans h.weight))
  · refine h.write (hcolumn rfl) (fun d hd => ?_) hu
    obtain ⟨v, hv, rfl⟩ := List.mem_map.mp hd
    exact .integer (v.json.leafCount_le_size.trans ((size_le_weight hv).trans h.weight))
  · cases hu

end JsonTable

end Unnest
