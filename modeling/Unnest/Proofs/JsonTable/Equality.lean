import Unnest.Proofs.JsonTable.Settled

namespace Unnest

theorem ScalarKind.isScalar_kind (kind : ScalarKind) : kind.kind.isScalar = true := by
  cases kind <;> rfl

namespace Json

variable {x y : Json}

theorem Same.elements (h : Same x y) :
    List.Forall₂ (fun v w => (v == w) = true) x.elements y.elements := by
  cases h with
  | array h => exact h
  | null | logical _ | number _ | string _ | object _ => exact .nil

theorem Same.entries (h : Same x y) :
    Entries.Paired (fun v w => (v == w) = true) x.entries y.entries := by
  cases h with
  | object h => exact h
  | null | logical _ | number _ | string _ | array _ => exact .nil

end Json

namespace Node

variable {v w : Node}

theorem same_of_beq (h : (v == w) = true) : Json.Same v.json w.json :=
  Json.beq_iff_same.mp h

-- Nodes are walked as their values are, wherever they lie.
theorem walk?_of_beq (h : (v == w) = true) (path : Path) :
    Option.Rel (fun v w => (v == w) = true) (v.walk? path) (w.walk? path) := by
  have hwalk := Json.walk?_of_beq h path
  rw [walk?_eq_map, walk?_eq_map]
  generalize v.json.walk? path = x at hwalk
  generalize w.json.walk? path = y at hwalk
  cases hwalk with
  | none => exact .none
  | some hbeq => exact .some hbeq

end Node

namespace JsonTable

open Validation

theorem matches_plainCell (kind : ScalarKind) {v w : Node} (h : (v == w) = true) :
    (plainCell kind v).Matches (plainCell kind w) := by
  have hsame := Node.same_of_beq h
  have hkind : v.kind = w.kind := hsame.kind
  unfold plainCell
  rw [← hkind]
  split
  · next hscalar =>
    have hv : v.json.kind = kind.kind := hscalar
    exact hsame.matches_toDatum (hv ▸ kind.isScalar_kind)
  · exact Datum.matches_none

theorem matches_resolve (d : Descriptor) {v w : Node} (h : (v == w) = true) :
    ((d.resolve v).getD .none).Matches ((d.resolve w).getD .none) := by
  have hwalk := Node.walk?_of_beq h d.path
  cases hv : v.walk? d.path <;> cases hw : w.walk? d.path <;> rw [hv, hw] at hwalk
  · simp only [Descriptor.resolve, Descriptor.locate, hv, hw]
    exact Datum.matches_none
  · cases hwalk
  · cases hwalk
  · cases hwalk with
    | some hbeq =>
        rw [resolve_getD d.kind hv, resolve_getD d.kind hw]
        exact matches_plainCell d.kind hbeq

-- Nodes that are equal have equal nodes below them, and these come with equal cells.
theorem Descent.children_matches (way : Descent) {v w : Node} (h : (v == w) = true) :
    List.Forall₂ (fun c d => c.1.Matches d.1 ∧ (c.2 == d.2) = true) (way.children v)
      (way.children w) := by
  have hsame := Node.same_of_beq h
  cases way with
  | elements =>
      simp only [children, Node.elements, List.forall₂_map_left_iff, List.forall₂_map_right_iff]
      refine (forall₂_zipIdx hsame.elements 0).imp fun e f he => ⟨?_, he.1⟩
      exact Datum.matches_ofNat_iff.mpr (congrArg (· + 1) he.2)
  | members =>
      simp only [children, Node.members, List.forall₂_map_left_iff, List.forall₂_map_right_iff]
      refine hsame.entries.imp fun e f he => ⟨?_, he.2⟩
      rw [he.1]
      exact Datum.matches_text f.1
  | walk keys =>
      have hwalk := Node.walk?_of_beq h (keys.map .key)
      simp only [children]
      generalize v.walk? (keys.map .key) = x at hwalk
      generalize w.walk? (keys.map .key) = y at hwalk
      cases hwalk with
      | none => exact .nil
      | some hbeq => exact .cons ⟨Datum.matches_none, hbeq⟩ .nil

-- Tables that are equal where they are compared, and have a value in each row.
structure Matches (t u : JsonTable) : Prop where
  aligned : t.Aligned
  table : t.table.Matches u.table
  nodes : List.Forall₂ (fun v w => (v == w) = true) t.nodes u.nodes

theorem nodes_beq_iff {l m : List Node} :
    (l == m) = true ↔ List.Forall₂ (fun v w => (v == w) = true) l m := by
  induction l generalizing m with
  | nil => cases m <;> simp
  | cons v l ih =>
      cases m with
      | nil => simp
      | cons w m => rw [List.cons_beq_cons, Bool.and_eq_true, List.forall₂_cons, ih]

theorem Aligned.equals_iff {t u : JsonTable} (ht : t.Aligned) :
    t.equals u = .ok true ↔ t.Matches u := by
  rw [equals, Except.bind_eq_ok]
  constructor
  · rintro ⟨same, hsame, h⟩
    cases same with
    | true => exact ⟨ht, Table.equals_iff.mp hsame, nodes_beq_iff.mp (Except.ok.inj h)⟩
    | false => cases h
  · rintro ⟨-, htable, hnodes⟩
    exact ⟨true, Table.equals_iff.mpr htable, congrArg Except.ok (nodes_beq_iff.mpr hnodes)⟩

-- Two runs that come to equal tables, or fail for one and the same reason.
inductive Agree : Except Failure JsonTable → Except Failure JsonTable → Prop
  | passed {u w : JsonTable} : u.Matches w → Agree (.ok u) (.ok w)
  | failed (e : Failure) : Agree (.error e) (.error e)

variable {a b : JsonTable}

theorem Matches.rowCount (h : a.Matches b) : a.rowCount = b.rowCount :=
  congrArg List.length h.table.documents

theorem Matches.aligned_right (h : a.Matches b) : b.Aligned := by
  rw [Aligned, ← h.table.documents, ← h.nodes.length_eq]
  exact h.aligned

theorem agree_foldlM {step : JsonTable → α → Except Failure JsonTable} {l : List α}
    (hstep : ∀ x ∈ l, ∀ a b : JsonTable, a.Matches b → Agree (step a x) (step b x))
    (h : a.Matches b) : Agree (l.foldlM step a) (l.foldlM step b) := by
  induction l generalizing a b with
  | nil => exact .passed h
  | cons x l ih =>
      obtain ⟨hx, hl⟩ := List.forall_mem_cons.mp hstep
      have hfirst := hx a b h
      rw [List.foldlM_cons, List.foldlM_cons]
      generalize step a x = u at hfirst
      generalize step b x = w at hfirst
      cases hfirst with
      | passed hnext => exact ih hl hnext
      | failed e => exact .failed e

-- Equal cells may be written to equal tables.
theorem agree_withColumn (h : a.Matches b) (column : Datum) {type : ColumnType}
    {cells others : List Datum} (hlength : cells.length = a.rowCount)
    (hcells : List.Forall₂ Datum.Matches cells others) (hfits : ∀ d ∈ cells, type.Fits d)
    (hothers : ∀ d ∈ others, type.Fits d) :
    Agree (a.withColumn column type cells) (b.withColumn column type others) := by
  rcases writable_or_refused column with ⟨key, rfl, hkey⟩ | ⟨e, he⟩
  · have hcount : others.length = b.rowCount := by
      rw [← hcells.length_eq, hlength, h.rowCount]
    rw [withColumn, withColumn, Table.withColumn_eq_ok hkey hlength hfits,
      Table.withColumn_eq_ok hkey hcount hothers]
    exact .passed ⟨h.aligned, h.table.put key ⟨rfl, hcells⟩, h.nodes⟩
  · rw [he, he]
    exact .failed e

theorem agree_withColumn_map (h : a.Matches b) (column : Datum) {type : ColumnType}
    {f : Node → Datum} (hfits : ∀ v, type.Fits (f v))
    (hf : ∀ v w : Node, (v == w) = true → (f v).Matches (f w)) :
    Agree (a.withColumn column type (a.nodes.map f)) (b.withColumn column type (b.nodes.map f)) := by
  have hall (nodes : List Node) : ∀ d ∈ nodes.map f, type.Fits d := by
    intro d hd
    obtain ⟨v, -, rfl⟩ := List.mem_map.mp hd
    exact hfits v
  refine agree_withColumn h column ((List.length_map _).trans h.aligned.symm) ?_ (hall _) (hall _)
  rw [List.forall₂_map_left_iff, List.forall₂_map_right_iff]
  exact h.nodes.imp hf

-- Equal rows come from equal rows.
theorem Matches.offspring (h : a.Matches b) (way : Descent) :
    List.Forall₂ (fun o p => o.source = p.source ∧ o.cell.Matches p.cell ∧
      (o.node == p.node) = true) (a.offspring way.children) (b.offspring way.children) := by
  refine List.rel_flatMap (forall₂_zipIdx h.nodes 0) fun e f he => ?_
  rw [List.forall₂_map_left_iff, List.forall₂_map_right_iff]
  exact (way.children_matches he.1).imp fun c d hc => ⟨he.2, hc⟩

theorem Matches.ofOffspring (h : a.Matches b) (way : Descent) :
    (a.ofOffspring (a.offspring way.children)).Matches
      (b.ofOffspring (b.offspring way.children)) := by
  have hrows := h.offspring way
  have hsources : (a.offspring way.children).map Offspring.source =
      (b.offspring way.children).map Offspring.source := by
    rw [← List.forall₂_eq_eq_eq, List.forall₂_map_left_iff, List.forall₂_map_right_iff]
    exact hrows.imp fun o p ho => ho.1
  refine ⟨(shows_ofOffspring h.aligned way.children).aligned, ?_, ?_⟩
  · rw [JsonTable.ofOffspring, JsonTable.ofOffspring, hsources]
    exact h.table.select _
  · rw [JsonTable.ofOffspring, JsonTable.ofOffspring, List.forall₂_map_left_iff,
      List.forall₂_map_right_iff]
    exact hrows.imp fun o p ho => ho.2.2

theorem agree_gather (h : a.Matches b) (verb : Text) (column : Datum) {type : ColumnType}
    (way : Descent) (hfits : ∀ v, ∀ c ∈ way.children v, type.Fits c.1) :
    Agree (a.gather verb type column way.children).result
      (b.gather verb type column way.children).result := by
  rcases gathered_or_refused verb column with ⟨key, rfl, hkey⟩ | ⟨e, he⟩
  · rw [result_gather hkey, result_gather hkey]
    refine agree_withColumn (h.ofOffspring way) _ (length_offspring a way.children) ?_
      (offspring_fits hfits a) (offspring_fits hfits b)
    rw [List.forall₂_map_left_iff, List.forall₂_map_right_iff]
    exact (h.offspring way).imp fun o p ho => ho.2.1
  · rw [he, he]
    exact .failed e

theorem agree_enterObject (h : a.Matches b) (keys : List Datum) :
    Agree (a.enterObject keys).result (b.enterObject keys).result := by
  simp only [enterObject, Traced.result_bind, Traced.result_liftM]
  cases keyPath keys with
  | error e => exact .failed e
  | ok path => exact .passed (h.ofOffspring (.walk path))

theorem filterRows_map (ha : a.Aligned) (p : Node → Bool) :
    a.filterRows (a.nodes.map p) =
      .ok ⟨a.table.select (Table.marked (a.nodes.map p)), a.nodes.filter p⟩ := by
  have htable : a.table.filterRows (a.nodes.map p) =
      .ok (a.table.select (Table.marked (a.nodes.map p))) :=
    if_pos ((List.length_map _).trans ha.symm)
  rw [filterRows, htable, Except.ok_bind, ← kept_map]
  rfl

theorem agree_filterRows (h : a.Matches b) {p : Node → Bool}
    (hp : ∀ v w : Node, (v == w) = true → p v = p w) :
    Agree (a.filterRows (a.nodes.map p)) (b.filterRows (b.nodes.map p)) := by
  have hmask : a.nodes.map p = b.nodes.map p := by
    rw [← List.forall₂_eq_eq_eq, List.forall₂_map_left_iff, List.forall₂_map_right_iff]
    exact h.nodes.imp hp
  have hkept := filterRows_map h.aligned p
  rw [hkept, filterRows_map h.aligned_right p, ← hmask]
  refine .passed ⟨(filterRows_places h.aligned hkept).1, h.table.select _, ?_⟩
  refine List.rel_filter (fun v w hvw => ?_) h.nodes
  show p v = true ↔ p w = true
  rw [hp v w hvw]

theorem agree_filterJsonTypes (h : a.Matches b) (types : List Datum) :
    Agree (a.filterJsonTypes types).result (b.filterJsonTypes types).result := by
  simp only [filterJsonTypes, Traced.result_bind, Traced.result_liftM]
  cases kindsNamed types with
  | error e => exact .failed e
  | ok kinds =>
      have hkept := agree_filterRows h (p := fun v => kinds.contains v.kind) fun v w hvw =>
        congrArg kinds.contains (Node.same_of_beq hvw).kind
      simp only [Except.ok_bind, Traced.result_note, Traced.result_pure]
      generalize a.filterRows (a.nodes.map fun v => kinds.contains v.kind) = u at hkept
      generalize b.filterRows (b.nodes.map fun v => kinds.contains v.kind) = w at hkept
      cases hkept with
      | passed hresult => exact .passed hresult
      | failed e => exact .failed e

theorem agree_spreadValues (h : a.Matches b) (fields : List (Text × Datum)) :
    Agree (a.spreadValues fields).result (b.spreadValues fields).result := by
  cases hdescriptors : fieldDescriptors fields with
  | error e =>
      rw [result_spreadValues_error hdescriptors, result_spreadValues_error hdescriptors]
      exact .failed e
  | ok descriptors =>
      rw [result_spreadValues hdescriptors, result_spreadValues hdescriptors]
      exact agree_foldlM (fun x _ _ _ h => agree_withColumn_map h _ x.2.fits_resolve
        fun v w => matches_resolve x.2) h

theorem agree_appendValues (h : a.Matches b) (kind : ScalarKind) (column : Datum) :
    Agree (a.appendValues kind column false) (b.appendValues kind column false) := by
  rw [appendValues_unforced, appendValues_unforced]
  exact agree_withColumn_map h column (plainCell_fits kind) fun v w => matches_plainCell kind

-- An object without a truth is asked for it in both of two equal tables or in neither.
theorem agree_appendValues_of_isTrue (h : a.Matches b) (kind : ScalarKind) (column : Datum)
    {force : Datum} (hforce : force.isTrue = false) :
    Agree (a.appendValues kind column force) (b.appendValues kind column force) := by
  cases htruth : force.truth with
  | ok truth =>
      rw [appendValues_of_truth htruth, appendValues_of_truth htruth,
        ← Datum.isTrue_of_truth htruth, hforce]
      exact agree_appendValues h kind column
  | error e =>
      have hkinds : a.nodes.map Node.kind = b.nodes.map Node.kind := by
        rw [← List.forall₂_eq_eq_eq, List.forall₂_map_left_iff, List.forall₂_map_right_iff]
        exact h.nodes.imp fun v w hvw => (Node.same_of_beq hvw).kind
      have hall (t : JsonTable) : (∀ v ∈ t.nodes, v.kind = kind.kind) ↔
          ∀ k ∈ t.nodes.map Node.kind, k = kind.kind := by rw [List.forall_mem_map]
      rw [appendValues_of_error htruth, appendValues_of_error htruth,
        if_congr ((hall a).trans (hkinds ▸ (hall b).symm)) rfl rfl]
      split
      · exact agree_appendValues h kind column
      · exact .failed e

-- Equal tables are told apart by what is converted only.
theorem agree_apply (h : a.Matches b) {verb : Verb} (hverb : verb ≠ .spreadAll) {args : List Datum}
    (hplain : ∀ kind column force, verb = .appendValues kind → args = [column, force] →
      force.isTrue = false) (named : List (Text × Datum)) :
    Agree (verb.apply args named a).result (verb.apply args named b).result := by
  unfold Verb.apply
  split
  · exact agree_gather h _ _ .elements elements_fits
  · exact agree_gather h _ _ .members members_fits
  · exact agree_gather h _ _ .members members_fits
  · exact agree_enterObject h _
  · exact agree_filterJsonTypes h _
  · exact agree_spreadValues h _
  · exact absurd rfl hverb
  · next kind column force =>
    exact agree_appendValues_of_isTrue h kind column (hplain kind column force rfl rfl)
  · refine agree_withColumn_map h _ (fun v => .inr rfl) fun v w hvw => ?_
    have hkind : v.kind = w.kind := (Node.same_of_beq hvw).kind
    rw [hkind]
    exact Datum.matches_text _
  · refine agree_withColumn_map h _ (fun v => .inr rfl) fun v w hvw => ?_
    exact Datum.matches_ofNat_iff.mpr (Node.same_of_beq hvw).length
  · refine agree_withColumn_map h _ (fun v => .inr rfl) fun v w hvw => ?_
    exact Datum.matches_ofNat_iff.mpr (Node.same_of_beq hvw).leafCount
  · exact .failed .mismatch

end JsonTable

-- A call that reads values as they are: nothing is spread under a type that is found for it, and
-- no value is converted.
structure Verb.Unforced (verb : Verb) (arguments : Arguments) : Prop where
  ne_spreadAll : verb ≠ .spreadAll
  unforced : ∀ kind column force bound, verb = .appendValues kind →
    arguments.bind? verb = some bound → bound.positions = [column, force] → force.isTrue = false

namespace JsonTable

theorem agree_call {a b : JsonTable} (h : a.Matches b) {verb : Verb} {arguments : Arguments}
    (hcall : verb.Unforced arguments) (form : Form) :
    Agree (verb.call form arguments a).result (verb.call form arguments b).result := by
  cases hreceive : verb.receive form arguments with
  | error e =>
      rw [Verb.call, Verb.call, hreceive]
      exact .failed e
  | ok bound =>
      rw [Verb.result_call hreceive, Verb.result_call hreceive]
      refine agree_apply h hcall.ne_spreadAll (fun kind column force hverb hargs => ?_) bound.names
      exact hcall.unforced kind column force bound hverb (Verb.bind?_of_receive hreceive) hargs

-- Equal tables give equal tables or the same failure, wherever their values lie and however their
-- numbers are spelled, for nothing that is read off a value tells it from one that is equal.
theorem call_of_equals :
    (∀ a b : JsonTable, a.Aligned → a.equals b = .ok true →
      ∀ (verb : Verb) (form : Form) (arguments : Arguments), verb.Unforced arguments →
        (∃ u w, (verb.call form arguments a).result = .ok u ∧
          (verb.call form arguments b).result = .ok w ∧ u.equals w = .ok true) ∨
        ∃ e, (verb.call form arguments a).result = .error e ∧
          (verb.call form arguments b).result = .error e) ∧
    ∀ v w : Node, (v == w) = true → v.kind = w.kind ∧ v.json.length = w.json.length ∧
      v.json.leafCount = w.json.leafCount ∧ v.json.keys = w.json.keys ∧
      ∀ path, Option.Rel (fun x y => (x == y) = true) (v.walk? path) (w.walk? path) := by
  refine ⟨fun a b ha h verb form arguments hcall => ?_, fun v w h => ?_⟩
  · have hagree := agree_call (ha.equals_iff.mp h) hcall form
    generalize (verb.call form arguments a).result = u at hagree
    generalize (verb.call form arguments b).result = w at hagree
    cases hagree with
    | @passed u w hu => exact .inl ⟨u, w, rfl, rfl, hu.aligned.equals_iff.mpr hu⟩
    | failed e => exact .inr ⟨e, rfl, rfl⟩
  · have hsame := Node.same_of_beq h
    exact ⟨hsame.kind, hsame.length, hsame.leafCount, hsame.keys, Node.walk?_of_beq h⟩

-- A number that is written as an integer in one table and as a double in the other, below
-- different paths, is read as numbers that are equal.
theorem call_of_equals_one :
    ∃ a b : JsonTable, a.nodes.map Node.path ≠ b.nodes.map Node.path ∧ a.equals b = .ok true ∧
      (∃ u w, ((Verb.appendValues .number).call .function {} a).result = .ok u ∧
        ((Verb.appendValues .number).call .function {} b).result = .ok w ∧
        u.equals w = .ok true) ∧
      ∃ v w : Node, (v == w) = true ∧ v.kind = w.kind ∧
        Option.Rel (fun x y => (x == y) = true) (v.walk? [.key "n"]) (w.walk? [.key "n"]) := by
  let v : Node := { json := .object [("n", .number (.int 1))] }
  let w : Node := { json := .object [("n", .number (.real .one))], path := [.key "row"] }
  have hvw : (v == w) = true := by decide +kernel
  have ha : (ofDocuments [v]).Aligned := rfl
  have hequal : (ofDocuments [v]).equals (ofDocuments [w]) = .ok true :=
    ha.equals_iff.mpr ⟨ha, ⟨rfl, .nil⟩, .cons hvw .nil⟩
  have hcall : (Verb.appendValues .number).Unforced {} := by
    refine ⟨by decide, fun kind column force bound _ hbound hargs => ?_⟩
    obtain rfl := Option.some.inj hbound
    cases hargs
    rfl
  obtain ⟨hruns, hnodes⟩ := call_of_equals
  refine ⟨ofDocuments [v], ofDocuments [w], nofun, hequal, ?_, v, w, hvw, ?_⟩
  · rcases hruns _ _ ha hequal _ .function {} hcall with hruns | ⟨e, he, -⟩
    · exact hruns
    · cases he
  · obtain ⟨hkind, -, -, -, hwalk⟩ := hnodes v w hvw
    exact ⟨hkind, hwalk _⟩

end JsonTable

end Unnest
