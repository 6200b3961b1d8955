import Unnest.JsonTable.Columns
import Unnest.Proofs.Descriptor
import Unnest.Proofs.JsonTable.Rows
import Unnest.Proofs.Table.Equality

namespace Unnest

theorem Json.toDatum_fits {kind : ScalarKind} {j : Json} (h : j.kind = kind.kind) :
    kind.columnType.Fits j.toDatum := by
  cases j with
  | number n =>
      cases kind <;> cases h
      cases n <;> exact .inr rfl
  | string s =>
      cases kind <;> cases h
      exact .inr rfl
  | logical b =>
      cases kind <;> cases h
      exact .inr rfl
  | null | array _ | object _ => cases kind <;> cases h

namespace JsonTable

open Validation

-- A step down by verbs: a key is entered, and of a gathered array the row at the index is kept.
def drillStep (column : Text) (t : JsonTable) : Step → Except Failure JsonTable
  | .key k => (t.enterObject [.text k]).result
  | .index i => do
      let u ← (t.gatherArray (.text column)).result
      let positions ← u.table.column (.text column)
      u.filterRows (positions.cells.map (· == .int i))

-- Goes down a path one step at a time, and appends what is found there.
def drill (t : JsonTable) (column target : Text) (kind : ScalarKind) (path : Path) :
    Except Failure JsonTable := do
  let u ← path.foldlM (drillStep column) t
  u.appendValues kind (.text target) false

-- What a step writes to a row, or to the columns.
def mark (column : Text) (value : Int → α) : Step → List (Text × α) → List (Text × α)
  | .key _, es => es
  | .index i, es => Entries.put column (value i) es

def marks (column : Text) (value : Int → α) (path : Path) (es : List (Text × α)) :
    List (Text × α) :=
  path.foldl (fun es s => mark column value s es) es

-- Of the positions of a list, only one is kept.
theorem filter_zipIdx (xs : List α) (start : Nat) (i : Int) :
    ((xs.zipIdx start).filter fun e => (e.2 : Int) = i) =
      if (start : Int) ≤ i then ((xs[(i - start).toNat]?).map (·, i.toNat)).toList else [] := by
  induction xs generalizing start with
  | nil => simp
  | cons x xs ih =>
      rw [List.zipIdx_cons, List.filter_cons, ih]
      by_cases hi : (start : Int) = i
      · subst hi
        simp
      · rw [if_neg (by simpa using hi)]
        by_cases hlt : (start : Int) ≤ i
        · have hnext : (i - start).toNat = (i - (start + 1 : Nat)).toNat + 1 := by omega
          rw [if_pos hlt, if_pos (by omega), hnext, List.getElem?_cons_succ]
        · rw [if_neg hlt, if_neg (by omega)]

-- The rows of an array that have a position in their column.
theorem filter_elementRows (column : Text) (i : Int) (r : Row) :
    (elementRows column r).filter (fun s => (s.1.lookup column).getD .none == .int i) =
      ((r.2.child? (.index i)).map fun w => (Entries.put column (.int i) r.1, w)).toList := by
  obtain ⟨row, v⟩ := r
  cases hjson : v.json with
  | array xs =>
      have hposition : (1 : Int) ≤ i → ((i.toNat : Nat) : Int) = i := by omega
      simp only [elementRows, hjson, List.filter_map, Function.comp_def, Entries.lookup_put_self,
        Option.getD_some, Datum.ofNat, Datum.int_beq_int, filter_zipIdx xs 1 i]
      by_cases hi : (1 : Int) ≤ i
      · have hchild : v.child? (.index i) = (xs[(i - 1).toNat]?).map (v.below (.index i)) := by
          simp only [Node.child?, hjson, Json.child?, Json.element?, if_pos hi]
        rw [hchild, Nat.cast_one, if_pos hi]
        cases xs[(i - 1).toNat]? <;> simp [hposition hi]
      · simp [hi, Node.child?, hjson, Json.child?, Json.element?]
  | null | logical _ | number _ | string _ | object _ =>
      simp [elementRows, hjson, Node.child?, Json.child?, Json.element?]

-- Each row whose value has the step goes on with what is found there, and the others are dropped.
theorem shows_drillStep {t : JsonTable} (ht : t.Aligned) {column : Text} (hcolumn : Writable column)
    (s : Step) :
    ∃ u, drillStep column t s = .ok u ∧
      u.Shows (mark column (fun _ => .integer) s t.table.schema)
        (t.rows.filterMap fun r => (r.2.child? s).map (mark column .int s r.1, ·)) := by
  cases s with
  | key k =>
      obtain ⟨u, hu, haligned, hschema, hrows⟩ :=
        shows_enterObject ht (keyPath_text (List.cons_ne_nil k []))
      refine ⟨u, hu, haligned, hschema, hrows.trans ?_⟩
      refine List.filterMap_congr fun r _ => ?_
      cases hchild : r.2.child? (.key k) <;> simp [Node.walk?, hchild, mark]
  | index i =>
      obtain ⟨u, hu, haligned, hschema, hrows⟩ := shows_gatherArray ht hcolumn
      have hpositions := column_of_gather haligned hu
      obtain ⟨w, hw, hwaligned, hwschema, hwrows⟩ := shows_filterRows_map haligned
        (fun r => (r.1.lookup column).getD .none) (· == Datum.int i)
      refine ⟨w, ?_, hwaligned, hwschema.trans hschema, ?_⟩
      · exact Except.bind_eq_ok.mpr ⟨u, hu, Except.bind_eq_ok.mpr ⟨_, hpositions, hw⟩⟩
      · rw [hwrows, hrows, List.filter_flatMap, List.filterMap_eq_flatMap_toList]
        exact congrArg (t.rows.flatMap ·) (funext (filter_elementRows column i))

-- A chain of steps finds what a walk finds.
theorem shows_drillSteps {t : JsonTable} (ht : t.Aligned) {column : Text}
    (hcolumn : Writable column) (path : Path) :
    ∃ u, path.foldlM (drillStep column) t = .ok u ∧
      u.Shows (marks column (fun _ => .integer) path t.table.schema)
        (t.rows.filterMap fun r => (r.2.walk? path).map (marks column .int path r.1, ·)) := by
  induction path generalizing t with
  | nil =>
      refine ⟨t, rfl, ht, rfl, ?_⟩
      simp [Node.walk?, marks]
  | cons s path ih =>
      obtain ⟨u, hu, haligned, hschema, hrows⟩ := shows_drillStep ht hcolumn s
      obtain ⟨w, hw, hwaligned, hwschema, hwrows⟩ := ih haligned
      refine ⟨w, ?_, hwaligned, ?_, ?_⟩
      · rw [List.foldlM_cons]
        exact Except.bind_eq_ok.mpr ⟨u, hu, hw⟩
      · rw [hwschema, hschema]
        rfl
      · rw [hwrows, hrows, List.filterMap_filterMap]
        refine List.filterMap_congr fun r _ => ?_
        cases hchild : r.2.child? s <;> simp [Node.walk?, hchild, marks]

-- The cell of a value that is not converted.
def plainCell (kind : ScalarKind) (v : Node) : Datum :=
  if v.kind = kind.kind then v.json.toDatum else .none

theorem plainCell_fits (kind : ScalarKind) (v : Node) :
    kind.columnType.Fits (plainCell kind v) := by
  unfold plainCell
  split
  · next hkind => exact Json.toDatum_fits hkind
  · exact .inl rfl

theorem cellOf_unforced (kind : ScalarKind) (v : Node) :
    cellOf kind false v.json = .ok (plainCell kind v) := by
  unfold cellOf plainCell Node.kind
  split <;> rfl

theorem resolve_getD (kind : ScalarKind) {path : Path} {v w : Node} (h : v.walk? path = some w) :
    ((⟨kind, path⟩ : Descriptor).resolve v).getD .none = plainCell kind w := by
  simp only [Descriptor.resolve, Descriptor.locate, h, plainCell]
  split <;> rfl

theorem appendValues_unforced (t : JsonTable) (kind : ScalarKind) (column : Datum) :
    t.appendValues kind column false =
      t.withColumn column kind.columnType (t.nodes.map (plainCell kind)) := by
  have hcells : (t.nodes.mapM fun v => cellOf kind false v.json) =
      .ok (t.nodes.map (plainCell kind)) := by
    rw [Except.mapM_eq_ok_iff, List.forall₂_map_right_iff, List.forall₂_same]
    exact fun v _ => cellOf_unforced kind v
  rw [appendValues, hcells, Except.ok_bind]

-- Without conversions, values can always be appended.
theorem shows_appendValues {t : JsonTable} (ht : t.Aligned) {target : Text}
    (htarget : Writable target) (kind : ScalarKind) :
    ∃ u, t.appendValues kind (.text target) false = .ok u ∧
      u.Shows (Entries.put target kind.columnType t.table.schema)
        (t.rows.map fun r => (Entries.put target (plainCell kind r.2) r.1, r.2)) := by
  rw [appendValues_unforced]
  exact shows_withColumn_map ht htarget fun v _ => plainCell_fits kind v

-- Where a partial function is defined, the results stand in order.
theorem forall₂_filterMap {f : α → Option β} {R : α → β → Prop} (l : List α)
    (h : ∀ a ∈ l, ∀ b, f a = some b → R a b) :
    List.Forall₂ R (l.filter fun a => (f a).isSome) (l.filterMap f) := by
  induction l with
  | nil => exact .nil
  | cons a l ih =>
      have hrest := ih fun b hb => h b (List.mem_cons_of_mem a hb)
      cases hf : f a with
      | none => simpa [hf] using hrest
      | some b => simpa [hf] using ⟨h a List.mem_cons_self b hf, hrest⟩

theorem filter_marks {p : Text → Bool} {column : Text} (h : p column = false) (value : Int → α)
    (path : Path) (es : List (Text × α)) :
    (marks column value path es).filter (fun e => p e.1) = es.filter fun e => p e.1 := by
  induction path generalizing es with
  | nil => rfl
  | cons s path ih =>
      rw [marks, List.foldl_cons, ← marks, ih]
      cases s with
      | key k => rfl
      | index i => exact Entries.filter_put h _ es

-- Going down a path by verbs keeps just the rows in which the path is walked to its end. Each of
-- them gets the value that is found there, and what a descriptor resolves to; but for the two
-- columns that are written, it stays as it was. There is no descriptor for a path with an index
-- that is found nowhere and that cannot be written into the warning about it.
theorem drill_eq_walk {t : JsonTable} (ht : t.Aligned) {column target : Text}
    (hcolumn : Writable column) (htarget : Writable target) (kind : ScalarKind) {path : Path}
    (hpath : path ≠ []) :
    ∃ u, t.drill column target kind path = .ok u ∧ u.Aligned ∧
      (u.table.schema.filter fun e => e.1 ≠ column ∧ e.1 ≠ target) =
        (t.table.schema.filter fun e => e.1 ≠ column ∧ e.1 ≠ target) ∧
      List.Forall₂ (fun r s => r.2.walk? path = some s.2 ∧
          (s.1.filter fun e => e.1 ≠ column ∧ e.1 ≠ target) =
            r.1.filter fun e => e.1 ≠ column ∧ e.1 ≠ target)
        (t.rows.filter fun r => (r.2.walk? path).isSome) u.rows ∧
      (path.Warnable →
        ∃ d, (Descriptor.make kind.kind (path.map .ofStep)).result = .ok d ∧
          List.Forall₂ (fun r s => s.1.lookup target = some ((d.resolve r.2).getD .none))
            (t.rows.filter fun r => (r.2.walk? path).isSome) u.rows ∧
          ∀ r ∈ t.rows, r.2.walk? path = none → d.resolve r.2 = none) ∧
      (¬path.Warnable →
        (Descriptor.make kind.kind (path.map .ofStep)).result = .error (.longNumeral none)) := by
  obtain ⟨w, hw, hwaligned, hwschema, hwrows⟩ := shows_drillSteps ht hcolumn path
  obtain ⟨u, hu, haligned, hschema, hrows⟩ := shows_appendValues hwaligned htarget kind
  let other (name : Text) : Bool := name ≠ column ∧ name ≠ target
  have hothers {α : Type} (value : Int → α) (x : α) (es : List (Text × α)) :
      (Entries.put target x (marks column value path es)).filter (fun e => other e.1) =
        es.filter fun e => other e.1 := by
    rw [Entries.filter_put (by simp [other]), filter_marks (by simp [other])]
  let found (r : Row) : Option Row := (r.2.walk? path).map fun v =>
    (Entries.put target (plainCell kind v) (marks column Datum.int path r.1), v)
  have hkept : (t.rows.filter fun r => (r.2.walk? path).isSome) =
      t.rows.filter fun r => (found r).isSome := by simp [found]
  have hfound : u.rows = t.rows.filterMap found := by
    rw [hrows, hwrows, List.map_filterMap]
    simp only [Option.map_map, Function.comp_def, found]
  refine ⟨u, Except.bind_eq_ok.mpr ⟨w, hw, hu⟩, haligned, ?_, ?_, fun hwarnable => ?_,
    Descriptor.result_make_long kind⟩
  · rw [hschema, hwschema]
    exact hothers _ _ _
  · rw [hfound, hkept]
    refine forall₂_filterMap t.rows fun r _ s hs => ?_
    obtain ⟨v, hv, rfl⟩ := Option.map_eq_some_iff.mp hs
    exact ⟨hv, hothers _ _ _⟩
  · refine ⟨⟨kind, path⟩, Descriptor.result_make_path kind hpath hwarnable, ?_, fun r _ hr => ?_⟩
    · rw [hfound, hkept]
      refine forall₂_filterMap t.rows fun r _ s hs => ?_
      obtain ⟨v, hv, rfl⟩ := Option.map_eq_some_iff.mp hs
      rw [Entries.lookup_put_self, resolve_getD kind hv]
    · simp only [Descriptor.resolve, Descriptor.locate, hr]

-- Of two arrays under a key, only one has a second element.
theorem drill_eq_walk_second :
    ∃ t : JsonTable, t.rowCount = 2 ∧ t.Aligned ∧ Writable "i" ∧ Writable "v" ∧
      ∃ u d, t.drill "i" "v" .number [.key "a", .index 2] = .ok u ∧
        (Descriptor.make .number [.text "a", .int 2]).result = .ok d ∧
        ∃ s, u.rows = [s] ∧ s.1.lookup ("v" : Text) = some (.int 20) ∧
          s.2 = { json := .number (.int 20), path := [.key "a", .index 2] } ∧
          (s.1.filter fun e => e.1 ≠ ("i" : Text) ∧ e.1 ≠ ("v" : Text)) =
            [(documentColumn, .int 1)] := by
  let v : Node := { json := .object [("a", .array [.null, .number (.int 20)])] }
  let w : Node := { json := .object [("a", .array [.logical true])] }
  have ht : (ofDocuments [v, w]).Aligned := rfl
  have hi : Writable "i" := by decide
  have hv : Writable "v" := by decide
  have hpath : ([.key "a", .index 2] : Path) ≠ [] := List.cons_ne_nil _ _
  have hwarnable : Path.Warnable [.key "a", .index 2] := by
    intro i hmem hlow
    simp only [List.mem_cons, reduceCtorEq, Step.index.injEq, List.not_mem_nil, or_false,
      false_or] at hmem
    omega
  obtain ⟨u, hu, -, -, hrows, hmade, -⟩ := drill_eq_walk ht hi hv .number hpath
  obtain ⟨d, hd, hcells, -⟩ := hmade hwarnable
  have hkept : ((ofDocuments [v, w]).rows.filter fun r =>
      (r.2.walk? [.key "a", .index 2]).isSome) = [([(documentColumn, .int 1)], v)] := rfl
  rw [hkept, List.forall₂_cons_left_iff] at hrows hcells
  obtain ⟨s, rest, ⟨hvalue, hothers⟩, hrest, hu'⟩ := hrows
  obtain rfl := List.forall₂_nil_left_iff.mp hrest
  obtain ⟨s', _, hcell, -, hs⟩ := hcells
  obtain rfl := (List.cons.inj (hu'.symm.trans hs)).1
  obtain rfl := Except.ok.inj (hd.symm.trans rfl)
  exact ⟨_, rfl, ht, hi, hv, u, _, hu, hd, s, hu', hcell, (Option.some.inj hvalue).symm, hothers⟩

-- Positions are counted from one.
theorem drill_index_lt_one {t : JsonTable} (ht : t.Aligned) {column target : Text}
    (hcolumn : Writable column) (htarget : Writable target) (kind : ScalarKind) {i : Int}
    (hi : i < 1) : ∃ u, t.drill column target kind [.index i] = .ok u ∧ u.rows = [] := by
  obtain ⟨w, hw, hwaligned, -, hwrows⟩ := shows_drillSteps ht hcolumn [.index i]
  obtain ⟨u, hu, -, -, hrows⟩ := shows_appendValues hwaligned htarget kind
  refine ⟨u, Except.bind_eq_ok.mpr ⟨w, hw, hu⟩, ?_⟩
  rw [hrows, hwrows, List.map_eq_nil_iff, List.filterMap_eq_nil_iff]
  intro r _
  have hnone : r.2.walk? [.index i] = none := by
    simp only [Node.walk?, Node.child?, Json.child?, Json.element?, if_neg (Int.not_le.mpr hi)]
    cases r.2.json <;> rfl
  rw [hnone]
  rfl

-- An index that no array has leaves no rows, but there is no descriptor that finds nothing there.
theorem drill_eq_walk_endless :
    ∃ t u : JsonTable, t.rowCount = 1 ∧ t.Aligned ∧
      t.drill "i" "v" .number [.index (-10 ^ maxNumeralDigits)] = .ok u ∧ u.rows = [] ∧
      ∀ d, (Descriptor.make .number [.int (-10 ^ maxNumeralDigits)]).result ≠ .ok d := by
  have hlong : ¬Spellable (-10 ^ maxNumeralDigits) :=
    mt spellable_neg.mp (not_spellable_pow le_rfl)
  have hlow : (-10 ^ maxNumeralDigits : Int) < 1 := by
    have hpos : (0 : Int) < 10 ^ maxNumeralDigits := Int.pow_pos (by decide)
    omega
  generalize (-10 ^ maxNumeralDigits : Int) = i at hlong hlow ⊢
  have ht : (ofDocuments [{ json := .array [.null] }]).Aligned := rfl
  have hi : Writable "i" := by decide
  have hv : Writable "v" := by decide
  obtain ⟨u, hu, hrows⟩ := drill_index_lt_one ht hi hv .number hlow
  have hunwarnable : ¬Path.Warnable [.index i] := fun hwarnable =>
    hlong (hwarnable i List.mem_cons_self hlow)
  refine ⟨_, u, rfl, ht, hu, hrows, fun d hd => ?_⟩
  cases (Descriptor.result_make_long .number hunwarnable).symm.trans hd

end JsonTable

end Unnest
