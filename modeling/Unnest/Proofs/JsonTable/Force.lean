import Unnest.Proofs.Json.Reading
import Unnest.Proofs.JsonTable.Settled

namespace Unnest.JsonTable

open Json

-- The kinds of values that make no cell, converted or not.
def missingKinds : List Kind := [.null, .array, .object]

-- What a conversion makes of the cell of a value: it only fills what is missing without it.
structure Filled (kind : ScalarKind) (v : Node) (plain forced : Datum) : Prop where
  same : plain ≠ .none → forced = plain
  missing : v.kind ∈ missingKinds → plain = .none ∧ forced = .none
  fits : kind.columnType.Fits forced

theorem filled_scalarCell (kind : ScalarKind) {v : Node} (h : v.json.Spellable) :
    Filled kind v (scalarCell kind false v) (scalarCell kind true v) := by
  obtain ⟨hplain, -⟩ := scalarCell_ok kind false h
  obtain ⟨hforced, hfits⟩ := scalarCell_ok kind true h
  rw [cellOf_bool] at hplain hforced
  by_cases hkind : v.json.kind = kind.kind
  · rw [if_pos hkind] at hplain hforced
    refine ⟨fun _ => Except.ok.inj (hforced.symm.trans hplain), fun hmem => ?_, hfits⟩
    rw [Node.kind, hkind] at hmem
    cases kind <;> cases hmem <;> contradiction
  · rw [if_neg hkind] at hplain hforced
    have hnone := Except.ok.inj hplain
    refine ⟨fun hne => absurd hnone.symm hne, fun hmem => ⟨hnone.symm, ?_⟩, hfits⟩
    rw [Node.kind] at hmem
    cases hjson : v.json with
    | null | array _ | object _ =>
        rw [hjson] at hforced
        cases kind <;> exact (Except.ok.inj hforced).symm
    | logical _ | number _ | string _ => simp [hjson, missingKinds, Json.kind] at hmem

theorem cellOf_string_integer {n : Int} (h : Spellable n) :
    cellOf .string true (.number (.int n)) = .ok (.text (.ofInt n)) ∧
      cellOf .number true (.string (.ofInt n)) = .ok (.int n) := by
  constructor
  · simp [cellOf_bool, convert, Json.kind, ScalarKind.kind, scalarText, Number.spelling,
      numeral_of_spellable h, Except.map]
  · simp [cellOf_bool, convert, Json.kind, ScalarKind.kind, scalarNumber, readNumber_ofInt h,
      Datum.ofNumber]

-- A logical is worth a number that counts as that logical.
theorem isZero_toInt (b : Bool) : (Number.int b.toInt).isZero = !b := by
  have hone : Binary64.unitsInOne ≠ 0 := Binary64.unitsInOne_pos.ne'
  have hlevel : (Number.int b.toInt).isZero =
      (Number.Level.at (b.toInt * Binary64.unitsInOne) == .at (0 * Binary64.unitsInOne)) := rfl
  rw [hlevel]
  generalize Binary64.unitsInOne = n at hone ⊢
  cases b <;> simp [hone]

theorem cellOf_logical (b : Bool) :
    cellOf .string true (.logical b) = .ok (.text (logicalSpelling b)) ∧
      cellOf .logical true (.string (logicalSpelling b)) = .ok (.bool b) ∧
      cellOf .number true (.logical b) = .ok (.int b.toInt) ∧
      cellOf .logical true (.number (.int b.toInt)) = .ok (.bool b) := by
  refine ⟨rfl, ?_, rfl, ?_⟩
  · simp [cellOf_bool, convert, Json.kind, ScalarKind.kind, scalarLogical,
      readLogical_logicalSpelling]
  · simp [cellOf_bool, convert, Json.kind, ScalarKind.kind, scalarLogical, isZero_toInt]

theorem lookup_withColumn {t u : JsonTable} {column : Datum} {type : ColumnType}
    {cells : List Datum} (h : t.withColumn column type cells = .ok u) :
    ∃ key, column = .text key ∧ u.table.columns.lookup key = some ⟨type, cells⟩ := by
  obtain ⟨table, htable, rfl⟩ := Except.map_eq_ok.mp h
  obtain ⟨key, rfl, -, hdocument, -, -, rfl⟩ := Table.withColumn_ok htable
  refine ⟨key, rfl, ?_⟩
  rw [Table.columns_put _ hdocument, Entries.lookup_put_self]

-- Conversions go through where a call without them does. They change no cell that has a value
-- without them and fill none for a null, an array or an object. Written as text, integers
-- and logicals are read again as what they were, and blanks around a text count for nothing.
theorem force_fills {t : JsonTable} (ht : t.Legible) (kind : ScalarKind) (column : Datum) :
    ((∃ u, t.appendValues kind column false = .ok u) ↔
      ∃ w, t.appendValues kind column true = .ok w) ∧
    (∀ u w, t.appendValues kind column false = .ok u → t.appendValues kind column true = .ok w →
      ∃ (key : Text) (plain forced : List Datum), column = .text key ∧
        u.table.columns.lookup key = some ⟨kind.columnType, plain⟩ ∧
        w.table.columns.lookup key = some ⟨kind.columnType, forced⟩ ∧
        plain.length = t.nodes.length ∧ forced.length = t.nodes.length ∧
        ∀ (i : Nat) v, t.nodes[i]? = some v → ∃ c f, plain[i]? = some c ∧ forced[i]? = some f ∧
          Filled kind v c f) ∧
    (∀ n, Spellable n → ∃ s, cellOf .string true (.number (.int n)) = .ok (.text s) ∧
      cellOf .number true (.string s) = .ok (.int n)) ∧
    (∀ b, (∃ s, cellOf .string true (.logical b) = .ok (.text s) ∧
        cellOf .logical true (.string s) = .ok (.bool b)) ∧
      ∃ n, cellOf .number true (.logical b) = .ok (.int n) ∧
        cellOf .logical true (.number (.int n)) = .ok (.bool b)) ∧
    ∀ before after s : Text, before.isBlank = true → after.isBlank = true →
      cellOf .number true (.string (before ++ s ++ after)) = cellOf .number true (.string s) ∧
      cellOf .logical true (.string (before ++ s ++ after)) = cellOf .logical true (.string s) := by
  refine ⟨?_, fun u w hu hw => ?_, fun n hn => ?_, fun b => ?_, fun before after s hb ha => ?_⟩
  · rcases writable_or_refused column with ⟨key, rfl, hkey⟩ | ⟨e, he⟩
    · have hgranted (force : Bool) : ∃ u, t.appendValues kind (.text key) force = .ok u := by
        obtain ⟨u, hu, -⟩ := shows_withColumn_map ht.aligned hkey fun v hv =>
          (scalarCell_ok kind force (ht.spellable v hv)).2
        exact ⟨u, (appendValues_of_legible ht kind _ force).trans hu⟩
      exact iff_of_true (hgranted false) (hgranted true)
    · have hrefused (force : Bool) : ¬∃ u, t.appendValues kind column force = .ok u := by
        rintro ⟨u, hu⟩
        rw [appendValues_of_legible ht, he] at hu
        cases hu
      exact iff_of_false (hrefused false) (hrefused true)
  · rw [appendValues_of_legible ht] at hu hw
    obtain ⟨key, rfl, hplain⟩ := lookup_withColumn hu
    obtain ⟨key', hkey, hforced⟩ := lookup_withColumn hw
    obtain rfl := Datum.text.inj hkey
    refine ⟨key, _, _, rfl, hplain, hforced, List.length_map _, List.length_map _, ?_⟩
    intro i v hv
    have hspellable := ht.spellable v (List.mem_of_getElem? hv)
    exact ⟨_, _, by rw [List.getElem?_map, hv]; rfl, by rw [List.getElem?_map, hv]; rfl,
      filled_scalarCell kind hspellable⟩
  · exact ⟨_, cellOf_string_integer hn⟩
  · obtain ⟨hstring, hread, hnumber, hlogical⟩ := cellOf_logical b
    exact ⟨⟨_, hstring, hread⟩, _, hnumber, hlogical⟩
  · obtain ⟨hnumber, hlogical⟩ := read_append hb ha s
    simp only [cellOf_bool, convert, scalarNumber, scalarLogical, hnumber, hlogical]
    exact ⟨rfl, rfl⟩

-- Of a logical, a word among blanks and an empty object, only the first has a cell as it is.
theorem force_fills_word :
    let t : JsonTable := ofDocuments [{ json := .logical false }, { json := .string " True\n" },
      { json := .object [] }]
    t.Legible ∧ Spellable (-12345678901234567890) ∧ Text.isBlank " " = true ∧
      (∃ w, t.appendValues .logical (.text "l") true = .ok w ∧
        w.table.columns.lookup ("l" : Text) =
          some ⟨.logical, [.bool false, .bool true, .none]⟩ ∧
        ∃ f, Filled .logical { json := .string " True\n" } .none f) ∧
      (∃ s, cellOf .string true (.number (.int (-12345678901234567890))) = .ok (.text s) ∧
        cellOf .number true (.string s) = .ok (.int (-12345678901234567890))) ∧
      cellOf .logical true (.string (" " ++ "True" ++ " ")) =
        cellOf .logical true (.string "True") := by
  intro t
  have hscalar {j : Json} (hbranches : j.branches = []) (h : ∀ n, j ≠ .number n) : j.Spellable := by
    refine .intro (fun n hn => absurd hn (h _)) fun b hb => ?_
    rw [hbranches] at hb
    cases hb
  have ht : t.Legible := ⟨rfl, List.forall_mem_cons.mpr ⟨hscalar rfl nofun,
    List.forall_mem_cons.mpr ⟨hscalar rfl nofun,
      List.forall_mem_singleton.mpr (hscalar rfl nofun)⟩⟩⟩
  have hn : Spellable (-12345678901234567890) := by decide
  have hblank : Text.isBlank " " = true := rfl
  obtain ⟨hcalls, hcells, hintegers, -, hblanks⟩ := force_fills ht .logical (.text "l")
  obtain ⟨w, hw⟩ := hcalls.mp ⟨_, rfl⟩
  obtain ⟨key, plain, forced, hkey, hplain, hforced, -, -, hrows⟩ := hcells _ w rfl hw
  obtain rfl := Datum.text.inj hkey
  obtain ⟨c, f, hc, -, hfilled⟩ := hrows 1 _ rfl
  obtain rfl := Except.ok.inj hw
  obtain rfl := (Column.mk.inj (Option.some.inj hplain)).2
  obtain rfl := Option.some.inj hc
  exact ⟨ht, hn, hblank, ⟨_, rfl, rfl, f, hfilled⟩, hintegers _ hn,
    (hblanks " " " " "True" hblank hblank).2⟩

end Unnest.JsonTable
