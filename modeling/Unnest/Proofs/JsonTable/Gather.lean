import Mathlib.Data.List.SplitBy
import Unnest.Proofs.Datum.Inverse
import Unnest.Proofs.Json.LeafCount
import Unnest.Proofs.JsonTable.Rows
import Unnest.Proofs.Table.Equality

namespace Unnest

-- What nothing comes from can be left out beforehand.
theorem flatMap_filter {l : List α} {p : α → Bool} {f : α → List β}
    (h : ∀ a ∈ l, p a = false → f a = []) : (l.filter p).flatMap f = l.flatMap f := by
  induction l with
  | nil => rfl
  | cons a l ih =>
      have hrest := ih fun b hb => h b (List.mem_cons_of_mem a hb)
      cases hp : p a with
      | true => rw [List.filter_cons_of_pos hp, List.flatMap_cons, List.flatMap_cons, hrest]
      | false =>
          rw [List.filter_cons_of_neg (Bool.not_eq_true _ ▸ hp), List.flatMap_cons,
            h a List.mem_cons_self hp, hrest]
          rfl

-- Cuts a list before each element that satisfies a condition.
def cutBefore (p : α → Bool) (l : List α) : List (List α) :=
  l.splitBy fun _ b => !p b

-- Pieces that begin with the only element of theirs that satisfies the condition are found again
-- when they are joined and cut.
theorem cutBefore_flatten {p : α → Bool} {pieces : List (List α)}
    (h : ∀ piece ∈ pieces, ∃ a rest, piece = a :: rest ∧ p a = true ∧ ∀ b ∈ rest, p b = false) :
    cutBefore p pieces.flatten = pieces := by
  refine List.splitBy_flatten ?_ ?_ ?_
  · intro hnil
    obtain ⟨a, rest, hpiece, -⟩ := h [] hnil
    cases hpiece
  · -- after its first element a piece is not cut
    intro piece hpiece
    obtain ⟨a, rest, rfl, -, hrest⟩ := h piece hpiece
    refine List.Pairwise.isChain (List.pairwise_cons.mpr ⟨fun b hb => ?_, ?_⟩)
    · simp [hrest b hb]
    · exact List.pairwise_of_forall_mem_list fun b _ c hc => by simp [hrest c hc]
  · -- and between two pieces there is a cut
    refine List.Pairwise.isChain (List.pairwise_of_forall_mem_list fun m hm n hn => ?_)
    obtain ⟨a, rest, rfl, -⟩ := h m hm
    obtain ⟨b, last, rfl, hb, -⟩ := h n hn
    exact ⟨List.cons_ne_nil _ _, List.cons_ne_nil _ _, by simp [hb]⟩

namespace Json

theorem eq_array_of_kind {j : Json} (h : j.kind = .array) : ∃ xs, j = .array xs := by
  cases j with
  | array xs => exact ⟨xs, rfl⟩
  | null | logical _ | number _ | string _ | object _ => cases h

theorem length_branches {j : Json} (h : j.kind = .array ∨ j.kind = .object) :
    j.branches.length = j.length := by
  cases j with
  | array xs => simp [branches, length]
  | object es => simp [branches, length]
  | null | logical _ | number _ | string _ => rcases h with h | h <;> cases h

end Json

namespace JsonTable

open Validation

-- The leaves and the rows that come from the values of a kind are neither lost nor doubled.
structure Conserves (kind : Kind) (t u : JsonTable) : Prop where
  leaves : (u.nodes.map fun w => w.json.leafCount).sum =
    ((t.nodes.filter fun v => v.kind = kind).map fun v => v.json.leafCount).sum
  rowCount : u.rowCount = ((t.nodes.filter fun v => v.kind = kind).map fun v => v.json.length).sum

-- A table whose values are those one step below the values of a kind.
theorem Conserves.of_branches {t u : JsonTable} {kind : Kind}
    (hkind : kind = .array ∨ kind = .object) (hu : u.Aligned)
    (h : u.nodes.map Node.json = (t.nodes.filter fun v => v.kind = kind).flatMap fun v =>
      v.json.branches.map Prod.snd) : Conserves kind t u := by
  have hwanted : ∀ v ∈ t.nodes.filter fun v => v.kind = kind,
      v.json.kind = kind := fun v hv => of_decide_eq_true (List.mem_filter.mp hv).2
  constructor
  · have hleaves : (u.nodes.map fun w => w.json.leafCount) =
        (u.nodes.map Node.json).map Json.leafCount := by rw [List.map_map]; rfl
    rw [hleaves, h, List.map_flatMap, List.flatMap_def, List.sum_flatten, List.map_map]
    refine congrArg List.sum (List.map_congr_left fun v hv => ?_)
    have hscalar : v.json.kind.isScalar = false := by
      rcases hkind with rfl | rfl <;> rw [hwanted v hv] <;> rfl
    rw [Json.leafCount_eq_sum hscalar, Function.comp_apply, List.map_map]
    rfl
  · have hrows : u.rowCount = (u.nodes.map Node.json).length := by
      rw [List.length_map]
      exact hu
    rw [hrows, h, List.length_flatMap]
    refine congrArg List.sum (List.map_congr_left fun v hv => ?_)
    rw [List.length_map, Json.length_branches]
    rwa [hwanted v hv]

-- What comes from a row holds the values one step below its own, if that is of the kind.
def GoesBelow (kind : Kind) (children : Row → List Row) : Prop :=
  ∀ r, (children r).map (fun s => s.2.json) =
    if r.2.kind = kind then r.2.json.branches.map Prod.snd else []

theorem goesBelow_elementRows (key : Text) : GoesBelow .array (elementRows key) := by
  rintro ⟨row, v⟩
  cases hjson : v.json with
  | array xs =>
      simp [elementRows, hjson, Node.kind, Json.kind, Json.branches, Node.below,
        Function.comp_def]
  | null | logical _ | number _ | string _ | object _ =>
      simp [elementRows, hjson, Node.kind, Json.kind]

theorem goesBelow_memberRows (key : Text) : GoesBelow .object (memberRows key) := by
  rintro ⟨row, v⟩
  cases hjson : v.json with
  | object es =>
      simp [memberRows, hjson, Node.kind, Json.kind, Json.branches, Node.below]
  | null | logical _ | number _ | string _ | array _ =>
      simp [memberRows, hjson, Node.kind, Json.kind]

theorem GoesBelow.conserves {kind : Kind} {children : Row → List Row}
    (h : GoesBelow kind children) (hkind : kind = .array ∨ kind = .object) {t u : JsonTable}
    {schema : List (Text × ColumnType)} (ht : t.Aligned)
    (hu : u.Shows schema (t.rows.flatMap children)) : Conserves kind t u := by
  refine .of_branches hkind hu.aligned ?_
  rw [map_nodes hu.aligned, hu.rows, List.map_flatMap, ← map_snd_rows ht, List.filter_map,
    List.flatMap_map]
  calc
    t.rows.flatMap (fun r => (children r).map fun s => s.2.json)
      = (t.rows.filter fun r => r.2.kind = kind).flatMap fun r =>
          (children r).map fun s => s.2.json :=
        (flatMap_filter fun r _ hr => (h r).trans (if_neg (of_decide_eq_false hr))).symm
    _ = (t.rows.filter fun r => r.2.kind = kind).flatMap fun r =>
          r.2.json.branches.map Prod.snd :=
        List.flatMap_congr fun r hr =>
          (h r).trans (if_pos (of_decide_eq_true (List.mem_filter.mp hr).2))

-- Complexity is counted by a loop that ends, and is the number of the paths that lead to a string,
-- a number or a logical. Gathering hands it down: what comes from the arrays, or from the objects,
-- has as much of it as they had, in as many rows as they are long.
theorem complexity_conserved :
    (∀ v : Node, v.json.Built →
      (Json.Tally.round^[v.json.size] (.start v.json) = ⟨v.json.leafCount, []⟩ ∧
        ∀ n < v.json.size, (Json.Tally.round^[n] (.start v.json)).pending ≠ []) ∧
      ∃ paths : List Path, paths.Nodup ∧ (∀ path, path ∈ paths ↔ ∃ w, v.walk? path = some w ∧
          (w.kind = .string ∨ w.kind = .number ∨ w.kind = .logical)) ∧
        paths.length = v.json.leafCount) ∧
    ∀ t : JsonTable, t.Aligned → ∀ key, Writable key →
      (∃ u, (t.gatherArray (.text key)).result = .ok u ∧ Conserves .array t u) ∧
      ∃ u, (t.gatherKeys (.text key)).result = .ok u ∧ Conserves .object t u := by
  refine ⟨fun v hv => ⟨v.json.tally_start, ?_⟩, fun t ht key hkey => ⟨?_, ?_⟩⟩
  · have hjson := Json.built_iff.mp hv
    exact ⟨v.json.scalarPaths, hjson.nodup_scalarPaths, fun _ => Node.mem_scalarPaths_iff hjson,
      v.json.length_scalarPaths⟩
  · obtain ⟨u, hu, hshows⟩ := shows_gatherArray ht hkey
    exact ⟨u, hu, (goesBelow_elementRows key).conserves (.inl rfl) ht hshows⟩
  · obtain ⟨u, hu, hshows⟩ := shows_gatherKeys ht hkey
    exact ⟨u, hu, (goesBelow_memberRows key).conserves (.inr rfl) ht hshows⟩

-- Four rounds for an object with an array of a null and a string. An empty array, a null and a
-- string next to it give no rows.
theorem complexity_conserved_mixed :
    ∃ v w : Node, v.json.Built ∧ v.json.leafCount = 1 ∧
      Json.Tally.round^[4] (.start v.json) = ⟨1, []⟩ ∧
      ∃ t : JsonTable, t.nodes = [v, w, .null, { json := .string "x" }, { json := .array [] }] ∧
        t.Aligned ∧ Writable "c" ∧
        (∃ u, (t.gatherArray (.text "c")).result = .ok u ∧ u.rowCount = 2 ∧
          (u.nodes.map fun x => x.json.leafCount).sum = 3) ∧
        ∃ u, (t.gatherKeys (.text "c")).result = .ok u ∧ u.rowCount = 1 ∧
          (u.nodes.map fun x => x.json.leafCount).sum = 1 := by
  let v : Node := { json := .object [("a", .array [.null, .string "s"])] }
  let w : Node := { json := .array [.array [.logical true, .string "y"], .string "z"] }
  have hproper : Datum.Proper (.dict [(.text "a", .list [.none, .text "s"])]) := by
    refine .intro (by decide) (List.forall_mem_singleton.mpr (.list ?_))
    exact List.forall_mem_cons.mpr ⟨.scalar rfl, List.forall_mem_singleton.mpr (.scalar rfl)⟩
  have hv : v.json.Built :=
    ⟨[], .dict [(.text "a", .list [.none, .text "s"])], hproper, rfl⟩
  let t := ofDocuments [v, w, .null, { json := .string "x" }, { json := .array [] }]
  have ht : t.Aligned := rfl
  have hc : Writable "c" := by decide
  obtain ⟨hbuilt, htables⟩ := complexity_conserved
  obtain ⟨⟨hends, -⟩, -⟩ := hbuilt v hv
  have hsize : v.json.size = 4 := by
    have hnull : Json.null.size = 1 := Json.size_scalar rfl
    have hstring : (Json.string "s").size = 1 := Json.size_scalar rfl
    simp [v, Json.size_object, Json.size_array, hnull, hstring]
  rw [hsize] at hends
  obtain ⟨⟨u, hu, hleaves, hrows⟩, x, hx, hleaves', hrows'⟩ := htables t ht _ hc
  exact ⟨v, w, hv, rfl, hends, t, rfl, ht, hc, ⟨u, hu, hrows, hleaves⟩, x, hx, hrows', hleaves'⟩

-- The rows that come from the array of a row: its elements in order, their positions in the column
-- that is written, and in every other column the cells of the row.
structure Piece (key : Text) (r : Row) (rows : List Row) : Prop where
  values : rows.map Prod.snd = r.2.elements.map Prod.snd
  positions : (rows.map fun s => s.1.lookup key) =
    (List.range' 1 r.2.json.length).map fun n => some (.ofNat n)
  others : ∀ s ∈ rows, (s.1.filter fun e => e.1 ≠ key) = r.1.filter fun e => e.1 ≠ key

theorem piece_elementRows (key : Text) {r : Row} (h : r.2.kind = .array) :
    Piece key r (elementRows key r) := by
  have helements : r.2.json.elements.length = r.2.json.length := by
    obtain ⟨xs, hxs⟩ := Json.eq_array_of_kind h
    rw [hxs]
    rfl
  rw [elementRows_eq]
  constructor
  · rw [List.map_map]
    rfl
  · rw [← helements, ← List.zipIdx_map_snd 1, List.zipIdx_succ, Node.elements]
    simp [Entries.lookup_put_self]
  · intro s hs
    obtain ⟨e, -, rfl⟩ := List.mem_map.mp hs
    exact filter_put_self key _ _

-- Whether a row is the first of its array.
def isFirst (key : Text) (s : Row) : Bool :=
  (s.1.lookup key).getD .none == .int 1

theorem isFirst_put (key : Text) (j : Nat) (row : List (Text × Datum)) (v : Node) :
    isFirst key (Entries.put key (.ofNat j) row, v) = decide (j = 1) := by
  rw [isFirst, Entries.lookup_put_self, Option.getD_some, Datum.ofNat, Datum.int_beq_int]
  exact decide_eq_decide.mpr Nat.cast_eq_one

theorem elementRows_eq_cons (key : Text) {r : Row} (hkind : r.2.kind = .array)
    (hlength : r.2.json.length ≠ 0) :
    ∃ s rest, elementRows key r = s :: rest ∧ isFirst key s = true ∧
      ∀ s' ∈ rest, isFirst key s' = false := by
  obtain ⟨xs, hxs⟩ := Json.eq_array_of_kind hkind
  cases xs with
  | nil => exact absurd (congrArg Json.length hxs) hlength
  | cons x xs =>
      refine ⟨_, _, by rw [elementRows, hxs]; rfl, isFirst_put .., fun s hs => ?_⟩
      obtain ⟨⟨y, j⟩, hj, rfl⟩ := List.mem_map.mp hs
      have hle := List.le_snd_of_mem_zipIdx hj
      rw [isFirst_put, decide_eq_false_iff_not]
      exact Nat.ne_of_gt hle

theorem elementRows_eq_nil (key : Text) {r : Row}
    (h : ¬(r.2.kind = .array ∧ r.2.json.length ≠ 0)) : elementRows key r = [] := by
  obtain ⟨row, v⟩ := r
  cases hjson : v.json with
  | array xs =>
      have hlength : v.json.length = 0 :=
        not_not.mp fun hne => h ⟨congrArg Json.kind hjson, hne⟩
      rw [hjson] at hlength
      obtain rfl := List.eq_nil_of_length_eq_zero hlength
      rw [elementRows, hjson]
      rfl
  | null | logical _ | number _ | string _ | object _ => simp [elementRows, hjson]

-- Where the position is one, the gathered rows can be cut into those of each array that is not
-- empty, in order; what gives no rows leaves no trace between them.
theorem gathered_pieces {t : JsonTable} (ht : t.Aligned) {key : Text} (hkey : Writable key) :
    ∃ u, (t.gatherArray (.text key)).result = .ok u ∧ u.Aligned ∧
      List.Forall₂ (Piece key) (t.rows.filter fun r => r.2.kind = .array ∧ r.2.json.length ≠ 0)
        (cutBefore (isFirst key) u.rows) := by
  obtain ⟨u, hu, haligned, -, hrows⟩ := shows_gatherArray ht hkey
  refine ⟨u, hu, haligned, ?_⟩
  have harray : ∀ r ∈ t.rows.filter fun r => r.2.kind = .array ∧ r.2.json.length ≠ 0,
      r.2.kind = .array ∧ r.2.json.length ≠ 0 := fun r hr =>
    of_decide_eq_true (List.mem_filter.mp hr).2
  have hrest : ∀ r ∈ t.rows, decide (r.2.kind = .array ∧ r.2.json.length ≠ 0) = false →
      elementRows key r = [] := fun r _ hr => elementRows_eq_nil key (of_decide_eq_false hr)
  rw [hrows, ← flatMap_filter hrest, List.flatMap_def, cutBefore_flatten]
  · rw [List.forall₂_map_right_iff, List.forall₂_same]
    exact fun r hr => piece_elementRows key (harray r hr).1
  · refine List.forall_mem_map.mpr fun r hr => ?_
    exact elementRows_eq_cons key (harray r hr).1 (harray r hr).2

-- An empty array, a null and a string stand between two arrays, and the column is there already.
theorem gathered_pieces_overwritten :
    ∃ t : JsonTable, t.Aligned ∧ Writable "i" ∧ t.table.column (.text "i") =
        .ok ⟨.integer, [.int 1, .int 1, .none, .int 1, .int 9]⟩ ∧
      ∃ u first last, (t.gatherArray (.text "i")).result = .ok u ∧
        cutBefore (isFirst "i") u.rows = [first, last] ∧
        first.map Prod.snd = [{ json := .null, path := [.index 1] },
          { json := .array [.logical true], path := [.index 2] }] ∧
        (first.map fun s => s.1.lookup ("i" : Text)) = [some (.int 1), some (.int 2)] ∧
        last.map Prod.snd = [{ json := .string "x", path := [.index 1] }] ∧
        ∀ s ∈ last, (s.1.filter fun e => e.1 ≠ ("i" : Text)) =
          [(documentColumn, .int 5), ("n", .text "q")] := by
  let t : JsonTable :=
    ⟨⟨[1, 2, 3, 4, 5], [("i", ⟨.integer, [.int 1, .int 1, .none, .int 1, .int 9]⟩),
        ("n", ⟨.string, [.text "p", .none, .none, .none, .text "q"]⟩)]⟩,
      [{ json := .array [.null, .array [.logical true]] }, { json := .array [] }, .null,
        { json := .string "s" }, { json := .array [.string "x"] }]⟩
  have ht : t.Aligned := rfl
  have hi : Writable "i" := by decide
  obtain ⟨u, hu, -, hpieces⟩ := gathered_pieces ht hi
  obtain ⟨first, _, hfirst, hrest, hcut⟩ := List.forall₂_cons_left_iff.mp hpieces
  obtain ⟨last, _, hlast, hnone, rfl⟩ := List.forall₂_cons_left_iff.mp hrest
  obtain rfl := List.forall₂_nil_left_iff.mp hnone
  exact ⟨t, ht, hi, rfl, u, first, last, hu, hcut, hfirst.values, hfirst.positions, hlast.values,
    hlast.others⟩

end JsonTable

end Unnest
