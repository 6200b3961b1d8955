import Unnest.Proofs.JsonTable.Descriptor
import Unnest.Proofs.JsonTable.Spread

namespace Unnest

theorem Json.mem_scalarsNamed_iff {separator name : Text} {j x : Json} (h : j.WellFormed) :
    (name, x) ∈ j.scalarsNamed separator ↔ name ≠ [] ∧ j.kind = .object ∧
      ∃ keys : List Text, Text.join separator keys = name ∧
        j.walk? (keys.map .key) = some x ∧ x.isLeaf = true := by
  unfold scalarsNamed
  split
  · next hobject =>
    simp only [List.mem_filter, List.mem_map, Prod.exists, mem_keyedLeaves_iff h, Prod.mk.injEq,
      Bool.not_eq_true', List.isEmpty_eq_false_iff, hobject, true_and]
    constructor
    · rintro ⟨⟨keys, y, hleaf, rfl, rfl⟩, hname⟩
      exact ⟨hname, keys, rfl, hleaf⟩
    · rintro ⟨hname, keys, rfl, hleaf⟩
      exact ⟨⟨keys, x, hleaf, rfl, rfl⟩, hname⟩
  · next hother => simp [hother]

theorem Json.isLeaf_of_kind {x : Json} {kind : ScalarKind} (h : x.kind = kind.kind) :
    x.isLeaf = true := by
  rw [isLeaf, h]
  cases kind <;> rfl

-- Keys lead nowhere but from an object.
theorem Json.kind_of_walk? {j x : Json} {keys : List Text} (hkeys : keys ≠ [])
    (h : j.walk? (keys.map .key) = some x) : j.kind = .object := by
  obtain ⟨k, ks, rfl⟩ := List.exists_cons_of_ne_nil hkeys
  obtain ⟨y, hy, -⟩ := Option.bind_eq_some_iff.mp h
  cases j with
  | object es => rfl
  | null | logical _ | number _ | string _ | array _ => cases hy

namespace JsonTable

open Validation

variable {t u : JsonTable} {separator name : Text} {keys : List Text} {kind : ScalarKind}

-- Some object has a leaf at the end of the keys.
def Reaches (t : JsonTable) (keys : List Text) : Prop :=
  ∃ v ∈ t.nodes, v.json.kind = .object ∧
    ∃ x, v.json.walk? (keys.map .key) = some x ∧ x.isLeaf = true

-- The leaves at the end of the keys, nulls aside, are there and all of one kind.
structure OfKind (t : JsonTable) (keys : List Text) (kind : ScalarKind) : Prop where
  found : ∃ v ∈ t.nodes, v.json.kind = .object ∧
    ∃ x, v.json.walk? (keys.map .key) = some x ∧ x.kind = kind.kind
  agreed : ∀ v ∈ t.nodes, v.json.kind = .object → ∀ x, v.json.walk? (keys.map .key) = some x →
    x.isLeaf = true → x.kind = .null ∨ x.kind = kind.kind

-- A name that the keys give, and no others that lead to a leaf.
structure SoleKeys (t : JsonTable) (separator name : Text) (keys : List Text) : Prop where
  ne_nil : name ≠ []
  join : Text.join separator keys = name
  only : ∀ other, t.Reaches other → Text.join separator other = name → other = keys

theorem SoleKeys.keys_ne_nil (h : t.SoleKeys separator name keys) : keys ≠ [] := by
  rintro rfl
  exact h.ne_nil h.join.symm

-- Under such a name there is what the keys lead to.
theorem SoleKeys.lookup_iff (hsole : t.SoleKeys separator name keys)
    (hwf : ∀ v ∈ t.nodes, v.json.WellFormed) {v : Node} (hv : v ∈ t.nodes) {x : Json} :
    (v.json.scalarsNamed separator).reverse.lookup name = some x ↔
      v.json.kind = .object ∧ v.json.walk? (keys.map .key) = some x ∧ x.isLeaf = true := by
  have hmem {y : Json} : (name, y) ∈ (v.json.scalarsNamed separator).reverse ↔
      v.json.kind = .object ∧ v.json.walk? (keys.map .key) = some y ∧ y.isLeaf = true := by
    rw [List.mem_reverse, Json.mem_scalarsNamed_iff (hwf v hv)]
    constructor
    · rintro ⟨-, hobject, other, hother, hleaf⟩
      obtain rfl := hsole.only other ⟨v, hv, hobject, y, hleaf⟩ hother
      exact ⟨hobject, hleaf⟩
    · rintro ⟨hobject, hleaf⟩
      exact ⟨hsole.ne_nil, hobject, keys, hsole.join, hleaf⟩
  rw [Entries.lookup_eq_some_iff_of_unique, hmem]
  intro y z hy hz
  exact Option.some.inj ((hmem.mp hy).2.1.symm.trans (hmem.mp hz).2.1)

theorem resolve_getD_eq (kind : ScalarKind) (path : Path) (v : Node) :
    ((⟨kind, path⟩ : Descriptor).resolve v).getD .none =
      (v.json.walk? path).elim .none fun x => if x.kind = kind.kind then x.toDatum else .none := by
  cases hwalk : v.json.walk? path with
  | none => simp only [Descriptor.resolve, Descriptor.locate, Node.walk?_eq_map, hwalk]; rfl
  | some x =>
      rw [resolve_getD kind (by rw [Node.walk?_eq_map, hwalk]; rfl)]
      rfl

-- In every row the scalar of the name is what the descriptor resolves to, also where the keys lead
-- to a null or a container, or nowhere.
theorem SoleKeys.resolve_eq (hsole : t.SoleKeys separator name keys)
    (hwf : ∀ v ∈ t.nodes, v.json.WellFormed) (hkind : t.OfKind keys kind) {v : Node}
    (hv : v ∈ t.nodes) :
    ((v.json.scalarsNamed separator).reverse.lookup name).elim .none Json.toDatum =
      ((⟨kind, keys.map .key⟩ : Descriptor).resolve v).getD .none := by
  have hfound {x : Json} := hsole.lookup_iff (x := x) hwf hv
  rw [resolve_getD_eq]
  cases hlookup : (v.json.scalarsNamed separator).reverse.lookup name with
  | some x =>
      obtain ⟨hobject, hwalk, hleaf⟩ := hfound.mp hlookup
      rw [hwalk, Option.elim_some, Option.elim_some]
      rcases hkind.agreed v hv hobject x hwalk hleaf with hnull | hsame
      · obtain rfl := Json.eq_null_of_kind hnull
        cases kind <;> rfl
      · rw [if_pos hsame]
  | none =>
      cases hwalk : v.json.walk? (keys.map .key) with
      | none => rfl
      | some x =>
          -- a scalar would have been found
          have hother : x.kind ≠ kind.kind := by
            intro hsame
            have hsome := hfound.mpr
              ⟨Json.kind_of_walk? hsole.keys_ne_nil hwalk, hwalk, Json.isLeaf_of_kind hsame⟩
            cases hlookup.symm.trans hsome
          rw [Option.elim_some, if_neg hother]
          rfl

theorem SoleKeys.unanimous (hsole : t.SoleKeys separator name keys)
    (hwf : ∀ v ∈ t.nodes, v.json.WellFormed) (h : t.OfKind keys kind) :
    Unanimous (t.scalars separator name) kind := by
  constructor
  · obtain ⟨v, hv, hobject, x, hwalk, hkind⟩ := h.found
    have hlookup := (hsole.lookup_iff hwf hv).mpr ⟨hobject, hwalk, Json.isLeaf_of_kind hkind⟩
    exact ⟨x, List.mem_map.mpr ⟨v, hv, hlookup⟩, hkind⟩
  · intro x hx
    obtain ⟨v, hv, hlookup⟩ := List.mem_map.mp hx
    obtain ⟨hobject, hwalk, hleaf⟩ := (hsole.lookup_iff hwf hv).mp hlookup
    exact h.agreed v hv hobject x hwalk hleaf

theorem result_make_keys (kind : ScalarKind) (hkeys : keys ≠ []) :
    (Descriptor.make kind.kind (keys.map .text)).result = .ok ⟨kind, keys.map .key⟩ := by
  have hwarnable : Path.Warnable (keys.map .key) := by
    intro i hi
    obtain ⟨k, -, hk⟩ := List.mem_map.mp hi
    cases hk
  have hpath : keys.map Datum.text = (keys.map Step.key).map .ofStep := by
    rw [List.map_map]
    rfl
  rw [hpath, Descriptor.result_make_path kind (by simpa using hkeys) hwarnable]

-- Scalars that only one sequence of keys leads to, and that are of one kind, are spread just as a
-- descriptor of this kind spreads them with these keys.
theorem spreadAll_eq_spreadValues (ht : t.Aligned) (hwf : ∀ v ∈ t.nodes, v.json.WellFormed)
    (hseparator : separator ≠ []) (hu : (t.spreadAll (.text separator)).result = .ok u)
    (hname : name ∈ t.scalarNames separator)
    (hkeys : ∀ other, t.Reaches other ∧ Text.join separator other = name ↔ other = keys)
    (hkind : t.OfKind keys kind) :
    (Descriptor.make kind.kind (keys.map .text)).result = .ok ⟨kind, keys.map .key⟩ ∧
      ∃ w c, (t.spreadValues [(name, .descriptor ⟨kind, keys.map .key⟩)]).result = .ok w ∧
        u.table.columns.lookup name = some c ∧ w.table.columns.lookup name = some c ∧
        c.type = kind.columnType ∧
        c.cells = t.nodes.map fun v =>
          ((⟨kind, keys.map .key⟩ : Descriptor).resolve v).getD .none := by
  have hsole : t.SoleKeys separator name keys :=
    ⟨ne_nil_of_mem_scalarNames hname, ((hkeys keys).mpr rfl).2,
      fun other hreaches hother => (hkeys other).mp ⟨hreaches, hother⟩⟩
  refine ⟨result_make_keys kind hsole.keys_ne_nil, ?_⟩
  rcases spreadAll_cases ht hseparator with ⟨u', hu', hspread, hdocument, -⟩ | ⟨e, he, -⟩
  · obtain rfl := Except.ok.inj (hu.symm.trans hu')
    obtain ⟨c, hc, hpooled⟩ := hspread.written name hname
    have hwritable : Writable name := ⟨hsole.ne_nil, fun heq => hdocument (heq ▸ hname)⟩
    obtain rfl := hpooled.eq (.alike (hsole.unanimous hwf hkind))
    have hcells : (t.scalars separator name).map (fun value => value.elim .none Json.toDatum) =
        t.nodes.map fun v => ((⟨kind, keys.map .key⟩ : Descriptor).resolve v).getD .none := by
      rw [scalars, List.map_map]
      exact List.map_congr_left fun v hv => hsole.resolve_eq hwf hkind hv
    rw [hcells] at hc
    let d : Descriptor := ⟨kind, keys.map .key⟩
    have hnodup : ([(name, d)].map Prod.fst).Nodup := by simp
    obtain ⟨w, hw, hwritten, -⟩ := foldlM_spread hnodup (by simpa using hwritable) ht
    have hresult := result_spreadValues (fieldDescriptors_descriptor [(name, d)]) t
    exact ⟨w, _, hresult.trans hw, hc, hwritten _ List.mem_cons_self, rfl, rfl⟩
  · cases hu.symm.trans he

-- The keys lead to a number, to a null, into an array and from no object at all.
theorem spreadAll_eq_spreadValues_ragged :
    ∃ t u w : JsonTable, t.rowCount = 4 ∧ t.Aligned ∧ (∀ v ∈ t.nodes, v.json.WellFormed) ∧
      (t.spreadAll (.text ".")).result = .ok u ∧
      (t.spreadValues [("a.b", .descriptor ⟨.number, [.key "a", .key "b"]⟩)]).result = .ok w ∧
      ∃ c, u.table.columns.lookup ("a.b" : Text) = some c ∧
        w.table.columns.lookup ("a.b" : Text) = some c ∧ c.type = .number ∧
        c.cells = [.int 1, .none, .none, .none] := by
  let t := ofDocuments [
    { json := .object [("a", .object [("b", .number (.int 1))])] },
    { json := .object [("a", .object [("b", .null)])] },
    { json := .object [("a", .array [])] },
    { json := .string "a" }]
  have ht : t.Aligned := rfl
  have hentry (k : Text) {j : Json} (hj : j.WellFormed) : (Json.object [(k, j)]).WellFormed :=
    .object (by simp) (List.forall_mem_singleton.mpr hj)
  have hwf : ∀ v ∈ t.nodes, v.json.WellFormed :=
    List.forall_mem_cons.mpr ⟨hentry _ (hentry _ (.scalar rfl rfl)),
      List.forall_mem_cons.mpr ⟨hentry _ (hentry _ (.scalar rfl rfl)),
        List.forall_mem_cons.mpr ⟨hentry _ (.array (List.forall_mem_nil _)),
          List.forall_mem_singleton.mpr (.scalar rfl rfl)⟩⟩⟩
  have hleaf {v : Node} (hv : v ∈ t.nodes) {other : List Text} {x : Json}
      (hx : v.json.walk? (other.map .key) = some x ∧ x.isLeaf = true) :
      (other, x) ∈ v.json.leaves [] := by
    rw [Json.leaves_eq]
    exact List.mem_map.mpr ⟨_, (Json.mem_keyedLeaves_iff (hwf v hv)).mpr hx, rfl⟩
  have hleaves : ∀ v ∈ t.nodes, v.json.kind = .object → ∀ e ∈ v.json.leaves [],
      e.1 = ["a", "b"] ∧ (e.2.kind = .null ∨ e.2.kind = .number) := by decide
  have hname : ("a.b" : Text) ∈ t.scalarNames "." := by
    rw [← spreadNames_eq]
    decide
  have hkeys : ∀ other, t.Reaches other ∧ Text.join "." other = "a.b" ↔ other = ["a", "b"] := by
    intro other
    constructor
    · rintro ⟨⟨v, hv, hobject, x, hx⟩, -⟩
      exact (hleaves v hv hobject _ (hleaf hv hx)).1
    · rintro rfl
      exact ⟨⟨_, List.mem_cons_self, rfl, _, rfl, rfl⟩, rfl⟩
  have hkind : t.OfKind ["a", "b"] .number :=
    ⟨⟨_, List.mem_cons_self, rfl, _, rfl, rfl⟩,
      fun v hv hobject x hx hkind => (hleaves v hv hobject _ (hleaf hv ⟨hx, hkind⟩)).2⟩
  obtain ⟨u, hu⟩ : ∃ u, (t.spreadAll (.text ".")).result = .ok u := ⟨_, rfl⟩
  have hseparator : ("." : Text) ≠ [] := by decide
  obtain ⟨-, w, c, hw, hc, hc', htype, hcells⟩ :=
    spreadAll_eq_spreadValues ht hwf hseparator hu hname hkeys hkind
  exact ⟨t, u, w, rfl, ht, hwf, hu, hw, c, hc, hc', htype, hcells⟩

end JsonTable

end Unnest
