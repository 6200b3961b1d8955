import Unnest.Proofs.JsonTable.SpreadAll

namespace Unnest

theorem Number.spelling_eq_error {n : Number} {e : Failure} (h : n.spelling = .error e) :
    e = .longNumeral none := by
  cases n with
  | int n => exact numeral_eq_error h
  | real x => cases h

theorem Json.isLeaf_cases {x : Json} (h : x.isLeaf = true) :
    x.kind = .null ∨ ∃ kind : ScalarKind, x.kind = kind.kind := by
  cases x with
  | null => exact .inl rfl
  | logical b => exact .inr ⟨.logical, rfl⟩
  | number n => exact .inr ⟨.number, rfl⟩
  | string t => exact .inr ⟨.string, rfl⟩
  | array xs | object es => cases h

theorem Json.eq_null_of_kind {x : Json} (h : x.kind = .null) : x = .null := by
  cases x with
  | null => rfl
  | logical _ | number _ | string _ | array _ | object _ => cases h

theorem ScalarKind.kind_injective {kind other : ScalarKind} (h : kind.kind = other.kind) :
    kind = other := by
  rw [← Option.some.injEq, ← ofKind?_kind, h, ofKind?_kind]

namespace JsonTable

-- The value of one name in each row, if the row has one.
variable {values : List (Option Json)} {kind : ScalarKind}

-- Leaving nulls aside, there are values and all of them are of one kind.
structure Unanimous (values : List (Option Json)) (kind : ScalarKind) : Prop where
  found : ∃ x, some x ∈ values ∧ x.kind = kind.kind
  agreed : ∀ x, some x ∈ values → x.kind = .null ∨ x.kind = kind.kind

theorem Unanimous.kind_of_mem (h : Unanimous values kind) {x : Json} (hx : some x ∈ values)
    {other : ScalarKind} (hother : x.kind = other.kind) : other = kind := by
  rcases h.agreed x hx with hnull | hkind
  · rw [hnull] at hother
    cases other <;> cases hother
  · exact ScalarKind.kind_injective (hother.symm.trans hkind)

theorem Unanimous.eq {other : ScalarKind} (h : Unanimous values kind)
    (hother : Unanimous values other) : kind = other := by
  obtain ⟨x, hx, hkind⟩ := h.found
  exact hother.kind_of_mem hx hkind

-- A value as text: a string stands for itself, a number or a logical is spelled as in JSON, and a
-- null is missing.
inductive StoredAsText : Option Json → Datum → Prop
  | absent : StoredAsText none .none
  | null : StoredAsText (some .null) .none
  | string (t : Text) : StoredAsText (some (.string t)) (.text t)
  | logical (b : Bool) : StoredAsText (some (.logical b)) (.text (Json.logicalSpelling b))
  | number {n : Number} {t : Text} : n.spelling = .ok t → StoredAsText (some (.number n)) (.text t)

-- The column that values make up: of their kind if they are of one kind, and of texts otherwise.
inductive Pooled (values : List (Option Json)) : Column → Prop
  | alike {kind : ScalarKind} : Unanimous values kind →
      Pooled values ⟨kind.columnType, values.map fun value => value.elim .none Json.toDatum⟩
  | mixed {cells : List Datum} : (∀ kind, ¬Unanimous values kind) →
      List.Forall₂ StoredAsText values cells → Pooled values ⟨.string, cells⟩

-- Either the values are of one kind and need no spelling, or all numbers among them have one.
def Spelled (values : List (Option Json)) : Prop :=
  (∃ kind, Unanimous values kind) ∨
    ∀ n : Number, some (.number n) ∈ values → ∃ t, n.spelling = .ok t

theorem rightUnique_storedAsText : Relator.RightUnique StoredAsText := by
  intro value d e h hother
  cases h with
  | absent | null | string _ | logical _ =>
      cases hother
      rfl
  | number ht =>
      cases hother with
      | number ht' => exact congrArg Datum.text (Except.ok.inj (ht.symm.trans ht'))

theorem Pooled.eq {c d : Column} (h : Pooled values c) (hother : Pooled values d) : c = d := by
  cases h with
  | alike h =>
      cases hother with
      | alike h' => rw [h.eq h']
      | mixed hnone _ => exact absurd h (hnone _)
  | mixed hnone hcells =>
      cases hother with
      | alike h' => exact absurd h' (hnone _)
      | mixed _ hcells' =>
          rw [List.right_unique_forall₂' rightUnique_storedAsText hcells hcells']

theorem Pooled.length {c : Column} (h : Pooled values c) : c.cells.length = values.length := by
  cases h with
  | alike _ => exact List.length_map _
  | mixed _ hcells => exact hcells.length_eq.symm

theorem StoredAsText.fits {value : Option Json} {d : Datum} (h : StoredAsText value d) :
    ColumnType.string.Fits d := by
  cases h with
  | absent | null => exact .inl rfl
  | string _ | logical _ | number _ => exact .inr rfl

theorem Pooled.fits {c : Column} (h : Pooled values c) : ∀ d ∈ c.cells, c.type.Fits d := by
  cases h with
  | @alike kind h =>
      intro d hd
      obtain ⟨value, hvalue, rfl⟩ := List.mem_map.mp hd
      cases value with
      | none => exact .inl rfl
      | some x =>
          rcases h.agreed x hvalue with hnull | hkind
          · exact .inl (Json.eq_null_of_kind hnull ▸ rfl)
          · exact Json.toDatum_fits hkind
  | mixed _ hcells =>
      have hfits := hcells.flip.imp fun d value h => And.intro (StoredAsText.fits h) h
      exact ((List.forall₂_and_left _ _).mp hfits).1

-- The kinds that come up among values, in the order of their names.
def kindsAmong (values : List (Option Json)) : List ScalarKind :=
  [ScalarKind.logical, .number, .string].filter fun kind =>
    values.any fun value => value.any (·.kind == kind.kind)

theorem mem_kindsAmong_iff :
    kind ∈ kindsAmong values ↔ ∃ x, some x ∈ values ∧ x.kind = kind.kind := by
  have hall : kind ∈ [ScalarKind.logical, .number, .string] := by cases kind <;> decide
  simp [kindsAmong, hall, Option.any_eq_true]

theorem kindsAmong_eq_singleton_iff (hleaf : ∀ x, some x ∈ values → x.isLeaf = true) :
    kindsAmong values = [kind] ↔ Unanimous values kind := by
  have hnodup : (kindsAmong values).Nodup := List.Nodup.filter _ (by decide)
  constructor
  · intro h
    have hmem {other : ScalarKind} : other ∈ kindsAmong values ↔ other = kind := by
      rw [h, List.mem_singleton]
    refine ⟨mem_kindsAmong_iff.mp (hmem.mpr rfl), fun x hx => ?_⟩
    refine (Json.isLeaf_cases (hleaf x hx)).imp_right fun ⟨other, hother⟩ => ?_
    rw [← hmem.mp (mem_kindsAmong_iff.mpr ⟨x, hx, hother⟩), hother]
  · intro h
    refine List.perm_singleton.mp ((List.perm_ext_iff_of_nodup hnodup (by simp)).mpr fun other => ?_)
    rw [mem_kindsAmong_iff, List.mem_singleton]
    refine ⟨fun hfound => ?_, fun heq => heq ▸ h.found⟩
    obtain ⟨x, hx, hother⟩ := hfound
    exact h.kind_of_mem hx hother

theorem spreadColumn_alike (h : kindsAmong values = [kind]) :
    (spreadColumn values).2 = (kind.columnType,
      values.mapM fun value => value.elim (.ok .none) (cellOf kind false)) := by
  unfold spreadColumn
  rw [← kindsAmong]
  simp only [h]
  congr 2
  funext value
  cases value <;> rfl

theorem spreadColumn_mixed (h : ∀ kind, kindsAmong values ≠ [kind]) :
    (spreadColumn values).2 = (.string,
      values.mapM fun value => value.elim (.ok .none) (cellOf .string true)) := by
  unfold spreadColumn
  rw [← kindsAmong]
  dsimp only
  split
  · next kind hkinds => exact absurd hkinds (h kind)
  · dsimp only
    congr 2
    funext value
    cases value <;> rfl

theorem cellOf_alike (h : Unanimous values kind) :
    (values.mapM fun value => value.elim (.ok .none) (cellOf kind false)) =
      .ok (values.map fun value => value.elim .none Json.toDatum) := by
  rw [Except.mapM_eq_ok_iff, List.forall₂_map_right_iff, List.forall₂_same]
  intro value hvalue
  cases value with
  | none => rfl
  | some x =>
      rw [Option.elim_some, Option.elim_some]
      rcases h.agreed x hvalue with hnull | hkind
      · obtain rfl := Json.eq_null_of_kind hnull
        cases kind <;> rfl
      · exact if_pos hkind

-- Only a number can lack a spelling.
theorem stored_or_unspelled {value : Option Json} (hleaf : ∀ x, value = some x → x.isLeaf = true) :
    (∃ d, value.elim (.ok .none) (cellOf .string true) = .ok d ∧ StoredAsText value d) ∨
      ∃ n : Number, value = some (.number n) ∧ (∀ t, n.spelling ≠ .ok t) ∧
        value.elim (.ok .none) (cellOf .string true) = .error (.longNumeral none) := by
  cases value with
  | none => exact .inl ⟨_, rfl, .absent⟩
  | some x =>
      cases x with
      | null => exact .inl ⟨_, rfl, .null⟩
      | logical b => exact .inl ⟨_, rfl, .logical b⟩
      | string t => exact .inl ⟨_, rfl, .string t⟩
      | array xs | object es => cases hleaf _ rfl
      | number n =>
          have hcell : cellOf .string true (.number n) =
              (n.spelling.map some).map fun t => (t.map Datum.text).getD .none := rfl
          rw [Option.elim_some, hcell]
          cases hspelling : n.spelling with
          | ok t => exact .inl ⟨_, rfl, .number hspelling⟩
          | error e =>
              obtain rfl := Number.spelling_eq_error hspelling
              refine .inr ⟨n, rfl, fun t ht => ?_, rfl⟩
              cases hspelling.symm.trans ht

theorem exists_stored (hleaf : ∀ x, some x ∈ values → x.isLeaf = true)
    (hspelled : ∀ n : Number, some (.number n) ∈ values → ∃ t, n.spelling = .ok t) :
    ∃ cells, List.Forall₂ StoredAsText values cells ∧
      (values.mapM fun value => value.elim (.ok .none) (cellOf .string true)) = .ok cells := by
  have hstored : ∀ value ∈ values, ∃ d,
      value.elim (.ok .none) (cellOf .string true) = .ok d ∧ StoredAsText value d := by
    intro value hmem
    rcases stored_or_unspelled fun x hx => hleaf x (hx ▸ hmem) with hstored | ⟨n, rfl, hnone, -⟩
    · exact hstored
    · obtain ⟨t, ht⟩ := hspelled n hmem
      exact absurd ht (hnone t)
  obtain ⟨cells, hcells⟩ := Except.exists_mapM_eq_ok fun value hmem =>
    (hstored value hmem).imp fun d hd => hd.1
  have hpaired := (List.forall₂_and_left _ _).mpr ⟨hstored, Except.mapM_eq_ok_iff.mp hcells⟩
  refine ⟨cells, hpaired.imp ?_, hcells⟩
  rintro value d ⟨⟨e, he, hstored⟩, hd⟩
  exact Except.ok.inj (he.symm.trans hd) ▸ hstored

theorem mapM_unspelled (hleaf : ∀ x, some x ∈ values → x.isLeaf = true) {n : Number}
    (hmem : some (.number n) ∈ values) (hnone : ¬∃ t, n.spelling = .ok t) :
    (values.mapM fun value => value.elim (.ok .none) (cellOf .string true)) =
      .error (.longNumeral none) := by
  have hcell : ∀ value ∈ values, (∃ d, value.elim (.ok .none) (cellOf .string true) = .ok d) ∨
      value.elim (.ok .none) (cellOf .string true) = .error (.longNumeral none) := by
    intro value hvalue
    rcases stored_or_unspelled fun x hx => hleaf x (hx ▸ hvalue) with ⟨d, hd, -⟩ | ⟨-, -, -, hfails⟩
    · exact .inl ⟨d, hd⟩
    · exact .inr hfails
  refine Except.mapM_eq_error hcell hmem ?_
  rcases stored_or_unspelled fun x hx => hleaf x (hx ▸ hmem) with ⟨d, -, hstored⟩ | ⟨-, -, -, hfails⟩
  · cases hstored with
    | number ht => exact absurd ⟨_, ht⟩ hnone
  · exact hfails

-- Values of one name make up a column, unless a number among them has to be spelled and cannot be.
theorem pooled_or_refused (hleaf : ∀ x, some x ∈ values → x.isLeaf = true) :
    (Spelled values ∧ ∃ c, Pooled values c ∧ (spreadColumn values).2 = (c.type, .ok c.cells)) ∨
      ¬Spelled values ∧ (spreadColumn values).2.2 = .error (.longNumeral none) := by
  by_cases hkinds : ∃ kind, Unanimous values kind
  · obtain ⟨kind, hkind⟩ := hkinds
    refine .inl ⟨.inl ⟨kind, hkind⟩, _, .alike hkind, ?_⟩
    rw [spreadColumn_alike ((kindsAmong_eq_singleton_iff hleaf).mpr hkind), cellOf_alike hkind]
  · have hmixed : ∀ kind, ¬Unanimous values kind := not_exists.mp hkinds
    rw [spreadColumn_mixed fun kind heq =>
      hmixed kind ((kindsAmong_eq_singleton_iff hleaf).mp heq)]
    by_cases hspelled : ∀ n : Number, some (.number n) ∈ values → ∃ t, n.spelling = .ok t
    · obtain ⟨cells, hstored, hcells⟩ := exists_stored hleaf hspelled
      exact .inl ⟨.inr hspelled, _, .mixed hmixed hstored, by rw [hcells]⟩
    · obtain ⟨n, hn⟩ := not_forall.mp hspelled
      obtain ⟨hmem, hnone⟩ := Classical.not_imp.mp hn
      exact .inr ⟨fun h => h.elim hkinds hspelled, mapM_unspelled hleaf hmem hnone⟩

end JsonTable

end Unnest
