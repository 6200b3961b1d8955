import Mathlib.Algebra.Ring.Int.Defs
import Mathlib.Algebra.Ring.Nat
import Unnest.Datum.Display
import Unnest.Proofs.Outcome

namespace Unnest

-- An integer with no more digits than can be written out.
def Spellable (n : Int) : Prop :=
  digitCount n.natAbs ≤ maxNumeralDigits

instance (n : Int) : Decidable (Spellable n) :=
  inferInstanceAs (Decidable (_ ≤ _))

theorem spellable_iff {n : Int} : Spellable n ↔ n.natAbs < 10 ^ maxNumeralDigits :=
  Nat.length_toDigits_le_iff (by decide) (by decide)

theorem not_spellable_pow {k : Nat} (h : maxNumeralDigits ≤ k) : ¬Spellable (10 ^ k) := by
  rw [spellable_iff, Int.natAbs_pow]
  exact Nat.not_lt.mpr (Nat.pow_le_pow_right (by decide) h)

theorem spellable_neg {n : Int} : Spellable (-n) ↔ Spellable n := by
  rw [Spellable, Spellable, Int.natAbs_neg]

theorem numeral_of_spellable {n : Int} (h : Spellable n) : numeral n = .ok (.ofInt n) :=
  if_neg (Nat.not_lt.mpr h)

theorem numeral_of_not_spellable {n : Int} (h : ¬Spellable n) :
    numeral n = .error (.longNumeral none) :=
  if_pos (Nat.lt_of_not_le h)

theorem numeral_eq_ok_iff {n : Int} {t : Text} :
    numeral n = .ok t ↔ Spellable n ∧ t = .ofInt n := by
  by_cases h : Spellable n
  · simp [numeral_of_spellable h, h, eq_comm]
  · simp [numeral_of_not_spellable h, h]

theorem numeral_eq_error {n : Int} {e : Failure} (h : numeral n = .error e) :
    e = .longNumeral none := by
  by_cases hn : Spellable n
  · cases (numeral_of_spellable hn).symm.trans h
  · exact (Except.error.inj ((numeral_of_not_spellable hn).symm.trans h)).symm

-- The integer that the spelling of a step shows.
def Step.integer? : Step → Option Int
  | .key _ => none
  | .index i => some i

namespace Datum

mutual

-- The integers that the spelling of a datum shows.
def integers : Datum → List Int
  | int n => [n]
  | machineInt n => [n]
  | list xs => integersOf xs
  | tuple xs => integersOf xs
  | dict es => integersOfEntries es
  | descriptor d => d.path.filterMap Step.integer?
  | _ => []
  termination_by structural d => d

def integersOf : List Datum → List Int
  | [] => []
  | x :: xs => x.integers ++ integersOf xs
  termination_by structural xs => xs

def integersOfEntries : List (Datum × Datum) → List Int
  | [] => []
  | (k, x) :: es => k.integers ++ x.integers ++ integersOfEntries es
  termination_by structural es => es

end

-- All the integers in a datum can be written out.
def Spellable (d : Datum) : Prop :=
  ∀ n ∈ d.integers, Unnest.Spellable n

instance (d : Datum) : Decidable d.Spellable :=
  inferInstanceAs (Decidable (∀ n ∈ d.integers, _))

theorem spellable_text (t : Text) : (text t).Spellable := by
  intro n hn
  cases hn

end Datum

theorem Step.quoted_ok {s : Step} (h : ∀ n ∈ s.integer?, Spellable n) : ∃ t, s.quoted = .ok t := by
  cases s with
  | key k => exact ⟨_, rfl⟩
  | index i => exact ⟨_, numeral_of_spellable (h i rfl)⟩

theorem Descriptor.quoted_ok {d : Descriptor}
    (h : ∀ n ∈ d.path.filterMap Step.integer?, Spellable n) : ∃ t, d.quoted = .ok t := by
  have hsteps : ∀ s ∈ d.path, ∃ t, s.quoted = .ok t := fun s hs =>
    s.quoted_ok fun n hn => h n (List.mem_filterMap.mpr ⟨s, hs, hn⟩)
  obtain ⟨steps, hquoted⟩ := Except.exists_mapM_eq_ok hsteps
  exact ⟨_, Except.bind_eq_ok.mpr ⟨steps, hquoted, rfl⟩⟩

theorem Descriptor.quoted_eq_error {d : Descriptor} {e : Failure} (h : d.quoted = .error e) :
    e = .longNumeral none := by
  obtain hsteps | ⟨_, -, hquoted⟩ := Except.bind_eq_error.mp h
  · obtain ⟨s, -, hs⟩ := Except.exists_of_mapM_eq_error hsteps
    cases s with
    | key k => cases hs
    | index i => exact numeral_eq_error hs
  · cases hquoted

namespace Datum

mutual

-- Nothing but an integer that is too long keeps a datum from being spelled.
theorem quoted_ok {d : Datum} (h : d.Spellable) : ∃ t, d.quoted = .ok t :=
  match d with
  | int n => ⟨_, numeral_of_spellable (h n List.mem_cons_self)⟩
  | machineInt n =>
      ⟨_, Except.map_eq_ok.mpr ⟨_, numeral_of_spellable (h n List.mem_cons_self), rfl⟩⟩
  | list xs => by
      obtain ⟨items, hitems⟩ := @quotedAll_ok xs h
      exact ⟨_, Except.map_eq_ok.mpr ⟨items, hitems, rfl⟩⟩
  | tuple xs => by
      obtain ⟨items, hitems⟩ := @quotedAll_ok xs h
      exact ⟨_, Except.map_eq_ok.mpr ⟨items, hitems, rfl⟩⟩
  | dict es => by
      obtain ⟨items, hitems⟩ := @quotedEntries_ok es h
      exact ⟨_, Except.map_eq_ok.mpr ⟨items, hitems, rfl⟩⟩
  | descriptor d => d.quoted_ok h
  | none | bool _ | float _ | text _ | kind _ | machineBool _ | foreign _ => ⟨_, rfl⟩

theorem quotedAll_ok {xs : List Datum} (h : ∀ n ∈ integersOf xs, Unnest.Spellable n) :
    ∃ ts, quotedAll xs = .ok ts :=
  match xs with
  | [] => ⟨[], rfl⟩
  | x :: xs => by
      obtain ⟨item, hitem⟩ := quoted_ok (d := x) fun n hn => h n (List.mem_append_left _ hn)
      obtain ⟨items, hitems⟩ := @quotedAll_ok xs fun n hn =>
        h n (List.mem_append_right _ hn)
      exact ⟨_, Except.bind_eq_ok.mpr ⟨item, hitem, Except.bind_eq_ok.mpr ⟨items, hitems, rfl⟩⟩⟩

theorem quotedEntries_ok {es : List (Datum × Datum)}
    (h : ∀ n ∈ integersOfEntries es, Unnest.Spellable n) : ∃ ts, quotedEntries es = .ok ts :=
  match es with
  | [] => ⟨[], rfl⟩
  | (k, x) :: es => by
      simp only [integersOfEntries, List.forall_mem_append] at h
      obtain ⟨⟨hk, hx⟩, hes⟩ := h
      obtain ⟨key, hkey⟩ := quoted_ok hk
      obtain ⟨item, hitem⟩ := quoted_ok hx
      obtain ⟨items, hitems⟩ := quotedEntries_ok hes
      exact ⟨_, Except.bind_eq_ok.mpr ⟨key, hkey, Except.bind_eq_ok.mpr ⟨item, hitem,
        Except.bind_eq_ok.mpr ⟨items, hitems, rfl⟩⟩⟩⟩

end

mutual

-- A datum that is not spelled has an integer that is too long.
theorem quoted_eq_error {d : Datum} {e : Failure} (h : d.quoted = .error e) :
    e = .longNumeral .none :=
  match d with
  | int _ => numeral_eq_error h
  | machineInt _ => numeral_eq_error (Except.map_eq_error.mp h)
  | list _ | tuple _ => quotedAll_eq_error (Except.map_eq_error.mp h)
  | dict _ => quotedEntries_eq_error (Except.map_eq_error.mp h)
  | descriptor _ => Descriptor.quoted_eq_error h
  | none | bool _ | float _ | text _ | kind _ | machineBool _ | foreign _ => nomatch h

theorem quotedAll_eq_error {xs : List Datum} {e : Failure} (h : quotedAll xs = .error e) :
    e = .longNumeral .none :=
  match xs with
  | [] => nomatch h
  | x :: xs => by
      obtain hx | ⟨_, -, h⟩ := Except.bind_eq_error.mp h
      · exact quoted_eq_error hx
      obtain hxs | ⟨_, -, h⟩ := Except.bind_eq_error.mp h
      · exact quotedAll_eq_error hxs
      · cases h

theorem quotedEntries_eq_error {es : List (Datum × Datum)} {e : Failure}
    (h : quotedEntries es = .error e) : e = .longNumeral .none :=
  match es with
  | [] => nomatch h
  | (k, x) :: es => by
      obtain hk | ⟨_, -, h⟩ := Except.bind_eq_error.mp h
      · exact quoted_eq_error hk
      obtain hx | ⟨_, -, h⟩ := Except.bind_eq_error.mp h
      · exact quoted_eq_error hx
      obtain hes | ⟨_, -, h⟩ := Except.bind_eq_error.mp h
      · exact quotedEntries_eq_error hes
      · cases h

end

theorem plain_ok {d : Datum} (h : d.Spellable) : ∃ t, d.plain = .ok t := by
  unfold plain
  split
  · exact ⟨_, rfl⟩
  · exact ⟨_, rfl⟩
  · next n => exact ⟨_, numeral_of_spellable (h n List.mem_cons_self)⟩
  · exact ⟨_, rfl⟩
  · exact quoted_ok h

end Datum

end Unnest
