import Unnest.Descriptor
import Unnest.Proofs.Datum.Display
import Unnest.Proofs.Validation

namespace Unnest

theorem ScalarKind.ofKind?_kind (kind : ScalarKind) : ofKind? kind.kind = some kind := by
  cases kind <;> rfl

theorem Datum.step?_ofStep (s : Step) : (ofStep s).step? = some s := by
  cases s <;> rfl

-- A step of a path that can be written out.
def IsStep (d : Datum) : Prop :=
  ∃ s, d.step? = some s ∧ ∀ i ∈ s.integer?, Spellable i

-- A step of a path that is let through. An index that is found nowhere has to be written into the
-- warning about it.
def IsTaken (d : Datum) : Prop :=
  ∃ s, d.step? = some s ∧ ∀ i ∈ s.integer?, i < 1 → Spellable i

theorem IsStep.isTaken {d : Datum} (h : IsStep d) : IsTaken d :=
  h.imp fun _ hs => ⟨hs.1, fun i hi _ => hs.2 i hi⟩

-- The indices of a path that are found nowhere can be written out.
def Path.Warnable (path : Path) : Prop :=
  ∀ i, .index i ∈ path → i < 1 → Spellable i

theorem Path.Warnable.isTaken {path : Path} (h : path.Warnable) :
    ∀ d ∈ path.map Datum.ofStep, IsTaken d := by
  intro d hd
  obtain ⟨s, hs, rfl⟩ := List.mem_map.mp hd
  refine ⟨s, Datum.step?_ofStep s, fun i hi => ?_⟩
  cases s with
  | key k => cases hi
  | index j =>
      obtain rfl := Option.some.inj hi
      exact h j hs

namespace Validation

-- An index that is never found is worth a warning, but no fault.
theorem path_ok {steps : List Datum} (hne : steps ≠ []) (h : ∀ d ∈ steps, IsTaken d) :
    ∃ found, path steps = .ok found ∧ found.faults = [] := by
  obtain ⟨d, ds, rfl⟩ := List.exists_cons_of_ne_nil hne
  unfold path
  refine Except.exists_foldlM_eq_ok (p := fun found : Findings => found.faults = []) ?_ rfl
  rintro ⟨step, position⟩ hmem found hfound
  obtain ⟨s, hs, hspellable⟩ := h step (List.fst_mem_of_mem_zipIdx hmem)
  dsimp only
  rw [hs]
  cases s with
  | key k => exact ⟨found, rfl, hfound⟩
  | index i =>
      dsimp only
      split
      · next hlow =>
        rw [numeral_of_spellable (hspellable i rfl hlow)]
        exact ⟨_, rfl, hfound⟩
      · exact ⟨found, rfl, hfound⟩

-- The other steps, whatever is wrong with them, do not fail of themselves.
theorem path_long {steps : List Datum} {i : Int} (hi : .int i ∈ steps) (hlow : i < 1)
    (hlong : ¬Spellable i) : path steps = .error (.longNumeral none) := by
  obtain ⟨k, hk, hget⟩ := List.getElem_of_mem hi
  have hmem : (Datum.int i, 1 + k) ∈ steps.zipIdx 1 :=
    List.mk_add_mem_zipIdx_iff_getElem?.mpr (hget ▸ List.getElem?_eq_getElem hk)
  obtain ⟨d, ds, rfl⟩ := List.exists_cons_of_ne_nil (List.ne_nil_of_mem hi)
  unfold path
  refine Except.foldlM_eq_error (p := fun _ => True) ?_ hmem (fun found => ?_) trivial
  · rintro ⟨step, position⟩ - found -
    dsimp only
    split
    · exact .inl ⟨_, rfl, trivial⟩
    · exact .inl ⟨_, rfl, trivial⟩
    · split
      · next j _ hj =>
        by_cases hspellable : Spellable j
        · exact .inl ⟨_, by rw [numeral_of_spellable hspellable]; rfl, trivial⟩
        · exact .inr (by rw [numeral_of_not_spellable hspellable]; rfl)
      · exact .inl ⟨_, rfl, trivial⟩
  · simp only [Datum.step?, if_pos hlow, numeral_of_not_spellable hlong]
    rfl

end Validation

namespace Descriptor

-- A descriptor is made of a kind of scalars and of steps that are let through.
theorem result_make {kind : Kind} {scalar : ScalarKind}
    (hkind : ScalarKind.ofKind? kind = some scalar) {steps : List Datum} (hne : steps ≠ [])
    (hsteps : ∀ d ∈ steps, IsTaken d) :
    (make kind steps).result = .ok ⟨scalar, steps.filterMap Datum.step?⟩ := by
  obtain ⟨found, hfound, hfaults⟩ := Validation.path_ok hne hsteps
  have hwarn : (found.warn .paths).result = .ok found := by
    rw [Findings.warn, Traced.result_bind, Traced.result_forM_ok fun _ => rfl]
    rfl
  unfold make
  rw [hkind]
  simp only [Traced.result_bind, Traced.result_liftM, hfound, Except.ok_bind, hwarn]
  rw [(Findings.require_eq_ok_iff (u := ())).mpr hfaults]
  rfl

theorem result_make_path (kind : ScalarKind) {path : Path} (hne : path ≠ []) (h : path.Warnable) :
    (make kind.kind (path.map .ofStep)).result = .ok ⟨kind, path⟩ := by
  have hread : (path.map Datum.ofStep).filterMap Datum.step? = path := by
    rw [List.filterMap_map]
    exact (List.filterMap_congr fun s _ => Datum.step?_ofStep s).trans List.filterMap_some
  rw [result_make kind.ofKind?_kind (by simpa using hne) h.isTaken, hread]

theorem result_make_long (kind : ScalarKind) {path : Path} (h : ¬path.Warnable) :
    (make kind.kind (path.map .ofStep)).result = .error (.longNumeral none) := by
  simp only [Path.Warnable, not_forall, exists_prop] at h
  obtain ⟨i, hi, hlow, hlong⟩ := h
  unfold make
  rw [kind.ofKind?_kind]
  simp only [Traced.result_bind, Traced.result_liftM,
    Validation.path_long (List.mem_map_of_mem (f := Datum.ofStep) hi) hlow hlong]
  rfl

theorem spellable_steps {steps : List Datum} (h : ∀ d ∈ steps, IsStep d) (scalar : ScalarKind) :
    Datum.Spellable (.descriptor ⟨scalar, steps.filterMap Datum.step?⟩) := by
  intro i hi
  obtain ⟨s, hs, hi⟩ := List.mem_filterMap.mp hi
  obtain ⟨d, hd, hstep⟩ := List.mem_filterMap.mp hs
  obtain ⟨s', hs', hspelled⟩ := h d hd
  obtain rfl := Option.some.inj (hstep.symm.trans hs')
  exact hspelled i hi

end Descriptor

end Unnest
