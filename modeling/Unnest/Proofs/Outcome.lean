import Mathlib.Data.List.Forall2
import Mathlib.Logic.Relation
import Unnest.Journal

namespace Unnest

-- Every element has a result, and these are all results.
theorem Option.mapM_eq_some_iff {f : α → Option β} {l : List α} {bs : List β} :
    l.mapM f = some bs ↔ (∀ a ∈ l, (f a).isSome = true) ∧ l.filterMap f = bs := by
  induction l generalizing bs with
  | nil => simp
  | cons a l ih =>
      rw [List.mapM_cons, List.forall_mem_cons]
      constructor
      · intro h
        obtain ⟨b, hb, h⟩ := Option.bind_eq_some_iff.mp h
        obtain ⟨rest, hrest, h⟩ := Option.bind_eq_some_iff.mp h
        obtain rfl := Option.some.inj h
        obtain ⟨hl, rfl⟩ := ih.mp hrest
        exact ⟨⟨Option.isSome_of_eq_some hb, hl⟩, List.filterMap_cons_some hb⟩
      · rintro ⟨⟨ha, hl⟩, rfl⟩
        obtain ⟨b, hb⟩ := Option.isSome_iff_exists.mp ha
        rw [hb, ih.mpr ⟨hl, rfl⟩, List.filterMap_cons_some hb]
        rfl

namespace Except

theorem bind_eq_ok {x : Except ε α} {f : α → Except ε β} {b : β} :
    x >>= f = .ok b ↔ ∃ a, x = .ok a ∧ f a = .ok b := by
  cases x <;> simp [bind, Except.bind]

theorem ok_bind (a : α) (f : α → Except ε β) : (.ok a : Except ε α) >>= f = f a := rfl

theorem bind_eq_error {x : Except ε α} {f : α → Except ε β} {e : ε} :
    x >>= f = .error e ↔ x = .error e ∨ ∃ a, x = .ok a ∧ f a = .error e := by
  cases x <;> simp [bind, Except.bind]

theorem map_eq_error {x : Except ε α} {f : α → β} {e : ε} :
    x.map f = .error e ↔ x = .error e := by
  cases x <;> simp [Except.map]

theorem map_eq_ok {x : Except ε α} {f : α → β} {b : β} :
    x.map f = .ok b ↔ ∃ a, x = .ok a ∧ f a = b := by
  cases x <;> simp [Except.map]

-- The rest that a reader hands on is left as it is.
theorem map_fst_eq_ok {x : Except ε (α × γ)} {f : α → β} {b : β} {c : γ} :
    (x.map fun (a, c) => (f a, c)) = .ok (b, c) ↔ ∃ a, x = .ok (a, c) ∧ f a = b := by
  cases x with
  | error e => simp [Except.map]
  | ok p => simp [Except.map, Prod.ext_iff, and_comm]

-- Each result comes from the element in the same place.
theorem mapM_eq_ok_iff {f : α → Except ε β} {l : List α} {bs : List β} :
    l.mapM f = .ok bs ↔ List.Forall₂ (fun a b => f a = .ok b) l bs := by
  induction l generalizing bs with
  | nil =>
      rw [List.mapM_nil, List.forall₂_nil_left_iff]
      exact ⟨fun h => (Except.ok.inj h).symm, fun h => congrArg Except.ok h.symm⟩
  | cons a l ih =>
      rw [List.mapM_cons, bind_eq_ok, List.forall₂_cons_left_iff]
      constructor
      · rintro ⟨b, hb, h⟩
        obtain ⟨rest, hr, h⟩ := bind_eq_ok.mp h
        exact ⟨b, rest, hb, ih.mp hr, (Except.ok.inj h).symm⟩
      · rintro ⟨b, rest, hb, hr, rfl⟩
        exact ⟨b, hb, bind_eq_ok.mpr ⟨rest, ih.mpr hr, rfl⟩⟩

theorem exists_of_mem_mapM {f : α → Except ε β} {l : List α} {bs : List β}
    (h : l.mapM f = .ok bs) {b : β} (hb : b ∈ bs) : ∃ a ∈ l, f a = .ok b := by
  have hall := mapM_eq_ok_iff.mp h
  clear h
  induction hall with
  | nil => cases hb
  | cons ha _ ih =>
      rcases List.mem_cons.mp hb with rfl | hb
      · exact ⟨_, List.mem_cons_self, ha⟩
      · obtain ⟨a, hmem, hf⟩ := ih hb
        exact ⟨a, List.mem_cons_of_mem _ hmem, hf⟩

theorem exists_mem_of_mapM_eq_ok {f : α → Except ε β} {l : List α} {bs : List β}
    (h : l.mapM f = .ok bs) {a : α} (ha : a ∈ l) : ∃ b ∈ bs, f a = .ok b := by
  have hall := mapM_eq_ok_iff.mp h
  clear h
  induction hall with
  | nil => cases ha
  | cons hb _ ih =>
      rcases List.mem_cons.mp ha with rfl | ha
      · exact ⟨_, List.mem_cons_self, hb⟩
      · obtain ⟨b, hmem, hf⟩ := ih ha
        exact ⟨b, List.mem_cons_of_mem _ hmem, hf⟩

theorem exists_of_mapM_eq_ok {f : α → Except ε β} {l : List α} {bs : List β}
    (h : l.mapM f = .ok bs) {a : α} (ha : a ∈ l) : ∃ b, f a = .ok b := by
  obtain ⟨b, -, hb⟩ := exists_mem_of_mapM_eq_ok h ha
  exact ⟨b, hb⟩

theorem exists_mapM_eq_ok {f : α → Except ε β} {l : List α} (h : ∀ a ∈ l, ∃ b, f a = .ok b) :
    ∃ bs, l.mapM f = .ok bs := by
  induction l with
  | nil => exact ⟨[], rfl⟩
  | cons a l ih =>
      obtain ⟨⟨b, hb⟩, hl⟩ := List.forall_mem_cons.mp h
      obtain ⟨bs, hbs⟩ := ih hl
      exact ⟨b :: bs, mapM_eq_ok_iff.mpr (.cons hb (mapM_eq_ok_iff.mp hbs))⟩

-- A failure of all is the failure of the first one that fails.
theorem mapM_eq_error_iff {f : α → Except ε β} {l : List α} {e : ε} :
    l.mapM f = .error e ↔ ∃ before a later bs, l = before ++ a :: later ∧
      before.mapM f = .ok bs ∧ f a = .error e := by
  constructor
  · intro h
    induction l with
    | nil => cases h
    | cons a l ih =>
        rw [List.mapM_cons] at h
        rcases bind_eq_error.mp h with ha | ⟨b, hb, h⟩
        · exact ⟨[], a, l, [], rfl, rfl, ha⟩
        · rcases bind_eq_error.mp h with hl | ⟨bs, -, h⟩
          · obtain ⟨before, c, later, bs, rfl, hbefore, hc⟩ := ih hl
            exact ⟨a :: before, c, later, b :: bs, rfl,
              mapM_eq_ok_iff.mpr (.cons hb (mapM_eq_ok_iff.mp hbefore)), hc⟩
          · cases h
  · rintro ⟨before, a, later, bs, rfl, hbefore, ha⟩
    rw [List.mapM_append, hbefore, ok_bind, List.mapM_cons, ha]
    rfl

theorem exists_of_mapM_eq_error {f : α → Except ε β} {l : List α} {e : ε}
    (h : l.mapM f = .error e) : ∃ a ∈ l, f a = .error e := by
  obtain ⟨before, a, later, -, rfl, -, ha⟩ := mapM_eq_error_iff.mp h
  exact ⟨a, List.mem_append_right _ List.mem_cons_self, ha⟩

-- Where only one thing can go wrong, and it does, it is what all fail with.
theorem mapM_eq_error {f : α → Except ε β} {l : List α} {e : ε}
    (h : ∀ a ∈ l, (∃ b, f a = .ok b) ∨ f a = .error e) {a : α} (ha : a ∈ l)
    (hfails : f a = .error e) : l.mapM f = .error e := by
  induction l with
  | nil => cases ha
  | cons c l ih =>
      obtain ⟨hc, hl⟩ := List.forall_mem_cons.mp h
      rw [List.mapM_cons]
      rcases hc with ⟨b, hb⟩ | hc
      · have hmem : a ∈ l := by
          refine (List.mem_cons.mp ha).resolve_left fun heq => ?_
          cases hfails.symm.trans (heq ▸ hb)
        rw [hb, ok_bind, ih hl hmem]
        rfl
      · rw [hc]
        rfl

-- Steps that only check succeed together or not at all.
theorem mapM_ite_eq_ok_iff {p : α → Prop} [DecidablePred p] {f : α → β} {g : α → ε} {l : List α}
    {bs : List β} :
    l.mapM (fun a => if p a then (.ok (f a) : Except ε β) else .error (g a)) = .ok bs ↔
      (∀ a ∈ l, p a) ∧ bs = l.map f := by
  have hstep (a : α) (b : β) : (if p a then (.ok (f a) : Except ε β) else .error (g a)) = .ok b ↔
      p a ∧ f a = b := by
    by_cases h : p a <;> simp [h]
  simp only [mapM_eq_ok_iff, hstep, List.forall₂_and_left]
  rw [← List.forall₂_map_left_iff (f := f), List.forall₂_eq_eq_eq, eq_comm]

-- What comes after a step may as well come after all the steps.
theorem mapM_bind {f : α → Except ε β} {l : List α} {bs : List β} (h : l.mapM f = .ok bs)
    (g : β → Except ε γ) : (l.mapM fun a => f a >>= g) = bs.mapM g := by
  have hall := mapM_eq_ok_iff.mp h
  clear h
  induction hall with
  | nil => rfl
  | cons ha _ ih => rw [List.mapM_cons, List.mapM_cons, ha, ok_bind, ih]

-- A fold fails at the first step that fails.
theorem foldlM_eq_error_iff {f : β → α → Except ε β} {l : List α} {init : β} {e : ε} :
    l.foldlM f init = .error e ↔ ∃ before a later b, l = before ++ a :: later ∧
      before.foldlM f init = .ok b ∧ f b a = .error e := by
  constructor
  · intro h
    induction l generalizing init with
    | nil => cases h
    | cons a l ih =>
        rw [List.foldlM_cons] at h
        rcases bind_eq_error.mp h with ha | ⟨b, hb, h⟩
        · exact ⟨[], a, l, init, rfl, rfl, ha⟩
        · obtain ⟨before, c, later, out, rfl, hbefore, hc⟩ := ih h
          refine ⟨a :: before, c, later, out, rfl, ?_, hc⟩
          rw [List.foldlM_cons, hb]
          exact hbefore
  · rintro ⟨before, a, later, b, rfl, hbefore, ha⟩
    rw [List.foldlM_append, hbefore, ok_bind, List.foldlM_cons, ha]
    rfl

-- Where only one thing can go wrong, and it does whatever came before, a fold fails with it.
theorem foldlM_eq_error {f : β → α → Except ε β} {p : β → Prop} {l : List α} {e : ε}
    (hstep : ∀ a ∈ l, ∀ b, p b → (∃ c, f b a = .ok c ∧ p c) ∨ f b a = .error e) {a : α}
    (ha : a ∈ l) (hfails : ∀ b, f b a = .error e) {init : β} (hinit : p init) :
    l.foldlM f init = .error e := by
  induction l generalizing init with
  | nil => cases ha
  | cons c l ih =>
      obtain ⟨hc, hl⟩ := List.forall_mem_cons.mp hstep
      rw [List.foldlM_cons]
      rcases List.mem_cons.mp ha with rfl | ha
      · rw [hfails]
        rfl
      · rcases hc init hinit with ⟨b, hb, hkept⟩ | hc
        · rw [hb, ok_bind, ih hl ha hkept]
        · rw [hc]
          rfl

-- What every step keeps, the fold keeps.
theorem foldlM_keeps {f : β → α → Except ε β} {p : β → Prop} {l : List α}
    (hstep : ∀ a ∈ l, ∀ b c, p b → f b a = .ok c → p c) {init out : β} (hinit : p init)
    (h : l.foldlM f init = .ok out) : p out := by
  induction l generalizing init with
  | nil =>
      obtain rfl := Except.ok.inj h
      exact hinit
  | cons a l ih =>
      obtain ⟨ha, hl⟩ := List.forall_mem_cons.mp hstep
      rw [List.foldlM_cons] at h
      obtain ⟨b, hb, h⟩ := bind_eq_ok.mp h
      exact ih hl (ha _ _ hinit hb) h

-- Where every step that keeps something succeeds, the fold succeeds and keeps it.
theorem exists_foldlM_eq_ok {f : β → α → Except ε β} {p : β → Prop} {l : List α}
    (hstep : ∀ a ∈ l, ∀ b, p b → ∃ c, f b a = .ok c ∧ p c) {init : β} (hinit : p init) :
    ∃ out, l.foldlM f init = .ok out ∧ p out := by
  induction l generalizing init with
  | nil => exact ⟨init, rfl, hinit⟩
  | cons a l ih =>
      obtain ⟨ha, hl⟩ := List.forall_mem_cons.mp hstep
      obtain ⟨b, hb, hkept⟩ := ha init hinit
      rw [List.foldlM_cons, hb]
      exact ih hl hkept

-- A fold that succeeds is a chain of steps that succeed.
theorem reflTransGen_of_foldlM {f : β → α → Except ε β} {r : β → β → Prop}
    (hstep : ∀ b a c, f b a = .ok c → r b c) {l : List α} {init out : β}
    (h : l.foldlM f init = .ok out) : Relation.ReflTransGen r init out := by
  induction l generalizing init with
  | nil =>
      obtain rfl := Except.ok.inj h
      exact .refl
  | cons a l ih =>
      rw [List.foldlM_cons] at h
      obtain ⟨b, hb, h⟩ := bind_eq_ok.mp h
      exact .head (hstep _ _ _ hb) (ih h)

end Except

namespace Traced

theorem eq_of_journal_of_result {x y : Traced α} (hj : x.journal = y.journal)
    (hr : x.result = y.result) : x = y := by
  cases x
  cases y
  simp_all

theorem result_bind_eq_ok {x : Traced α} {f : α → Traced β} {b : β} :
    (x >>= f).result = .ok b ↔ ∃ a, x.result = .ok a ∧ (f a).result = .ok b := by
  rw [result_bind]
  exact Except.bind_eq_ok

@[simp] theorem bind_ok (journal : Journal) (a : α) (f : α → Traced β) :
    (⟨journal, .ok a⟩ : Traced α) >>= f = ⟨journal ++ (f a).journal, (f a).result⟩ := rfl

@[simp] theorem bind_error (journal : Journal) (e : Failure) (f : α → Traced β) :
    (⟨journal, .error e⟩ : Traced α) >>= f = ⟨journal, .error e⟩ := rfl

-- What follows counts only where something has been come by.
theorem bind_congr {x : Traced α} {f g : α → Traced β} (h : ∀ a, x.result = .ok a → f a = g a) :
    x >>= f = x >>= g := by
  obtain ⟨journal, _ | a⟩ := x
  · rfl
  · rw [bind_ok, bind_ok, h a rfl]

instance : LawfulMonad Traced := by
  refine LawfulMonad.mk' Traced ?_ ?_ ?_
  · rintro α ⟨journal, _ | a⟩
    · rfl
    · exact eq_of_journal_of_result (List.append_nil journal) rfl
  · intro α β a f
    rfl
  · rintro α β γ ⟨journal, _ | a⟩ f g
    · rfl
    · rcases h : f a with ⟨later, _ | b⟩
      · simp [h]
      · simp [h, List.append_assoc]

-- Notes never fail.
theorem result_forM_ok {f : α → Traced Unit} (hf : ∀ a, (f a).result = .ok ()) (l : List α) :
    (l.forM f).result = .ok () := by
  induction l with
  | nil => rfl
  | cons a l ih =>
      show (f a >>= fun _ => l.forM f).result = _
      rw [result_bind, hf a]
      exact ih

theorem result_mapM (f : α → Traced β) (l : List α) :
    (l.mapM f).result = l.mapM fun a => (f a).result := by
  induction l with
  | nil => rfl
  | cons a l ih => simp only [List.mapM_cons, result_bind, result_pure, ih]; rfl

theorem result_foldlM (f : β → α → Traced β) (init : β) (l : List α) :
    (l.foldlM f init).result = l.foldlM (fun b a => (f b a).result) init := by
  induction l generalizing init with
  | nil => rfl
  | cons a l ih =>
      simp only [List.foldlM_cons, result_bind]
      cases (f init a).result with
      | error e => rfl
      | ok b => exact ih b

end Traced

end Unnest
