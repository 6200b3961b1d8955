import Unnest.Proofs.Outcome
import Unnest.Proofs.Text.Figures

namespace Unnest.Text

-- No half of a surrogate pair stands in the text, so that it can be encoded.
def Whole (t : Text) : Prop :=
  ∀ c ∈ t, c.toChar?.isSome = true

instance (t : Text) : Decidable t.Whole :=
  inferInstanceAs (Decidable (∀ c ∈ t, _))

theorem Whole.subset {s t : Text} (h : t.Whole) (hs : s ⊆ t) : s.Whole :=
  fun c hc => h c (hs hc)

theorem Whole.append {s t : Text} (hs : s.Whole) (ht : t.Whole) : (s ++ t).Whole :=
  List.forall_mem_append.mpr ⟨hs, ht⟩

theorem Whole.cons {c : CodePoint} {t : Text} (hc : c.toChar?.isSome = true) (ht : t.Whole) :
    Text.Whole (c :: t) :=
  List.forall_mem_cons.mpr ⟨hc, ht⟩

theorem Whole.flatMap {t : Text} {f : CodePoint → Text} (h : ∀ c ∈ t, (f c).Whole) :
    Text.Whole (t.flatMap f) := by
  intro c hc
  obtain ⟨a, ha, hc⟩ := List.mem_flatMap.mp hc
  exact h a ha c hc

theorem whole_chars (cs : List Char) : Text.Whole (cs.map CodePoint.char) := by
  intro c hc
  obtain ⟨a, -, rfl⟩ := List.mem_map.mp hc
  rfl

theorem whole_ofString (s : String) : (ofString s).Whole :=
  whole_chars s.toList

theorem whole_replicate (n : Nat) (c : Char) : Text.Whole (List.replicate n (.char c)) := by
  intro d hd
  rw [List.eq_of_mem_replicate hd]
  rfl

theorem whole_concat {parts : List Text} (h : ∀ t ∈ parts, t.Whole) : (concat parts).Whole := by
  intro c hc
  obtain ⟨t, ht, hc⟩ := List.mem_flatten.mp hc
  exact h t ht c hc

theorem whole_join {separator : Text} (hs : separator.Whole) {parts : List Text}
    (h : ∀ t ∈ parts, t.Whole) : (join separator parts).Whole := by
  fun_induction join separator parts with
  | case1 => exact nofun
  | case2 t => exact h t List.mem_cons_self
  | case3 t rest _ ih =>
      obtain ⟨ht, hrest⟩ := List.forall_mem_cons.mp h
      exact (ht.append hs).append (ih hrest)

-- The text is put together again from both sides of the separator.
theorem cut_eq {separator : CodePoint} {t before : Text} {after : Option Text}
    (h : cut separator t = (before, after)) :
    separator ∉ before ∧ t = before ++ (after.map (separator :: ·)).getD [] := by
  induction t generalizing before with
  | nil =>
      obtain ⟨rfl, rfl⟩ := Prod.mk.inj h
      exact ⟨List.not_mem_nil, rfl⟩
  | cons c rest ih =>
      rw [cut] at h
      split at h
      · next hc =>
        obtain ⟨rfl, rfl⟩ := Prod.mk.inj h
        exact ⟨List.not_mem_nil, by rw [hc]; rfl⟩
      · next hc =>
        obtain ⟨rfl, rfl⟩ := Prod.mk.inj h
        obtain ⟨hmem, heq⟩ := ih rfl
        refine ⟨?_, congrArg (c :: ·) heq⟩
        rw [List.mem_cons, not_or]
        exact ⟨Ne.symm hc, hmem⟩

theorem subset_of_mem_split {separator : CodePoint} {t piece : Text}
    (h : piece ∈ split separator t) : piece ⊆ t := by
  induction t generalizing piece with
  | nil =>
      obtain rfl := List.mem_singleton.mp h
      exact List.Subset.refl _
  | cons c rest ih =>
      rw [split] at h
      split at h
      · rcases List.mem_cons.mp h with rfl | h
        · exact List.nil_subset _
        · exact List.Subset.trans (ih h) (List.subset_cons_self c rest)
      · split at h
        · next hnil => exact absurd hnil (split_ne_nil separator rest)
        · next first later hpieces =>
          rw [hpieces] at ih
          rcases List.mem_cons.mp h with rfl | h
          · exact List.cons_subset_cons c (ih List.mem_cons_self)
          · have hrest := ih (List.mem_cons_of_mem _ h)
            exact List.Subset.trans hrest (List.subset_cons_self c rest)

theorem Figures.whole {t : Text} (h : t.Figures) : t.Whole := by
  intro c hc
  cases c with
  | char a => rfl
  | surrogate s =>
      rcases h _ hc with ⟨-, hcode⟩ | hmem
      · simp only [CodePoint.code] at hcode
        omega
      · exact whole_ofString _ _ hmem

theorem whole_ofInt (n : Int) : (ofInt n).Whole :=
  (figures_ofInt n).whole

theorem toString?_of_whole {t : Text} (h : t.Whole) : ∃ s, t.toString? = some s := by
  have hchars := Option.mapM_eq_some_iff.mpr ⟨h, rfl⟩
  exact ⟨_, by rw [toString?, hchars]; rfl⟩

end Unnest.Text

namespace Unnest.Binary64

theorem whole_text (x : Binary64) : x.text.Whole :=
  (figures_text x).whole

theorem whole_fixed (places : Nat) (x : Binary64) : (x.fixed places).Whole :=
  (figures_fixed places x).whole

end Unnest.Binary64
