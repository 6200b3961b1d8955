import Mathlib.Data.List.Basic
import Unnest.Text.Basic

namespace Unnest.Text

variable {separator : CodePoint}

theorem cut_of_not_mem {t : Text} (h : separator ∉ t) : cut separator t = (t, none) := by
  induction t with
  | nil => rfl
  | cons c t ih =>
      rw [List.mem_cons, not_or] at h
      rw [cut, if_neg (Ne.symm h.1), ih h.2]

theorem cut_append {before : Text} (h : separator ∉ before) (after : Text) :
    cut separator (before ++ separator :: after) = (before, some after) := by
  induction before with
  | nil => exact if_pos rfl
  | cons c before ih =>
      rw [List.mem_cons, not_or] at h
      rw [List.cons_append, cut, if_neg (Ne.symm h.1), ih h.2]

theorem split_of_not_mem {t : Text} (h : separator ∉ t) : split separator t = [t] := by
  induction t with
  | nil => rfl
  | cons c t ih =>
      rw [List.mem_cons, not_or] at h
      rw [split, if_neg (Ne.symm h.1), ih h.2]

theorem split_append {first : Text} (h : separator ∉ first) (rest : Text) :
    split separator (first ++ separator :: rest) = first :: split separator rest := by
  induction first with
  | nil => exact if_pos rfl
  | cons c first ih =>
      rw [List.mem_cons, not_or] at h
      rw [List.cons_append, split, if_neg (Ne.symm h.1), ih h.2]

theorem prefix_join (separator t : Text) (later : List Text) :
    t <+: join separator (t :: later) := by
  cases later with
  | nil => exact List.prefix_refl t
  | cons => exact ⟨_, (List.append_assoc ..).symm⟩

theorem subset_join (separator : Text) {parts : List Text} (h : 2 ≤ parts.length) :
    separator ⊆ join separator parts := by
  match parts, h with
  | t :: next :: later, _ =>
      intro c hc
      exact List.mem_append_left _ (List.mem_append_right t hc)

theorem join_cons_cons (t next : Text) (later : List Text) :
    join [separator] (t :: next :: later) = t ++ separator :: join [separator] (next :: later) := by
  simp [join]

-- What joining puts together, splitting takes apart, if no piece holds the separator.
theorem split_join {pieces : List Text} (hne : pieces ≠ []) (h : ∀ t ∈ pieces, separator ∉ t) :
    split separator (join [separator] pieces) = pieces := by
  induction pieces with
  | nil => exact absurd rfl hne
  | cons t pieces ih =>
      obtain ⟨ht, hpieces⟩ := List.forall_mem_cons.mp h
      cases pieces with
      | nil => exact split_of_not_mem ht
      | cons next later =>
          rw [join_cons_cons, split_append ht, ih (List.cons_ne_nil next later) hpieces]

theorem not_mem_of_mem_split {t piece : Text} (h : piece ∈ split separator t) :
    separator ∉ piece := by
  induction t generalizing piece with
  | nil =>
      obtain rfl := List.mem_singleton.mp h
      exact List.not_mem_nil
  | cons c rest ih =>
      obtain ⟨first, later, hpieces⟩ :=
        List.exists_cons_of_ne_nil (split_ne_nil separator rest)
      rw [hpieces] at ih
      by_cases hc : c = separator
      · rw [split, if_pos hc, hpieces] at h
        rcases List.mem_cons.mp h with rfl | h
        · exact List.not_mem_nil
        · exact ih h
      · rw [split, if_neg hc, hpieces] at h
        rcases List.mem_cons.mp h with rfl | h
        · rw [List.mem_cons, not_or]
          exact ⟨Ne.symm hc, ih List.mem_cons_self⟩
        · exact ih (List.mem_cons_of_mem _ h)

-- Nothing is joined to an empty text but nothing at all, or one empty piece.
theorem join_eq_nil_iff {pieces : List Text} :
    join [separator] pieces = [] ↔ pieces = [] ∨ pieces = [[]] := by
  match pieces with
  | [] => simp [join]
  | [t] => simp [join]
  | t :: next :: later => simp [join]

end Unnest.Text
