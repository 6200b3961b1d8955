import Unnest.Proofs.Text.Separator
import Unnest.Text.Line

namespace Unnest.Text

theorem pieces_ne_nil (t : Text) : pieces t ≠ [] := by
  cases t with
  | nil => exact List.cons_ne_nil _ _
  | cons c rest =>
      rw [pieces]
      split
      · exact List.cons_ne_nil _ _
      · split <;> exact List.cons_ne_nil _ _

theorem pieces_lineEnd {c : CodePoint} (hc : c.isLineEnd = true) (rest : Text) :
    pieces (c :: rest) = [] :: pieces rest :=
  if_pos hc

-- A character that ends no line belongs to the first piece.
theorem pieces_cons {c : CodePoint} (hc : c.isLineEnd = false) {rest piece : Text}
    {later : List Text} (h : pieces rest = piece :: later) :
    pieces (c :: rest) = (c :: piece) :: later := by
  rw [pieces, if_neg (by simp [hc]), h]

theorem pieces_append (before : Text) {c : CodePoint} (hc : c.isLineEnd = true) (after : Text) :
    pieces (before ++ c :: after) = pieces before ++ pieces after := by
  induction before with
  | nil => exact pieces_lineEnd hc after
  | cons d before ih =>
      cases hd : d.isLineEnd with
      | true => rw [List.cons_append, pieces_lineEnd hd, ih, pieces_lineEnd hd, List.cons_append]
      | false =>
          obtain ⟨piece, later, hpieces⟩ := List.exists_cons_of_ne_nil (pieces_ne_nil before)
          rw [hpieces, List.cons_append] at ih
          rw [List.cons_append, pieces_cons hd ih, pieces_cons hd hpieces, List.cons_append]

theorem pieces_of_forall {t : Text} (h : ∀ c ∈ t, c.isLineEnd = false) : pieces t = [t] := by
  induction t with
  | nil => rfl
  | cons c t ih =>
      obtain ⟨hc, ht⟩ := List.forall_mem_cons.mp h
      exact pieces_cons hc (ih ht)

-- Pieces are made of the characters of the text that end no line.
theorem mem_of_mem_pieces {t piece : Text} (h : piece ∈ pieces t) :
    ∀ c ∈ piece, c ∈ t ∧ c.isLineEnd = false := by
  induction t generalizing piece with
  | nil =>
      obtain rfl := List.mem_singleton.mp h
      exact nofun
  | cons d rest ih =>
      obtain ⟨first, later, hpieces⟩ := List.exists_cons_of_ne_nil (pieces_ne_nil rest)
      have hlater {piece : Text} (h : piece ∈ pieces rest) :
          ∀ c ∈ piece, c ∈ d :: rest ∧ c.isLineEnd = false :=
        fun c hc => (ih h c hc).imp_left (List.mem_cons_of_mem d)
      cases hd : d.isLineEnd with
      | true =>
          rw [pieces_lineEnd hd] at h
          rcases List.mem_cons.mp h with rfl | h
          · exact nofun
          · exact hlater h
      | false =>
          rw [pieces_cons hd hpieces] at h
          rcases List.mem_cons.mp h with rfl | h
          · refine List.forall_mem_cons.mpr ⟨⟨List.mem_cons_self, hd⟩, hlater ?_⟩
            exact hpieces ▸ List.mem_cons_self
          · exact hlater (hpieces ▸ List.mem_cons_of_mem first h)

theorem writtenLines_append (before : Text) {c : CodePoint} (hc : c.isLineEnd = true)
    (after : Text) :
    writtenLines (before ++ c :: after) = writtenLines before ++ writtenLines after := by
  rw [writtenLines, pieces_append before hc, List.filter_append]
  rfl

theorem writtenLines_of_isBlank {t : Text} (h : t.isBlank = true) : writtenLines t = [] := by
  refine List.filter_eq_nil_iff.mpr fun piece hpiece => ?_
  have hblank : piece.isBlank = true :=
    List.all_eq_true.mpr fun c hc => List.all_eq_true.mp h c (mem_of_mem_pieces hpiece c hc).1
  simp [hblank]

-- A text comes back as it is if it is one line, and not otherwise.
theorem writtenLines_eq_singleton_iff {t : Text} (h : t.isBlank = false) :
    writtenLines t = [t] ↔ ∀ c ∈ t, c.isLineEnd = false := by
  constructor
  · intro heq
    have hmem : t ∈ writtenLines t := heq ▸ List.mem_singleton_self t
    exact fun c hc => (mem_of_mem_pieces (List.mem_of_mem_filter hmem) c hc).2
  · intro hline
    rw [writtenLines, pieces_of_forall hline]
    simp [h]

theorem writtenLines_join (lines : List Text) :
    writtenLines (join "\n" lines) = lines.flatMap writtenLines := by
  induction lines with
  | nil => rfl
  | cons t lines ih =>
      cases lines with
      | nil => rw [List.flatMap_singleton]; rfl
      | cons next later =>
          rw [show Text.ofString "\n" = [.char '\n'] from rfl] at ih ⊢
          rw [join_cons_cons, writtenLines_append t rfl, ih, List.flatMap_cons, List.flatMap_cons,
            List.flatMap_cons]

-- Only carriage returns are replaced.
theorem unifyLineEnds_of_not_mem {t : Text} (h : .char '\r' ∉ t) : t.unifyLineEnds = t := by
  fun_induction unifyLineEnds t with
  | case1 => rfl
  | case2 rest ih => simp at h
  | case3 rest _ ih => simp at h
  | case4 c rest _ _ ih => rw [ih fun hmem => h (List.mem_cons_of_mem c hmem)]

-- Only empty lines come and go with the line ends of another system. The first piece is told apart
-- since a character in front goes to it.
theorem pieces_unifyLineEnds (t : Text) : ∃ first later later',
    pieces t.unifyLineEnds = first :: later ∧ pieces t = first :: later' ∧
      later.filter (!·.isBlank) = later'.filter (!·.isBlank) := by
  have hcons (first : Text) {later later' : List Text}
      (h : later.filter (!·.isBlank) = later'.filter (!·.isBlank)) :
      (first :: later).filter (!·.isBlank) = (first :: later').filter (!·.isBlank) := by
    rw [List.filter_cons, List.filter_cons, h]
  have hfeed : (CodePoint.char '\n').isLineEnd = true := rfl
  have hreturn : (CodePoint.char '\r').isLineEnd = true := rfl
  fun_induction unifyLineEnds t with
  | case1 => exact ⟨[], [], [], rfl, rfl, rfl⟩
  | case2 rest ih =>
      obtain ⟨first, later, later', hunified, hpieces, hfilter⟩ := ih
      refine ⟨[], first :: later, [] :: first :: later', ?_, ?_, ?_⟩
      · rw [pieces_lineEnd hfeed, hunified]
      · rw [pieces_lineEnd hreturn, pieces_lineEnd hfeed, hpieces]
      · exact hcons first hfilter
  | case3 rest _ ih =>
      obtain ⟨first, later, later', hunified, hpieces, hfilter⟩ := ih
      refine ⟨[], first :: later, first :: later', ?_, ?_, ?_⟩
      · rw [pieces_lineEnd hfeed, hunified]
      · rw [pieces_lineEnd hreturn, hpieces]
      · exact hcons first hfilter
  | case4 c rest _ _ ih =>
      obtain ⟨first, later, later', hunified, hpieces, hfilter⟩ := ih
      cases hc : c.isLineEnd with
      | true =>
          refine ⟨[], first :: later, first :: later', ?_, ?_, ?_⟩
          · rw [pieces_lineEnd hc, hunified]
          · rw [pieces_lineEnd hc, hpieces]
          · exact hcons first hfilter
      | false =>
          exact ⟨c :: first, later, later', pieces_cons hc hunified, pieces_cons hc hpieces,
            hfilter⟩

theorem writtenLines_unifyLineEnds (t : Text) :
    t.unifyLineEnds.writtenLines = t.writtenLines := by
  obtain ⟨first, later, later', hunified, hpieces, hfilter⟩ := pieces_unifyLineEnds t
  rw [writtenLines, writtenLines, hunified, hpieces, List.filter_cons, List.filter_cons, hfilter]

end Unnest.Text
