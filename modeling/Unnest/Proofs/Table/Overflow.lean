import Unnest.Proofs.Table.Room

namespace Unnest

-- Only integers can be too large.
theorem ColumnType.Cell.exists_int {type : ColumnType} {d : Datum} (h : type.Cell d)
    (hroom : ¬type.HasRoom d) : ∃ n, d = .int n := by
  cases h with
  | integer | whole => exact ⟨_, rfl⟩
  | missing => cases type <;> exact absurd trivial hroom
  | text | real | logical => exact absurd trivial hroom

namespace Storage

open ColumnType

variable {cells : List Datum}

-- Of integers side by side, the first of those whose doubles are the greatest, where the double is
-- the integer itself.
structure IsLeading (front : List Datum) (n : Int) (back : List Datum) (x : Binary64) : Prop where
  nearest : Binary64.ofInt? n = some x
  exact : (Number.real x == .int n) = true
  front_lt : ∀ m y, .int m ∈ front → Binary64.ofInt? m = some y →
    (Number.real y).lt (.real x) = true
  back_le : ∀ m y, .int m ∈ back → Binary64.ofInt? m = some y →
    (Number.real x).lt (.real y) = false

def HasLeader (cells : List Datum) : Prop :=
  ∃ front n back x, cells = front ++ .int n :: back ∧ IsLeading front n back x

-- Integers of 64 bits, with a sign or without.
def Ranged (cells : List Datum) : Prop :=
  ∀ d ∈ cells, ∃ n, d = .int n ∧ -2 ^ 63 ≤ n ∧ n < 2 ^ 64

-- Integers that have room in 64 bits if those without a sign count, and that are taken for integers
-- without a sign: because they all are, or by the greatest of them.
structure TakenUnsigned (cells : List Datum) : Prop where
  ranged : Ranged cells
  kind : (∀ n, .int n ∈ cells → 2 ^ 63 ≤ n) ∨ HasLeader cells

-- Where cells can only be too large, one that is too large spoils them all.
theorem present_overflow {store : Datum → Except Failure Datum}
    (h : ∀ d ∈ cells, d.isMissing = false →
      (∃ e, store d = .ok e) ∨ store d = .error .overflow)
    {d : Datum} (hd : d ∈ cells) (hpresent : d.isMissing = false)
    (hfails : store d = .error .overflow) : present store cells = .error .overflow := by
  refine Except.mapM_eq_error (fun c hc => ?_) hd ?_
  · split
    · exact .inl ⟨_, rfl⟩
    · next hpresent => exact h c hc (Bool.not_eq_true _ ▸ hpresent)
  · rw [if_neg (by simp [hpresent]), hfails]

theorem realOf_int_none {n : Int} (h : Binary64.ofInt? n = none) :
    realOf (.int n) = .error .overflow := by
  delta realOf
  dsimp only
  rw [h]

theorem numbers_overflow (h : ∀ d ∈ cells, ColumnType.number.Fits d) {d : Datum} (hd : d ∈ cells)
    (hroom : ¬ColumnType.number.HasRoom d) : numbers cells = .error .overflow := by
  obtain ⟨n, rfl⟩ := (h d hd).cell.exists_int hroom
  have hnone := Binary64.ofInt?_eq_none_iff.mpr (Nat.not_lt.mp hroom)
  rw [numbers_of_fits h]
  refine present_overflow (fun c hc hpresent => ?_) hd rfl (by rw [realOf_int_none hnone]; rfl)
  cases (h c hc).cell with
  | missing => cases hpresent
  | real => exact .inl ⟨_, rfl⟩
  | @whole m =>
      cases hm : Binary64.ofInt? m with
      | some x => exact .inl ⟨_, by rw [realOf_int hm]; rfl⟩
      | none => exact .inr (by rw [realOf_int_none hm]; rfl)

theorem truncated_int_overflow {n : Int} (h : ¬(-2 ^ 63 ≤ n ∧ n < 2 ^ 63)) :
    truncated (.int n) = .error .overflow :=
  if_neg fun hfits => h (fitsSigned_iff.mp hfits)

theorem truncatedCells_overflow (h : ∀ d ∈ cells, ColumnType.integer.Fits d) {d : Datum}
    (hd : d ∈ cells) (hroom : ¬ColumnType.integer.HasRoom d) :
    truncatedCells cells = .error .overflow := by
  obtain ⟨n, rfl⟩ := (h d hd).cell.exists_int hroom
  refine present_overflow (fun c hc hpresent => ?_) hd rfl
    (by rw [truncated_int_overflow hroom]; rfl)
  cases (h c hc).cell with
  | missing => cases hpresent
  | @integer m =>
      by_cases hm : -2 ^ 63 ≤ m ∧ m < 2 ^ 63
      · exact .inl ⟨_, by rw [truncated_int hm]; rfl⟩
      · exact .inr (by rw [truncated_int_overflow hm]; rfl)

theorem looseIntegers_overflow (h : ∀ d ∈ cells, ColumnType.integer.Fits d) {d : Datum}
    (hd : d ∈ cells) (hroom : ¬ColumnType.integer.HasRoom d) :
    looseIntegers cells = .error .overflow := by
  rw [looseIntegers, truncatedCells_overflow h hd hroom]
  rfl

-- What an element gives the layout of a list, and no other element takes away, the list has.
theorem Layout.ofList_of_mem {p : Layout → Prop}
    (hjoin : ∀ k l : Layout, p k ∨ p l → p (k.join l)) {d : Datum} (hd : d ∈ cells)
    (h : p (ofDatum d)) : p (ofList cells) := by
  have hfold : ∀ (ds : List Datum) (layout : Layout),
      p layout ∨ (∃ e ∈ ds, p (ofDatum e)) →
        p (ds.foldl (fun layout d => layout.join (ofDatum d)) layout) := by
    intro ds
    induction ds with
    | nil =>
        rintro layout (hlayout | ⟨e, he, -⟩)
        · exact hlayout
        · cases he
    | cons e ds ih =>
        rintro layout (hlayout | ⟨c, hc, hp⟩)
        · exact ih _ (.inl (hjoin _ _ (.inl hlayout)))
        · rcases List.mem_cons.mp hc with rfl | hc
          · exact ih _ (.inl (hjoin _ _ (.inr hp)))
          · exact ih _ (.inr ⟨c, hc, hp⟩)
  cases cells with
  | nil => cases hd
  | cons c ds =>
      rcases List.mem_cons.mp hd with rfl | hd
      · exact hfold ds _ (.inl h)
      · exact hfold ds _ (.inr ⟨d, hd, h⟩)

theorem greatest?_mem {l : List (Datum × Binary64)} {p : Datum × Binary64}
    (h : greatest? l = some p) : p ∈ l := by
  induction l with
  | nil => cases h
  | cons c l ih =>
      rw [greatest?] at h
      split at h
      · split at h
        · cases h
        · exact Option.some.inj h ▸ List.mem_cons_self
      · next hgreatest =>
        split at h
        · exact List.mem_cons_of_mem _ (ih (hgreatest.trans h))
        · exact Option.some.inj h ▸ List.mem_cons_self

variable {f : Datum → Binary64}

theorem greatest?_append_cons {front back : List Datum} {d : Datum} (hnum : (f d).isNaN = false)
    (hfront : ∀ e ∈ front, (Number.real (f e)).lt (.real (f d)) = true)
    (hback : ∀ e ∈ back, (Number.real (f d)).lt (.real (f e)) = false) :
    greatest? ((front ++ d :: back).map fun e => (e, f e)) = some (d, f d) := by
  induction front with
  | nil =>
      rw [List.nil_append, List.map_cons, greatest?]
      cases hgreatest : greatest? (back.map fun e => (e, f e)) with
      | none => simp [hnum]
      | some p =>
          obtain ⟨e, he, rfl⟩ := List.mem_map.mp (greatest?_mem hgreatest)
          simp [hnum, hback e he]
  | cons c front ih =>
      obtain ⟨hc, hfront⟩ := List.forall_mem_cons.mp hfront
      rw [List.cons_append, List.map_cons, greatest?, ih hfront]
      simp [hc]

-- One of some doubles that are numbers is the first of the greatest.
theorem exists_greatest {cells : List Datum} (hcells : cells ≠ [])
    (hnum : ∀ d ∈ cells, (f d).isNaN = false) :
    ∃ front d back, cells = front ++ d :: back ∧
      (∀ e ∈ front, (Number.real (f e)).lt (.real (f d)) = true) ∧
      ∀ e ∈ back, (Number.real (f d)).lt (.real (f e)) = false := by
  induction cells with
  | nil => exact absurd rfl hcells
  | cons c cells ih =>
      obtain ⟨hc, hnum⟩ := List.forall_mem_cons.mp hnum
      cases cells with
      | nil => exact ⟨[], c, [], rfl, nofun, nofun⟩
      | cons e rest =>
          obtain ⟨front, d, back, heq, hfront, hback⟩ := ih (List.cons_ne_nil e rest) hnum
          have hd : (f d).isNaN = false := hnum d (heq ▸ List.mem_append_right _ List.mem_cons_self)
          by_cases hlt : (Number.real (f c)).lt (.real (f d)) = true
          · exact ⟨c :: front, d, back, congrArg _ heq,
              List.forall_mem_cons.mpr ⟨hlt, hfront⟩, hback⟩
          · refine ⟨[], c, e :: rest, rfl, nofun, fun b hb => ?_⟩
            rw [← Bool.not_eq_true]
            intro hcb
            rw [heq] at hb
            rcases List.mem_append.mp hb with hb | hb
            · exact hlt (Number.lt_trans hcb (hfront b hb))
            · rcases List.mem_cons.mp hb with rfl | hb
              · exact hlt hcb
              · exact hlt (Number.lt_of_lt_of_not_lt hcb hd (hback b hb))

theorem ofDatum_int {n : Int} : Layout.ofDatum (.int n) =
    if -2 ^ 63 ≤ n ∧ n < 2 ^ 63 then .signed
    else if 0 ≤ n ∧ n < 2 ^ 64 then .unsigned else .loose := by
  simp only [Layout.ofDatum, fitsSigned_iff, fitsUnsigned_iff]

theorem ofDatum_unsigned {n : Int} (h : 2 ^ 63 ≤ n ∧ n < 2 ^ 64) :
    Layout.ofDatum (.int n) = .unsigned := by
  rw [ofDatum_int, if_neg (by omega), if_pos (by omega)]

-- In the range of the two kinds, integers of both are laid out as doubles.
theorem layout_double {m n : Int} (hranged : Ranged cells) (hm : .int m ∈ cells)
    (hsigned : m < 2 ^ 63) (hn : .int n ∈ cells) (hunsigned : 2 ^ 63 ≤ n) :
    Layout.ofList cells = .double := by
  have hcells : Layout.ofList cells = .signed ∨ Layout.ofList cells = .unsigned ∨
      Layout.ofList cells = .double := by
    obtain ⟨d, ds, rfl⟩ := List.exists_cons_of_ne_nil (List.ne_nil_of_mem hm)
    refine Layout.ofList_closed (p := fun k => k = .signed ∨ k = .unsigned ∨ k = .double) ?_
      fun e he => ?_
    · intro k l
      cases k <;> cases l <;> decide
    · obtain ⟨i, rfl, hi⟩ := hranged e he
      rw [ofDatum_int]
      split
      · exact .inl rfl
      · rw [if_pos (by omega)]
        exact .inr (.inl rfl)
  have hnotSigned : Layout.ofList cells ≠ .signed ∧ Layout.ofList cells ≠ .logical := by
    obtain ⟨i, hi, -, hupper⟩ := hranged _ hn
    obtain rfl := Datum.int.inj hi
    refine Layout.ofList_of_mem (p := fun k => k ≠ .signed ∧ k ≠ .logical) ?_ hn ?_
    · intro k l
      cases k <;> cases l <;> decide
    · rw [ofDatum_unsigned ⟨hunsigned, hupper⟩]
      decide
  have hnotUnsigned : Layout.ofList cells ≠ .unsigned ∧ Layout.ofList cells ≠ .logical := by
    obtain ⟨i, hi, hlower, -⟩ := hranged _ hm
    obtain rfl := Datum.int.inj hi
    refine Layout.ofList_of_mem (p := fun k => k ≠ .unsigned ∧ k ≠ .logical) ?_ hm ?_
    · intro k l
      cases k <;> cases l <;> decide
    · rw [ofDatum_int, if_pos ⟨hlower, hsigned⟩]
      decide
  exact (hcells.resolve_left hnotSigned.1).resolve_left hnotUnsigned.1

theorem exactInteger_error {x : Binary64} :
    (∃ d, exactInteger x = .ok d) ∨ exactInteger x = .error .mismatch := by
  rw [exactInteger]
  split
  · split
    · exact .inl ⟨_, rfl⟩
    · exact .inr rfl
  · exact .inr rfl

theorem exactInteger_large {x : Binary64} {n : Int} (hx : x.truncate? = some n)
    (hn : 2 ^ 63 ≤ n) : exactInteger x = .error .mismatch := by
  have hfits : fitsSigned n = false := by
    rw [← Bool.not_eq_true, fitsSigned_iff]
    omega
  simp only [exactInteger, hx, hfits]
  rfl

-- None of the doubles is greater than the first of the greatest.
theorem not_greatest_lt {front back : List Datum} {d : Datum}
    (hfront : ∀ e ∈ front, (Number.real (f e)).lt (.real (f d)) = true)
    (hback : ∀ e ∈ back, (Number.real (f d)).lt (.real (f e)) = false) {e : Datum}
    (he : e ∈ front ++ d :: back) : (Number.real (f d)).lt (.real (f e)) = false := by
  rcases List.mem_append.mp he with he | he
  · exact Number.not_lt_of_lt (hfront e he)
  · rcases List.mem_cons.mp he with rfl | he
    · exact Number.lt_irrefl _
    · exact hback e he

-- The nearest double for each of some integers.
def Nearest (f : Datum → Binary64) (cells : List Datum) : Prop :=
  ∀ d ∈ cells, ∃ n, d = .int n ∧ Binary64.ofInt? n = some (f d)

theorem exists_nearest (h : Ranged cells) :
    ∃ f, Nearest f cells := by
  have hreal : ∀ d, ∃ x, d ∈ cells → ∃ n, d = .int n ∧ Binary64.ofInt? n = some x := by
    intro d
    by_cases hd : d ∈ cells
    · obtain ⟨n, rfl, hn⟩ := h d hd
      obtain ⟨negative, rank, hx⟩ := Binary64.ofInt?_eq_some (n := n) (by omega)
      exact ⟨_, fun _ => ⟨n, rfl, hx⟩⟩
    · exact ⟨.zero, fun h => absurd h hd⟩
  choose f hf using hreal
  exact ⟨f, hf⟩

namespace Nearest

theorem mapM_realOf (h : Nearest f cells) : cells.mapM realOf = .ok (cells.map f) := by
  rw [Except.mapM_eq_ok_iff, List.forall₂_map_right_iff, List.forall₂_same]
  intro d hd
  obtain ⟨m, rfl, hx⟩ := h d hd
  exact realOf_int hx

theorem exists_truncate? (h : Nearest f cells) {d : Datum} (hd : d ∈ cells) :
    (f d).isNaN = false ∧ ∃ m, (f d).truncate? = some m := by
  obtain ⟨m, -, hx⟩ := h d hd
  obtain ⟨rank, -, hx⟩ := Binary64.finite_of_ofInt? hx
  rw [hx]
  exact ⟨rfl, _, rfl⟩

theorem fits (h : Nearest f cells) : ∀ d ∈ cells, ColumnType.integer.Fits d := by
  intro d hd
  obtain ⟨m, rfl, -⟩ := h d hd
  exact .inr rfl

theorem filter_present (h : Nearest f cells) : cells.filter (fun d => !d.isMissing) = cells := by
  refine List.filter_eq_self.mpr fun d hd => ?_
  obtain ⟨m, rfl, -⟩ := h d hd
  rfl

theorem any_isReal (h : Nearest f cells) : cells.any Datum.isReal = false := by
  refine List.any_eq_false.mpr fun d hd => ?_
  obtain ⟨m, rfl, -⟩ := h d hd
  exact Bool.false_ne_true

end Nearest

-- Integers laid out as doubles come down to the greatest of them. If it is a double, there is no
-- integer of the machine for it, and if it is not, there is none for itself.
theorem roundedIntegers_of_greatest {front back : List Datum} {n large : Int}
    (h : Nearest f (front ++ .int n :: back))
    (hfront : ∀ e ∈ front, (Number.real (f e)).lt (.real (f (.int n))) = true)
    (hback : ∀ e ∈ back, (Number.real (f (.int n))).lt (.real (f e)) = false)
    (hmem : .int large ∈ front ++ .int n :: back) (hlarge : 2 ^ 63 ≤ large) :
    roundedIntegers (front ++ .int n :: back) =
      if Number.real (f (.int n)) == .int n then .error .mismatch else .error .overflow := by
  obtain ⟨hnum, m, hm⟩ := h.exists_truncate? (List.mem_append_right _ List.mem_cons_self)
  obtain ⟨hnotNaN, k, hk⟩ := h.exists_truncate? hmem
  have hklarge : 2 ^ 63 ≤ k := by
    obtain ⟨i, hi, hx⟩ := h _ hmem
    obtain rfl := Datum.int.inj hi
    exact Binary64.le_of_truncate? hlarge hx hk
  have hmlarge : 2 ^ 63 ≤ m :=
    hklarge.trans (Binary64.truncate?_mono (not_greatest_lt hfront hback hmem) hm hk)
  have hgreatest := greatest?_append_cons hnum hfront hback
  have hexact : (Datum.int n).hasValue m = true ↔ (Number.real (f (.int n)) == .int n) = true := by
    refine Number.int_beq_int.trans ⟨fun heq => ?_, fun heq => ?_⟩
    · subst heq
      exact Binary64.equals_int_of_truncate? hmlarge hm
    · exact Option.some.inj ((Binary64.truncate?_of_equals heq).symm.trans hm)
  generalize front ++ .int n :: back = cells at *
  simp only [roundedIntegers, h.mapM_realOf, Except.ok_bind, ← List.map_prod_left_eq_zip,
    hgreatest, hm, h.filter_present, h.any_isReal]
  split
  · next hvalue =>
    rw [if_pos (hexact.mp hvalue), List.mapM_map]
    refine Except.mapM_eq_error (fun d hd => ?_) hmem ?_
    · simp only [Function.comp_apply, (h.exists_truncate? hd).1]
      exact exactInteger_error
    · simp only [Function.comp_apply, hnotNaN]
      exact exactInteger_large hk hklarge
  · next hvalue =>
    rw [if_neg fun heq => hvalue (hexact.mpr heq), if_neg (Nat.lt_irrefl _)]
    exact truncatedCells_overflow h.fits hmem fun hroom => (hlarge.trans_lt hroom.2).false

theorem Nearest.isLeading_iff {front back : List Datum} {n : Int}
    (h : Nearest f (front ++ .int n :: back)) {x : Binary64} :
    IsLeading front n back x ↔ x = f (.int n) ∧ (Number.real x == .int n) = true ∧
      (∀ e ∈ front, (Number.real (f e)).lt (.real x) = true) ∧
      ∀ e ∈ back, (Number.real x).lt (.real (f e)) = false := by
  have hat : ∀ m y, .int m ∈ front ++ .int n :: back →
      (Binary64.ofInt? m = some y ↔ y = f (.int m)) := by
    intro m y hm
    obtain ⟨i, hi, hx⟩ := h _ hm
    obtain rfl := Datum.int.inj hi
    rw [hx, Option.some_inj, eq_comm]
  have hfront : ∀ e ∈ front, e ∈ front ++ .int n :: back := fun e =>
    List.mem_append_left _
  have hback : ∀ e ∈ back, e ∈ front ++ .int n :: back := fun e he =>
    List.mem_append_right _ (List.mem_cons_of_mem _ he)
  have hself : .int n ∈ front ++ .int n :: back := List.mem_append_right _ List.mem_cons_self
  constructor
  · rintro ⟨hnearest, hexact, hlt, hle⟩
    refine ⟨(hat n x hself).mp hnearest, hexact, fun e he => ?_, fun e he => ?_⟩
    · obtain ⟨m, rfl, hm⟩ := h e (hfront e he)
      exact hlt m _ he hm
    · obtain ⟨m, rfl, hm⟩ := h e (hback e he)
      exact hle m _ he hm
  · rintro ⟨rfl, hexact, hlt, hle⟩
    refine ⟨(hat n _ hself).mpr rfl, hexact, fun m y hm hy => ?_, fun m y hm hy => ?_⟩
    · rw [(hat m y (hfront _ hm)).mp hy]
      exact hlt _ hm
    · rw [(hat m y (hback _ hm)).mp hy]
      exact hle _ hm

theorem roundedIntegers_of_leader (hranged : Ranged cells) (h : HasLeader cells)
    {large : Int} (hmem : .int large ∈ cells) (hlarge : 2 ^ 63 ≤ large) :
    roundedIntegers cells = .error .mismatch := by
  obtain ⟨f, hf⟩ := exists_nearest hranged
  obtain ⟨front, n, back, x, rfl, hleading⟩ := h
  obtain ⟨rfl, hexact, hfront, hback⟩ := hf.isLeading_iff.mp hleading
  exact (roundedIntegers_of_greatest hf hfront hback hmem hlarge).trans (if_pos hexact)

theorem roundedIntegers_of_not_leader (hranged : Ranged cells) (h : ¬HasLeader cells)
    {large : Int} (hmem : .int large ∈ cells) (hlarge : 2 ^ 63 ≤ large) :
    roundedIntegers cells = .error .overflow := by
  obtain ⟨f, hf⟩ := exists_nearest hranged
  obtain ⟨front, d, back, rfl, hfront, hback⟩ :=
    exists_greatest (List.ne_nil_of_mem hmem) fun d hd => (hf.exists_truncate? hd).1
  obtain ⟨n, rfl, -⟩ := hf d (List.mem_append_right _ List.mem_cons_self)
  refine (roundedIntegers_of_greatest hf hfront hback hmem hlarge).trans (if_neg fun hexact => ?_)
  exact h ⟨front, n, back, _, rfl, hf.isLeading_iff.mpr ⟨rfl, hexact, hfront, hback⟩⟩

-- A cell that is missing or out of range makes the cells loose.
theorem integers_of_not_ranged (h : ∀ d ∈ cells, ColumnType.integer.Fits d) {d : Datum}
    (hd : d ∈ cells) (hroom : ¬ColumnType.integer.HasRoom d) (hranged : ¬Ranged cells) :
    integers cells = .error .overflow := by
  obtain ⟨c, hc, hout⟩ : ∃ c ∈ cells, ¬∃ n, c = .int n ∧ -2 ^ 63 ≤ n ∧ n < 2 ^ 64 := by
    simpa [Ranged] using hranged
  have hloose : Layout.ofDatum c = .loose := by
    cases (h c hc).cell with
    | missing => rfl
    | @integer n =>
        have hn : ¬(-2 ^ 63 ≤ n ∧ n < 2 ^ 64) := fun hn => hout ⟨n, rfl, hn⟩
        rw [ofDatum_int, if_neg (by omega), if_neg (by omega)]
  have hlayout : Layout.ofList cells = .loose := by
    refine Layout.ofList_of_mem (p := (· = .loose)) ?_ hc hloose
    intro k l
    cases k <;> cases l <;> decide
  rw [integers, hlayout]
  exact looseIntegers_overflow h hd hroom

theorem integers_unsigned (hcells : cells ≠ []) (hranged : Ranged cells)
    (hall : ∀ n, .int n ∈ cells → 2 ^ 63 ≤ n) : integers cells = .error .mismatch := by
  have hlayout : Layout.ofList cells = .unsigned := by
    obtain ⟨c, cs, rfl⟩ := List.exists_cons_of_ne_nil hcells
    refine Layout.ofList_closed (p := (· = .unsigned)) ?_ fun e he => ?_
    · intro k l
      cases k <;> cases l <;> decide
    · obtain ⟨n, rfl, -, hn⟩ := hranged e he
      exact ofDatum_unsigned ⟨hall n he, hn⟩
  rw [integers, hlayout]

-- Integers without room are refused for their size, unless they are taken for integers without a
-- sign. Those are refused for their kind.
theorem integers_error (h : ∀ d ∈ cells, ColumnType.integer.Fits d) {d : Datum} (hd : d ∈ cells)
    (hroom : ¬ColumnType.integer.HasRoom d) :
    (integers cells = .error .mismatch ∧ TakenUnsigned cells) ∨
      (integers cells = .error .overflow ∧ ¬TakenUnsigned cells) := by
  by_cases hranged : Ranged cells
  · obtain ⟨large, rfl, hlower, -⟩ := hranged d hd
    have hlarge : 2 ^ 63 ≤ large := Int.not_lt.mp fun hsmall => hroom ⟨hlower, hsmall⟩
    by_cases hall : ∀ n, .int n ∈ cells → 2 ^ 63 ≤ n
    · exact .inl ⟨integers_unsigned (List.ne_nil_of_mem hd) hranged hall, hranged, .inl hall⟩
    · obtain ⟨m, hm, hsigned⟩ : ∃ m, .int m ∈ cells ∧ m < 2 ^ 63 := by
        simpa using hall
      rw [integers, layout_double hranged hm hsigned hd hlarge]
      by_cases hleader : HasLeader cells
      · exact .inl ⟨roundedIntegers_of_leader hranged hleader hd hlarge, hranged, .inr hleader⟩
      · exact .inr ⟨roundedIntegers_of_not_leader hranged hleader hd hlarge,
          fun htaken => htaken.kind.elim hall hleader⟩
  · exact .inr ⟨integers_of_not_ranged h hd hroom hranged, fun htaken => hranged htaken.ranged⟩

-- Cells that have no room are not stored.
theorem nullable_error {type : ColumnType} (h : ∀ d ∈ cells, type.Fits d) {d : Datum}
    (hd : d ∈ cells) (hroom : ¬type.HasRoom d) :
    (nullable type cells = .error .mismatch ∧ type = .integer ∧ TakenUnsigned cells) ∨
      (nullable type cells = .error .overflow ∧ ¬(type = .integer ∧ TakenUnsigned cells)) := by
  cases type with
  | string => exact absurd trivial hroom
  | logical => exact absurd trivial hroom
  | number =>
      refine .inr ⟨(flat_eq h numbers).trans (numbers_overflow h hd hroom), fun htaken => ?_⟩
      cases htaken.1
  | integer =>
      rw [nullable, flat_eq h integers]
      simpa using integers_error h hd hroom

end Storage

end Unnest
