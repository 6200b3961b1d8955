import Unnest.Proofs.Outcome
import Unnest.Table.Storage

namespace Unnest

-- Whether a value is stored as a type. Unlike in a table, no integer is stored as a double.
def ColumnType.stores : ColumnType → Datum → Bool
  | string => Datum.isText
  | number => Datum.isReal
  | integer => Datum.isInteger
  | logical => Datum.isLogical

namespace Storage

-- Cells that are missing or stored as a type.
def Holds (type : ColumnType) (cells : List Datum) : Prop :=
  ∀ d ∈ cells, d.isMissing = true ∨ type.stores d = true

theorem present_ok {store : Datum → Except Failure Datum} {cells stored : List Datum}
    (h : present store cells = .ok stored) {d : Datum} (hd : d ∈ stored) :
    d = .none ∨ ∃ c ∈ cells, c.isMissing = false ∧ store c = .ok d := by
  obtain ⟨c, hc, heq⟩ := Except.exists_of_mem_mapM h hd
  split at heq
  · exact .inl (Except.ok.inj heq).symm
  · next hpresent => exact .inr ⟨c, hc, by simpa using hpresent, heq⟩

theorem holds_present {type : ColumnType} {store : Datum → Except Failure Datum}
    {cells stored : List Datum}
    (hstore : ∀ c d, store c = .ok d → d.isMissing = true ∨ type.stores d = true)
    (h : present store cells = .ok stored) : Holds type stored := by
  intro d hd
  rcases present_ok h hd with rfl | ⟨c, -, -, hc⟩
  · exact .inl rfl
  · exact hstore c d hc

theorem holds_texts {cells stored : List Datum} (h : texts cells = .ok stored) :
    Holds .string stored := by
  refine holds_present (fun c d hd => ?_) h
  split at hd
  · obtain rfl := Except.ok.inj hd
    exact .inr rfl
  · obtain ⟨t, -, rfl⟩ := Except.map_eq_ok.mp hd
    exact .inr rfl

theorem stored_realCell (x : Binary64) :
    (realCell x).isMissing = true ∨ ColumnType.number.stores (realCell x) = true := by
  unfold realCell
  split
  · exact .inl rfl
  · exact .inr rfl

theorem holds_realCells {store : Datum → Except Failure Binary64} {cells stored : List Datum}
    (h : present (fun d => (store d).map realCell) cells = .ok stored) :
    Holds .number stored := by
  refine holds_present (fun c d hd => ?_) h
  obtain ⟨x, -, rfl⟩ := Except.map_eq_ok.mp hd
  exact stored_realCell x

theorem holds_numbers {cells stored : List Datum} (h : numbers cells = .ok stored) :
    Holds .number stored := by
  unfold numbers at h
  split at h
  · refine holds_present (fun c d hd => ?_) h
    split at hd
    case h_4 => cases hd
    all_goals
      obtain ⟨x, -, rfl⟩ := Except.map_eq_ok.mp hd
      exact stored_realCell x
  · cases h
  · exact holds_realCells h

theorem holds_truncatedCells {cells stored : List Datum} (h : truncatedCells cells = .ok stored) :
    Holds .integer stored := by
  refine holds_present (fun c d hd => ?_) h
  obtain ⟨n, -, rfl⟩ := Except.map_eq_ok.mp hd
  exact .inr rfl

theorem holds_looseIntegers {cells stored : List Datum} (h : looseIntegers cells = .ok stored) :
    Holds .integer stored := by
  unfold looseIntegers at h
  obtain ⟨found, hfound, hnext⟩ := Except.bind_eq_ok.mp h
  simp only at hnext
  split at hnext
  · obtain rfl := Except.ok.inj hnext
    exact holds_truncatedCells hfound
  · cases hnext

theorem exactInteger_ok {x : Binary64} {d : Datum} (h : exactInteger x = .ok d) :
    ∃ n, d = .int n := by
  unfold exactInteger at h
  split at h
  · next n _ =>
    split at h
    · exact ⟨n, (Except.ok.inj h).symm⟩
    · cases h
  · cases h

theorem holds_roundedIntegers {cells stored : List Datum}
    (h : roundedIntegers cells = .ok stored) : Holds .integer stored := by
  unfold roundedIntegers at h
  obtain ⟨reals, -, hnext⟩ := Except.bind_eq_ok.mp h
  split at hnext
  · obtain rfl := Except.ok.inj hnext
    intro d hd
    obtain ⟨c, -, rfl⟩ := List.mem_map.mp hd
    exact .inl rfl
  · split at hnext
    · cases hnext
    · simp only at hnext
      split at hnext
      · intro d hd
        obtain ⟨x, -, hx⟩ := Except.exists_of_mem_mapM hnext hd
        split at hx
        · obtain rfl := Except.ok.inj hx
          exact .inl rfl
        · obtain ⟨n, rfl⟩ := exactInteger_ok hx
          exact .inr rfl
      · split at hnext
        · exact holds_looseIntegers hnext
        · split at hnext
          · exact holds_looseIntegers hnext
          · exact holds_truncatedCells hnext

theorem holds_integers {cells stored : List Datum} (h : integers cells = .ok stored) :
    Holds .integer stored := by
  unfold integers at h
  split at h
  · exact holds_truncatedCells h
  · exact holds_truncatedCells h
  · cases h
  · exact holds_roundedIntegers h
  · intro d hd
    obtain ⟨c, -, hc⟩ := Except.exists_of_mem_mapM h hd
    split at hc
    case h_3 => cases hc
    all_goals
      obtain ⟨n, -, rfl⟩ := Except.map_eq_ok.mp hc
      exact .inr rfl
  · cases h
  · exact holds_looseIntegers h

theorem oneOrZero_ok {c d : Datum} (h : oneOrZero c = .ok d) : ∃ b, d = .bool b := by
  unfold oneOrZero at h
  split at h
  · exact ⟨false, (Except.ok.inj h).symm⟩
  · split at h
    · exact ⟨true, (Except.ok.inj h).symm⟩
    · cases h

theorem holds_logicals {cells stored : List Datum} (h : logicals cells = .ok stored) :
    Holds .logical stored := by
  simp only [logicals] at h
  split at h
  · split at h
    · cases h
    · split at h
      · next hlogical =>
        intro d hd
        rcases present_ok h hd with rfl | ⟨c, hc, hpresent, heq⟩
        · exact .inl rfl
        · obtain rfl := Except.ok.inj heq
          refine .inr (List.all_eq_true.mp hlogical c (List.mem_filter.mpr ⟨hc, ?_⟩))
          simpa using hpresent
      · obtain ⟨_, -, hstored⟩ := Except.bind_eq_ok.mp h
        refine holds_present (fun c d hd => ?_) hstored
        obtain ⟨b, rfl⟩ := oneOrZero_ok hd
        exact .inr rfl
  · cases h

theorem flat_ok {store : List Datum → Except Failure (List Datum)} {cells stored : List Datum}
    (h : flat store cells = .ok stored) : store (cells.map Datum.unboxed) = .ok stored := by
  simp only [flat] at h
  split at h
  · cases h
  · split at h
    · cases h
    · exact h

-- Storage with room for missing cells holds values of its type.
theorem holds_nullable {type : ColumnType} {cells stored : List Datum}
    (h : nullable type cells = .ok stored) : Holds type stored := by
  cases type with
  | string => exact holds_texts h
  | number => exact holds_numbers (flat_ok h)
  | integer => exact holds_integers (flat_ok h)
  | logical => exact holds_logicals h

theorem signedOf_ok {n m : Int} (h : signedOf n = .ok m) : fitsSigned m = true := by
  unfold signedOf at h
  split at h
  · next hfits => exact Except.ok.inj h ▸ hfits
  · cases h

-- Whatever becomes an integer of the machine has 64 bits.
theorem truncated_ok {d : Datum} {n : Int} (h : truncated d = .ok n) : fitsSigned n = true := by
  cases d with
  | bool b =>
      obtain rfl := Except.ok.inj h
      cases b <;> rfl
  | int m => exact signedOf_ok h
  | float x =>
      simp only [truncated] at h
      split at h
      · exact signedOf_ok h
      · cases h
  | text t =>
      obtain ⟨m, -, hm⟩ := Except.bind_eq_ok.mp h
      exact signedOf_ok hm
  | foreign f => cases f <;> cases h
  | _ => cases h

theorem machineIntegers_ok {cells stored : List Datum} (h : machineIntegers cells = .ok stored) :
    ∀ d ∈ stored, ∃ n, d = .int n ∧ fitsSigned n = true := by
  simp only [machineIntegers] at h
  obtain ⟨numbers, hnumbers, hnext⟩ := Except.bind_eq_ok.mp h
  split at hnext
  · obtain rfl := Except.ok.inj hnext
    intro d hd
    obtain ⟨n, hn, rfl⟩ := List.mem_map.mp hd
    obtain ⟨c, -, hc⟩ := Except.exists_of_mem_mapM hnumbers hn
    exact ⟨n, rfl, truncated_ok hc⟩
  · cases hnext

theorem holds_machine {type : ColumnType} {cells stored : List Datum}
    (h : machine type cells = .ok stored) : Holds type stored := by
  cases type with
  | string => exact holds_texts h
  | number => exact holds_realCells h
  | integer =>
      intro d hd
      obtain ⟨n, rfl, -⟩ := machineIntegers_ok h d hd
      exact .inr rfl
  | logical =>
      obtain rfl := Except.ok.inj h
      intro d hd
      obtain ⟨c, -, rfl⟩ := List.mem_map.mp hd
      exact .inr rfl

end Storage

end Unnest
