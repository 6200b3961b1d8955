import Unnest.Proofs.Datum.Assembly

namespace Unnest

def failureOf : Except ε α → Option ε
  | .ok _ => none
  | .error e => some e

theorem failureOf_eq_some_iff {x : Except ε α} {e : ε} : failureOf x = some e ↔ x = .error e := by
  cases x <;> simp [failureOf]

theorem failureOf_eq_none_iff {x : Except ε α} : failureOf x = none ↔ ∃ a, x = .ok a := by
  cases x <;> simp [failureOf]

theorem failureOf_map (f : α → β) (x : Except ε α) : failureOf (x.map f) = failureOf x := by
  cases x <;> rfl

-- Where each of several steps fails as the first of some things does, all of them fail as the
-- first of all these things does.
theorem failureOf_mapM {f : α → Except ε β} {g : α → List γ} {o : γ → Option ε} {l : List α}
    (h : ∀ a ∈ l, failureOf (f a) = (g a).findSome? o) :
    failureOf (l.mapM f) = (l.flatMap g).findSome? o := by
  induction l with
  | nil => rfl
  | cons a l ih =>
      obtain ⟨ha, hl⟩ := List.forall_mem_cons.mp h
      rw [List.mapM_cons, List.flatMap_cons, List.findSome?_append, ← ha, ← ih hl]
      cases f a with
      | error e => rfl
      | ok b => cases l.mapM f <;> rfl

-- What is looked at when a datum is read: a key in the mapping at a place, or a value at a place.
inductive Reading where
  | key (place : List Datum) (k : Datum)
  | value (place : List Datum) (d : Datum)

namespace Reading

def place : Reading → List Datum
  | key place _ => place
  | value place _ => place

-- A key offends unless it is a text, and a value unless it is a container or a scalar.
def offends : Reading → Bool
  | key _ (.text _) => false
  | key _ _ => true
  | value _ d =>
      match d with
      | .none | .bool _ | .int _ | .float _ | .text _ | .list _ | .tuple _ | .dict _ => false
      | _ => true

def fault : Reading → Fault
  | key _ k => .objectKey k.typeName
  | value _ d => .notJsonValue d.typeName

def rejection (r : Reading) : Rejection :=
  { first := r.fault, context := .record [("path", .list r.place)] }

theorem type_rejection (r : Reading) : r.rejection.type = .source := by
  cases r <;> rfl

def failure? (r : Reading) : Option Failure :=
  if r.offends then some (.rejected r.rejection) else none

end Reading

namespace Datum

-- The keys of a mapping are looked at, positions are not.
def keyReading (place : List Datum) (d key : Datum) : List Reading :=
  match d with
  | dict _ => [.key place key]
  | _ => []

-- All that is looked at in a datum, in preorder: each value before its entries, one entry before
-- the next, and the key of an entry before its value.
def readings (place : List Datum) (d : Datum) : List Reading :=
  .value place d :: d.entries.attach.flatMap fun ⟨e, _⟩ =>
    d.keyReading place e.1 ++ e.2.readings (place ++ [e.1])
termination_by sizeOf d
decreasing_by exact sizeOf_lt_of_mem_entries ‹_›

theorem readings_eq (place : List Datum) (d : Datum) : d.readings place =
    .value place d :: d.entries.flatMap fun e =>
      d.keyReading place e.1 ++ e.2.readings (place ++ [e.1]) := by
  rw [readings]
  simp only [List.flatMap_subtype, List.unattach_attach]

theorem failureOf_checkKey (place : List Datum) (d key : Datum) :
    failureOf (d.checkKey place key) = (d.keyReading place key).findSome? Reading.failure? := by
  cases d with
  | dict es => cases key <;> rfl
  | none | bool _ | int _ | float _ | text _ | list _ | tuple _ | kind _ | descriptor _
  | machineInt _ | machineBool _ | foreign _ => rfl

theorem failureOf_readEntry (read : List Datum → Datum → Except Failure α) (place : List Datum)
    (d : Datum) (e : Datum × Datum) : failureOf (readEntry read place d e) =
      (failureOf (d.checkKey place e.1)).or (failureOf (read (place ++ [e.1]) e.2)) := by
  rw [readEntry]
  cases d.checkKey place e.1 with
  | error e => rfl
  | ok _ => cases read (place ++ [e.1]) e.2 <;> rfl

-- Reading fails for the first of all readings that offends.
theorem failureOf_ofDatum (place : List Datum) (d : Datum) :
    failureOf (Json.ofDatum place d) = (d.readings place).findSome? Reading.failure? := by
  induction d using induction_entries generalizing place with
  | step d ih =>
      cases hcontainer : d.isContainer with
      | true =>
          have hvalue : (Reading.value place d).failure?.isNone = true := by
            cases d <;> first | rfl | cases hcontainer
          rw [ofDatum_container hcontainer, failureOf_map, readings_eq,
            List.findSome?_cons_of_isNone hvalue]
          refine failureOf_mapM fun e he => ?_
          rw [failureOf_readEntry, failureOf_checkKey, ih e he, List.findSome?_append]
      | false =>
          rw [readings_eq]
          cases d <;> first | rfl | cases hcontainer

-- What JSON can spell: the keys of all mappings are texts, and what is no container is a scalar.
inductive IsJson : Datum → Prop
  | none : IsJson .none
  | bool (b : Bool) : IsJson (.bool b)
  | int (n : Int) : IsJson (.int n)
  | float (x : Binary64) : IsJson (.float x)
  | text (t : Text) : IsJson (.text t)
  | list {xs : List Datum} : (∀ x ∈ xs, IsJson x) → IsJson (.list xs)
  | tuple {xs : List Datum} : (∀ x ∈ xs, IsJson x) → IsJson (.tuple xs)
  | dict {es : List (Datum × Datum)} : (∀ e ∈ es, ∃ k, e.1 = .text k) →
      (∀ e ∈ es, IsJson e.2) → IsJson (.dict es)

theorem exists_ofDatum_container {d : Datum} (h : d.isContainer = true) (place : List Datum) :
    (∃ j, Json.ofDatum place d = .ok j) ↔ ∀ e ∈ d.entries,
      d.checkKey place e.1 = .ok () ∧ ∃ j, Json.ofDatum (place ++ [e.1]) e.2 = .ok j := by
  rw [ofDatum_container h]
  constructor
  · rintro ⟨j, hj⟩ e he
    obtain ⟨items, hitems, -⟩ := Except.map_eq_ok.mp hj
    obtain ⟨item, hitem⟩ := Except.exists_of_mapM_eq_ok hitems he
    obtain ⟨hkey, -, hread⟩ := readEntry_eq_ok_iff.mp hitem
    exact ⟨hkey, item.2, hread⟩
  · intro hall
    obtain ⟨items, hitems⟩ := Except.exists_mapM_eq_ok fun e he => by
      obtain ⟨hkey, j, hj⟩ := hall e he
      exact ⟨(e.1, j), readEntry_eq_ok_iff.mpr ⟨hkey, rfl, hj⟩⟩
    exact ⟨_, Except.map_eq_ok.mpr ⟨items, hitems, rfl⟩⟩

theorem checkKey_dict_iff {place : List Datum} {es : List (Datum × Datum)} {key : Datum} :
    (dict es).checkKey place key = .ok () ↔ ∃ k, key = text k := by
  cases key <;> simp [checkKey]

-- Reading and spelling ask the same of a container: keys that pass, and the same of its values.
theorem isJson_container_iff {d : Datum} (h : d.isContainer = true) (place : List Datum) :
    d.IsJson ↔ ∀ e ∈ d.entries, d.checkKey place e.1 = .ok () ∧ e.2.IsJson := by
  rcases container_cases h with ⟨xs, rfl⟩ | ⟨xs, rfl⟩ | ⟨es, rfl⟩
  · have hspell : (list xs).IsJson ↔ ∀ x ∈ xs, x.IsJson := ⟨fun | .list hxs => hxs, .list⟩
    rw [hspell, ← forall_numbered (p := IsJson)]
    exact forall₂_congr fun e _ => (and_iff_right rfl).symm
  · have hspell : (tuple xs).IsJson ↔ ∀ x ∈ xs, x.IsJson := ⟨fun | .tuple hxs => hxs, .tuple⟩
    rw [hspell, ← forall_numbered (p := IsJson)]
    exact forall₂_congr fun e _ => (and_iff_right rfl).symm
  · constructor
    · intro hjson e he
      cases hjson with
      | dict hkeys hvalues => exact ⟨checkKey_dict_iff.mpr (hkeys e he), hvalues e he⟩
    · intro hall
      exact .dict (fun e he => checkKey_dict_iff.mp (hall e he).1) fun e he => (hall e he).2

theorem exists_ofDatum_iff (place : List Datum) (d : Datum) :
    (∃ j, Json.ofDatum place d = .ok j) ↔ d.IsJson := by
  induction d using induction_entries generalizing place with
  | step d ih =>
      cases hcontainer : d.isContainer with
      | true =>
          rw [exists_ofDatum_container hcontainer, isJson_container_iff hcontainer place]
          exact forall₂_congr fun e he => and_congr_right fun _ => ih e he _
      | false =>
          cases d with
          | none | bool _ | int _ | float _ | text _ =>
              exact iff_of_true ⟨_, rfl⟩ (by constructor)
          | list _ | tuple _ | dict _ => cases hcontainer
          | kind _ | descriptor _ | machineInt _ | machineBool _ | foreign _ =>
              exact iff_of_false (fun ⟨j, hj⟩ => by cases hj) nofun

end Datum

-- Exactly what JSON can spell is read. Anything else is refused for what offends first, with the
-- place at which it stands, or at which the mapping stands whose key it is. Reading with a stack
-- of open containers is refused for the same.
theorem Node.ofDatum_exact (origin : List Datum) (d : Datum) :
    ((∃ v, ofDatum origin d = .ok v) ↔ d.IsJson) ∧
    (¬d.IsJson → ∃ before r after, d.readings origin = before ++ r :: after ∧
      (∀ q ∈ before, q.offends = false) ∧ r.offends = true ∧
      ofDatum origin d = .error (.rejected r.rejection) ∧ r.rejection.type = .source ∧
      Labelled.build origin d = .error (.rejected r.rejection)) := by
  have hread : (∃ v, ofDatum origin d = .ok v) ↔ d.IsJson := by
    rw [← Datum.exists_ofDatum_iff origin d]
    constructor
    · rintro ⟨v, hv⟩
      obtain ⟨j, hj, -⟩ := Except.map_eq_ok.mp hv
      exact ⟨j, hj⟩
    · rintro ⟨j, hj⟩
      exact ⟨_, Except.map_eq_ok.mpr ⟨j, hj, rfl⟩⟩
  refine ⟨hread, fun hd => ?_⟩
  cases hjson : Json.ofDatum origin d with
  | ok j => exact absurd ((Datum.exists_ofDatum_iff origin d).mp ⟨j, hjson⟩) hd
  | error e =>
      have hfirst := (Datum.failureOf_ofDatum origin d).symm
      rw [hjson, failureOf, List.findSome?_eq_some_iff] at hfirst
      obtain ⟨before, r, after, hreadings, hr, hbefore⟩ := hfirst
      obtain ⟨hoffends, he⟩ := (Option.ite_none_right_eq_some ..).mp hr
      obtain rfl := Option.some.inj he
      refine ⟨before, r, after, hreadings, fun q hq => ?_, hoffends, ?_, r.type_rejection, ?_⟩
      · have hnone := hbefore q hq
        simpa [Reading.failure?] using hnone
      · rw [ofDatum, hjson]
        rfl
      · rw [Labelled.build_eq, Labelled.ofDatum, hjson]
        rfl

-- A set that lies deep comes before a key that is no text and before bytes.
theorem Node.ofDatum_exact_set :
    ∃ (d : Datum) (e : Failure),
      d = .dict [(.text "a", .list [.int 1, .tuple [.foreign .set]]), (.int 2, .none),
        (.text "b", .foreign .bytes)] ∧
      e = .reject (.notJsonValue "set")
        (.record [("path", .list [.text "root", .text "a", .int 2, .int 1])]) ∧
      ¬d.IsJson ∧ ofDatum [.text "root"] d = .error e ∧
      Labelled.build [.text "root"] d = .error e := by
  let d : Datum := .dict [(.text "a", .list [.int 1, .tuple [.foreign .set]]), (.int 2, .none),
    (.text "b", .foreign .bytes)]
  have hfails : ofDatum [.text "root"] d = .error (.reject (.notJsonValue "set")
      (.record [("path", .list [.text "root", .text "a", .int 2, .int 1])])) := rfl
  obtain ⟨hread, hrefused⟩ := ofDatum_exact [.text "root"] d
  have hnot : ¬d.IsJson := by
    intro h
    obtain ⟨v, hv⟩ := hread.mpr h
    cases hfails.symm.trans hv
  obtain ⟨before, r, after, -, -, -, hr, -, hbuild⟩ := hrefused hnot
  have hfailure := Except.error.inj (hr.symm.trans hfails)
  exact ⟨d, _, rfl, rfl, hnot, hfails, hfailure ▸ hbuild⟩

end Unnest
