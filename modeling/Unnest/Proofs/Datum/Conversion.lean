import Unnest.Proofs.Datum.Entries
import Unnest.Proofs.Json.Branches
import Unnest.Proofs.Outcome

namespace Unnest

theorem Except.mapM_map {f : α → Except ε β} (g : β → γ) (l : List α) :
    (l.mapM fun a => (f a).map g) = (l.mapM f).map (List.map g) := by
  induction l with
  | nil => rfl
  | cons a l ih =>
      rw [List.mapM_cons, List.mapM_cons, ih]
      cases f a with
      | error e => rfl
      | ok b => cases l.mapM f <;> rfl

namespace Datum

-- The keys of a mapping have to be texts. Positions are not looked at.
def checkKey (place : List Datum) (d key : Datum) : Except Failure Unit :=
  match d, key with
  | dict _, text _ => .ok ()
  | dict _, key => .error (.reject (.objectKey key.typeName) (.record [("path", .list place)]))
  | _, _ => .ok ()

-- Reads an entry of a container, first its key and then its item.
def readEntry (read : List Datum → Datum → Except Failure α) (place : List Datum) (d : Datum)
    (e : Datum × Datum) : Except Failure (Datum × α) := do
  d.checkKey place e.1
  return (e.1, ← read (place ++ [e.1]) e.2)

theorem readEntry_eq_ok_iff {read : List Datum → Datum → Except Failure α} {place : List Datum}
    {d : Datum} {e : Datum × Datum} {item : Datum × α} :
    readEntry read place d e = .ok item ↔ d.checkKey place e.1 = .ok () ∧ item.1 = e.1 ∧
      read (place ++ [e.1]) e.2 = .ok item.2 := by
  rw [readEntry, Except.bind_eq_ok]
  constructor
  · rintro ⟨⟨⟩, hkey, h⟩
    obtain ⟨x, hx, hitem⟩ := Except.bind_eq_ok.mp h
    obtain rfl := Except.ok.inj hitem
    exact ⟨hkey, rfl, hx⟩
  · rintro ⟨hkey, hname, hx⟩
    exact ⟨(), hkey, Except.bind_eq_ok.mpr ⟨item.2, hx, by rw [← hname]; rfl⟩⟩

theorem readEntry_ok {read : List Datum → Datum → Except Failure α} {place : List Datum}
    {d : Datum} {e : Datum × Datum} (h : d.checkKey place e.1 = .ok ()) :
    readEntry read place d e = (read (place ++ [e.1]) e.2).map (e.1, ·) := by
  rw [readEntry, h, Except.ok_bind]
  cases read (place ++ [e.1]) e.2 <;> rfl

def keyText : Datum → Text
  | text t => t
  | _ => []

-- The items that have been read have the keys of the entries.
theorem keys_readEntry {read : List Datum → Datum → Except Failure α} {place : List Datum}
    {d : Datum} {es : List (Datum × Datum)} {items : List (Datum × α)}
    (h : es.mapM (readEntry read place d) = .ok items) :
    items.map Prod.fst = es.map Prod.fst := by
  rw [← List.forall₂_eq_eq_eq, List.forall₂_map_left_iff, List.forall₂_map_right_iff]
  refine ((Except.mapM_eq_ok_iff.mp h).imp fun e item hitem => ?_).flip
  exact (readEntry_eq_ok_iff.mp hitem).2.1

theorem keyText_readEntry {read : List Datum → Datum → Except Failure α} {place : List Datum}
    {es fs : List (Datum × Datum)} {items : List (Datum × α)}
    (h : es.mapM (readEntry read place (dict fs)) = .ok items) :
    ∀ e ∈ items, text e.1.keyText = e.1 := by
  intro item hitem
  obtain ⟨e, -, he⟩ := Except.exists_of_mem_mapM h hitem
  obtain ⟨hkey, hname, -⟩ := readEntry_eq_ok_iff.mp he
  rw [hname]
  generalize e.1 = key at hkey
  cases key with
  | text _ => rfl
  | none | bool _ | int _ | float _ | list _ | tuple _ | dict _ | kind _ | descriptor _
  | machineInt _ | machineBool _ | foreign _ => cases hkey

-- The value of a container from those of its entries.
def assemble (d : Datum) (items : List (Datum × Json)) : Json :=
  match d with
  | dict _ => .object (items.map fun (k, x) => (k.keyText, x))
  | _ => .array (items.map Prod.snd)

theorem ofDatumElements_eq {place : List Datum} {d : Datum}
    (hd : ∀ key, d.checkKey place key = .ok ()) (before : Nat) (xs : List Datum) :
    Json.ofDatumElements place (before + 1) xs =
      ((numbered before xs).mapM (readEntry Json.ofDatum place d)).map (List.map Prod.snd) := by
  induction xs generalizing before with
  | nil => rfl
  | cons x xs ih =>
      rw [Json.ofDatumElements, ih (before + 1), numbered_cons, List.mapM_cons,
        readEntry_ok (hd _)]
      cases Json.ofDatum (place ++ [ofNat (before + 1)]) x with
      | error e => rfl
      | ok j => cases (numbered (before + 1) xs).mapM (readEntry Json.ofDatum place d) <;> rfl

theorem ofDatumEntries_eq (place : List Datum) (fs es : List (Datum × Datum)) :
    Json.ofDatumEntries place es = (es.mapM (readEntry Json.ofDatum place (dict fs))).map
      (List.map fun (k, x) => (k.keyText, x)) := by
  induction es with
  | nil => rfl
  | cons e es ih =>
      obtain ⟨key, x⟩ := e
      rw [List.mapM_cons]
      cases key with
      | text k =>
          rw [Json.ofDatumEntries, ih, readEntry_ok rfl]
          cases Json.ofDatum (place ++ [text k]) x with
          | error e => rfl
          | ok j => cases es.mapM (readEntry Json.ofDatum place (dict fs)) <;> rfl
      | none | bool _ | int _ | float _ | list _ | tuple _ | dict _ | kind _ | descriptor _
      | machineInt _ | machineBool _ | foreign _ => rfl

-- A container is read entry by entry.
theorem ofDatum_container {d : Datum} (h : d.isContainer = true) (place : List Datum) :
    Json.ofDatum place d = (d.entries.mapM (readEntry Json.ofDatum place d)).map d.assemble := by
  rcases container_cases h with ⟨xs, rfl⟩ | ⟨xs, rfl⟩ | ⟨es, rfl⟩
  · rw [Json.ofDatum, ofDatumElements_eq (d := list xs) (fun _ => rfl) 0 xs, entries]
    cases (numbered 0 xs).mapM (readEntry Json.ofDatum place (list xs)) <;> rfl
  · rw [Json.ofDatum, ofDatumElements_eq (d := tuple xs) (fun _ => rfl) 0 xs, entries]
    cases (numbered 0 xs).mapM (readEntry Json.ofDatum place (tuple xs)) <;> rfl
  · rw [Json.ofDatum, ofDatumEntries_eq place es es, entries]
    cases es.mapM (readEntry Json.ofDatum place (dict es)) <;> rfl

end Datum

end Unnest
