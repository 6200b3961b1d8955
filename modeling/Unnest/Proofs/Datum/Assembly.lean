import Unnest.Proofs.Datum.Conversion

namespace Unnest

-- A value with the path that is recorded for it, and for each value below it.
inductive Labelled where
  | scalar (place : List Datum) (j : Json)
  | array (place : List Datum) (elements : List Labelled)
  | object (place : List Datum) (entries : List (Text × Labelled))

namespace Json

mutual

def labelled (place : List Datum) : Json → Labelled
  | array xs => .array place (labelledElements place 0 xs)
  | object es => .object place (labelledEntries place es)
  | j => .scalar place j
  termination_by structural j => j

def labelledElements (place : List Datum) (before : Nat) : List Json → List Labelled
  | [] => []
  | x :: xs =>
      x.labelled (place ++ [.ofNat (before + 1)]) :: labelledElements place (before + 1) xs
  termination_by structural xs => xs

def labelledEntries (place : List Datum) : List (Text × Json) → List (Text × Labelled)
  | [] => []
  | (k, x) :: es => (k, x.labelled (place ++ [.text k])) :: labelledEntries place es
  termination_by structural es => es

end

theorem labelledElements_eq {place : List Datum} {before : Nat} {items : List (Datum × Json)}
    {xs : List Datum} (h : items.map Prod.fst = (Datum.numbered before xs).map Prod.fst) :
    labelledElements place before (items.map Prod.snd) =
      items.map fun e => e.2.labelled (place ++ [e.1]) := by
  induction items generalizing before xs with
  | nil => rfl
  | cons e items ih =>
      cases xs with
      | nil => cases h
      | cons x xs =>
          rw [Datum.numbered_cons] at h
          obtain ⟨hkey, hrest⟩ := List.cons.inj h
          rw [List.map_cons, List.map_cons, labelledElements, ih hrest, hkey]

theorem labelledEntries_eq {place : List Datum} {items : List (Datum × Json)}
    (h : ∀ e ∈ items, .text e.1.keyText = e.1) :
    labelledEntries place (items.map fun (k, x) => (k.keyText, x)) =
      items.map fun (k, x) => (k.keyText, x.labelled (place ++ [k])) := by
  induction items with
  | nil => rfl
  | cons e items ih =>
      obtain ⟨hkey, hrest⟩ := List.forall_mem_cons.mp h
      rw [List.map_cons, List.map_cons, labelledEntries, ih hrest, hkey]

end Json

namespace Labelled

-- What is read from a datum at a place.
def ofDatum (place : List Datum) (d : Datum) : Except Failure Labelled :=
  (Json.ofDatum place d).map (Json.labelled place)

-- A container from its items, each of which has been read under a key or position.
def ofItems (place : List Datum) (d : Datum) (items : List (Datum × Labelled)) : Labelled :=
  match d with
  | .dict _ => .object place (items.map fun (k, x) => (k.keyText, x))
  | _ => .array place (items.map Prod.snd)

-- A datum that is no container is a scalar or nothing that JSON knows.
def ofScalar (place : List Datum) : Datum → Except Failure Labelled
  | .none => .ok (.scalar place .null)
  | .bool b => .ok (.scalar place (.logical b))
  | .int n => .ok (.scalar place (.number (.int n)))
  | .float x => .ok (.scalar place (.number (.real x)))
  | .text t => .ok (.scalar place (.string t))
  | d => .error (.reject (.notJsonValue d.typeName) (.record [("path", .list place)]))

theorem ofDatum_scalar {d : Datum} (h : d.isContainer = false) (place : List Datum) :
    ofDatum place d = ofScalar place d := by
  cases d with
  | list _ | tuple _ | dict _ => cases h
  | none | bool _ | int _ | float _ | text _ | kind _ | descriptor _ | machineInt _
  | machineBool _ | foreign _ => rfl

theorem labelled_assemble {place : List Datum} {d : Datum} {items : List (Datum × Json)}
    (h : d.entries.mapM (Datum.readEntry Json.ofDatum place d) = .ok items)
    (hd : d.isContainer = true) : (d.assemble items).labelled place =
      ofItems place d (items.map fun e => (e.1, e.2.labelled (place ++ [e.1]))) := by
  have hkeys := Datum.keys_readEntry h
  have hitems : (items.map fun e => (e.1, e.2.labelled (place ++ [e.1]))).map Prod.snd =
      items.map fun e => e.2.labelled (place ++ [e.1]) := List.map_map
  rcases Datum.container_cases hd with ⟨xs, rfl⟩ | ⟨xs, rfl⟩ | ⟨es, rfl⟩
  · exact congrArg (array place) ((Json.labelledElements_eq hkeys).trans hitems.symm)
  · exact congrArg (array place) ((Json.labelledElements_eq hkeys).trans hitems.symm)
  · have htexts := Datum.keyText_readEntry h
    refine congrArg (object place) ((Json.labelledEntries_eq htexts).trans ?_)
    rw [List.map_map]
    rfl

theorem ofDatum_container {d : Datum} (h : d.isContainer = true) (place : List Datum) :
    ofDatum place d =
      (d.entries.mapM (Datum.readEntry ofDatum place d)).map (ofItems place d) := by
  have hentry : Datum.readEntry ofDatum place d = fun e =>
      (Datum.readEntry Json.ofDatum place d e).map fun e =>
        (e.1, e.2.labelled (place ++ [e.1])) := by
    funext e
    rw [Datum.readEntry, Datum.readEntry, ofDatum]
    cases d.checkKey place e.1 with
    | error e => rfl
    | ok _ => cases Json.ofDatum (place ++ [e.1]) e.2 <;> rfl
  rw [ofDatum, Datum.ofDatum_container h, hentry, Except.mapM_map]
  cases hitems : d.entries.mapM (Datum.readEntry Json.ofDatum place d) with
  | error e => rfl
  | ok items => exact congrArg Except.ok (labelled_assemble hitems h)

end Labelled

-- A container that is being read: the entries that are still to come, and the items that have been
-- read.
structure Layer where
  container : Datum
  place : List Datum
  pending : List (Datum × Datum)
  built : List (Datum × Labelled)

namespace Layer

def opened (place : List Datum) (d : Datum) : Layer :=
  ⟨d, place, d.entries, []⟩

def closed (f : Layer) : Labelled :=
  .ofItems f.place f.container f.built

def receive (f : Layer) (key : Datum) (item : Labelled) : Layer :=
  { f with built := f.built ++ [(key, item)] }

-- One step with the innermost container and those around it. An item that is a container itself is
-- read before anything else is; when it has been read, its key is the end of its path.
def step (top : Layer) (rest : List Layer) : Except Failure (Labelled ⊕ Layer × List Layer) :=
  match top.pending with
  | (key, item) :: pending => do
      top.container.checkKey top.place key
      let place := top.place ++ [key]
      if item.isContainer then
        return .inr (opened place item, { top with pending } :: rest)
      else
        return .inr ({ top with pending }.receive key (← Labelled.ofScalar place item), rest)
  | [] =>
      match rest with
      | [] => return .inl top.closed
      | below :: rest => return .inr (below.receive (top.place.getLastD .none) top.closed, rest)

-- What one step can lead to.
inductive Step (top : Layer) (rest : List Layer) : Layer → List Layer → Prop
  | descend {key item pending} : top.pending = (key, item) :: pending →
      top.container.checkKey top.place key = .ok () → item.isContainer = true →
      Step top rest (opened (top.place ++ [key]) item) ({ top with pending } :: rest)
  | scalar {key item pending node} : top.pending = (key, item) :: pending →
      top.container.checkKey top.place key = .ok () → item.isContainer = false →
      Labelled.ofScalar (top.place ++ [key]) item = .ok node →
      Step top rest ({ top with pending }.receive key node) rest
  | ascend {below later} : top.pending = [] → rest = below :: later →
      Step top rest (below.receive (top.place.getLastD .none) top.closed) later

variable {top next : Layer} {rest others : List Layer}

theorem step_ok (h : step top rest = .ok (.inr (next, others))) : Step top rest next others := by
  unfold step at h
  split at h
  · next key item pending hpending =>
    obtain ⟨⟨⟩, hkey, h⟩ := Except.bind_eq_ok.mp h
    dsimp only at h
    split at h
    · next hitem =>
      obtain ⟨rfl, rfl⟩ := Prod.mk.inj (Sum.inr.inj (Except.ok.inj h))
      exact .descend hpending hkey hitem
    · next hitem =>
      obtain ⟨node, hnode, h⟩ := Except.bind_eq_ok.mp h
      obtain ⟨rfl, rfl⟩ := Prod.mk.inj (Sum.inr.inj (Except.ok.inj h))
      exact .scalar hpending hkey (Bool.not_eq_true _ ▸ hitem) hnode
  · next hpending =>
    split at h
    · cases h
    · obtain ⟨rfl, rfl⟩ := Prod.mk.inj (Sum.inr.inj (Except.ok.inj h))
      exact .ascend hpending rfl

-- How much there is left to read, with one for each container that is open.
noncomputable def weight (f : Layer) : Nat :=
  1 + (f.pending.map fun e => sizeOf e.2).sum

noncomputable def totalWeight (top : Layer) (rest : List Layer) : Nat :=
  top.weight + (rest.map weight).sum

theorem Step.totalWeight_lt (h : Step top rest next others) :
    totalWeight next others < totalWeight top rest := by
  cases h with
  | @descend key item pending hpending _ hitem =>
      have hlt := Datum.sum_sizeOf_entries_lt hitem
      simp only [totalWeight, weight, opened, hpending, List.map_cons, List.sum_cons]
      omega
  | @scalar key item pending node hpending _ _ _ =>
      have hpos := item.sizeOf_pos
      simp only [totalWeight, weight, receive, hpending, List.map_cons, List.sum_cons]
      omega
  | ascend hpending hrest =>
      simp only [totalWeight, weight, receive, hpending, hrest, List.map_cons, List.sum_cons]
      omega

-- The loop, which ends when the outermost container has been read.
def run (top : Layer) (rest : List Layer) : Except Failure Labelled :=
  match _ : step top rest with
  | .error e => .error e
  | .ok (.inl node) => .ok node
  | .ok (.inr (next, others)) => run next others
termination_by totalWeight top rest
decreasing_by exact (step_ok ‹_›).totalWeight_lt

-- What a container comes to if nothing else is open.
def finish (f : Layer) : Except Failure Labelled :=
  (f.pending.mapM (Datum.readEntry Labelled.ofDatum f.place f.container)).map fun later =>
    .ofItems f.place f.container (f.built ++ later)

-- What the containers come to that are open: each is handed to the one around it.
def resume (top : Layer) : List Layer → Except Failure Labelled
  | [] => top.finish
  | below :: rest => do resume (below.receive (top.place.getLastD .none) (← top.finish)) rest

theorem finish_opened {d : Datum} (h : d.isContainer = true) (place : List Datum) :
    (opened place d).finish = Labelled.ofDatum place d :=
  (Labelled.ofDatum_container h place).symm

theorem resume_congr {f g : Layer} (hplace : f.place = g.place) (hfinish : f.finish = g.finish)
    (rest : List Layer) : f.resume rest = g.resume rest := by
  cases rest with
  | nil => exact hfinish
  | cons below rest => rw [resume, resume, hplace, hfinish]

theorem resume_error {f : Layer} {e : Failure} (h : f.finish = .error e) (rest : List Layer) :
    f.resume rest = .error e := by
  cases rest with
  | nil => exact h
  | cons below rest =>
      rw [resume, h]
      rfl

-- An entry is read first, and then the container goes on with the rest.
theorem finish_cons {f : Layer} {key item : Datum} {pending : List (Datum × Datum)}
    (h : f.pending = (key, item) :: pending) :
    f.finish = f.container.checkKey f.place key >>= fun _ =>
      Labelled.ofDatum (f.place ++ [key]) item >>= fun node =>
        ({ f with pending }.receive key node).finish := by
  rw [finish, h, List.mapM_cons, Datum.readEntry]
  cases f.container.checkKey f.place key with
  | error e => rfl
  | ok _ =>
      cases Labelled.ofDatum (f.place ++ [key]) item with
      | error e => rfl
      | ok node =>
          simp only [finish, receive, Except.ok_bind]
          cases pending.mapM (Datum.readEntry Labelled.ofDatum f.place f.container) with
          | error e => rfl
          | ok later => simp [Except.map, bind, Except.bind, pure, Except.pure]

theorem finish_nil {f : Layer} (hpending : f.pending = []) : f.finish = .ok f.closed := by
  rw [finish, hpending]
  exact congrArg (fun items => Except.ok (Labelled.ofItems f.place f.container items))
    (List.append_nil f.built)

-- A step changes nothing about what the open containers come to.
theorem Step.resume_eq (h : Step top rest next others) : next.resume others = top.resume rest := by
  cases h with
  | @descend key item pending hpending hkey hitem =>
      have hcons := finish_cons hpending
      rw [hkey, Except.ok_bind] at hcons
      rw [resume, finish_opened hitem]
      cases hnode : Labelled.ofDatum (top.place ++ [key]) item with
      | error e =>
          rw [hnode] at hcons
          exact (resume_error hcons rest).symm
      | ok node =>
          rw [hnode, Except.ok_bind] at hcons
          rw [opened, List.getLastD_concat, Except.ok_bind]
          refine (resume_congr ?_ hcons rest).symm
          rfl
  | @scalar key item pending node hpending hkey hitem hnode =>
      have hcons := finish_cons hpending
      rw [hkey, Except.ok_bind, Labelled.ofDatum_scalar hitem, hnode, Except.ok_bind] at hcons
      refine (resume_congr ?_ hcons rest).symm
      rfl
  | @ascend below later hpending hrest =>
      rw [hrest, resume, finish_nil hpending, Except.ok_bind]

theorem finish_of_step_error {e : Failure} (h : step top rest = .error e) :
    top.finish = .error e := by
  unfold step at h
  split at h
  · next key item pending hpending =>
    rw [finish_cons hpending]
    rcases Except.bind_eq_error.mp h with hkey | ⟨⟨⟩, hkey, h⟩
    · rw [hkey]
      rfl
    · dsimp only at h
      split at h
      · cases h
      · next hitem =>
        rcases Except.bind_eq_error.mp h with hnode | ⟨_, _, h⟩
        · rw [hkey, Except.ok_bind, Labelled.ofDatum_scalar (Bool.not_eq_true _ ▸ hitem), hnode]
          rfl
        · cases h
  · split at h <;> cases h

theorem resume_of_step_closed {node : Labelled} (h : step top rest = .ok (.inl node)) :
    top.resume rest = .ok node := by
  unfold step at h
  split at h
  · obtain ⟨_, _, h⟩ := Except.bind_eq_ok.mp h
    dsimp only at h
    split at h
    · cases h
    · obtain ⟨_, _, h⟩ := Except.bind_eq_ok.mp h
      cases h
  · next hpending =>
    split at h
    · obtain rfl := Sum.inl.inj (Except.ok.inj h)
      exact finish_nil hpending
    · cases h

-- So the loop comes to what recursion comes to.
theorem run_eq_resume (top : Layer) (rest : List Layer) : run top rest = top.resume rest := by
  fun_induction run top rest with
  | case1 top rest e h => exact (resume_error (finish_of_step_error h) rest).symm
  | case2 top rest node h => exact (resume_of_step_closed h).symm
  | case3 top rest next others h ih => exact ih.trans (step_ok h).resume_eq

end Layer

-- Reads a datum with a stack of open containers in place of recursion.
def Labelled.build (place : List Datum) (d : Datum) : Except Failure Labelled :=
  if d.isContainer then Layer.run (.opened place d) [] else ofScalar place d

theorem Labelled.build_eq (place : List Datum) (d : Datum) : build place d = ofDatum place d := by
  unfold build
  split
  · next h => rw [Layer.run_eq_resume, Layer.resume, Layer.finish_opened h]
  · next h => exact (ofDatum_scalar (Bool.not_eq_true _ ▸ h) place).symm

end Unnest
