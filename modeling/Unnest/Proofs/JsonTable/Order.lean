import Unnest.Proofs.JsonTable.Provenance

namespace Unnest.JsonTable

open Document

-- The values a number of steps below some others, with the numbers of their documents.
def below (n : Nat) (places : List (Nat × Node)) : List (Nat × Node) :=
  places.flatMap fun e => (e.2.level n).map fun w => (e.1, w)

theorem below_zero (places : List (Nat × Node)) : below 0 places = places := by
  have hself (e : Nat × Node) : ((e.2.level 0).map fun w => (e.1, w)) = [e] := by
    simp [Node.level, Json.level]
  simp only [below, hself, List.flatMap_singleton']

theorem below_below (m n : Nat) (places : List (Nat × Node)) :
    below n (below m places) = below (m + n) places := by
  simp only [below, Node.level_add, List.flatMap_assoc, List.flatMap_map, List.map_flatMap]

theorem mem_below {n : Nat} {places : List (Nat × Node)} {e : Nat × Node} :
    e ∈ below n places ↔ ∃ v, (e.1, v) ∈ places ∧ e.2 ∈ v.level n := by
  obtain ⟨number, w⟩ := e
  simp only [below, List.mem_flatMap, List.mem_map, Prod.mk.injEq, Prod.exists]
  constructor
  · rintro ⟨_, v, hv, _, hw, rfl, rfl⟩
    exact ⟨v, hv, hw⟩
  · rintro ⟨v, hv, hw⟩
    exact ⟨number, v, hv, w, hw, rfl, rfl⟩

theorem wellFormed_below {n : Nat} {places : List (Nat × Node)}
    (h : ∀ e ∈ places, e.2.json.WellFormed) : ∀ e ∈ below n places, e.2.json.WellFormed := by
  intro e he
  obtain ⟨v, hv, hw⟩ := mem_below.mp he
  obtain ⟨p, -, hp⟩ := (Node.mem_level_iff (h _ hv)).mp hw
  obtain ⟨x, hx, hwalk⟩ := Node.walk?_eq_some_iff.mp hp
  rw [hwalk]
  exact (h _ hv).walk hx

-- All rows are equally far below the roots, in the order of the values there, and none of them
-- stands twice.
def IsBelow (base : List (Nat × Node)) (t : JsonTable) : Prop :=
  t.Aligned ∧ ∃ n, t.places.Sublist (below n base)

theorem IsBelow.move {base : List (Nat × Node)} (hbase : ∀ e ∈ base, e.2.json.WellFormed)
    {t u : JsonTable} (ht : IsBelow base t) (h : Move t u) : IsBelow base u := by
  obtain ⟨halign, n, hsub⟩ := ht
  obtain ⟨hu, hkept | ⟨way, hplaces⟩⟩ := h.places halign
  · exact ⟨hu, n, hkept.trans hsub⟩
  · refine ⟨hu, n + way.steps, ?_⟩
    have hchildren : u.places.Sublist (below way.steps t.places) := by
      rw [hplaces]
      refine .flatMap_right _ fun e he => ?_
      have hwell := wellFormed_below hbase e (hsub.subset he)
      have hlevel := (way.children_sublist_level hwell).map fun w => (e.1, w)
      rwa [List.map_map] at hlevel
    rw [← below_below]
    exact hchildren.trans (hsub.flatMap _)

theorem IsBelow.moves {base : List (Nat × Node)} (hbase : ∀ e ∈ base, e.2.json.WellFormed)
    {t u : JsonTable} (ht : IsBelow base t) (h : Moves t u) : IsBelow base u := by
  induction h with
  | refl => exact ht
  | tail _ hmove ih => exact ih.move hbase hmove

-- One value comes before another: in an earlier document, or earlier in the same one.
def Precedes (channel : Channel) (documents : List Datum) (a b : Nat × Node) : Prop :=
  a.1 < b.1 ∨ a.1 = b.1 ∧ ∃ root, IsRoot channel documents a.1 root ∧
    a.2.path ∈ root.json.preorder ∧ b.2.path ∈ root.json.preorder ∧
      root.json.preorder.idxOf a.2.path < root.json.preorder.idxOf b.2.path

theorem pairwise_idxOf [BEq α] [LawfulBEq α] {l m : List α} (hm : m.Nodup) (h : l.Sublist m) :
    l.Pairwise fun a b => a ∈ m ∧ b ∈ m ∧ m.idxOf a < m.idxOf b := by
  refine List.Pairwise.sublist h (List.pairwise_iff_getElem.mpr fun i j hi hj hij => ?_)
  rw [hm.idxOf_getElem, hm.idxOf_getElem]
  exact ⟨List.getElem_mem hi, List.getElem_mem hj, hij⟩

variable {channel : Channel} {documents : List Datum}

theorem pairwise_level {number : Nat} {root : Node} (h : IsRoot channel documents number root)
    (n : Nat) :
    ((root.level n).map fun w => (number, w)).Pairwise (Precedes channel documents) := by
  obtain ⟨-, source, -, hread⟩ := id h
  obtain ⟨hwell, hpath, -⟩ := read_ok hread
  have horder := pairwise_idxOf hwell.nodup_preorder (Json.level_sublist_preorder n root.json)
  rw [Node.level, List.map_map, List.pairwise_map]
  refine (List.pairwise_map.mp horder).imp fun {a b} hab => .inr ⟨rfl, root, h, ?_⟩
  simpa [hpath] using hab

-- The values equally far below the roots stand in the order of the documents.
theorem pairwise_below {t : JsonTable}
    (h : (Source.load channel (.datum (.list documents)) .none).result = .ok t) (n : Nat) :
    (below n t.places).Pairwise (Precedes channel documents) := by
  obtain ⟨halign, hdocuments, hroots⟩ := Source.load_documents h
  rw [below, List.pairwise_flatMap]
  refine ⟨fun e he => pairwise_level (hroots e he) n, ?_⟩
  have hnumbers : (t.places.map Prod.fst).Pairwise (· < ·) := by
    rw [map_fst_places halign, hdocuments]
    exact List.pairwise_lt_range'
  refine (List.pairwise_map.mp hnumbers).imp fun {a b} hab x hx y hy => .inl ?_
  obtain ⟨_, _, rfl⟩ := List.mem_map.mp hx
  obtain ⟨_, _, rfl⟩ := List.mem_map.mp hy
  exact hab

theorem length_path_below {t : JsonTable}
    (h : (Source.load channel (.datum (.list documents)) .none).result = .ok t) {n : Nat}
    {e : Nat × Node} (he : e ∈ below n t.places) : e.2.path.length = n := by
  obtain ⟨-, -, hroots⟩ := Source.load_documents h
  obtain ⟨v, hv, hw⟩ := mem_below.mp he
  obtain ⟨-, source, -, hread⟩ := hroots _ hv
  obtain ⟨hwell, hpath, -⟩ := read_ok hread
  obtain ⟨p, hlength, hp⟩ := (Node.mem_level_iff hwell).mp hw
  obtain ⟨x, -, hwalk⟩ := Node.walk?_eq_some_iff.mp hp
  rw [hwalk, hpath]
  exact hlength

-- The leaves below the rows of a document.
def leavesOf (number : Nat) (places : List (Nat × Node)) : Nat :=
  ((places.filter fun e => e.1 == number).map fun e => e.2.json.leafCount).sum

theorem leavesOf_sublist {l m : List (Nat × Node)} (h : l.Sublist m) (number : Nat) :
    leavesOf number l ≤ leavesOf number m :=
  List.Sublist.sum_le_sum ((h.filter _).map _) fun _ _ => Nat.zero_le _

theorem leavesOf_append (number : Nat) (l m : List (Nat × Node)) :
    leavesOf number (l ++ m) = leavesOf number l + leavesOf number m := by
  simp only [leavesOf, List.filter_append, List.map_append, List.sum_append]

-- Further down there are no more leaves.
theorem leavesOf_below_le (number n : Nat) (places : List (Nat × Node)) :
    leavesOf number (below n places) ≤ leavesOf number places := by
  induction places with
  | nil => exact Nat.le_refl _
  | cons e places ih =>
      have hfirst :
          leavesOf number ((e.2.level n).map fun w => (e.1, w)) ≤ leavesOf number [e] := by
        by_cases he : e.1 = number
        · have hsum := Json.sum_level_le n e.2.json
          simpa [leavesOf, Node.level, he, Function.comp_def, List.filter_map] using hsum
        · have hne : (e.1 == number) = false := beq_eq_false_iff_ne.mpr he
          simp [leavesOf, hne, Function.comp_def, List.filter_map]
      calc
        leavesOf number (below n (e :: places))
            = leavesOf number ((e.2.level n).map fun w => (e.1, w)) +
                leavesOf number (below n places) := leavesOf_append _ _ _
        _ ≤ leavesOf number [e] + leavesOf number places := Nat.add_le_add hfirst ih
        _ = leavesOf number (e :: places) := (leavesOf_append _ [e] places).symm

-- Only one row of a table that has just been loaded is from a given document.
theorem leavesOf_root {places : List (Nat × Node)} {number : Nat} {root : Node}
    (hnumbers : (places.map Prod.fst).Nodup) (hroot : ∀ e ∈ places, e.1 = number → e.2 = root) :
    leavesOf number places ≤ root.json.leafCount := by
  induction places with
  | nil => exact Nat.zero_le _
  | cons e places ih =>
      obtain ⟨hne, hrest⟩ := List.nodup_cons.mp hnumbers
      by_cases he : e.1 = number
      · have hnone : places.filter (fun e => e.1 == number) = [] := by
          refine List.filter_eq_nil_iff.mpr fun f hf heq => hne ?_
          rw [he, ← beq_iff_eq.mp heq]
          exact List.mem_map_of_mem hf
        simp [leavesOf, he, hnone, hroot e List.mem_cons_self he]
      · have hskip : leavesOf number (e :: places) = leavesOf number places := by
          simp [leavesOf, he]
        rw [hskip]
        exact ih hrest fun f hf => hroot f (List.mem_cons_of_mem e hf)

theorem Precedes.ne {a b : Nat × Node} (h : Precedes channel documents a b) :
    (a.1, a.2.path) ≠ (b.1, b.2.path) := by
  intro heq
  obtain ⟨hnumber, hpath⟩ := Prod.mk.inj heq
  rcases h with hlt | ⟨-, root, -, -, -, hlt⟩
  · omega
  · rw [hpath] at hlt
    exact Nat.lt_irrefl _ hlt

-- Structural verbs neither repeat nor overlap values, and keep the order of the documents.
theorem document_order {channel : Channel} {documents : List Datum} {operations : List Operation}
    {t u : JsonTable}
    (hload : (Source.load channel (.datum (.list documents)) .none).result = .ok t)
    (hrun : Operation.runAll operations t = .ok u) :
    u.nodes.length = u.rowCount ∧
      (∀ v ∈ u.nodes, ∀ w ∈ u.nodes, v.path.length = w.path.length) ∧
      (u.places.map fun e => (e.1, e.2.path)).Nodup ∧
      (u.places.Pairwise fun a b => a.1 = b.1 → ¬a.2.path <+: b.2.path ∧ ¬b.2.path <+: a.2.path) ∧
      u.places.Pairwise (Precedes channel documents) ∧
      ∀ number root, IsRoot channel documents number root →
        ((u.places.filter fun e => e.1 == number).map fun e => e.2.json.leafCount).sum ≤
          root.json.leafCount := by
  obtain ⟨halign, hdocuments, hroots⟩ := Source.load_documents hload
  have hwell : ∀ e ∈ t.places, e.2.json.WellFormed := fun e he =>
    (IsRoot.located (hroots e he)).wellFormed.1
  have hstart : IsBelow t.places t := ⟨halign, 0, by rw [below_zero]⟩
  obtain ⟨hu, n, hsub⟩ := hstart.moves hwell (Operation.moves_runAll hrun)
  have hlength {e : Nat × Node} (he : e ∈ u.places) : e.2.path.length = n :=
    length_path_below hload (hsub.subset he)
  have horder := (pairwise_below hload n).sublist hsub
  refine ⟨hu.symm, fun v hv w hw => ?_, ?_, ?_, horder, fun number root hroot => ?_⟩
  · rw [← map_snd_places hu] at hv hw
    obtain ⟨e, he, rfl⟩ := List.mem_map.mp hv
    obtain ⟨f, hf, rfl⟩ := List.mem_map.mp hw
    rw [hlength he, hlength hf]
  · exact List.pairwise_map.mpr (horder.imp fun hab => hab.ne)
  · refine horder.imp_of_mem fun {a b} ha hb hab hnumber => ?_
    -- paths of one length of which one begins the other are equal
    have hpaths : a.2.path ≠ b.2.path := fun heq => hab.ne (Prod.ext hnumber heq)
    have hsame : a.2.path.length = b.2.path.length := (hlength ha).trans (hlength hb).symm
    exact ⟨fun hbegin => hpaths (hbegin.eq_of_length hsame),
      fun hbegin => hpaths (hbegin.eq_of_length hsame.symm).symm⟩
  · have hnumbers : (t.places.map Prod.fst).Nodup := by
      rw [map_fst_places halign, hdocuments]
      exact List.nodup_range'
    calc
      leavesOf number u.places ≤ leavesOf number (below n t.places) := leavesOf_sublist hsub number
      _ ≤ leavesOf number t.places := leavesOf_below_le number n t.places
      _ ≤ root.json.leafCount := by
        refine leavesOf_root hnumbers fun e he heq => ?_
        subst heq
        exact (hroots e he).unique hroot

-- Three documents, of which one has nothing under the key, and arrays of arrays in the others.
theorem document_order_gatherArray :
    ∃ (documents : List Datum) (operations : List Operation) (t u : JsonTable),
      (Source.load .parser (.datum (.list documents)) .none).result = .ok t ∧
      operations = [.call .enterObject .method ⟨[.text "a"], []⟩,
        .call .gatherArray .method {}, .call .gatherArray .method ⟨[.text "inner"], []⟩] ∧
      Operation.runAll operations t = .ok u ∧
      u.places.map (fun e => (e.1, e.2.path)) =
        [(1, [.key "a", .index 1, .index 1]), (1, [.key "a", .index 1, .index 2]),
          (1, [.key "a", .index 2, .index 1]), (3, [.key "a", .index 2, .index 1]),
          (3, [.key "a", .index 2, .index 2])] ∧
      (u.places.map fun e => (e.1, e.2.path)).Nodup ∧
      u.places.Pairwise (Precedes .parser documents) ∧
      ∀ root, IsRoot .parser documents 3 root →
        ((u.places.filter fun e => e.1 == 3).map fun e => e.2.json.leafCount).sum ≤
          root.json.leafCount := by
  let documents : List Datum := [.text "\x7b\"a\": [[true, null], [false]]\x7d", .text "[null]",
    .text "\x7b\"b\": 0, \"a\": [[], [\"x\", true]]\x7d"]
  let operations : List Operation := [.call .enterObject .method ⟨[.text "a"], []⟩,
    .call .gatherArray .method {}, .call .gatherArray .method ⟨[.text "inner"], []⟩]
  have hplaces : (do
      let t ← (Source.load .parser (.datum (.list documents)) .none).result
      let u ← Operation.runAll operations t
      return u.places.map fun e => (e.1, e.2.path) : Except Failure _).toOption =
      some [(1, [.key "a", .index 1, .index 1]), (1, [.key "a", .index 1, .index 2]),
        (1, [.key "a", .index 2, .index 1]), (3, [.key "a", .index 2, .index 1]),
        (3, [.key "a", .index 2, .index 2])] := by decide +kernel
  cases hload : (Source.load .parser (.datum (.list documents)) .none).result with
  | error e =>
      rw [hload] at hplaces
      cases hplaces
  | ok t =>
      cases hrun : Operation.runAll operations t with
      | error e =>
          rw [hload, Except.ok_bind, hrun] at hplaces
          cases hplaces
      | ok u =>
          rw [hload, Except.ok_bind, hrun] at hplaces
          obtain ⟨-, -, hnodup, -, horder, hleaves⟩ := document_order hload hrun
          exact ⟨documents, operations, t, u, hload, rfl, hrun, Option.some.inj hplaces, hnodup,
            horder, hleaves 3⟩

end Unnest.JsonTable
