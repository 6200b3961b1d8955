import Mathlib.Data.List.Forall2
import Mathlib.Data.List.Induction
import Mathlib.Data.List.Nodup
import Unnest.Entries

namespace Unnest

section

variable {α : Type u} {β : Type v} [BEq β] [LawfulBEq β]

theorem eraseDups_concat (l : List β) (b : β) :
    (l ++ [b]).eraseDups = if b ∈ l then l.eraseDups else l.eraseDups ++ [b] := by
  rw [List.eraseDups_append]
  split
  · next hb =>
    have hnone : ([b] : List β).removeAll l = [] := by simpa [List.removeAll] using hb
    rw [hnone, List.eraseDups_nil, List.append_nil]
  · next hb =>
    have hself : ([b] : List β).removeAll l = [b] := by simpa [List.removeAll] using hb
    rw [hself]
    rfl

theorem nodup_eraseDups (l : List β) : l.eraseDups.Nodup := by
  induction l using List.reverseRecOn with
  | nil => exact List.nodup_nil
  | append_singleton l b ih =>
      rw [eraseDups_concat]
      split
      · exact ih
      · next hb =>
        refine List.nodup_append.mpr ⟨ih, by simp, fun a ha c hc => ?_⟩
        obtain rfl := List.mem_singleton.mp hc
        exact fun heq => hb (List.mem_eraseDups.mp (heq ▸ ha))

theorem eraseDups_eraseDups_append (l m : List β) :
    (l.eraseDups ++ m).eraseDups = (l ++ m).eraseDups := by
  induction m using List.reverseRecOn with
  | nil =>
      rw [List.append_nil, List.append_nil]
      induction l using List.reverseRecOn with
      | nil => rfl
      | append_singleton l b ih =>
          rw [eraseDups_concat]
          split
          · exact ih
          · next hb => rw [eraseDups_concat, ih, if_neg (mt List.mem_eraseDups.mp hb)]
  | append_singleton m b ih =>
      simp only [← List.append_assoc, eraseDups_concat, ih, List.mem_append, List.mem_eraseDups]

theorem eraseDups_append_eraseDups (l m : List β) :
    (l ++ m.eraseDups).eraseDups = (l ++ m).eraseDups := by
  induction m using List.reverseRecOn with
  | nil => rfl
  | append_singleton m b ih =>
      rw [← List.append_assoc, eraseDups_concat (l ++ m), ← ih, eraseDups_concat m]
      by_cases hb : b ∈ m
      · rw [if_pos hb, if_pos (List.mem_append_right l hb)]
      · rw [if_neg hb, ← List.append_assoc, eraseDups_concat]
        simp only [List.mem_append, List.mem_eraseDups]

-- What comes up in several lists stands where it comes up first, whether or not each list is rid
-- of repetitions beforehand.
theorem eraseDups_flatMap_eraseDups (l : List α) (f : α → List β) :
    (l.flatMap fun a => (f a).eraseDups).eraseDups = (l.flatMap f).eraseDups := by
  induction l using List.reverseRecOn with
  | nil => rfl
  | append_singleton l a ih =>
      simp only [List.flatMap_append, List.flatMap_singleton]
      rw [eraseDups_append_eraseDups, ← eraseDups_eraseDups_append, ih, eraseDups_eraseDups_append]

end

namespace Entries

variable {κ : Type u} {α : Type v} [BEq κ] [LawfulBEq κ]

theorem mem_of_lookup {es : List (κ × α)} {key : κ} {value : α}
    (h : es.lookup key = some value) : (key, value) ∈ es := by
  obtain ⟨before, after, rfl, -⟩ := List.lookup_eq_some_iff.mp h
  exact List.mem_append_right before List.mem_cons_self

-- In entries without a repeated key, every entry is found under its key.
theorem lookup_eq_some_iff_mem {es : List (κ × α)} {key : κ} {value : α}
    (h : (es.map Prod.fst).Nodup) : es.lookup key = some value ↔ (key, value) ∈ es := by
  induction es with
  | nil => simp
  | cons e es ih =>
      obtain ⟨k, x⟩ := e
      obtain ⟨hk, hes⟩ := List.nodup_cons.mp h
      by_cases hkey : key = k
      · subst hkey
        have hnot : (key, value) ∉ es := fun hm => hk (List.mem_map.mpr ⟨_, hm, rfl⟩)
        simp [hnot, eq_comm]
      · have hne : (key == k) = false := beq_eq_false_iff_ne.mpr hkey
        simp [List.lookup_cons, hne, hkey, ih hes]

-- The same where a key may be repeated as long as its value is.
theorem lookup_eq_some_iff_of_unique {es : List (κ × α)} {key : κ} {value : α}
    (h : ∀ x y, (key, x) ∈ es → (key, y) ∈ es → x = y) :
    es.lookup key = some value ↔ (key, value) ∈ es := by
  refine ⟨mem_of_lookup, fun hmem => ?_⟩
  cases hlookup : es.lookup key with
  | none =>
      have hnot := List.lookup_eq_none_iff.mp hlookup (key, value) hmem
      simp at hnot
  | some x => rw [h x value (mem_of_lookup hlookup) hmem]

-- Keys in order and what is found under each of them make up the entries.
theorem eq_of_keys_of_lookup {es fs : List (κ × α)} (hes : (es.map Prod.fst).Nodup)
    (hkeys : es.map Prod.fst = fs.map Prod.fst) (h : ∀ key, es.lookup key = fs.lookup key) :
    es = fs := by
  have hfs : (fs.map Prod.fst).Nodup := hkeys ▸ hes
  refine List.ext_getElem (by simpa using congrArg List.length hkeys) fun i hi hj => ?_
  have hkey : es[i].1 = fs[i].1 := by
    have hget := List.getElem_of_eq hkeys (by simpa using hi)
    simpa using hget
  have hfound : es.lookup es[i].1 = some es[i].2 :=
    (lookup_eq_some_iff_mem hes).mpr (List.getElem_mem hi)
  have hfound' : fs.lookup fs[i].1 = some fs[i].2 :=
    (lookup_eq_some_iff_mem hfs).mpr (List.getElem_mem hj)
  rw [h, hkey] at hfound
  exact Prod.ext hkey (Option.some.inj (hfound.symm.trans hfound'))

omit [LawfulBEq κ] in
theorem ofList_concat (es : List (κ × α)) (key : κ) (value : α) :
    ofList (es ++ [(key, value)]) = put key value (ofList es) := by
  simp [ofList]

theorem keys_ofList (es : List (κ × α)) :
    (ofList es).map Prod.fst = (es.map Prod.fst).eraseDups := by
  induction es using List.reverseRecOn with
  | nil => rfl
  | append_singleton es e ih =>
      obtain ⟨key, value⟩ := e
      simp only [ofList_concat, keys_put, ih, List.map_append, List.map_cons, List.map_nil,
        eraseDups_concat, List.mem_eraseDups]

theorem put_of_not_mem {key : κ} {es : List (κ × α)} (h : key ∉ es.map Prod.fst) (value : α) :
    put key value es = es ++ [(key, value)] := by
  induction es with
  | nil => rfl
  | cons e es ih =>
      rw [List.map_cons, List.mem_cons, not_or] at h
      have hne : (e.1 == key) = false := beq_eq_false_iff_ne.mpr (Ne.symm h.1)
      rw [put, hne, ih h.2]
      rfl

-- Where the keys differ, the entry of an old key is changed in its place.
theorem put_of_mem [DecidableEq κ] {key : κ} {es : List (κ × α)}
    (h : (es.map Prod.fst).Nodup) (hkey : key ∈ es.map Prod.fst) (value : α) :
    put key value es = es.map fun e => if e.1 = key then (key, value) else e := by
  induction es with
  | nil => cases hkey
  | cons e es ih =>
      obtain ⟨k, x⟩ := e
      obtain ⟨hnot, hrest⟩ := List.nodup_cons.mp h
      by_cases hk : k = key
      · subst hk
        have hsame : es.map (fun e => if e.1 = k then (k, value) else e) = es := by
          refine (List.map_congr_left fun e he => if_neg ?_).trans (List.map_id es)
          rintro rfl
          exact hnot (List.mem_map.mpr ⟨e, he, rfl⟩)
        simp [put, hsame]
      · have hlater := (List.mem_cons.mp hkey).resolve_left (Ne.symm hk)
        simp [put, hk, ih hrest hlater]

-- Without a repeated key nothing is put in the place of anything.
theorem ofList_eq_self {es : List (κ × α)} (h : (es.map Prod.fst).Nodup) : ofList es = es := by
  induction es using List.reverseRecOn with
  | nil => rfl
  | append_singleton es e ih =>
      rw [List.map_append, List.nodup_append] at h
      obtain ⟨hes, -, hdisjoint⟩ := h
      have hkey : e.1 ∉ es.map Prod.fst := fun hmem =>
        hdisjoint e.1 hmem e.1 (by simp) rfl
      rw [ofList_concat, ih hes, put_of_not_mem hkey]

theorem lookup_ofList (es : List (κ × α)) (key : κ) :
    (ofList es).lookup key = es.reverse.lookup key := by
  induction es using List.reverseRecOn with
  | nil => rfl
  | append_singleton es e ih =>
      obtain ⟨k, value⟩ := e
      rw [ofList_concat, List.reverse_concat, List.lookup_cons]
      by_cases hkey : key = k
      · subst hkey
        simp [lookup_put_self]
      · have hne : (key == k) = false := beq_eq_false_iff_ne.mpr hkey
        rw [lookup_put_of_ne hkey, ih, hne]

theorem lookup_reverse {es : List (κ × α)} (h : (es.map Prod.fst).Nodup) (key : κ) :
    es.reverse.lookup key = es.lookup key := by
  rw [← lookup_ofList, ofList_eq_self h]

-- Keys that are merely alike are kept apart from their values, which all come from the entries.
omit [LawfulBEq κ] in
theorem forall_put {p : α → Prop} {key : κ} {value : α} {es : List (κ × α)} (hvalue : p value)
    (hes : ∀ e ∈ es, p e.2) : ∀ e ∈ put key value es, p e.2 := by
  induction es with
  | nil =>
      intro e he
      obtain rfl := List.mem_singleton.mp he
      exact hvalue
  | cons f es ih =>
      obtain ⟨k, x⟩ := f
      obtain ⟨hx, hes⟩ := List.forall_mem_cons.mp hes
      rw [put]
      split
      · exact List.forall_mem_cons.mpr ⟨hvalue, hes⟩
      · exact List.forall_mem_cons.mpr ⟨hx, ih hes⟩

omit [LawfulBEq κ] in
theorem forall_ofList {p : α → Prop} {es : List (κ × α)} (hes : ∀ e ∈ es, p e.2) :
    ∀ e ∈ ofList es, p e.2 := by
  induction es using List.reverseRecOn with
  | nil => exact hes
  | append_singleton es f ih =>
      obtain ⟨key, value⟩ := f
      rw [ofList_concat]
      refine forall_put (hes _ (List.mem_append_right es List.mem_cons_self)) (ih fun e he => ?_)
      exact hes e (List.mem_append_left _ he)

theorem mem_of_mem_put {key : κ} {value : α} {es : List (κ × α)} {e : κ × α}
    (h : e ∈ put key value es) : e = (key, value) ∨ e ∈ es := by
  induction es with
  | nil => exact .inl (List.mem_singleton.mp h)
  | cons f es ih =>
      obtain ⟨k, x⟩ := f
      by_cases hk : k = key
      · subst hk
        simp only [put, beq_self_eq_true, if_true, List.mem_cons] at h ⊢
        tauto
      · simp only [put, beq_iff_eq, hk, if_false, List.mem_cons] at h ⊢
        tauto

theorem mem_of_mem_ofList {es : List (κ × α)} {e : κ × α} (h : e ∈ ofList es) : e ∈ es := by
  induction es using List.reverseRecOn with
  | nil => exact h
  | append_singleton es f ih =>
      obtain ⟨key, value⟩ := f
      rw [ofList_concat] at h
      rcases mem_of_mem_put h with rfl | h
      · exact List.mem_append_right es List.mem_cons_self
      · exact List.mem_append_left _ (ih h)

omit [LawfulBEq κ] in
theorem map_put (f : α → β) (key : κ) (value : α) (es : List (κ × α)) :
    (put key value es).map (fun e => (e.1, f e.2)) =
      put key (f value) (es.map fun e => (e.1, f e.2)) := by
  induction es with
  | nil => rfl
  | cons e es ih =>
      obtain ⟨k, x⟩ := e
      by_cases h : k == key <;> simp [put, h, ih]

-- Two keys may be put in any order, as long as one of them has its place already.
theorem put_put_comm {key other : κ} (h : key ≠ other) {value x : α} {es : List (κ × α)}
    (hkey : key ∈ es.map Prod.fst) :
    put key value (put other x es) = put other x (put key value es) := by
  induction es with
  | nil => cases hkey
  | cons e es ih =>
      obtain ⟨k, y⟩ := e
      by_cases hk : k = key
      · subst hk
        simp [put, h]
      · by_cases ho : k = other
        · simp [put, ho, h.symm]
        · have hrest : key ∈ es.map Prod.fst := by simpa [Ne.symm hk] using hkey
          simp [put, hk, ho, ih hrest]

-- Of two values under one key the second stays.
theorem put_put_self (key : κ) (value x : α) (es : List (κ × α)) :
    put key value (put key x es) = put key value es := by
  induction es with
  | nil => simp [put]
  | cons e es ih =>
      obtain ⟨k, y⟩ := e
      by_cases hk : k = key <;> simp [put, hk, ih]

-- An entry that is put is all that changes.
theorem filter_put {p : κ → Bool} {key : κ} (h : p key = false) (value : α) (es : List (κ × α)) :
    (put key value es).filter (fun e => p e.1) = es.filter fun e => p e.1 := by
  induction es with
  | nil => simp [put, h]
  | cons e es ih =>
      obtain ⟨k, x⟩ := e
      by_cases hk : k = key
      · simp [put, hk, h]
      · simp [put, hk, List.filter_cons, ih]

theorem lookup_map (f : κ → α → β) (es : List (κ × α)) (key : κ) :
    (es.map fun e => (e.1, f e.1 e.2)).lookup key = (es.lookup key).map (f key) := by
  induction es with
  | nil => rfl
  | cons e es ih =>
      obtain ⟨k, x⟩ := e
      by_cases hkey : key = k
      · simp [hkey]
      · have hne : (key == k) = false := beq_eq_false_iff_ne.mpr hkey
        simp [List.lookup_cons, hne, ih]

theorem isSome_lookup {es : List (κ × α)} {key : κ} :
    (es.lookup key).isSome = true ↔ key ∈ es.map Prod.fst := by
  induction es with
  | nil => simp
  | cons e es ih =>
      obtain ⟨k, x⟩ := e
      by_cases hkey : key = k
      · simp [hkey]
      · have hne : (key == k) = false := beq_eq_false_iff_ne.mpr hkey
        rw [List.map_cons, List.mem_cons, List.lookup_cons, hne, ih]
        simp [hkey]

theorem lookup_eq_none {es : List (κ × α)} {key : κ} :
    es.lookup key = none ↔ key ∉ es.map Prod.fst := by
  rw [← isSome_lookup, Option.not_isSome_iff_eq_none]

-- Of entries without a repeated key, those with a key are the one that is found under it.
theorem filter_key {es : List (κ × α)} (h : (es.map Prod.fst).Nodup) (key : κ) :
    es.filter (fun e => e.1 == key) = ((es.lookup key).map (key, ·)).toList := by
  induction es with
  | nil => rfl
  | cons e es ih =>
      obtain ⟨k, x⟩ := e
      obtain ⟨hnot, hrest⟩ := List.nodup_cons.mp h
      by_cases hkey : k = key
      · subst hkey
        have hnone : es.lookup k = none := lookup_eq_none.mpr hnot
        simp [ih hrest, hnone]
      · have hne : (key == k) = false := beq_eq_false_iff_ne.mpr (Ne.symm hkey)
        rw [List.filter_cons_of_neg (by simpa using hkey), ih hrest, List.lookup_cons, hne]

-- Without the one that has a key, entries keep their order.
theorem filter_ne_key {before after : List (κ × α)} {key : κ} {value : α}
    (h : ((before ++ (key, value) :: after).map Prod.fst).Nodup) :
    (before ++ (key, value) :: after).filter (fun e => e.1 != key) = before ++ after := by
  rw [List.map_append, List.map_cons, List.nodup_middle, ← List.map_append] at h
  have hother : ∀ e ∈ before ++ after, (e.1 != key) = true := fun e he =>
    bne_iff_ne.mpr fun heq => (List.nodup_cons.mp h).1 (List.mem_map.mpr ⟨e, he, heq⟩)
  rw [List.filter_append, List.filter_cons_of_neg (by simp), ← List.filter_append]
  exact List.filter_eq_self.mpr hother

-- Puts entries one after the other.
def putAll (new es : List (κ × α)) : List (κ × α) :=
  new.foldl (fun es e => put e.1 e.2 es) es

omit [LawfulBEq κ] in
theorem putAll_append (new more es : List (κ × α)) :
    putAll (new ++ more) es = putAll more (putAll new es) :=
  List.foldl_append

theorem mem_keys_putAll {key : κ} (new : List (κ × α)) {es : List (κ × α)}
    (hkey : key ∈ es.map Prod.fst) : key ∈ (putAll new es).map Prod.fst := by
  induction new generalizing es with
  | nil => exact hkey
  | cons e new ih =>
      refine ih ?_
      rw [keys_put]
      split
      · exact hkey
      · exact List.mem_append_left _ hkey

omit [LawfulBEq κ] in
theorem forall_putAll {p : α → Prop} {new es : List (κ × α)} (hnew : ∀ e ∈ new, p e.2)
    (hes : ∀ e ∈ es, p e.2) : ∀ e ∈ putAll new es, p e.2 := by
  induction new generalizing es with
  | nil => exact hes
  | cons e new ih =>
      obtain ⟨he, hrest⟩ := List.forall_mem_cons.mp hnew
      exact ih hrest (forall_put he hes)

-- What has its place already may be put before all others or after them.
theorem putAll_put {key : κ} {value : α} {new es : List (κ × α)} (hnew : key ∉ new.map Prod.fst)
    (hkey : key ∈ es.map Prod.fst) :
    putAll new (put key value es) = put key value (putAll new es) := by
  induction new generalizing es with
  | nil => rfl
  | cons e new ih =>
      rw [List.map_cons, List.mem_cons, not_or] at hnew
      have hes : key ∈ (put e.1 e.2 es).map Prod.fst := mem_keys_putAll [e] hkey
      have hput : putAll (e :: new) (put key value es) =
          putAll new (put e.1 e.2 (put key value es)) := rfl
      rw [hput, ← put_put_comm hnew.1 hkey, ih hnew.2 hes]
      rfl

-- New keys follow the old ones.
theorem keys_putAll {new : List (κ × α)} (hnew : (new.map Prod.fst).Nodup) (es : List (κ × α)) :
    (putAll new es).map Prod.fst =
      es.map Prod.fst ++ (new.map Prod.fst).filter fun key => !(es.map Prod.fst).contains key := by
  induction new generalizing es with
  | nil => exact (List.append_nil _).symm
  | cons e new ih =>
      obtain ⟨hkey, hrest⟩ := List.nodup_cons.mp hnew
      have hput : putAll (e :: new) es = putAll new (put e.1 e.2 es) := rfl
      rw [hput, ih hrest, keys_put, List.map_cons, List.filter_cons]
      by_cases hold : e.1 ∈ es.map Prod.fst
      · rw [if_pos hold, List.contains_iff_mem.mpr hold]
        rfl
      · rw [if_neg hold]
        have hnone : (es.map Prod.fst).contains e.1 = false := by simpa using hold
        rw [hnone, List.append_assoc]
        congr 1
        refine congrArg (e.1 :: ·) (List.filter_congr fun key hmem => ?_)
        have hne : key ≠ e.1 := fun heq => hkey (heq ▸ hmem)
        simp [hne]

theorem lookup_putAll {new : List (κ × α)} (hnew : (new.map Prod.fst).Nodup) (es : List (κ × α))
    (key : κ) : (putAll new es).lookup key = (new.lookup key).or (es.lookup key) := by
  induction new generalizing es with
  | nil => rfl
  | cons e new ih =>
      obtain ⟨hkey, hrest⟩ := List.nodup_cons.mp hnew
      have hput : putAll (e :: new) es = putAll new (put e.1 e.2 es) := rfl
      rw [hput, ih hrest, List.lookup_cons]
      by_cases heq : key = e.1
      · rw [heq, lookup_eq_none.mpr hkey, lookup_put_self, beq_self_eq_true]
        rfl
      · rw [lookup_put_of_ne heq, beq_eq_false_iff_ne.mpr heq]

-- What a key has already may be put again.
theorem put_eq_self {key : κ} {value : α} {es : List (κ × α)} (h : es.lookup key = some value) :
    put key value es = es := by
  induction es with
  | nil => cases h
  | cons e es ih =>
      obtain ⟨k, x⟩ := e
      by_cases hk : key = k
      · subst hk
        rw [List.lookup_cons_self] at h
        simp [put, Option.some.inj h]
      · rw [List.lookup_cons, beq_eq_false_iff_ne.mpr hk] at h
        simp [put, Ne.symm hk, ih h]

-- Entries that have been put may be put again.
theorem putAll_putAll_self {new : List (κ × α)} (hnew : (new.map Prod.fst).Nodup)
    (es : List (κ × α)) : putAll new (putAll new es) = putAll new es := by
  have hfound : ∀ e ∈ new, (putAll new es).lookup e.1 = some e.2 := by
    intro e he
    rw [lookup_putAll hnew, (lookup_eq_some_iff_mem hnew).mpr he]
    rfl
  generalize putAll new es = fs at hfound
  induction new with
  | nil => rfl
  | cons e new ih =>
      obtain ⟨he, hrest⟩ := List.forall_mem_cons.mp hfound
      have hput : putAll (e :: new) fs = putAll new (put e.1 e.2 fs) := rfl
      rw [hput, put_eq_self he]
      exact ih (List.nodup_cons.mp hnew).2 hrest

-- Entries may be put before others or after them, as long as the others have their places already.
theorem putAll_putAll_comm {new more es : List (κ × α)}
    (hdisjoint : (new.map Prod.fst).Disjoint (more.map Prod.fst))
    (hmore : more.map Prod.fst ⊆ es.map Prod.fst) :
    putAll new (putAll more es) = putAll more (putAll new es) := by
  induction more generalizing es with
  | nil => rfl
  | cons e more ih =>
      obtain ⟨he, hrest⟩ := List.cons_subset.mp hmore
      rw [List.map_cons, List.disjoint_cons_right] at hdisjoint
      have hput (fs : List (κ × α)) : putAll (e :: more) fs = putAll more (put e.1 e.2 fs) := rfl
      have hkeys : more.map Prod.fst ⊆ (put e.1 e.2 es).map Prod.fst := fun key hkey =>
        mem_keys_putAll [e] (hrest hkey)
      rw [hput, hput, ih hdisjoint.2 hkeys, putAll_put hdisjoint.1 he]

-- The order in which entries are put does not matter to what is found, if no key is put twice.
theorem lookup_putAll_comm {new more : List (κ × α)} (hnew : (new.map Prod.fst).Nodup)
    (hmore : (more.map Prod.fst).Nodup)
    (hdisjoint : (new.map Prod.fst).Disjoint (more.map Prod.fst)) (es : List (κ × α)) (key : κ) :
    (putAll new (putAll more es)).lookup key = (putAll more (putAll new es)).lookup key := by
  simp only [lookup_putAll hnew, lookup_putAll hmore]
  cases hkey : new.lookup key with
  | none => rfl
  | some value =>
      have hmem : key ∈ new.map Prod.fst := isSome_lookup.mp (hkey ▸ rfl)
      rw [lookup_eq_none.mpr (hdisjoint hmem)]
      rfl

-- What is put among entries is put after them.
theorem putAll_put_self {new : List (κ × α)} (hnew : (new.map Prod.fst).Nodup) (key : κ)
    (value : α) (es : List (κ × α)) :
    putAll (put key value new) es = put key value (putAll new es) := by
  induction new generalizing es with
  | nil => rfl
  | cons e new ih =>
      obtain ⟨k, x⟩ := e
      obtain ⟨hfresh, hrest⟩ := List.nodup_cons.mp hnew
      have hput (x : α) : putAll ((k, x) :: new) es = putAll new (put k x es) := rfl
      by_cases hk : k = key
      · subst hk
        have hmem : k ∈ (put k x es).map Prod.fst :=
          isSome_lookup.mp (by rw [lookup_put_self]; rfl)
        rw [put, beq_self_eq_true, if_pos rfl, hput, hput, ← putAll_put hfresh hmem, put_put_self]
      · rw [put, beq_eq_false_iff_ne.mpr hk, hput]
        exact ih hrest (put k x es)

-- A key whose value is put twice may have the last one put in the first place.
theorem putAll_ofList (new es : List (κ × α)) : putAll (ofList new) es = putAll new es := by
  induction new using List.reverseRecOn with
  | nil => rfl
  | append_singleton new e ih =>
      rw [ofList_concat, putAll_put_self (nodup_keys_ofList new), ih, putAll_append]
      rfl

-- Entries that no key tells apart.
def Alike (es fs : List (κ × α)) : Prop :=
  ∀ key, es.lookup key = fs.lookup key

theorem Alike.put {es fs : List (κ × α)} (h : Alike es fs) (key : κ) (value : α) :
    Alike (put key value es) (put key value fs) := by
  intro other
  by_cases hkey : other = key
  · rw [hkey, lookup_put_self, lookup_put_self]
  · rw [lookup_put_of_ne hkey, lookup_put_of_ne hkey, h other]

theorem Alike.putAll (new : List (κ × α)) {es fs : List (κ × α)} (h : Alike es fs) :
    Alike (putAll new es) (putAll new fs) := by
  induction new generalizing es fs with
  | nil => exact h
  | cons e new ih => exact ih (h.put e.1 e.2)

-- Entries with the same keys in the same order, and values that belong together.
def Paired (R : α → β → Prop) (es : List (κ × α)) (fs : List (κ × β)) : Prop :=
  List.Forall₂ (fun e f => e.1 = f.1 ∧ R e.2 f.2) es fs

variable {R : α → β → Prop} {es : List (κ × α)} {fs : List (κ × β)}

omit [LawfulBEq κ] in
theorem Paired.lookup (h : Paired R es fs) (key : κ) :
    Option.Rel R (es.lookup key) (fs.lookup key) := by
  induction h with
  | nil => exact .none
  | @cons e f es fs he _ ih =>
      obtain ⟨hkey, hvalue⟩ := he
      rw [List.lookup_cons, List.lookup_cons, hkey]
      cases key == f.1 with
      | true => exact .some hvalue
      | false => exact ih

omit [BEq κ] [LawfulBEq κ] in
theorem Paired.reverse (h : Paired R es fs) : Paired R es.reverse fs.reverse :=
  List.rel_reverse h

omit [LawfulBEq κ] in
theorem Paired.put (h : Paired R es fs) (key : κ) {value : α} {other : β} (hvalue : R value other) :
    Paired R (put key value es) (put key other fs) := by
  induction h with
  | nil => exact .cons ⟨rfl, hvalue⟩ .nil
  | @cons e f es fs he hes ih =>
      rw [Entries.put, Entries.put, he.1]
      cases f.1 == key with
      | true => exact .cons ⟨rfl, hvalue⟩ hes
      | false => exact .cons ⟨rfl, he.2⟩ ih

end Entries

end Unnest
