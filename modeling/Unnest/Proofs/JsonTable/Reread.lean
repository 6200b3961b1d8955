import Unnest.Proofs.Json.Equality
import Unnest.Proofs.Json.Grammar.Written
import Unnest.Proofs.JsonTable.Force
import Unnest.Proofs.JsonTable.SpreadOrder

namespace Unnest

namespace Document

-- A value inside a document that was read.
def Holds (x : Json) : Prop :=
  ∃ channel source document root path, (parse channel source document).result = .ok root ∧
    root.json.walk? path = some x

theorem Holds.areRead {x : Json} (h : Holds x) : Json.Grammar.AreRead x := by
  obtain ⟨channel, source, document, root, path, hroot, hx⟩ := h
  obtain ⟨s, rfl⟩ := parse_text hroot
  obtain ⟨_, json, hdecode, -, rfl⟩ := parse_eq_ok_iff.mp hroot
  obtain ⟨k, hjson, hk⟩ := Json.Grammar.decode_eq_ok_iff.mp hdecode
  exact (Json.inherited_throughout _).walk hx (hjson.fits.read hk)

-- A text that was written for a value, as a document. It is read as that value again; only what is
-- written for an infinite number is no document.
structure Rereads (x : Json) (s : Text) : Prop where
  bounded : (∀ negative, x ≠ .number (.real (.infinite negative))) →
    ∀ channel document, (parse channel (.text s) document).result = .ok { json := x }
  infinite : ∀ negative, x = .number (.real (.infinite negative)) →
    ∀ channel document v, (parse channel (.text s) document).result ≠ .ok v

theorem parse_isValue {s : Text} {x : Json} {k : Nat} (h : Json.Grammar.IsValue s x k)
    (hk : k ≤ maxNumeralDigits) (channel : Channel) {document : Int}
    (hdocument : maxDepth < x.depth → Spellable document) :
    (parse channel (.text s) document).result = .ok { json := x } := by
  have htext : Json.Grammar.IsText s x k := by
    simpa using Json.Grammar.IsText.intro (b := []) (c := []) nofun h nofun
  exact parse_eq_ok_iff.mpr
    ⟨htext.not_isBlank, x, Json.Grammar.decode_eq_ok_iff.mpr ⟨k, htext, hk⟩, hdocument, rfl⟩

theorem parse_constant {name : Text} (h : name ∈ Json.Decoder.constants) (channel : Channel)
    (document : Int) (v : Node) : (parse channel (.text name) document).result ≠ .ok v := by
  intro hparse
  obtain ⟨_, json, hdecode, -⟩ := parse_eq_ok_iff.mp hparse
  have hstart : Json.Grammar.Leads [] := .start nofun
  obtain ⟨e, hfails⟩ := hstart.fails (Json.Grammar.noValue_constant h [])
  rw [List.nil_append, List.append_nil, hdecode] at hfails
  cases hfails

end Document

namespace JsonTable

open Document Json.Grammar

-- The kinds of values that are spelled where a text is asked for.
def spelledKinds : List Kind := [.number, .logical]

theorem StoredAsText.rereads {x : Json} {d : Datum} (hx : AreRead x) (hkind : x.kind ∈ spelledKinds)
    (h : StoredAsText (some x) d) : ∃ s, d = .text s ∧ Rereads x s := by
  cases h with
  | null | string _ => simp [spelledKinds, Json.kind] at hkind
  | logical b =>
      have hvalue : IsValue (Json.logicalSpelling b) (.logical b) 0 := by
        cases b
        · exact .false
        · exact .true
      have hshallow : ¬maxDepth < (Json.logical b).depth := Nat.not_lt_zero _
      refine ⟨_, rfl, fun _ channel _ => parse_isValue hvalue (Nat.zero_le _) channel
        fun hdeep => absurd hdeep hshallow, fun _ hinfinite => ?_⟩
      cases hinfinite
  | @number n s hs =>
      refine ⟨s, rfl, ?_⟩
      by_cases hinfinite : ∃ negative, n = .real (.infinite negative)
      · obtain ⟨negative, rfl⟩ := hinfinite
        obtain rfl := Except.ok.inj hs
        refine ⟨fun hbounded => absurd rfl (hbounded negative), fun _ _ => parse_constant ?_⟩
        cases negative <;> decide
      · obtain ⟨t, k, ht, hnumber, hk⟩ := (hx.own n rfl).spelling.resolve_left hinfinite
        obtain rfl := Except.ok.inj (hs.symm.trans ht)
        have hshallow : ¬maxDepth < (Json.number n).depth := Nat.not_lt_zero _
        exact ⟨fun _ channel _ => parse_isValue (.number hnumber) hk channel
            fun hdeep => absurd hdeep hshallow,
          fun negative heq => absurd ⟨negative, Json.number.inj heq⟩ hinfinite⟩

-- A conversion to texts stores a number or a logical as text.
theorem stored_of_cellOf {x : Json} {d : Datum} (hkind : x.kind ∈ spelledKinds)
    (h : cellOf .string true x = .ok d) : StoredAsText (some x) d := by
  have hleaf : ∀ y, some x = some y → y.isLeaf = true := by
    intro y hy
    obtain rfl := Option.some.inj hy
    cases x with
    | number _ | logical _ => rfl
    | null | string _ | array _ | object _ => simp [spelledKinds, Json.kind] at hkind
  rcases stored_or_unspelled hleaf with ⟨e, he, hstored⟩ | ⟨n, -, -, he⟩
  · exact Except.ok.inj (he.symm.trans h) ▸ hstored
  · cases he.symm.trans h

theorem appendValues_rereads {t u : JsonTable} {key : Text}
    (h : t.appendValues .string (.text key) true = .ok u) :
    ∃ cells, u.table.columns.lookup key = some ⟨.string, cells⟩ ∧
      ∀ (i : Nat) v, t.nodes[i]? = some v → Holds v.json → v.kind ∈ spelledKinds →
        ∃ s, cells[i]? = some (.text s) ∧ Rereads v.json s := by
  obtain ⟨cells, hcells, hwritten⟩ := Except.bind_eq_ok.mp h
  obtain ⟨key', hkey, hlookup⟩ := lookup_withColumn hwritten
  obtain rfl := Datum.text.inj hkey
  refine ⟨cells, hlookup, fun i v hv hholds hkind => ?_⟩
  obtain ⟨d, hd, hcell⟩ := forall₂_beside (Except.mapM_eq_ok_iff.mp hcells) hv
  obtain ⟨s, rfl, hs⟩ := (stored_of_cellOf hkind hcell).rereads hholds.areRead hkind
  exact ⟨s, hd, hs⟩

theorem spreadAll_rereads {t u : JsonTable} (ht : t.Aligned) {separator : Text}
    (h : (t.spreadAll (.text separator)).result = .ok u) {name : Text}
    (hname : name ∈ t.scalarNames separator)
    (hmixed : ∀ kind, ¬Unanimous (t.scalars separator name) kind) :
    ∃ cells, u.table.columns.lookup name = some ⟨.string, cells⟩ ∧
      ∀ (i : Nat) v x, t.nodes[i]? = some v → Holds v.json →
        (t.scalars separator name)[i]? = some (some x) → x.kind ∈ spelledKinds →
        ∃ s, cells[i]? = some (.text s) ∧ Rereads x s := by
  have hseparator : separator ≠ [] := by
    rintro rfl
    cases h
  rcases spreadAll_cases ht hseparator with ⟨w, hw, hspread, -⟩ | ⟨e, he, -⟩
  · obtain rfl := Except.ok.inj (hw.symm.trans h)
    obtain ⟨c, hlookup, hpooled⟩ := hspread.written name hname
    cases hpooled with
    | alike hkind => exact absurd hkind (hmixed _)
    | @mixed cells _ hcells =>
        refine ⟨cells, hlookup, fun i v x hv hholds hx hkind => ?_⟩
        obtain ⟨d, hd, hstored⟩ := forall₂_beside hcells hx
        rw [scalars, List.getElem?_map, hv] at hx
        have hread := inherited_scalar (Json.inherited_throughout _) hholds.areRead
          (Option.some.inj hx)
        obtain ⟨s, rfl, hs⟩ := hstored.rereads hread hkind
        exact ⟨s, hd, hs⟩
  · cases he.symm.trans h

-- Where all values are inside documents that were read, texts can be written for them.
theorem exists_strings {t : JsonTable} (ht : t.Aligned) (hnodes : ∀ v ∈ t.nodes, Holds v.json) :
    (∀ key, Validation.Writable key → ∃ u, t.appendValues .string (.text key) true = .ok u) ∧
      ∀ separator ≠ [], documentColumn ∉ t.scalarNames separator →
        ∃ u, (t.spreadAll (.text separator)).result = .ok u := by
  have hlegible : t.Legible := ⟨ht, fun v hv => (hnodes v hv).areRead.spellable⟩
  constructor
  · intro key hkey
    obtain ⟨u, hu, -⟩ := shows_withColumn_map ht hkey fun v hv =>
      (scalarCell_ok .string true (hlegible.spellable v hv)).2
    exact ⟨u, (appendValues_of_legible hlegible _ _ _).trans hu⟩
  · intro separator hseparator hdocument
    rcases spreadAll_cases ht hseparator with ⟨u, hu, -⟩ | ⟨e, -, hfailure⟩
    · exact ⟨u, hu⟩
    · cases hfailure with
      | reserved hmem _ => exact absurd hmem hdocument
      | unspelled _ hunspelled => exact absurd (hlegible.spelled _ _) hunspelled

-- Texts that are written for numbers and logicals of documents can be read as documents again, and
-- then as the values that they were written for. The infinite numbers are an exception: they are
-- what literals past all doubles are read as, and they are spelled in a way that is not read.
theorem strings_reread {t : JsonTable} (ht : t.Aligned) :
    (∀ (key : Text) u, t.appendValues .string (.text key) true = .ok u →
      ∃ cells, u.table.columns.lookup key = some ⟨.string, cells⟩ ∧
        ∀ (i : Nat) v, t.nodes[i]? = some v → Holds v.json → v.kind ∈ spelledKinds →
          ∃ s, cells[i]? = some (.text s) ∧ Rereads v.json s) ∧
    (∀ (separator : Text) u, (t.spreadAll (.text separator)).result = .ok u →
      ∀ name ∈ t.scalarNames separator,
        (∀ kind, ¬Unanimous (t.scalars separator name) kind) →
        ∃ cells, u.table.columns.lookup name = some ⟨.string, cells⟩ ∧
          ∀ (i : Nat) v x, t.nodes[i]? = some v → Holds v.json →
            (t.scalars separator name)[i]? = some (some x) → x.kind ∈ spelledKinds →
            ∃ s, cells[i]? = some (.text s) ∧ Rereads x s) ∧
    ((∀ v ∈ t.nodes, Holds v.json) →
      (∀ key, Validation.Writable key →
        ∃ u, t.appendValues .string (.text key) true = .ok u) ∧
      ∀ separator ≠ [], documentColumn ∉ t.scalarNames separator →
        ∃ u, (t.spreadAll (.text separator)).result = .ok u) :=
  ⟨fun _ _ => appendValues_rereads, fun _ _ hu _ => spreadAll_rereads ht hu, exists_strings ht⟩

-- A number is written by itself, and another one beside a logical under the same name.
theorem strings_reread_mixed :
    ∃ t u w : JsonTable, t.Aligned ∧ (∀ v ∈ t.nodes, Holds v.json) ∧
      t.appendValues .string (.text "s") true = .ok u ∧
      u.table.columns.lookup ("s" : Text) = some ⟨.string, [.text "12", .none, .none]⟩ ∧
      Rereads (.number (.int 12)) "12" ∧
      (t.spreadAll (.text ".")).result = .ok w ∧
      w.table.columns.lookup ("a" : Text) = some ⟨.string, [.none, .text "true", .text "7"]⟩ ∧
      Rereads (.logical true) "true" ∧ Rereads (.number (.int 7)) "7" := by
  let t := ofDocuments [{ json := .number (.int 12) },
    { json := .object [("a", .logical true)] }, { json := .object [("a", .number (.int 7))] }]
  have ht : t.Aligned := rfl
  have hspelled {j : Json} {s : Text} {k : Nat} (h : IsValue s j k) (hk : k ≤ maxNumeralDigits) :
      Holds j := ⟨.parser, .text s, 1, _, [], parse_isValue h hk .parser fun _ => by decide, rfl⟩
  have hobject {j : Json} {s : Text} {k : Nat} (h : IsValue s j k) :
      ∃ s, IsValue s (.object [("a", j)]) k := by
    have hkey : IsString (.char '"' :: "a" ++ [.char '"']) "a" :=
      .quoted (.plain (by decide) (by decide) (by decide) .nil)
    have hentry := IsEntry.intro (b := []) (c := []) hkey nofun nofun h
    exact ⟨_, .object (b := []) nofun (.last (b := []) hentry nofun) ⟨rfl, fun _ => rfl⟩⟩
  have hnodes : ∀ v ∈ t.nodes, Holds v.json := by
    obtain ⟨_, hlogical⟩ := hobject .true
    obtain ⟨_, hnumber⟩ := hobject (.number (isNumber_ofInt 7))
    refine List.forall_mem_cons.mpr ⟨hspelled (.number (isNumber_ofInt 12)) (by decide),
      List.forall_mem_cons.mpr ⟨hspelled hlogical (by decide),
        List.forall_mem_singleton.mpr (hspelled hnumber (by decide))⟩⟩
  have hnames : t.scalarNames "." = ["a"] := by
    rw [← spreadNames_eq]
    decide
  have hscalars : t.scalars "." "a" = [none, some (.logical true), some (.number (.int 7))] := by
    rw [← lookup_spreadRow]
    rfl
  have hmixed : ∀ kind, ¬Unanimous (t.scalars "." "a") kind := by
    rw [hscalars]
    intro kind h
    have hlogical := h.agreed (.logical true) (by simp)
    have hnumber := h.agreed (.number (.int 7)) (by simp)
    cases kind <;> simp [Json.kind, ScalarKind.kind] at hlogical hnumber
  obtain ⟨happend, hspread, hexists⟩ := strings_reread ht
  obtain ⟨hcolumns, hspreads⟩ := hexists hnodes
  obtain ⟨u, hu⟩ := hcolumns "s" (by decide)
  obtain ⟨w, hw⟩ := hspreads "." (by decide) (by rw [hnames]; decide)
  obtain ⟨appended, happended, hrows⟩ := happend "s" u hu
  obtain ⟨spread, hspread, hcells⟩ := hspread "." w hw "a" (by rw [hnames]; decide) hmixed
  obtain ⟨twelve, hfirst⟩ := hrows 0 _ rfl (hnodes _ List.mem_cons_self) (by decide)
  obtain ⟨word, hsecond⟩ := hcells 1 _ (.logical true) rfl (hnodes _ (by simp [t, ofDocuments]))
    (by rw [hscalars]; rfl) (by decide)
  obtain ⟨seven, hthird⟩ := hcells 2 _ (.number (.int 7)) rfl (hnodes _ (by simp [t, ofDocuments]))
    (by rw [hscalars]; rfl) (by decide)
  -- the tables are computed to see which texts these are
  obtain rfl := Except.ok.inj hu
  obtain rfl := Except.ok.inj hw
  obtain rfl := (Column.mk.inj (Option.some.inj happended)).2
  obtain rfl := (Column.mk.inj (Option.some.inj hspread)).2
  obtain rfl := Datum.text.inj (Option.some.inj hfirst.1)
  obtain rfl := Datum.text.inj (Option.some.inj hsecond.1)
  obtain rfl := Datum.text.inj (Option.some.inj hthird.1)
  exact ⟨t, _, _, ht, hnodes, hu, rfl, hfirst.2, hw, rfl, hsecond.2, hthird.2⟩

-- A literal past all doubles.
theorem strings_reread_infinity :
    ∃ (v : Node) (u : JsonTable),
      (∀ channel document, (parse channel (.text "1e400") document).result = .ok v) ∧
      v.kind = .number ∧ (ofDocuments [v]).appendValues .string (.text "s") true = .ok u ∧
      u.table.columns.lookup ("s" : Text) = some ⟨.string, [.text "Infinity"]⟩ ∧
      ∀ channel document w, (parse channel (.text "Infinity") document).result ≠ .ok w := by
  have hdecode : Json.Decoder.decode "1e400" = .ok (.number (.real (.infinite false))) := rfl
  refine ⟨{ json := .number (.real (.infinite false)) }, _, fun channel document => ?_, rfl, rfl,
    rfl, parse_constant (by decide)⟩
  exact parse_eq_ok_iff.mpr ⟨rfl, _, hdecode, nofun, rfl⟩

end JsonTable

end Unnest
