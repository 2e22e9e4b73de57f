import Lineage.Proofs.BigMap.Enrichment
import Lineage.Proofs.Ledger.LiveState
import Lineage.Proofs.Typed.Places

/-!
# Last writes

In an enriched value a big map that was a bare pointer has entries, and these are what the last
records of its keys say: the value of a key if the last record about the key has one, and nothing if
it has none. Records are about one key if their keys are written alike in the type of keys, and the
last one is told after they were sorted by their levels (`enriched_lastWrites`).

That the changes were made says that all of them fit (`exists_write_of_applyChanges`). What they
amount to is then the table of the last records (`Table.of_change_filter`), and the entries are made
for this table (`exists_lastWrites`).
-/

namespace Lineage

open Function

lemma Attempt.map_eq_done {α β : Type} {t : Attempt α} {f : α → β} {b : β} :
    t.map f = .done b ↔ ∃ a, t = .done a ∧ b = f a := by
  obtain ⟨a, failure⟩ := t
  simp [map, done, eq_comm, and_comm]

/-! ### The last record of a key -/

/-- The last record of a big map about a key, which is given as it is written. -/
def Diff.lastOf? (key : Node) (p : Int) (k : Micheline) (rows : List Diff) : Option Diff :=
  (rows.filter fun d => d.pointer = p ∧ key.normal d.key = .ok k).getLast?

section Last

variable {key value : Node} {p : Int} {k k' v : Micheline} {v? : Option Micheline}
  {rows : List Diff} {d : Diff}

/-- One more record is the last about its key, and changes nothing for the others. -/
lemma Diff.lastOf?_concat : lastOf? key p k (rows ++ [d]) =
    if d.pointer = p ∧ key.normal d.key = .ok k then some d else lastOf? key p k rows := by
  unfold lastOf?
  rw [List.filter_append]
  split
  · next h => rw [List.filter_cons_of_pos (by simpa using h), List.filter_nil, List.getLast?_concat]
  · next h => rw [List.filter_cons_of_neg (by simpa using h), List.filter_nil, List.append_nil]

lemma Diff.of_lastOf?_eq_some (h : lastOf? key p k rows = some d) :
    d ∈ rows ∧ d.pointer = p ∧ key.normal d.key = .ok k := by
  obtain ⟨hmem, habout⟩ := List.mem_filter.1 (List.mem_of_getLast? h)
  exact ⟨hmem, of_decide_eq_true habout⟩

lemma Diff.write_value (h : d.change.write key value = .ok (k, v?)) :
    v? = some v ↔ ∃ x, d.value = some x ∧ value.normal x = .ok v := by
  cases hd : d.value with
  | none =>
    obtain ⟨-, rfl⟩ := (Node.write_none_ok hd).1 h
    simp
  | some x =>
    obtain ⟨-, w, hw, rfl⟩ := (Node.write_some_ok hd).1 h
    simp [hw]

/-- What the records of a big map amount to is what the last ones say. -/
theorem Table.of_change_filter
    (hw : ∀ d ∈ rows, d.pointer = p → ∃ w, d.change.write key value = .ok w) :
    Table.of key value ((rows.map Diff.change).filter (·.pointer == p)) k = some v ↔
      ∃ d x, Diff.lastOf? key p k rows = some d ∧ d.value = some x ∧ value.normal x = .ok v := by
  induction rows using List.reverseRecOn with
  | nil => simp [Table.of, Table.empty, Diff.lastOf?]
  | append_singleton rows d ih =>
    have ih := ih fun e he => hw e (List.mem_append_left _ he)
    rw [List.map_append, List.map_singleton, List.filter_append, Diff.lastOf?_concat]
    by_cases hp : d.pointer = p
    · obtain ⟨⟨k', v?⟩, hd⟩ := hw d (by simp) hp
      have hnormal : key.normal d.key = .ok k' := Diff.normal_of_write hd
      rw [List.filter_cons_of_pos (by simpa [Diff.change] using hp), List.filter_nil,
        Table.of_concat hd, hnormal]
      by_cases hk : k = k'
      · subst hk
        rw [update_self, if_pos ⟨hp, rfl⟩, Diff.write_value hd]
        simp
      · rw [update_of_ne hk, if_neg fun h => hk (Except.ok.inj h.2).symm]
        exact ih
    · rw [List.filter_cons_of_neg (by simpa [Diff.change] using hp), List.filter_nil,
        List.append_nil, if_neg fun h => hp h.1]
      exact ih

end Last

/-- **The last writes** to a big map, as keys with values: a key has a value just if the last record
about it has this value, and none just if the last record has none. -/
structure Diff.LastWrites (key value : Node) (p : Int) (rows : List Diff)
    (es : List (Micheline × Micheline)) : Prop where
  nodup : (es.map Prod.fst).Nodup
  mem_iff : ∀ k v, (k, v) ∈ es ↔
    ∃ d x, lastOf? key p k rows = some d ∧ d.value = some x ∧ value.normal x = .ok v
  mem_keys_iff : ∀ k, k ∈ es.map Prod.fst ↔
    ∃ d, lastOf? key p k rows = some d ∧ d.value.isSome = true

/-! ### Changes that were made -/

namespace Node

variable {key value : Node} {entries entries' : List (Node × Node)} {c : EntryChange}
  {changes : List EntryChange} {rows : List Diff} {p : Int}

lemma exists_write_of_applyChange (hkey : key.Sound) (hvalue : value.Sound)
    (h : applyChange key value entries c = .ok entries') :
    ∃ w, c.write key value = .ok w := by
  obtain ⟨k, hk, h⟩ := except_bind_ok.1 h
  obtain ⟨wanted, -, h⟩ := except_bind_ok.1 h
  refine exists_write hkey hvalue ⟨k, hk⟩ ?_
  intro x hx
  rw [Option.mem_def.1 hx] at h
  obtain ⟨v, hv, -⟩ := except_bind_ok.1 h
  exact ⟨v, hv⟩

lemma exists_write_of_applyChanges (hkey : key.Sound) (hvalue : value.Sound)
    (h : applyChanges key value entries changes = .done entries') :
    ∀ c ∈ changes, ∃ w, c.write key value = .ok w := by
  induction changes generalizing entries with
  | nil => exact nofun
  | cons c changes ih =>
    rw [applyChanges] at h
    split at h
    · next entries₁ hstep =>
      exact List.forall_mem_cons.2 ⟨exists_write_of_applyChange hkey hvalue hstep, ih h⟩
    · cases h

/-- Where records were all laid over a bare pointer, the entries are the last writes. -/
theorem exists_lastWrites (hkey : key.Sound) (hvalue : value.Sound)
    (h : applyChanges key value [] ((rows.map Diff.change).filter (·.pointer == p)) =
      .done entries) :
    ∃ es, Writes entries es ∧ Diff.LastWrites key value p rows es := by
  have hw := exists_write_of_applyChanges hkey hvalue h
  obtain ⟨entries', es, hagain, hwrites, hlists⟩ :=
    exists_applyChanges (t := Table.empty) .nil Table.lists_empty hw
  obtain rfl : entries' = entries := congrArg Attempt.result (hagain.symm.trans h)
  have hwrite : ∀ d ∈ rows, d.pointer = p → ∃ w, d.change.write key value = .ok w := by
    intro d hd hp
    refine hw d.change (List.mem_filter.2 ⟨List.mem_map_of_mem hd, ?_⟩)
    simpa [Diff.change] using hp
  have hmem : ∀ k v, (k, v) ∈ es ↔ ∃ d x, Diff.lastOf? key p k rows = some d ∧
      d.value = some x ∧ value.normal x = .ok v := by
    intro k v
    rw [hlists.mem_iff]
    exact Table.of_change_filter hwrite
  refine ⟨es, hwrites, hlists.nodup, hmem, fun k => ?_⟩
  constructor
  · intro hk
    obtain ⟨⟨k, v⟩, hkv, rfl⟩ := List.mem_map.1 hk
    obtain ⟨d, x, hlast, hx, -⟩ := (hmem k v).1 hkv
    exact ⟨d, hlast, by rw [hx]; rfl⟩
  · rintro ⟨d, hlast, hx⟩
    obtain ⟨x, hx⟩ := Option.isSome_iff_exists.1 hx
    obtain ⟨hd, hp, -⟩ := Diff.of_lastOf?_eq_some hlast
    -- the record was laid over the big map, and so its value fits
    obtain ⟨⟨k', v?⟩, hwrote⟩ := hwrite d hd hp
    obtain ⟨-, v, hv, -⟩ := (write_some_ok hx).1 hwrote
    exact List.mem_map.2 ⟨(k, v), (hmem k v).2 ⟨d, x, hlast, hx, hv⟩, rfl⟩

end Node

namespace Tree

variable {t u' : Tree} {type storage : Micheline} {diffs : List Diff}

/-- **Enrichment leaves the last writes.** If a value of a type is enriched with records, then a big
map that was a bare pointer has entries afterwards at the same place, and they are written as the
last writes to it, where the records are sorted by their levels and those of one level stay in
order. -/
theorem enriched_lastWrites (htype : ofType type = .ok t)
    (hrun : t.enriched storage diffs = .ok u') :
    ∃ u rows, t.settle [storage] = .ok u ∧ StablySorted (·.provenance.level) diffs rows ∧
      ∀ place s key value p, u.partAt? place = some (.bigMap s key value (some p) none) →
        ∃ entries es, u'.partAt? place = some (.bigMap s key value (some p) (some entries)) ∧
          Node.Writes entries es ∧ Diff.LastWrites key value p rows es := by
  obtain ⟨u, hsettle, hoverlay⟩ := except_bind_ok.1 hrun
  generalize hrows : Store.byLevel (·.provenance.level) diffs = rows at hoverlay
  refine ⟨u, rows, hsettle, hrows ▸ stablySorted_byLevel _ _, ?_⟩
  intro place s key value p hplace
  -- at this place all changes to the big map were made
  obtain ⟨n, hn, hdone⟩ := exists_overlay_done hoverlay hplace
  obtain ⟨entries, happly, rfl⟩ : ∃ entries,
      Node.applyChanges key value [] ((rows.map Diff.change).filter (·.pointer == p)) =
          .done entries ∧
        n = .bigMap s key value (some p) (some entries) := by
    rw [Node.overlay] at hdone
    exact Attempt.map_eq_done.1 hdone
  obtain ⟨hkey, hvalue⟩ : key.Sound ∧ value.Sound := by
    obtain ⟨root, hroot, hactive⟩ := active_iff_partAt?.2 ⟨place, hplace⟩
    have hreachable : u.Reachable := (Reachable.ofType htype).settle hsettle
    have hsound := (hreachable.sound.sound root hroot).of_active hactive
    cases hsound with
    | bigMap hkey hvalue => exact ⟨hkey, hvalue⟩
  obtain ⟨es, hwrites, hlast⟩ := Node.exists_lastWrites hkey hvalue happly
  exact ⟨entries, es, hn, hwrites, hlast⟩

theorem enriched_lastWrites_board :
    ∃ t u u' rows entries es, ofType board = .ok t ∧
      t.settle [.data .pair [.int "5", .int "7"]] = .ok u ∧
      t.enriched (.data .pair [.int "5", .int "7"]) boardRecords = .ok u' ∧
      StablySorted (·.provenance.level) boardRecords rows ∧
      u.partAt? [0, 0] = some (.bigMap ⟨1, "0/0", .empty, 1⟩ boardKey boardCount (some 5) none) ∧
      u'.partAt? [0, 0] =
        some (.bigMap ⟨1, "0/0", .empty, 1⟩ boardKey boardCount (some 5) (some entries)) ∧
      Node.Writes entries es ∧ Diff.LastWrites boardKey boardCount 5 rows es := by
  have htype : ofType board = .ok (boardTree none none false) := rfl
  have hsettle : (boardTree none none false).settle [.data .pair [.int "5", .int "7"]] =
      .ok (boardTree (some 5) (some 7) true) := rfl
  have hrows : Store.byLevel (·.provenance.level) boardRecords =
      [0, 1, 2, 3, 6, 7, 8, 5, 4].filterMap (boardRecords[·]?) := by
    simp [Store.byLevel, List.mergeSort, boardRecords, boardDiff]
  have hrun : ((boardTree none none false).enriched (.data .pair [.int "5", .int "7"])
      boardRecords).toOption.isSome = true := by
    unfold enriched
    rw [hrows]
    decide +kernel
  obtain ⟨u', hrun⟩ := Option.isSome_iff_exists.1 hrun
  have hrun := except_ok_of_toOption hrun
  obtain ⟨u, rows, hu, hsorted, hwrites⟩ := enriched_lastWrites htype hrun
  obtain rfl := Except.ok.inj (hsettle.symm.trans hu)
  have hplace : (boardTree (some 5) (some 7) true).partAt? [0, 0] =
      some (.bigMap ⟨1, "0/0", .empty, 1⟩ boardKey boardCount (some 5) none) := rfl
  obtain ⟨entries, es, hplace', hentries, hlast⟩ := hwrites _ _ _ _ _ hplace
  exact ⟨_, _, u', rows, entries, es, htype, hsettle, hrun, hsorted, hplace, hplace', hentries,
    hlast⟩

end Tree

end Lineage
