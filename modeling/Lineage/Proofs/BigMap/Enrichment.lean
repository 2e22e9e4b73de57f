import Lineage.BigMap.Enrichment
import Lineage.Proofs.BigMap.Pointers
import Lineage.Proofs.Ledger.Contents
import Lineage.Proofs.Typed.Entries
import Lineage.Proofs.Typed.Inlining

/-!
# Enrichment from records

A big map in a storage value can be filled in from all of its records or from the live ones. The
store tells the live records by the hashes of keys; what changes leave in the value is told by how
the keys are written. If hashes tell keys apart, the two agree: the last records of the keys say
what the table of all records has (`Table.of_change_eq_some_iff`), so that the live ones amount to
the same table (`Store.table_live`), and the value is written with a list of this table in the place
of the pointer (`exists_enrichStorage`). The order of the list is not the same: a key that is
written again keeps its place among the entries, but not among the live records.
-/

namespace Lineage

open Function

/-! ### Records and tables -/

/-- The records fit types of keys and values, and two of them have one hash just if they are about
one key. -/
structure Diff.Fit (key value : Node) (rows : List Diff) : Prop where
  keys : ∀ d ∈ rows, ∃ k, key.settle d.key = .ok k
  values : ∀ d ∈ rows, ∀ x ∈ d.value, ∃ v, value.settle x = .ok v
  hashes : ∀ d ∈ rows, ∀ e ∈ rows, d.keyHash = e.keyHash ↔ key.normal d.key = key.normal e.key

section Fit

variable {key value : Node} {rows rows' : List Diff} {d : Diff} {k v : Micheline}
  {v? : Option Micheline}

open Diff

lemma Diff.Fit.subset (h : Fit key value rows) (hsub : rows' ⊆ rows) : Fit key value rows' where
  keys d hd := h.keys d (hsub hd)
  values d hd := h.values d (hsub hd)
  hashes d hd e he := h.hashes d (hsub hd) e (hsub he)

lemma Diff.Fit.exists_write (h : Fit key value rows) (hkey : key.Sound) (hvalue : value.Sound)
    (hd : d ∈ rows) : ∃ w, d.change.write key value = .ok w :=
  Node.exists_write hkey hvalue (h.keys d hd) (h.values d hd)

lemma Diff.normal_of_write (h : d.change.write key value = .ok (k, v?)) :
    key.normal d.key = .ok k := by
  cases hd : d.value with
  | none => exact ((Node.write_none_ok hd).1 h).1
  | some x => exact ((Node.write_some_ok hd).1 h).1

/-- What a table has of a key is what the last record of the key says. -/
theorem Table.of_change_eq_some_iff (hfit : Fit key value rows)
    (hw : ∀ d ∈ rows, ∃ w, d.change.write key value = .ok w) :
    Table.of key value (rows.map Diff.change) k = some v ↔
      ∃ d, IsLast rows d ∧ d.change.write key value = .ok (k, some v) := by
  induction rows using List.reverseRecOn with
  | nil => simp [Table.of, Table.empty, not_isLast_nil]
  | append_singleton rows d ih =>
    have hsub : rows ⊆ rows ++ [d] := List.subset_append_left ..
    obtain ⟨⟨k', v?⟩, hd⟩ := hw d (by simp)
    have hsame : ∀ e ∈ rows, e.keyHash = d.keyHash ↔ key.normal e.key = .ok k' := by
      intro e he
      rw [hfit.hashes e (hsub he) d (by simp), normal_of_write hd]
    rw [List.map_append, List.map_singleton, Table.of_concat hd]
    by_cases hk : k = k'
    · subst hk
      rw [update_self]
      constructor
      · rintro rfl
        exact ⟨d, isLast_concat.2 (.inl rfl), hd⟩
      · rintro ⟨e, he, hwrite⟩
        obtain rfl | ⟨he, hne⟩ := isLast_concat.1 he
        · rw [hd] at hwrite
          exact (Prod.mk.inj (Except.ok.inj hwrite)).2
        · exact absurd ((hsame e he.mem).2 (normal_of_write hwrite)) hne
    · rw [update_of_ne hk, ih (hfit.subset hsub) fun e he => hw e (hsub he)]
      constructor
      · rintro ⟨e, he, hwrite⟩
        refine ⟨e, isLast_concat.2 (.inr ⟨he, fun hhash => hk ?_⟩), hwrite⟩
        have hnormal := (hsame e he.mem).1 hhash
        rw [normal_of_write hwrite] at hnormal
        exact Except.ok.inj hnormal
      · rintro ⟨e, he, hwrite⟩
        obtain rfl | ⟨he, -⟩ := isLast_concat.1 he
        · rw [hd] at hwrite
          exact absurd (Prod.mk.inj (Except.ok.inj hwrite)).1.symm hk
        · exact ⟨e, he, hwrite⟩

end Fit

/-! ### Live records -/

namespace Store

variable {s : Store} {place : Place} {key value : Node} {rows : List Diff} {d : Diff}

lemma byLevel_eq_self {α : Type} {level : α → Int} {xs : List α}
    (h : xs.Pairwise (level · ≤ level ·)) : byLevel level xs = xs :=
  List.mergeSort_of_pairwise (h.imp decide_eq_true)

lemma latest_sublist (rows : List Diff) : (latest rows).Sublist rows := by
  induction rows using List.reverseRecOn with
  | nil => exact .refl _
  | append_singleton rows d ih =>
    unfold latest
    rw [List.foldl_append]
    exact (List.filter_sublist.trans ih).append_right [d]

lemma live_sublist : (s.live place).Sublist (s.history place) :=
  List.filter_sublist.trans (latest_sublist _)

lemma pairwise_history :
    (s.history place).Pairwise (·.provenance.level ≤ ·.provenance.level) := pairwise_byLevel _

lemma pointer_of_mem_history (h : d ∈ s.history place) : d.pointer = place.pointer := by
  have hmem : d ∈ s.diffs.filter (isAbout place) := (List.mergeSort_perm _ _).mem_iff.1 h
  have habout := (List.mem_filter.1 hmem).2
  simp only [isAbout, Bool.and_eq_true, beq_iff_eq] at habout
  exact habout.1.1

lemma isLast_live :
    Diff.IsLast (s.live place) d ↔ Diff.IsLast (s.history place) d ∧ d.isRemoved = false := by
  have hnodup : ((s.live place).map Diff.keyHash).Nodup := replaces_supersede.nodup_live _
  rw [isLast_iff_mem hnodup]
  exact replaces_supersede.mem_live

/-- The live records amount to the same table as all records. -/
theorem table_live (hfit : Diff.Fit key value (s.history place))
    (hw : ∀ d ∈ s.history place, ∃ w, d.change.write key value = .ok w) :
    Table.of key value ((s.live place).map Diff.change) =
      Table.of key value ((s.history place).map Diff.change) := by
  have hsub : s.live place ⊆ s.history place := live_sublist.subset
  funext k
  refine Option.ext fun v => ?_
  rw [Table.of_change_eq_some_iff hfit hw,
    Table.of_change_eq_some_iff (hfit.subset hsub) fun d hd => hw d (hsub hd)]
  refine exists_congr fun d => and_congr_left fun hwrite => ?_
  rw [isLast_live]
  refine and_iff_left ?_
  -- a record that was deleted says that the key has no value
  cases hd : d.value with
  | none => cases ((Node.write_none_ok hd).1 hwrite).2
  | some x =>
    unfold Diff.isRemoved
    rw [hd]
    rfl

end Store

/-! ### Values with contents -/

namespace Tree

open Micheline (elt)

variable {t u : Tree} {storage : Micheline} {key value : Node} {site : Site} {p : Int}
  {rows diffs : List Diff} {contents : Int → List Micheline}

/-- The encoding of a value with contents in the place of the pointers of its big maps. -/
def inlined (contents : Int → List Micheline) (t : Tree) : Except NodeError Micheline :=
  match t.roots with
  | [root] => root.inlined contents
  | roots => return .seq (← roots.mapM (Node.inlined contents))

lemma Reachable.settle {values : List Micheline} (h : t.Reachable) (hs : t.settle values = .ok u) :
    u.Reachable := by
  obtain ⟨-, rfl⟩ := Attempt.toExcept_eq_ok.1 hs
  exact h.bind values

/-- Where the diffs come to contents at each big map that counts, the value is enriched, and written
with the contents in it. -/
lemma enrichStorage_of_active (ht : t.Reachable) (hsettle : t.settle [storage] = .ok u)
    (h : ∀ s key value q entries, u.Active (.bigMap s key value (some q) entries) →
      Node.Inlines contents ((Store.byLevel (·.provenance.level) diffs).map Diff.change)
        (.bigMap s key value (some q) entries)) :
    ∃ w, t.enrichStorage storage diffs = .ok w ∧ u.inlined contents = .ok w := by
  obtain ⟨root, root', -, -, rfl⟩ := settle_single_ok.1 hsettle
  generalize hchanges : (Store.byLevel (·.provenance.level) diffs).map Diff.change = changes at h
  obtain ⟨n, hoverlay, hwire⟩ := Node.inlines_of_active (n := root')
    fun s key value q entries hm => h s key value q entries ⟨root', by simp, hm⟩
  have htree : (Tree.mk [root'] true).overlay changes = .done ⟨[n], true⟩ := by
    unfold overlay changeRoots
    rw [hoverlay]
    rfl
  have hreachable : (Tree.mk [n] true).Reachable := by
    have hresult := (ht.settle hsettle).overlay changes
    rwa [htree] at hresult
  obtain ⟨w, hw⟩ := exists_toWire (hreachable.sound.bound rfl) false
  refine ⟨w, ?_, hwire.symm.trans hw⟩
  unfold enrichStorage enriched
  rw [hsettle]
  show ((Tree.overlay _ _).toExcept >>= fun t => t.toWire false) = _
  rw [hchanges, htree]
  exact hw

/-- **Enrichment of one big map**: if all diffs are about the big map of a bare pointer, and say
something in its types, then the value is written with the entries that they leave in the place of
the pointer; other big maps get no entries. -/
theorem exists_enrichStorage (ht : t.Reachable) (hsettle : t.settle [storage] = .ok u)
    (honly : ∀ s k v entries, u.Active (.bigMap s k v (some p) entries) →
      k = key ∧ v = value ∧ entries = none)
    (hsorted : rows.Pairwise (·.provenance.level ≤ ·.provenance.level))
    (hpointer : ∀ d ∈ rows, d.pointer = p)
    (hw : ∀ d ∈ rows, ∃ w, d.change.write key value = .ok w) :
    ∃ es w, (Table.of key value (rows.map Diff.change)).Lists es ∧
      t.enrichStorage storage rows = .ok w ∧
      u.inlined (update (fun _ => []) p (es.map elt)) = .ok w := by
  obtain ⟨entries, es, hdone, hwrites, hlists⟩ : ∃ entries es,
      Node.applyChanges key value [] (rows.map Diff.change) = .done entries ∧
        Node.Writes entries es ∧ (Table.of key value (rows.map Diff.change)).Lists es :=
    Node.exists_applyChanges .nil Table.lists_empty (List.forall_mem_map.2 hw)
  have hwire : Node.entriesToWire false entries = .ok (es.map elt) :=
    Node.HoldsEntries.toWire ⟨hwrites, hlists.nodup⟩ fun _ _ h => h
  have hinlines : ∀ s k v q es', u.Active (.bigMap s k v (some q) es') →
      Node.Inlines (update (fun _ => []) p (es.map elt))
        ((Store.byLevel (·.provenance.level) rows).map Diff.change)
        (.bigMap s k v (some q) es') := by
    intro s k v q es' hm
    rw [Store.byLevel_eq_self hsorted]
    by_cases hq : q = p
    · subst hq
      obtain ⟨rfl, rfl, rfl⟩ := honly s k v es' hm
      refine Node.inlines_pointer (?_ : _ = Attempt.done entries) ?_
      · rwa [List.filter_eq_self.2 (by simpa [Diff.change] using hpointer)]
      · rwa [update_self]
    · refine Node.inlines_of_filter_eq_nil ?_ (update_of_ne hq ..)
      simpa [Diff.change] using fun d hd => hpointer d hd ▸ Ne.symm hq
  obtain ⟨w, hrun, hinlined⟩ := enrichStorage_of_active ht hsettle hinlines
  exact ⟨es, w, hlists, hrun, hinlined⟩

/-- **All records and live ones enrich alike.** Let the records of a big map fit the types of a big
map that counts in a storage value, where it is a bare pointer, and let their hashes tell keys apart.
Then the value is enriched both with all records and with the live ones, and in both cases it is
written with entries in the place of the pointer that are the same up to their order. -/
theorem enrichStorage_live {s : Store} {place : Place} (ht : t.Reachable)
    (hsettle : t.settle [storage] = .ok u)
    (hbig : u.Active (.bigMap site key value (some place.pointer) none))
    (honly : ∀ site k v entries, u.Active (.bigMap site k v (some place.pointer) entries) →
      k = key ∧ v = value ∧ entries = none)
    (hfit : Diff.Fit key value (s.history place)) :
    ∃ (es es' : List (Micheline × Micheline)) (w w' : Micheline), es'.Perm es ∧
      t.enrichStorage storage (s.history place) = .ok w ∧
      u.inlined (update (fun _ => []) place.pointer (es.map elt)) = .ok w ∧
      t.enrichStorage storage (s.live place) = .ok w' ∧
      u.inlined (update (fun _ => []) place.pointer (es'.map elt)) = .ok w' := by
  obtain ⟨root, hroot, hactive⟩ := hbig
  have hsound := ((ht.settle hsettle).sound.sound root hroot).of_active hactive
  have hw : ∀ d ∈ s.history place, ∃ w, d.change.write key value = .ok w := by
    cases hsound with
    | bigMap hkey hvalue => exact fun d hd => hfit.exists_write hkey hvalue hd
  have hsub : s.live place ⊆ s.history place := Store.live_sublist.subset
  obtain ⟨es, w, hlists, hrun, hinlined⟩ := exists_enrichStorage ht hsettle honly
    Store.pairwise_history (fun _ => Store.pointer_of_mem_history) hw
  obtain ⟨es', w', hlists', hrun', hinlined'⟩ := exists_enrichStorage ht hsettle honly
    (Store.pairwise_history.sublist Store.live_sublist)
    (fun d hd => Store.pointer_of_mem_history (hsub hd)) fun d hd => hw d (hsub hd)
  rw [Store.table_live hfit hw] at hlists'
  exact ⟨es, es', w, w', hlists'.perm hlists, hrun, hinlined, hrun', hinlined'⟩

/-- A big map with pairs for keys beside one with texts. -/
def board : Micheline :=
  let nat := .prim "nat" [] []
  .prim "pair" [.prim "big_map" [.prim "pair" [nat, nat] [], nat] [],
    .prim "big_map" [.prim "string" [] [], nat] []] []

def boardKey : Node :=
  .pair ⟨2, "0/0/k", .empty, 2⟩ (.scalar ⟨3, "0/0/k/0", .empty, 3⟩ .nat [] none)
    (.scalar ⟨4, "0/0/k/1", .empty, 3⟩ .nat [] none)

def boardCount : Node := .scalar ⟨5, "0/0/v", .empty, 2⟩ .nat [] none

def boardTree (p q : Option Int) (settled : Bool) : Tree :=
  ⟨[.pair ⟨0, "0", .empty, 0⟩ (.bigMap ⟨1, "0/0", .empty, 1⟩ boardKey boardCount p none)
    (.bigMap ⟨6, "0/1", .empty, 1⟩ (.scalar ⟨7, "0/1/k", .empty, 2⟩ .string [] none)
      (.scalar ⟨8, "0/1/v", .empty, 2⟩ .nat [] none) q none)], settled⟩

def boardDiff (id : String) (p : Int) (keyHash : String) (key : Micheline)
    (value : Option Micheline) (level : Int) : Diff :=
  ⟨id, p, key, keyHash, [], value, [], "", "KT1", ⟨"", level, "", "main", ""⟩⟩

/-- Records of both big maps, not in the order of their levels. Keys get other values, are deleted,
and come back in another spelling. -/
def boardRecords : List Diff :=
  [boardDiff "1" 5 "a" (.data .pair [.int "1", .int "1"]) (some (.int "10")) 1,
    boardDiff "2" 5 "b" (.data .pair [.int "2", .int "2"]) (some (.int "20")) 1,
    boardDiff "3" 5 "c" (.data .pair [.int "3", .int "3"]) (some (.int "30")) 1,
    boardDiff "4" 7 "a" (.string "a") (some (.int "1")) 1,
    boardDiff "5" 5 "a" (.seq [.int "1", .int "1"]) (some (.int "12")) 4,
    boardDiff "6" 5 "b" (.data .pair [.int "2", .int "2"]) (some (.int "21")) 3,
    boardDiff "7" 5 "b" (.data .pair [.int "2", .int "2"]) none 2,
    boardDiff "8" 5 "c" (.data .pair [.int "3", .int "3"]) none 2,
    boardDiff "9" 5 "d" (.data .pair [.int "4", .int "4"]) (some (.int "40")) 2]

def boardStore : Store := (Store.empty.commit ⟨boardRecords, []⟩).2

def boardPlace : Place := ⟨"KT1", "main", 5⟩

lemma fit_board : Diff.Fit boardKey boardCount (boardStore.history boardPlace) := by
  have hkeys : ∀ d ∈ boardStore.diffs.filter (Store.isAbout boardPlace),
      (boardKey.settle d.key).toOption.isSome := by
    decide +kernel
  have hvalues : ∀ d ∈ boardStore.diffs.filter (Store.isAbout boardPlace), ∀ x ∈ d.value,
      (boardCount.settle x).toOption.isSome := by
    decide +kernel
  have hfit : Diff.Fit boardKey boardCount (boardStore.diffs.filter (Store.isAbout boardPlace)) :=
    { keys := fun d hd =>
        (Option.isSome_iff_exists.1 (hkeys d hd)).imp fun _ => except_ok_of_toOption
      values := fun d hd x hx =>
        (Option.isSome_iff_exists.1 (hvalues d hd x hx)).imp fun _ => except_ok_of_toOption
      hashes := by decide +kernel }
  exact hfit.subset (List.mergeSort_perm _ _).subset

lemma eq_of_active_board {s : Site} {k v : Node} {entries : Option (List (Node × Node))}
    (h : (boardTree (some 5) (some 7) true).Active (.bigMap s k v (some 5) entries)) :
    k = boardKey ∧ v = boardCount ∧ entries = none := by
  obtain ⟨root, hroot, hm⟩ := h
  obtain rfl := List.mem_singleton.1 hroot
  cases hm with
  | part hpart hm =>
    obtain rfl | rfl := List.mem_pair.1 hpart
    · cases hm with
      | self => exact ⟨rfl, rfl, rfl⟩
      | part hpart => cases hpart
    · cases hm with
      | part hpart => cases hpart

theorem enrichStorage_live_board :
    ∃ (t : Tree) (es es' : List (Micheline × Micheline)) (w w' : Micheline),
      ofType board = .ok t ∧
        t.settle [.data .pair [.int "5", .int "7"]] = .ok (boardTree (some 5) (some 7) true) ∧
        es'.Perm es ∧
        t.enrichStorage (.data .pair [.int "5", .int "7"]) (boardStore.history boardPlace) = .ok w ∧
        (boardTree (some 5) (some 7) true).inlined (update (fun _ => []) 5 (es.map elt)) = .ok w ∧
        t.enrichStorage (.data .pair [.int "5", .int "7"]) (boardStore.live boardPlace) = .ok w' ∧
        (boardTree (some 5) (some 7) true).inlined (update (fun _ => []) 5 (es'.map elt)) =
          .ok w' := by
  have htype : ofType board = .ok (boardTree none none false) := rfl
  have hsettle : (boardTree none none false).settle [.data .pair [.int "5", .int "7"]] =
      .ok (boardTree (some 5) (some 7) true) := rfl
  have hbig : (boardTree (some 5) (some 7) true).Active
      (.bigMap ⟨1, "0/0", .empty, 1⟩ boardKey boardCount (some 5) none) :=
    ⟨_, List.mem_singleton_self _, .part List.mem_cons_self .self⟩
  obtain ⟨es, es', w, w', hperm, hw, hin, hw', hin'⟩ :=
    enrichStorage_live (.ofType htype) hsettle hbig (fun _ _ _ _ => eq_of_active_board) fit_board
  exact ⟨_, es, es', w, w', htype, hsettle, hperm, hw, hin, hw', hin'⟩

end Tree

end Lineage
