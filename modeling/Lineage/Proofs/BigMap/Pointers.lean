import Lineage.BigMap.Pointer
import Lineage.Proofs.Contract.Settled
import Lineage.Proofs.Typed.Active
import Lineage.Proofs.Typed.Charts

/-!
# Pointers lead to their types

The pointers of a storage value come with paths, and at such a path the storage type has the big map
that holds the pointer in the value (`pointers_lead`). For this to make sense a path has to say which
node is meant, and looking for a path must not pass the node by: it goes only where the path of a
node is a beginning of the path looked for, which is a test on characters and not on segments
(`Charted.at?_eq_some_iff`).
-/

namespace Lineage

/-! ### Looking for a path -/

namespace Node

variable {n m : Node} {path : String}

lemma at?_eq : n.at? path =
    if n.path = path then some n
    else if n.leadsTo path then n.typeChildren.reverse.findSome? (Node.at? path) else none := by
  have htwo : ∀ a b : Node, (b.at? path).or (a.at? path) =
      [a, b].reverse.findSome? (Node.at? path) := by
    intro a b
    cases h : b.at? path <;> cases h' : a.at? path <;> simp [h, h']
  have hone : ∀ a : Node, a.at? path = [a].reverse.findSome? (Node.at? path) := by
    intro a
    cases h : a.at? path <;> simp [h]
  rw [at?.eq_def]
  cases n with
  | scalar => rfl
  | contract | ticket | option | collection => simp only [typeChildren, ← hone]
  | pair | or | map | bigMap | lambda => simp only [typeChildren, htwo]

lemma of_at?_eq_some (h : n.at? path = some m) : m ∈ n.skeleton ∧ m.path = path := by
  induction n using sizeInduction with
  | step n ih =>
    rw [at?_eq] at h
    split at h
    · next hpath =>
      cases h
      exact ⟨mem_skeleton_self, hpath⟩
    · split at h
      · obtain ⟨child, hchild, h⟩ := List.exists_of_findSome?_eq_some h
        rw [List.mem_reverse] at hchild
        obtain ⟨hm, hpath⟩ := ih child (sizeOf_lt_of_mem_typeChildren hchild) h
        exact ⟨mem_skeleton.2 (.inr ⟨child, hchild, hm⟩), hpath⟩
      · cases h

lemma Charted.isSome_at? (h : n.Charted) (hm : m ∈ n.skeleton) : (n.at? m.path).isSome := by
  induction n using sizeInduction with
  | step n ih =>
    rw [at?_eq]
    split
    · rfl
    · next hpath =>
      have hleads : n.leadsTo m.path = true := List.isPrefixOf_iff_prefix.2 (h.below hm).isPrefix
      rw [if_pos hleads, List.findSome?_isSome_iff]
      obtain rfl | ⟨child, hchild, hm⟩ := mem_skeleton.1 hm
      · exact absurd rfl hpath
      · exact ⟨child, List.mem_reverse.2 hchild,
          ih child (sizeOf_lt_of_mem_typeChildren hchild) (h.child hchild).1 hm⟩

end Node

namespace Tree

variable {t u : Tree} {type storage : Micheline} {m : Node} {path : String}

/-- **Looking for a path finds the node that stands there.** -/
theorem at?_eq_some_iff (htype : ofType type = .ok t) :
    t.at? path = some m ↔ m ∈ t.skeleton ∧ m.path = path := by
  have hmem : ∀ {m}, t.at? path = some m → m ∈ t.skeleton ∧ m.path = path := by
    intro m h
    obtain ⟨root, hroot, h⟩ := List.exists_of_findSome?_eq_some h
    obtain ⟨hm, hpath⟩ := Node.of_at?_eq_some h
    exact ⟨List.mem_flatMap.2 ⟨root, List.mem_reverse.1 hroot, hm⟩, hpath⟩
  refine ⟨hmem, ?_⟩
  rintro ⟨hm, rfl⟩
  obtain ⟨root, hroot, hm'⟩ := List.mem_flatMap.1 hm
  have hsome : (t.at? m.path).isSome := List.findSome?_isSome_iff.2
    ⟨root, List.mem_reverse.2 hroot, ((charted_ofType htype).1 root hroot).isSome_at? hm'⟩
  obtain ⟨m', h⟩ := Option.isSome_iff_exists.1 hsome
  obtain ⟨hm', hpath⟩ := hmem h
  rw [h, List.inj_on_of_nodup_map (nodup_path htype) hm' hm hpath]

/-- What counts in the values of the roots. -/
def Active (m : Node) (t : Tree) : Prop := ∃ root ∈ t.roots, Node.Active m root

/-- **Pointers lead to their types.** In a tree that was read no two nodes stand at one path, and at
a path just the node is found that stands there. Every value of the type has pointers: these are the
pointers of the active big maps, and at the path that comes with one of them the type has a big map
with the keys and values of an active big map that holds the pointer. -/
theorem pointers_lead (htype : ofType type = .ok t) :
    (∀ storage u, t.settle [storage] = .ok u →
      ∃ found, t.pointers storage = .ok found ∧
        (∀ p path, (p, path) ∈ found → ∃ s key value entries,
          u.Active (.bigMap s key value (some p) entries) ∧
            t.at? path = some (.bigMap s key value none none)) ∧
        ∀ s key value p entries, u.Active (.bigMap s key value (some p) entries) →
          p ∈ found.keys) ∧
      (t.skeleton.map Node.path).Nodup ∧
      ∀ path m, t.at? path = some m ↔ m ∈ t.skeleton ∧ m.path = path := by
  refine ⟨fun storage u hsettle => ?_, nodup_path htype, fun _ _ => at?_eq_some_iff htype⟩
  obtain ⟨root, root', hroots, hroot, rfl⟩ := settle_single_ok.1 hsettle
  have hactive : ∀ {m}, (Tree.mk [root'] true).Active m ↔ Node.Active m root' := by
    simp [Active]
  refine ⟨.ofList root'.pointers, ?_, fun p path hp => ?_, fun s key value p entries hm => ?_⟩
  · rw [pointers, hsettle]
    show Except.ok (Dictionary.ofList ([root'].flatMap Node.pointers)) = _
    rw [List.flatMap_singleton]
  · obtain ⟨s, key, value, entries, hm, rfl⟩ :=
      Node.mem_pointers.1 (Dictionary.mem_of_mem_ofList hp)
    refine ⟨s, key, value, entries, hactive.2 hm, ?_⟩
    -- the big map was bound to a node of the type, and that is the node without the value
    obtain ⟨m, hmem, herase⟩ := Node.exists_mem_skeleton_of_active hroot hm
    obtain ⟨-, hread⟩ := exists_ofTypeAt htype
    obtain ⟨path, type, hread⟩ := hread root (by simp [hroots])
    have hunbound := (Node.unbound_ofTypeAt hread).of_mem_skeleton hmem
    obtain rfl : m = .bigMap s key value none none := hunbound.erase ▸ herase
    refine (at?_eq_some_iff htype).2 ⟨?_, rfl⟩
    rwa [skeleton, hroots, List.flatMap_singleton]
  · rw [Dictionary.mem_keys_ofList]
    exact List.mem_map_of_mem (Node.mem_pointers.2 ⟨s, key, value, entries, hactive.1 hm, rfl⟩)

/-- Options of big maps in a list, a big map in an arm, and big maps as the values of a map. -/
def depot : Micheline :=
  let numbers := .prim "big_map" [.prim "nat" [] [], .prim "nat" [] []] []
  .prim "pair" [.prim "list" [.prim "option" [numbers] []] [],
    .prim "or" [.prim "big_map" [.prim "string" [] [], .prim "nat" [] []] [], .prim "unit" [] []] [],
    .prim "map" [.prim "string" [] [], numbers] []] []

def depotValue : Micheline :=
  .seq [.seq [.data .some [.int "5"], .data .none [], .data .some [.int "9"]],
    .data .left [.int "7"], .seq [.data .elt [.string "a", .int "5"]]]

theorem pointers_lead_depot :
    ∃ t u, ofType depot = .ok t ∧ t.settle [depotValue] = .ok u ∧
      t.pointers depotValue = .ok [(5, "0/1/1/v"), (7, "0/1/0/0"), (9, "0/0/l/o")] ∧
      ∃ s key value entries, u.Active (.bigMap s key value (some 5) entries) ∧
        t.at? "0/1/1/v" = some (.bigMap s key value none none) := by
  have hrun : (do
      let t ← ofType depot
      let _ ← t.settle [depotValue]
      t.pointers depotValue).toOption =
        some [(5, "0/1/1/v"), (7, "0/1/0/0"), (9, "0/0/l/o")] := by
    decide +kernel
  obtain ⟨t, htype, hrun⟩ := except_bind_ok.1 (except_ok_of_toOption hrun)
  obtain ⟨u, hsettle, hrun⟩ := except_bind_ok.1 hrun
  obtain ⟨found, hfound, hlead, -⟩ := (pointers_lead htype).1 depotValue u hsettle
  obtain rfl := Except.ok.inj (hfound.symm.trans hrun)
  exact ⟨t, u, htype, hsettle, hrun, hlead 5 "0/1/1/v" (by simp)⟩

end Tree

end Lineage
