import Lineage.Contract.Entrypoint
import Lineage.Proofs.Typed.Alternatives
import Mathlib.Data.List.Nodup

/-!
# Entry points and the whole parameter

The entry points of a tree are the alternatives of its roots, in their order (`map_entrypoints`);
names are all that is added. Whatever a name stands for is found in the skeleton of a root. So
calls of entry points and calls of the whole tree come to the same (`callsAgree`).
-/

namespace Lineage

namespace Entrypoint

lemma map_nameFrom {i : Nat} {all : List (Option String × List Side × Node)} :
    (nameFrom i all).map (fun e => (e.sides, e.node)) = all.map Prod.snd := by
  induction all generalizing i with
  | nil => rfl
  | cons a all ih =>
    obtain ⟨name, sides, node⟩ := a
    rw [nameFrom, List.map_cons, List.map_cons, ih]

lemma map_ofRoot {root : Node} : (ofRoot root).map Prod.snd = root.orAlternatives := by
  unfold ofRoot
  split
  · rw [List.map_map]
    exact List.map_id _
  · cases root with
    | or => next h => cases h rfl
    | _ => rfl

end Entrypoint

namespace Tree

variable {t : Tree} {e : Entrypoint} {name : String} {m : Node}

/-- **The entry points are the alternatives.** -/
theorem map_entrypoints (t : Tree) :
    t.entrypoints.map (fun e => (e.sides, e.node)) = t.roots.flatMap Node.orAlternatives := by
  have hall : (t.roots.flatMap Entrypoint.ofRoot).map Prod.snd =
      t.roots.flatMap Node.orAlternatives := by
    simp only [List.map_flatMap, Entrypoint.map_ofRoot]
  rw [← hall]
  unfold entrypoints
  split
  · next h => rw [h]; rfl
  · exact Entrypoint.map_nameFrom

lemma mem_skeleton_of_mem_entrypoints (h : e ∈ t.entrypoints) :
    ∃ root ∈ t.roots, e.node ∈ root.skeleton := by
  have hmem := List.mem_map_of_mem (f := fun e => (e.sides, e.node)) h
  rw [map_entrypoints, List.mem_flatMap] at hmem
  obtain ⟨root, hroot, halternative⟩ := hmem
  exact ⟨root, hroot, (Node.behind_of_mem_orAlternatives halternative).mem_skeleton⟩

/-- What a name stands for is found in the skeleton of a root. -/
theorem mem_skeleton_of_subtree? (h : t.subtree? name = some m) :
    ∃ root ∈ t.roots, m ∈ root.skeleton := by
  unfold subtree? at h
  cases hfind : t.findEntrypoint? name with
  | some e =>
    rw [hfind] at h
    cases h
    exact mem_skeleton_of_mem_entrypoints (List.mem_of_find?_eq_some hfind)
  | none =>
    rw [hfind] at h
    obtain ⟨root, hroot, hm⟩ := List.exists_of_findSome?_eq_some (l := t.roots) h
    exact ⟨root, hroot, List.mem_of_find?_eq_some hm⟩

/-! ### Calls -/

section Calls

variable {root : Node} {v : Micheline}

lemma settle_single (hroots : t.roots = [root]) :
    t.settle [v] = (root.settle v).map fun root' => ⟨[root'], true⟩ := by
  obtain ⟨roots, settled⟩ := t
  obtain rfl : roots = [root] := hroots
  unfold settle bind Node.settle
  simp only [List.length_singleton, ne_eq, not_true_eq_false, false_and, if_false, if_true,
    bindEach]
  generalize root.bind v = bound
  obtain ⟨root', _ | e⟩ := bound
  · exact congrArg (fun settled => Except.ok (Tree.mk [root'] settled)) (Bool.or_true settled)
  · rfl

lemma settle_single_ok {u : Tree} : t.settle [v] = .ok u ↔
    ∃ root root', t.roots = [root] ∧ root.settle v = .ok root' ∧ u = ⟨[root'], true⟩ := by
  constructor
  · intro h
    have hlength : t.roots.length = 1 := by
      unfold settle bind at h
      split at h
      · next hroots => rw [hroots]; rfl
      · split at h
        · next hlength => exact hlength.symm
        · cases h
    obtain ⟨root, hroots⟩ := List.length_eq_one_iff.1 hlength
    rw [settle_single hroots] at h
    cases hroot : root.settle v with
    | error e =>
      rw [hroot] at h
      cases h
    | ok root' =>
      rw [hroot] at h
      exact ⟨root, root', hroots, hroot, (Except.ok.inj h).symm⟩
  · rintro ⟨root, root', hroots, hroot, rfl⟩
    rw [settle_single hroots, hroot]
    rfl

lemma mem_entrypoints (hroots : t.roots = [root]) {sides : List Side} :
    (∃ e ∈ t.entrypoints, e.sides = sides ∧ e.node = m) ↔ (sides, m) ∈ root.orAlternatives := by
  have hmap := map_entrypoints t
  rw [hroots, List.flatMap_singleton] at hmap
  rw [← hmap]
  simp

lemma nodup_sides (hroots : t.roots = [root]) : (t.entrypoints.map Entrypoint.sides).Nodup := by
  have hmap := congrArg (List.map Prod.fst) (map_entrypoints t)
  rw [hroots, List.flatMap_singleton, List.map_map] at hmap
  exact hmap ▸ Node.nodup_orAlternatives

/-- The tree has one root, whose value has chosen an alternative. -/
def Chose (t : Tree) (m : Node) : Prop :=
  ∃ root, t.roots = [root] ∧ root.chosenAlternative? = some m

/-- Calls of entry points and calls of the whole tree come to the same. -/
structure CallsAgree (t : Tree) : Prop where
  /-- what is refused at an entry point is refused by the tree, with the same error -/
  refused {e : Entrypoint} {v : Micheline} {err : NodeError} (he : e ∈ t.entrypoints)
    (h : e.node.settle v = .error err) : t.settle [wrap e.sides v] = .error err
  /-- what is bound at an entry point is bound by the tree, which chooses the entry point, and is
  written with the sides around it -/
  bound {e : Entrypoint} {v : Micheline} {m : Node} (he : e ∈ t.entrypoints)
    (h : e.node.settle v = .ok m) : ∃ s, t.settle [wrap e.sides v] = .ok s ∧ s.Chose m ∧
      ∀ optimized, s.toWire optimized = (m.toWire optimized).map (wrap e.sides)
  /-- what is bound by the tree chooses the one entry point along whose sides it goes -/
  chosen {u : Micheline} {s : Tree} (h : t.settle [u] = .ok s) : ∃ e ∈ t.entrypoints,
      (∃ v m, Along e.sides u v ∧ e.node.settle v = .ok m ∧ s.Chose m) ∧
      ∀ e' ∈ t.entrypoints, (∃ v, Along e'.sides u v) → e' = e

/-- **Entry points are ways into the parameter**: for a tree whose only root is an `or`, a value is
bound to an entry point as it is bound to the tree when it is enclosed along the sides, and each
value of the tree is one of just one entry point in this way. -/
theorem callsAgree (hroots : t.roots = [root]) (hor : root.isOr = true) : t.CallsAgree where
  refused {e v err} he h := by
    have hmem := (mem_entrypoints hroots).1 ⟨e, he, rfl, rfl⟩
    rw [settle_single hroots, (Node.behind_of_mem_orAlternatives hmem).settle_wrap, h]
    rfl
  bound {e v m} he h := by
    have hmem := (mem_entrypoints hroots).1 ⟨e, he, rfl, rfl⟩
    have hbehind := Node.behind_of_mem_orAlternatives hmem
    rw [settle_single hroots, hbehind.settle_wrap, h]
    exact ⟨_, rfl, ⟨_, rfl, Node.chosenAlternative?_fill hor hmem h⟩, fun _ =>
      hbehind.toWire_fill⟩
  chosen {u s} h := by
    rw [settle_single hroots] at h
    cases hroot : root.settle u with
    | error err =>
      rw [hroot] at h
      cases h
    | ok root' =>
      rw [hroot] at h
      cases h
      obtain ⟨sides, node, v, m, hmem, halong, hm, hchosen⟩ := Node.exists_alternative hor hroot
      obtain ⟨e, he, rfl, rfl⟩ := (mem_entrypoints hroots).2 hmem
      refine ⟨e, he, ⟨v, m, halong, hm, root', rfl, hchosen⟩, ?_⟩
      rintro e' he' ⟨v', halong'⟩
      have hmem' := (mem_entrypoints hroots).1 ⟨e', he', rfl, rfl⟩
      have hsides := Node.alternative_unique hor hmem hmem' halong halong'
      exact List.inj_on_of_nodup_map (nodup_sides hroots) he' he hsides

/-- A parameter with four entry points: an `or` with a name is one of them, and an `or` without a
name is taken apart. -/
def counter : Micheline :=
  .prim "or" [.prim "or" [.prim "unit" [] [], .prim "nat" [] []] ["%reset"],
    .prim "or" [.prim "or" [.prim "int" [] ["%add"], .prim "int" [] ["%sub"]] [],
      .prim "unit" [] ["%stop"]] []] []

theorem callsAgree_counter :
    ∃ t root, ofType counter = .ok t ∧ t.roots = [root] ∧ root.isOr = true ∧ t.CallsAgree := by
  have hrun : ((ofType counter).map fun t => t.roots.map Node.isOr).toOption = some [true] := by
    decide +kernel
  cases htype : ofType counter with
  | error e =>
    rw [htype] at hrun
    cases hrun
  | ok t =>
    rw [htype] at hrun
    obtain ⟨root, hroots, hor⟩ := List.map_eq_singleton_iff.1 (Option.some.inj hrun)
    exact ⟨t, root, rfl, hroots, hor, callsAgree hroots hor⟩

end Calls

end Tree

end Lineage
