import Lineage.Proofs.Contract.Entrypoint
import Lineage.Proofs.Typed.Bound

/-!
# The flag of a tree

The flag of a tree says that values have been bound to all of its roots. It is never taken back, so
it has to stay true when a later value is refused half way: what was bound before is then bound
still, with new values up to the one that was refused.
-/

namespace Lineage

/-! ### Changes to all roots -/

/-- A change to roots leaves all flags right, and what was bound in full stays so. -/
structure KeepsAll (roots : List Node) (t : Attempt (List Node)) : Prop where
  sound : ∀ root ∈ t.result, root.Sound
  bound : (∀ root ∈ roots, root.Bound) → ∀ root ∈ t.result, root.Bound

/-- A change to roots that, if it is made in full, leaves all of them bound. -/
structure BindsAll (roots : List Node) (t : Attempt (List Node)) : Prop
    extends KeepsAll roots t where
  settles : t.failure = none → ∀ root ∈ t.result, root.Bound

section Roots

variable {root : Node} {roots : List Node} {t : Attempt Node} {rest : Attempt (List Node)}

lemma KeepsAll.cons (h : Node.Keeps root t) (hroots : ∀ root ∈ roots, root.Sound)
    (hrest : KeepsAll roots rest) :
    KeepsAll (root :: roots) (t.andThen (· :: roots) fun root => rest.map (root :: ·)) := by
  obtain ⟨-, heq⟩ | ⟨e, -, heq⟩ := Attempt.andThen_eq (t := t) <;> rw [heq]
  · exact ⟨List.forall_mem_cons.2 ⟨h.sound, hrest.sound⟩, fun hall =>
      have hall := List.forall_mem_cons.1 hall
      List.forall_mem_cons.2 ⟨h.bound hall.1, hrest.bound hall.2⟩⟩
  · exact ⟨List.forall_mem_cons.2 ⟨h.sound, hroots⟩, fun hall =>
      have hall := List.forall_mem_cons.1 hall
      List.forall_mem_cons.2 ⟨h.bound hall.1, hall.2⟩⟩

lemma BindsAll.cons (h : Node.Binds root t) (hroots : ∀ root ∈ roots, root.Sound)
    (hrest : BindsAll roots rest) :
    BindsAll (root :: roots) (t.andThen (· :: roots) fun root => rest.map (root :: ·)) where
  toKeepsAll := KeepsAll.cons h.toKeeps hroots hrest.toKeepsAll
  settles := by
    obtain ⟨hdone, heq⟩ | ⟨e, -, heq⟩ := Attempt.andThen_eq (t := t) <;> rw [heq]
    · exact fun hrest' => List.forall_mem_cons.2 ⟨h.settles hdone, hrest.settles hrest'⟩
    · exact nofun

variable {change : Node → Attempt Node}

lemma keepsAll_changeRoots (hroots : ∀ root ∈ roots, root.Sound)
    (h : ∀ root : Node, root.Sound → Node.Keeps root (change root)) :
    KeepsAll roots (Tree.changeRoots change roots) := by
  induction roots with
  | nil => exact ⟨nofun, nofun⟩
  | cons root roots ih =>
    obtain ⟨hroot, hroots⟩ := List.forall_mem_cons.1 hroots
    exact .cons (h root hroot) hroots (ih hroots)

lemma bindsAll_changeRoots (hroots : ∀ root ∈ roots, root.Sound)
    (h : ∀ root : Node, root.Sound → Node.Binds root (change root)) :
    BindsAll roots (Tree.changeRoots change roots) := by
  induction roots with
  | nil => exact ⟨⟨nofun, nofun⟩, nofun⟩
  | cons root roots ih =>
    obtain ⟨hroot, hroots⟩ := List.forall_mem_cons.1 hroots
    exact .cons (h root hroot) hroots (ih hroots)

lemma bindsAll_bindEach {values : List Micheline} (hroots : ∀ root ∈ roots, root.Sound)
    (hlength : values.length = roots.length) : BindsAll roots (Tree.bindEach roots values) := by
  induction roots generalizing values with
  | nil =>
    obtain rfl := List.length_eq_zero_iff.1 hlength
    exact ⟨⟨nofun, nofun⟩, nofun⟩
  | cons root roots ih =>
    obtain ⟨value, values, rfl⟩ := List.exists_cons_of_length_eq_add_one hlength
    obtain ⟨hroot, hroots⟩ := List.forall_mem_cons.1 hroots
    exact .cons (hroot.bind value) hroots (ih hroots (by simpa using hlength))

end Roots

namespace Node

lemma Sound.bindForm {n : Node} (h : n.Sound) (values : Form.Values) :
    Binds n (n.bindForm values) := by
  unfold Node.bindForm
  split
  · exact h.bind _
  · exact ⟨⟨h, id⟩, nofun⟩

end Node

namespace Tree

/-- The flags of all roots are right, and so is that of the tree. -/
structure Sound (t : Tree) : Prop where
  sound : ∀ root ∈ t.roots, root.Sound
  bound : t.settled = true → ∀ root ∈ t.roots, root.Bound

variable {t : Tree}

lemma Sound.settledBy {change : Attempt (List Node)} (h : t.Sound)
    (hchange : BindsAll t.roots change) : (t.settledBy change).result.Sound where
  sound := hchange.sound
  bound hs := by
    rcases Bool.or_eq_true_iff.1 hs with hs | hs
    · exact hchange.bound (h.bound hs)
    · exact hchange.settles (Option.isNone_iff_eq_none.1 hs)

theorem Sound.bind (h : t.Sound) (values : List Micheline) : (t.bind values).result.Sound := by
  unfold Tree.bind
  split
  · next root hroots =>
    have hroot : root.Sound := h.sound root (by simp [hroots])
    split
    · refine h.settledBy ?_
      obtain ⟨⟨hsound, hbound⟩, hsettles⟩ := hroot.bind (.data .pair values)
      rw [hroots]
      exact ⟨⟨by simpa [Attempt.map] using hsound, by simpa [Attempt.map] using hbound⟩,
        by simpa [Attempt.map] using hsettles⟩
    · split
      · next hlength =>
        exact h.settledBy (bindsAll_bindEach h.sound (by simpa [hroots] using hlength))
      · exact h
  · split
    · next hlength => exact h.settledBy (bindsAll_bindEach h.sound hlength)
    · exact h

theorem Sound.bindForm (h : t.Sound) (values : Form.Values) :
    (t.bindForm values).result.Sound :=
  h.settledBy (bindsAll_changeRoots h.sound fun _ hroot => hroot.bindForm values)

theorem Sound.overlay (h : t.Sound) (changes : List EntryChange) :
    (t.overlay changes).result.Sound := by
  have hall := keepsAll_changeRoots h.sound fun _ hroot => hroot.overlay changes
  exact ⟨hall.sound, fun hs => hall.bound (h.bound hs)⟩

theorem Sound.ofParameters {name : String} {args : List Micheline} {s : Tree} (h : t.Sound)
    (hs : t.ofParameters name args = .ok s) : s.Sound := by
  unfold Tree.ofParameters at hs
  split at hs
  · next node hnode =>
    split at hs
    · next value args =>
      obtain ⟨bound, hbound, hs⟩ := except_bind_ok.1 hs
      cases hs
      obtain ⟨root, hroot, hmem⟩ : ∃ root ∈ t.roots, node ∈ root.skeleton := by
        split at hnode
        · cases hnode
        · exact mem_skeleton_of_subtree? hnode
      have hnode : node.Sound := (h.sound root hroot).of_mem_skeleton hmem
      obtain ⟨hsound, hall⟩ := (hnode.bind value).of_settle hbound
      exact ⟨by simpa using hsound, fun _ => by simpa using hall⟩
    · cases hs
  · obtain ⟨-, rfl⟩ := Attempt.toExcept_eq_ok.1 hs
    exact h.bind args

lemma exists_ofTypeAt_rootsFrom {i : Nat} {types : List Micheline} {roots : List Node}
    (h : rootsFrom i types = .ok roots) :
    ∀ root ∈ roots, ∃ path type, Node.ofTypeAt path type = .ok root := by
  induction types generalizing i roots with
  | nil =>
    cases h
    exact nofun
  | cons type types ih =>
    obtain ⟨root, hroot, h⟩ := except_bind_ok.1 h
    obtain ⟨rest, hrest, h⟩ := except_bind_ok.1 h
    cases h
    exact List.forall_mem_cons.2 ⟨⟨_, type, hroot⟩, ih hrest⟩

lemma exists_ofTypeAt {type : Micheline} (h : ofType type = .ok t) :
    t.settled = false ∧ ∀ root ∈ t.roots, ∃ path type, Node.ofTypeAt path type = .ok root := by
  unfold ofType at h
  split at h
  · obtain ⟨roots, hroots, h⟩ := except_bind_ok.1 h
    cases h
    exact ⟨rfl, exists_ofTypeAt_rootsFrom hroots⟩
  · obtain ⟨root, hroot, h⟩ := except_bind_ok.1 h
    cases h
    exact ⟨rfl, List.forall_mem_singleton.2 ⟨"0", _, hroot⟩⟩

/-! ### All trees there are -/

/-- The trees that come of types: new ones, what is left of them when values are bound or changes
are laid over their big maps, be it in full or up to a misfit, and the trees of the arguments of
calls. -/
inductive Reachable : Tree → Prop
  | ofType {type : Micheline} {t : Tree} (h : ofType type = .ok t) : Reachable t
  | bind {t : Tree} (h : Reachable t) (values : List Micheline) : Reachable (t.bind values).result
  | bindForm {t : Tree} (h : Reachable t) (values : Form.Values) :
    Reachable (t.bindForm values).result
  | overlay {t : Tree} (h : Reachable t) (changes : List EntryChange) :
    Reachable (t.overlay changes).result
  | ofParameters {t s : Tree} {name : String} {args : List Micheline} (h : Reachable t)
      (hs : t.ofParameters name args = .ok s) : Reachable s

/-- The flags are right whatever was done. -/
theorem Reachable.sound (h : t.Reachable) : t.Sound := by
  induction h with
  | ofType h =>
    obtain ⟨hs, hroots⟩ := exists_ofTypeAt h
    refine ⟨fun root hroot => ?_, by rw [hs]; exact nofun⟩
    obtain ⟨path, type, hread⟩ := hroots root hroot
    exact (Node.unbound_ofTypeAt hread).sound
  | bind h values ih => exact ih.bind values
  | bindForm h values ih => exact ih.bindForm values
  | overlay h changes ih => exact ih.overlay changes
  | ofParameters h hs ih => exact ih.ofParameters hs

lemma exists_toWire (h : ∀ root ∈ t.roots, root.Bound) (optimized : Bool) :
    ∃ w, t.toWire optimized = .ok w := by
  unfold toWire
  split
  · next root hroots => exact (h root (by simp [hroots])).exists_toWire optimized
  · obtain ⟨ws, hws⟩ := Node.exists_forall₂ fun root hroot => (h root hroot).exists_toWire optimized
    exact ⟨.seq ws, by rw [mapM_ok.2 hws]; rfl⟩

/-- **The flag can be relied on**: a tree whose flag is set is written, and it is shown and searched
unless wire data in it cannot be read. Never is there a value missing. -/
theorem outputs_of_settled (h : t.Reachable) (hs : t.settled = true) :
    (∀ optimized, ∃ w, t.toWire optimized = .ok w) ∧ OnlyDecodes t.render ∧
      OnlyDecodes t.strings := by
  have hbound := h.sound.bound hs
  refine ⟨exists_toWire hbound, ?_, ?_⟩
  · exact onlyDecodes_mapM fun root hroot => (hbound root hroot).onlyDecodes_render
  · exact onlyDecodes_bind (onlyDecodes_mapM fun root _ => root.onlyDecodes_strings) fun _ _ =>
      onlyDecodes_ok _

/-- An option of a big map beside a string. -/
def locker : Micheline :=
  .prim "pair" [.prim "option" [.prim "big_map" [.prim "nat" [] [], .prim "nat" [] []] []] [],
    .prim "string" [] []] []

/-- What is left of a tree of it: one value is bound, changes are laid over the big map, and another
value is refused at its second component. -/
def usedLocker (t : Tree) : Tree :=
  let bound := (t.bindValue (.data .pair [.data .some [.int "5"], .string "a"])).result
  let filled := (bound.overlay [⟨5, .int "1", some (.int "2")⟩]).result
  (filled.bindValue (.data .pair [.data .none [], .int "0"])).result

theorem outputs_of_settled_usedLocker :
    ∃ t, ofType locker = .ok t ∧ (usedLocker t).Reachable ∧ (usedLocker t).settled = true ∧
      (∀ optimized, ∃ w, (usedLocker t).toWire optimized = .ok w) ∧
      OnlyDecodes (usedLocker t).render ∧ OnlyDecodes (usedLocker t).strings := by
  have hrun : ((ofType locker).map fun t => (usedLocker t).settled).toOption = some true := by
    decide +kernel
  cases htype : ofType locker with
  | error e =>
    rw [htype] at hrun
    cases hrun
  | ok t =>
    rw [htype] at hrun
    have hs : (usedLocker t).settled = true := Option.some.inj hrun
    have hreachable : (usedLocker t).Reachable :=
      (((Reachable.ofType htype).bind _).overlay _).bind _
    exact ⟨t, rfl, hreachable, hs, outputs_of_settled hreachable hs⟩

end Tree

end Lineage
