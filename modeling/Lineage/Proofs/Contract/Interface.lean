import Lineage.Contract.Interface
import Lineage.Proofs.Contract.Entrypoint
import Lineage.Proofs.Typed.Faithful

/-!
# Interfaces and entry points

An interface is looked for among the leaves of the parameter, which are left when every `or` is
taken apart (`missingAfter_eq`). Entry points are made of leaves as well (`Tree.leaves_eq`), but an
`or` with annotations is one entry point and not several. So the two agree as long as no entry point
is an `or` (`isImplementedBy_iff`): such an entry point is never found by its type, while the arms
of it are found although they are no entry points.
-/

namespace Lineage

namespace Node

variable {n m a b : Node} {before : List Side}

/-! ### Leaves -/

def leaves : Node → List Node
  | or _ l r _ => l.leaves ++ r.leaves
  | n => [n]

lemma leaves_of_isOr_eq_false (h : n.isOr = false) : n.leaves = [n] := by
  cases n with
  | or => cases h
  | _ => rfl

lemma isOr_of_mem_leaves (h : m ∈ n.leaves) : m.isOr = false := by
  induction n using typeInduction with
  | or s l r side ihl ihr =>
    rcases List.mem_append.1 h with h | h
    · exact ihl h
    · exact ihr h
  | _ =>
    obtain rfl := List.mem_singleton.1 h
    rfl

lemma isOr_of_equalType (h : a.equalType b = true) : a.isOr = b.isOr := by
  cases a <;> cases b <;> first | rfl | cases h

lemma flatMap_leaves_asAlternatives :
    (n.asAlternatives before).flatMap (fun alternative => alternative.2.leaves) = n.leaves := by
  induction n using innerInduction generalizing before with
  | alternative n h =>
    rw [asAlternatives_of_alternative h, List.flatMap_singleton]
  | inner s l r side hs ihl ihr =>
    rw [asAlternatives, if_pos hs, List.flatMap_append, ihl, ihr]
    rfl

lemma flatMap_leaves_orAlternatives :
    n.orAlternatives.flatMap (fun alternative => alternative.2.leaves) = n.leaves := by
  cases n with
  | or s l r side =>
    rw [orAlternatives, List.flatMap_append, flatMap_leaves_asAlternatives,
      flatMap_leaves_asAlternatives]
    rfl
  | _ => rfl

end Node

namespace Tree

def leaves (t : Tree) : List Node := t.roots.flatMap Node.leaves

theorem leaves_eq (t : Tree) : t.leaves = t.entrypoints.flatMap fun e => e.node.leaves := by
  have hroots : t.leaves =
      (t.roots.flatMap Node.orAlternatives).flatMap fun alternative => alternative.2.leaves := by
    rw [List.flatMap_assoc]
    exact List.flatMap_congr fun root _ => Node.flatMap_leaves_orAlternatives.symm
  rw [hroots, ← map_entrypoints, List.flatMap_map]

end Tree

namespace Interface

variable {i : Interface} {t : Tree} {missing : Dictionary String Node}

/-! ### What is missing -/

/-- A node leaves the entries missing that no leaf of it has the type of. -/
lemma missingAfter_eq (missing : Dictionary String Node) (n : Node) :
    missingAfter missing n =
      missing.filter fun entry => !n.leaves.any fun leaf => leaf.equalType entry.2 := by
  induction n using Node.typeInduction generalizing missing with
  | or s l r side ihl ihr =>
    rw [missingAfter, ihl, ihr, List.filter_filter]
    simp only [Node.leaves, List.any_append, Bool.not_or, Bool.and_comm]
  | _ => simp [missingAfter, Node.leaves]

lemma foldl_missingAfter (missing : Dictionary String Node) (nodes : List Node) :
    nodes.foldl missingAfter missing = missing.filter fun entry =>
      !(nodes.flatMap Node.leaves).any fun leaf => leaf.equalType entry.2 := by
  induction nodes generalizing missing with
  | nil => simp
  | cons n nodes ih =>
    rw [List.foldl_cons, ih, missingAfter_eq, List.filter_filter]
    simp only [List.flatMap_cons, List.any_append, Bool.not_or, Bool.and_comm]

def types (i : Interface) : List Node := i.entries.map Prod.snd

lemma isImplementedBy_iff_leaves (hroots : t.roots ≠ []) (hroot : i.isRoot = false) :
    i.isImplementedBy t = true ↔
      ∀ type ∈ i.types, ∃ leaf ∈ t.leaves, leaf.equalType type = true := by
  have hempty : t.roots.isEmpty = false := List.isEmpty_eq_false_iff.2 hroots
  have hmissing : (t.roots.foldl missingAfter i.entries).isEmpty = true ↔
      ∀ entry ∈ i.entries, t.leaves.any (fun leaf => leaf.equalType entry.2) = true := by
    rw [foldl_missingAfter, List.isEmpty_iff, List.filter_eq_nil_iff]
    simp only [Bool.not_eq_true, Bool.not_eq_false', Tree.leaves]
  unfold isImplementedBy
  rw [hroot, if_neg Bool.false_ne_true, hempty, Bool.not_false, Bool.true_and, hmissing]
  simp only [types, List.forall_mem_map, List.any_eq_true]

lemma isImplementedBy_iff_entrypoints (hroots : t.roots ≠ []) (hroot : i.isRoot = false) :
    i.isImplementedBy t = true ↔
      ∀ type ∈ i.types, ∃ e ∈ t.entrypoints, ∃ leaf ∈ e.node.leaves,
        leaf.equalType type = true := by
  have hmem : ∀ leaf, leaf ∈ t.leaves ↔ ∃ e ∈ t.entrypoints, leaf ∈ e.node.leaves := by
    intro leaf
    rw [Tree.leaves_eq, List.mem_flatMap]
  rw [isImplementedBy_iff_leaves hroots hroot]
  refine forall₂_congr fun type _ => ?_
  constructor
  · rintro ⟨leaf, hleaf, htype⟩
    obtain ⟨e, he, hleaf⟩ := (hmem leaf).1 hleaf
    exact ⟨e, he, leaf, hleaf, htype⟩
  · rintro ⟨e, he, leaf, hleaf, htype⟩
    exact ⟨leaf, (hmem leaf).2 ⟨e, he, hleaf⟩, htype⟩

/-! ### Interfaces on offer -/

/-- **An interface on offer**: each type it asks for is that of an entry point. -/
def IsOffered (t : Tree) (i : Interface) : Prop :=
  ∀ type ∈ i.types, ∃ e ∈ t.entrypoints, e.node.equalType type = true

instance : Decidable (i.IsOffered t) :=
  inferInstanceAs (Decidable (∀ type ∈ i.types, ∃ e ∈ t.entrypoints, e.node.equalType type = true))

/-- **Which interfaces a parameter implements**: those whose types are all found among the leaves of
entry points, in whatever order the leaves and the types are given. These are the interfaces on
offer exactly if no entry point is an `or`. -/
theorem isImplementedBy_iff (hroots : t.roots ≠ []) :
    (∀ i : Interface, i.isRoot = false → (i.isImplementedBy t = true ↔
      ∀ type ∈ i.types, ∃ e ∈ t.entrypoints, ∃ leaf ∈ e.node.leaves,
        leaf.equalType type = true)) ∧
    (∀ (t' : Tree) (i i' : Interface), t'.roots ≠ [] → t'.leaves.Perm t.leaves →
      i.isRoot = false → i'.isRoot = false → i'.types.Perm i.types →
      i'.isImplementedBy t' = i.isImplementedBy t) ∧
    ((∀ i : Interface, i.isRoot = false → (i.isImplementedBy t = true ↔ i.IsOffered t)) ↔
      ∀ e ∈ t.entrypoints, e.node.isOr = false) := by
  refine ⟨fun i hroot => isImplementedBy_iff_entrypoints hroots hroot, ?_, ?_, ?_⟩
  · intro t' i i' hroots' hperm hroot hroot' htypes
    rw [Bool.eq_iff_iff, isImplementedBy_iff_leaves hroots' hroot',
      isImplementedBy_iff_leaves hroots hroot]
    simp only [hperm.mem_iff, htypes.mem_iff]
  · -- an interface that asks for nothing but the type of an entry point is on offer
    intro h e he
    have hoffered : IsOffered t ⟨[("", e.node)], false⟩ := by
      intro type htype
      obtain rfl := List.mem_singleton.1 htype
      exact ⟨e, he, Node.equalType_refl⟩
    have himplemented := (h _ rfl).2 hoffered
    obtain ⟨e', -, leaf, hleaf, htype⟩ :=
      (isImplementedBy_iff_entrypoints hroots rfl).1 himplemented e.node (List.mem_singleton_self _)
    rw [← Node.isOr_of_equalType htype]
    exact Node.isOr_of_mem_leaves hleaf
  · intro hor i hroot
    rw [isImplementedBy_iff_entrypoints hroots hroot]
    refine forall₂_congr fun type _ => exists_congr fun e => and_congr_right fun he => ?_
    rw [Node.leaves_of_isOr_eq_false (hor e he)]
    simp only [List.mem_singleton, exists_eq_left]

def faucet : Micheline :=
  .prim "or" [.prim "nat" [] ["%fill"], .prim "or" [.prim "string" [] ["%label"],
    .prim "unit" [] []] []] []

theorem isImplementedBy_iff_faucet :
    ∃ t, Tree.ofType faucet = .ok t ∧ t.roots ≠ [] ∧
      ∀ i : Interface, i.isRoot = false → (i.isImplementedBy t = true ↔ i.IsOffered t) := by
  have hrun : (do
      let t ← Tree.ofType faucet
      return (t.roots.isEmpty, (t.entrypoints.map Entrypoint.node).map Node.isOr)).toOption =
        some (false, [false, false, false]) := by
    decide +kernel
  obtain ⟨t, htype, hrun⟩ := except_bind_ok.1 (except_ok_of_toOption hrun)
  obtain ⟨hempty, hor⟩ := Prod.mk.inj (Except.ok.inj hrun)
  have hroots : t.roots ≠ [] := List.isEmpty_eq_false_iff.1 hempty
  refine ⟨t, htype, hroots, (isImplementedBy_iff hroots).2.2.2 fun e he => ?_⟩
  have hmem := List.mem_map_of_mem (f := Node.isOr) (List.mem_map_of_mem (f := Entrypoint.node) he)
  rw [hor] at hmem
  simpa using hmem

/-- A parameter with two entry points, one of which is an `or`. -/
def valve : Micheline :=
  .prim "or" [.prim "or" [.prim "unit" [] [], .prim "nat" [] []] ["%turn"],
    .prim "string" [] ["%label"]] []

/-- An interface that asks for the `or`. -/
def turnable : String :=
  "\x7b\"entrypoints\": \x7b\"turn\": \x7b\"prim\": \"or\", \"args\": " ++
    "[\x7b\"prim\": \"unit\"\x7d, \x7b\"prim\": \"nat\"\x7d]\x7d\x7d\x7d"

/-- An entry point that is an `or` is not found by its type. -/
theorem not_isImplementedBy_valve :
    ¬ ∀ (type : Micheline) (t : Tree) (text : String) (i : Interface), Tree.ofType type = .ok t →
      t.roots ≠ [] → ofText text = .ok i → i.isRoot = false →
      (i.isImplementedBy t = true ↔ i.IsOffered t) := by
  intro hclaim
  have hrun : (do
      let t ← Tree.ofType valve
      let i ← ofText turnable
      return (t.roots.isEmpty, i.isRoot, i.isImplementedBy t, decide (i.IsOffered t))).toOption =
        some (false, false, false, true) := by
    decide +kernel
  obtain ⟨t, htype, hrun⟩ := except_bind_ok.1 (except_ok_of_toOption hrun)
  obtain ⟨i, htext, hrun⟩ := except_bind_ok.1 hrun
  simp only [pure, Except.pure, Except.ok.injEq, Prod.mk.injEq] at hrun
  obtain ⟨hempty, hroot, himplemented, hoffered⟩ := hrun
  have hiff := hclaim valve t turnable i htype (List.isEmpty_eq_false_iff.1 hempty) htext hroot
  have hfound := hiff.2 (of_decide_eq_true hoffered)
  rw [himplemented] at hfound
  cases hfound

end Interface

end Lineage
