import Lineage.Proofs.Contract.Settled
import Lineage.Proofs.Micheline.Annotations
import Lineage.Proofs.Typed.Encoding

/-!
# Arguments of calls

The arguments of a call make a tree of their own, whose only root is the node of the entry point.
There the name of the entry point is looked up anew, by other rules than in the parameter, so the
arguments are found again only if the node goes by that name when it stands alone
(`toParameters_iff`). It does not if the name was its position, or what is left of its field name
without the mark of entry points.
-/

namespace Lineage

/-! ### Names are not empty -/

namespace Node

variable {n m : Node} {name : String} {next depth j : Nat} {path : String} {t : Micheline}

lemma Reads.named (h : Reads next path depth t n j) : ∀ m ∈ n.skeleton, m.annots.Named := by
  have hnamed := Annotations.named_parse
  induction h with
  | scalar => exact List.forall_mem_singleton.2 (hnamed _)
  | pair hl hr ihl ihr | or hl hr ihl ihr | map hl hr ihl ihr | bigMap hl hr ihl ihr
  | lambda hl hr ihl ihr =>
    exact List.forall_mem_cons.2 ⟨hnamed _, List.forall_mem_append.2 ⟨ihl, ihr⟩⟩
  | option ht ih | contract ht ih | collection _ ht ih =>
    exact List.forall_mem_cons.2 ⟨hnamed _, ih⟩
  | ticket hc ih =>
    -- the shape of a ticket has names of its own
    refine List.forall_mem_cons.2 ⟨hnamed _, List.forall_mem_cons.2 ⟨hnamed [], ?_⟩⟩
    refine List.forall_mem_cons.2 ⟨hnamed ["%ticketer"], List.forall_mem_cons.2 ⟨hnamed [], ?_⟩⟩
    exact List.forall_mem_append.2 ⟨ih, List.forall_mem_singleton.2 (hnamed ["%amount"])⟩

lemma entryName?_ne (h : n.annots.Named) : n.entryName? ≠ some "" := by
  unfold entryName?
  split
  · split
    · exact h.2
    · next hempty =>
      intro heq
      rw [Option.some.inj heq] at hempty
      exact hempty rfl
  · exact h.2

end Node

namespace Entrypoint

lemma positionName_ne (i : Nat) : positionName i ≠ "" := by
  simp [positionName]

lemma name_ne_of_mem_nameFrom {all : List (Option String × List Side × Node)} {i : Nat}
    {e : Entrypoint} (hall : ∀ a ∈ all, a.1 ≠ some "") (he : e ∈ nameFrom i all) :
    e.name ≠ "" := by
  induction all generalizing i with
  | nil => cases he
  | cons a all ih =>
    obtain ⟨name, sides, node⟩ := a
    obtain ⟨ha, hall⟩ := List.forall_mem_cons.1 hall
    obtain rfl | he := List.mem_cons.1 he
    · cases name with
      | none => exact positionName_ne i
      | some name => exact fun h => ha (congrArg some h)
    · exact ih hall he

end Entrypoint

namespace Tree

variable {t s : Tree} {e : Entrypoint} {type v : Micheline} {name : String}

lemma named_ofRoot {root : Node} (h : ∀ m ∈ root.skeleton, m.annots.Named) :
    ∀ a ∈ Entrypoint.ofRoot root, a.1 ≠ some "" := by
  unfold Entrypoint.ofRoot
  split
  · simp only [List.forall_mem_map]
    exact fun a ha => Node.entryName?_ne (h _ (Node.behind_of_mem_orAlternatives ha).mem_skeleton)
  · exact List.forall_mem_singleton.2 (h root Node.mem_skeleton_self).1

theorem name_ne (htype : ofType type = .ok t) (he : e ∈ t.entrypoints) : e.name ≠ "" := by
  have hall : ∀ a ∈ t.roots.flatMap Entrypoint.ofRoot, a.1 ≠ some "" := by
    intro a ha
    obtain ⟨root, hroot, ha⟩ := List.mem_flatMap.1 ha
    obtain ⟨path, type, hread⟩ := (exists_ofTypeAt htype).2 root hroot
    obtain ⟨next, hreads⟩ := Node.exists_reads hread
    exact named_ofRoot hreads.named a ha
  unfold entrypoints at he
  split at he
  · obtain rfl := List.mem_singleton.1 he
    simp [Entrypoint.defaultName]
  · exact Entrypoint.name_ne_of_mem_nameFrom hall he

/-! ### Names of a node that stands alone -/

lemma names_nameFrom {all all' : List (Option String × List Side × Node)} {i : Nat}
    (h : all.map Prod.fst = all'.map Prod.fst) :
    (Entrypoint.nameFrom i all).map Entrypoint.name =
      (Entrypoint.nameFrom i all').map Entrypoint.name := by
  induction all generalizing all' i with
  | nil =>
    obtain rfl := List.map_eq_nil_iff.1 h.symm
    rfl
  | cons a all ih =>
    obtain ⟨a', rest, rfl, hfst, hrest⟩ := List.map_eq_cons_iff.1 h.symm
    obtain ⟨name, sides, node⟩ := a
    obtain ⟨name', sides', node'⟩ := a'
    obtain rfl : name' = name := hfst
    exact congrArg (_ :: ·) (ih hrest.symm)

lemma names_entrypoints {t t' : Tree} (h : (t.roots.flatMap Entrypoint.ofRoot).map Prod.fst =
      (t'.roots.flatMap Entrypoint.ofRoot).map Prod.fst) :
    t.entrypoints.map Entrypoint.name = t'.entrypoints.map Entrypoint.name := by
  unfold entrypoints
  generalize t.roots.flatMap Entrypoint.ofRoot = all at h
  generalize t'.roots.flatMap Entrypoint.ofRoot = all' at h
  -- a lone entry point without a name is told apart from all others
  obtain _ | ⟨⟨name, sides, node⟩, _ | ⟨b, rest⟩⟩ := all
  · obtain rfl := List.map_eq_nil_iff.1 h.symm
    rfl
  · obtain ⟨⟨name', sides', node'⟩, rfl, hname⟩ := List.map_eq_singleton_iff.1 h.symm
    obtain rfl : name' = name := hname
    cases name' <;> rfl
  · obtain ⟨⟨name', sides', node'⟩, rest', rfl, hname, hrest⟩ := List.map_eq_cons_iff.1 h.symm
    obtain ⟨b', rest', rfl, -⟩ := List.map_eq_cons_iff.1 hrest
    cases name <;> cases name' <;> exact names_nameFrom h

end Tree

namespace Node

variable {n m : Node} {name : String} {v w : Micheline}

/-- The names of the entry points of a tree that consists of the node. -/
def namesAlone (n : Node) : List String := (Tree.ofRoots [n]).entrypoints.map Entrypoint.name

/-- Alone in a tree, the node goes by a name: it is the only entry point and has this name, or no
entry point has it and the node answers to it. A ticket may leave the answer to what it holds. -/
def KnownAs (n : Node) (name : String) : Prop :=
  n.isOr = false ∧ name ∈ n.namesAlone ∨
    name ∉ n.namesAlone ∧ ∃ m ∈ n.shells, m.answersTo name = true

lemma entrypoints_of_isOr_eq_false (h : n.isOr = false) :
    (Tree.ofRoots [n]).entrypoints = [⟨n.annots.field.getD Entrypoint.defaultName, [], n⟩] := by
  have hraw : (Tree.ofRoots [n]).roots.flatMap Entrypoint.ofRoot = [(n.annots.field, [], n)] := by
    simp [Tree.ofRoots, Entrypoint.ofRoot, h]
  unfold Tree.entrypoints
  rw [hraw]
  cases n.annots.field <;> rfl

/-! Names do not depend on values. -/

lemma namesAlone_erase : n.erase.namesAlone = n.namesAlone := by
  refine Tree.names_entrypoints ?_
  simp only [Tree.ofRoots, List.flatMap_singleton, Entrypoint.ofRoot, isOr_erase]
  split
  · simp [orAlternatives_erase]
  · simp [annots]

lemma answersTo_erase : n.erase.answersTo name = n.answersTo name := by
  simp [answersTo, annots]

lemma shells_erase : n.erase.shells = n.shells.map erase := by
  induction n using typeInduction with
  | ticket s inner ih => simp only [erase, shells, ih, List.map_cons]
  | _ => rfl

lemma knownAs_erase : n.erase.KnownAs name ↔ n.KnownAs name := by
  simp [KnownAs, namesAlone_erase, shells_erase, answersTo_erase]

end Node

namespace Tree

section Alone

variable {t : Tree} {n m : Node} {v w : Micheline} {name : String}

lemma toParameters_ok (hname : name ≠ "") :
    t.toParameters name = .ok (some w) ↔
      ∃ m, t.subtree? name = some m ∧ m.toWire false = .ok w := by
  have hempty : ¬ name.isEmpty = true := by simpa using hname
  unfold toParameters
  rw [if_neg hempty]
  cases t.subtree? name with
  | none => simp [pure, Except.pure]
  | some m => simp [except_bind_ok, pure, Except.pure]

lemma subtree?_of_mem (h : name ∈ t.entrypoints.map Entrypoint.name) :
    ∃ e ∈ t.entrypoints, t.subtree? name = some e.node := by
  obtain ⟨e, he, hname⟩ := List.mem_map.1 h
  obtain ⟨e', hfind⟩ : ∃ e', t.findEntrypoint? name = some e' :=
    Option.isSome_iff_exists.1 (List.find?_isSome.2 ⟨e, he, beq_iff_eq.2 hname⟩)
  exact ⟨e', List.mem_of_find?_eq_some hfind, by rw [subtree?, hfind]; rfl⟩

lemma subtree?_of_not_mem (h : name ∉ t.entrypoints.map Entrypoint.name) :
    t.subtree? name = t.findByName? name := by
  have hfind : t.findEntrypoint? name = none := by
    refine List.find?_eq_none.2 fun e he hname => h ?_
    exact List.mem_map.2 ⟨e, he, beq_iff_eq.1 hname⟩
  rw [subtree?, hfind]
  rfl

/-- What answers to a name and is written like the whole is a shell of it. -/
lemma exists_findByName_iff (hn : n.Unbound) (h : n.settle v = .ok m)
    (hw : m.toWire false = .ok w) :
    (∃ x, m.findByName? name = some x ∧ x.toWire false = .ok w) ↔
      ∃ x ∈ m.shells, x.answersTo name = true := by
  unfold Node.findByName?
  constructor
  · rintro ⟨x, hfind, hx⟩
    obtain hshell | hlt := Node.mem_shells_or_lt hn h hw (List.mem_of_find?_eq_some hfind) hx
    · exact ⟨x, hshell, List.find?_some (p := fun y : Node => y.answersTo name) hfind⟩
    · exact absurd hlt (Nat.lt_irrefl _)
  · rintro ⟨x, hshell, hanswers⟩
    obtain ⟨rest, hskeleton⟩ := m.shells_append
    obtain ⟨y, hfind⟩ : ∃ y, m.shells.find? (·.answersTo name) = some y :=
      Option.isSome_iff_exists.1 (List.find?_isSome.2 ⟨x, hshell, hanswers⟩)
    refine ⟨y, by rw [hskeleton, List.find?_append, hfind]; rfl, ?_⟩
    rw [Node.toWire_of_mem_shells (List.mem_of_find?_eq_some hfind), hw]

lemma toWire_alternative_ne {a : List Side × Node} (hn : n.Unbound) (h : n.settle v = .ok m)
    (hw : m.toWire false = .ok w) (hor : m.isOr = true) (ha : a ∈ m.orAlternatives) :
    a.2.toWire false ≠ .ok w := by
  intro hx
  cases m with
  | or s l r side =>
    have hm := (Node.behind_of_mem_orAlternatives ha).mem_skeleton
    obtain hshell | hlt := Node.mem_shells_or_lt hn h hw hm hx
    · have hlt := Node.sizeOf_lt_of_mem_orAlternatives ha
      rw [List.mem_singleton.1 hshell] at hlt
      exact absurd hlt (Nat.lt_irrefl _)
    · exact absurd hlt (Nat.lt_irrefl _)
  | _ => cases hor

theorem toParameters_alone (hn : n.Unbound) (h : n.settle v = .ok m) (hw : m.toWire false = .ok w)
    (hname : name ≠ "") :
    (⟨[m], true⟩ : Tree).toParameters name = .ok (some w) ↔ m.KnownAs name := by
  rw [toParameters_ok hname]
  by_cases hmem : name ∈ m.namesAlone
  · obtain ⟨e, he, hsubtree⟩ := subtree?_of_mem (t := ⟨[m], true⟩) hmem
    rw [hsubtree]
    cases hor : m.isOr with
    | false =>
      have halone : (⟨[m], true⟩ : Tree).entrypoints = _ := Node.entrypoints_of_isOr_eq_false hor
      rw [halone] at he
      obtain rfl := List.mem_singleton.1 he
      exact iff_of_true ⟨m, rfl, hw⟩ (.inl ⟨hor, hmem⟩)
    | true =>
      refine iff_of_false ?_ ?_
      · rintro ⟨x, hx, hwire⟩
        cases hx
        have ha := (mem_entrypoints (t := ⟨[m], true⟩) rfl).1 ⟨e, he, rfl, rfl⟩
        exact toWire_alternative_ne hn h hw hor ha hwire
      · rintro (⟨hfalse, -⟩ | ⟨hnot, -⟩)
        · rw [hor] at hfalse
          cases hfalse
        · exact hnot hmem
  · have hfind : (⟨[m], true⟩ : Tree).subtree? name = m.findByName? name := by
      refine (subtree?_of_not_mem (t := ⟨[m], true⟩) hmem).trans ?_
      simp [findByName?]
    rw [hfind, exists_findByName_iff hn h hw]
    constructor
    · exact fun hshell => .inr ⟨hmem, hshell⟩
    · rintro (⟨-, hmem'⟩ | ⟨-, hshell⟩)
      · exact absurd hmem' hmem
      · exact hshell

end Alone

/-- **Arguments by name**: the arguments of a call of an entry point are found again by the name of
the entry point exactly when its node goes by this name alone. -/
theorem toParameters_iff (htype : ofType type = .ok t) (hfind : t.findEntrypoint? e.name = some e)
    (hs : t.ofParameters e.name [v] = .ok s) :
    ∃ m w, e.node.settle v = .ok m ∧ m.toWire false = .ok w ∧
      (s.toParameters e.name = .ok (some w) ↔ e.node.KnownAs e.name) := by
  have he := List.mem_of_find?_eq_some hfind
  have hname := name_ne htype he
  have hn : e.node.Unbound := by
    obtain ⟨root, hroot, hmem⟩ := mem_skeleton_of_mem_entrypoints he
    obtain ⟨path, type, hread⟩ := (exists_ofTypeAt htype).2 root hroot
    exact (Node.unbound_ofTypeAt hread).of_mem_skeleton hmem
  have hsubtree : t.subtree? e.name = some e.node := by rw [subtree?, hfind]; rfl
  unfold ofParameters at hs
  rw [if_neg (by simpa using hname), hsubtree] at hs
  obtain ⟨m, hm, hs⟩ := except_bind_ok.1 hs
  cases hs
  obtain ⟨w, hw⟩ := Node.exists_returns hn hm
  refine ⟨m, w, hm, hw.wire false, ?_⟩
  rw [toParameters_alone hn hm (hw.wire false) hname, ← Node.knownAs_erase, Node.erase_settle hm,
    Node.knownAs_erase]

/-- A parameter with an entry point named by its field, one named by its position, and one whose
field name has the mark of entry points. -/
def vault : Micheline :=
  .prim "or" [.prim "nat" [] ["%deposit"],
    .prim "or" [.prim "unit" [] [], .prim "string" [] ["%_Liq_entry_memo"]] []] []

lemma exists_call_vault (name : String) (v : Micheline) (found : Option Micheline)
    (hrun : (do
      let t ← ofType vault
      let s ← t.ofParameters name [v]
      return ((t.findEntrypoint? name).isSome, ← s.toParameters name)).toOption =
        some (true, found)) :
    ∃ t e s, ofType vault = .ok t ∧ t.findEntrypoint? e.name = some e ∧
      t.ofParameters e.name [v] = .ok s ∧ s.toParameters e.name = .ok found := by
  obtain ⟨t, htype, hrun⟩ := except_bind_ok.1 (except_ok_of_toOption hrun)
  obtain ⟨s, hs, hrun⟩ := except_bind_ok.1 hrun
  obtain ⟨found', hfound, hrun⟩ := except_bind_ok.1 hrun
  obtain ⟨hsome, rfl⟩ := Prod.mk.inj (Except.ok.inj hrun)
  obtain ⟨e, hfind⟩ := Option.isSome_iff_exists.1 hsome
  obtain rfl : e.name = name :=
    beq_iff_eq.1 (List.find?_some (p := fun e : Entrypoint => e.name == name) hfind)
  exact ⟨t, e, s, htype, hfind, hs, hfound⟩

theorem toParameters_iff_vault :
    ∃ t e s m w, ofType vault = .ok t ∧ t.findEntrypoint? e.name = some e ∧
      t.ofParameters e.name [.int "7"] = .ok s ∧ e.node.settle (.int "7") = .ok m ∧
      m.toWire false = .ok w ∧
      (s.toParameters e.name = .ok (some w) ↔ e.node.KnownAs e.name) := by
  obtain ⟨t, e, s, htype, hfind, hs, -⟩ :=
    exists_call_vault "deposit" (.int "7") (some (.int "7")) (by decide +kernel)
  obtain ⟨m, w, hm, hw, hiff⟩ := toParameters_iff htype hfind hs
  exact ⟨t, e, s, m, w, htype, hfind, hs, hm, hw, hiff⟩

/-- The arguments are not always found again: alone in a tree, a node does not go by what is left of
its field name without the mark of entry points. -/
theorem not_toParameters_vault :
    ¬ ∀ (type v : Micheline) (t s : Tree) (e : Entrypoint), ofType type = .ok t →
      t.findEntrypoint? e.name = some e → t.ofParameters e.name [v] = .ok s →
      ∃ m w, e.node.settle v = .ok m ∧ m.toWire false = .ok w ∧
        s.toParameters e.name = .ok (some w) := by
  intro hclaim
  obtain ⟨t, e, s, htype, hfind, hs, hnone⟩ :=
    exists_call_vault "memo" (.string "hi") none (by decide +kernel)
  obtain ⟨m, w, -, -, hsome⟩ := hclaim vault (.string "hi") t s e htype hfind hs
  rw [hnone] at hsome
  cases hsome

end Tree

end Lineage
