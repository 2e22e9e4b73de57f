import Lineage.Proofs.Contract.Entrypoint
import Lineage.Proofs.Typed.Charts

/-!
# Names of entry points

Annotations name some of the entry points, and the others are named after their positions. Nothing
keeps an annotation from giving the name of a position. As long as none gives the name of a position
that needs it, distinct annotations make distinct names, and each entry point is found by its own
(`addressable_iff`).
-/

namespace Lineage

/-- The names that annotations give to the entry points a root offers, `none` where they give
none. -/
def Node.givenNames (root : Node) : List (Option String) :=
  if root.isOr then root.orAlternatives.map fun a => a.2.entryName? else [root.annots.field]

namespace Entrypoint

variable {i j : Nat} {names : List (Option String)}

lemma map_fst_ofRoot {root : Node} : (ofRoot root).map Prod.fst = root.givenNames := by
  unfold ofRoot Node.givenNames
  split
  · rw [List.map_map]
    rfl
  · rfl

lemma positionName_inj (h : positionName i = positionName j) : i = j :=
  Tree.toString_inj ((String.append_right_inj _).1 h)

/-- The names of entry points, the first of which stands at a position. -/
def namesFrom (i : Nat) (names : List (Option String)) : List String :=
  names.mapIdx fun j name => name.getD (positionName (i + j))

lemma map_name_nameFrom {all : List (Option String × List Side × Node)} :
    (nameFrom i all).map name = namesFrom i (all.map Prod.fst) := by
  induction all generalizing i with
  | nil => rfl
  | cons a all ih =>
    obtain ⟨name, sides, node⟩ := a
    simp only [nameFrom, namesFrom, List.map_cons, ih, List.mapIdx_cons, Nat.add_zero,
      Nat.add_assoc, Nat.add_comm 1]

/-- An entry point stands without a name at a position whose name annotations give to another. -/
def PositionTaken (names : List (Option String)) : Prop :=
  ∃ i, names[i]? = some none ∧ some (positionName i) ∈ names

/-- Entry points have names of their own if annotations name no two alike, and none after the
position of an entry point without a name. -/
lemma nodup_namesFrom :
    (namesFrom 0 names).Nodup ↔ (names.filterMap id).Nodup ∧ ¬ PositionTaken names := by
  unfold List.Nodup namesFrom PositionTaken
  rw [List.pairwise_filterMap, List.pairwise_iff_getElem, List.pairwise_iff_getElem]
  simp only [List.length_mapIdx, List.getElem_mapIdx, Nat.zero_add, id]
  constructor
  · intro hne
    refine ⟨fun i j hi hj hij name hname name' hname' => ?_, ?_⟩
    · have := hne i j hi hj hij
      rwa [hname, hname'] at this
    · rintro ⟨i, hnone, htaken⟩
      obtain ⟨hi, hnone⟩ := List.getElem?_eq_some_iff.1 hnone
      obtain ⟨j, hj, hname⟩ := List.getElem_of_mem htaken
      obtain hij | rfl | hij := Nat.lt_trichotomy i j
      · exact hne i j hi hj hij (by rw [hnone, hname]; rfl)
      · rw [hnone] at hname
        cases hname
      · exact hne j i hj hi hij (by rw [hnone, hname]; rfl)
  · rintro ⟨hgiven, hfree⟩ i j hi hj hij heq
    have hposition : ∀ i j (hi : i < names.length) (hj : j < names.length), names[i] = none →
        names[j] ≠ some (positionName i) := fun i j hi hj hnone hname =>
      hfree ⟨i, List.getElem?_eq_some_iff.2 ⟨hi, hnone⟩, hname ▸ List.getElem_mem hj⟩
    cases hname : names[i] with
    | some name =>
      cases hname' : names[j] with
      | some name' =>
        rw [hname, hname'] at heq
        exact hgiven i j hi hj hij name hname name' hname' heq
      | none =>
        rw [hname, hname'] at heq
        exact hposition j i hj hi hname' (hname.trans (congrArg some heq))
    | none =>
      cases hname' : names[j] with
      | some name' =>
        rw [hname, hname'] at heq
        exact hposition i j hi hj hname (hname'.trans (congrArg some heq.symm))
      | none =>
        rw [hname, hname'] at heq
        exact Nat.ne_of_lt hij (positionName_inj heq)

end Entrypoint

namespace Tree

variable {t : Tree}

def givenNames (t : Tree) : List (Option String) := t.roots.flatMap Node.givenNames

/-- Each entry point has a name of its own and is found by it, with its sides and its node. -/
structure Addressable (t : Tree) : Prop where
  nodup : (t.entrypoints.map Entrypoint.name).Nodup
  found : ∀ e ∈ t.entrypoints, t.findEntrypoint? e.name = some e

lemma findEntrypoint?_of_nodup (h : (t.entrypoints.map Entrypoint.name).Nodup) {e : Entrypoint}
    (he : e ∈ t.entrypoints) : t.findEntrypoint? e.name = some e := by
  cases hfind : t.findEntrypoint? e.name with
  | none => exact absurd (beq_self_eq_true e.name) (List.find?_eq_none.1 hfind e he)
  | some e' =>
    have hname := List.find?_some (p := fun e' : Entrypoint => e'.name == e.name) hfind
    have he' := List.mem_of_find?_eq_some hfind
    rw [List.inj_on_of_nodup_map h he' he (beq_iff_eq.1 hname)]

lemma nodup_names_iff : (t.entrypoints.map Entrypoint.name).Nodup ↔
    (t.givenNames.filterMap id).Nodup ∧ ¬ Entrypoint.PositionTaken t.givenNames := by
  have hgiven : (t.roots.flatMap Entrypoint.ofRoot).map Prod.fst = t.givenNames := by
    rw [List.map_flatMap]
    exact congrArg (t.roots.flatMap ·) (funext fun root => Entrypoint.map_fst_ofRoot)
  rw [← hgiven, ← Entrypoint.nodup_namesFrom, ← Entrypoint.map_name_nameFrom]
  unfold entrypoints
  split
  · -- a lone entry point needs no position
    next h =>
    rw [h]
    simp only [Entrypoint.nameFrom, List.map_singleton, List.nodup_singleton]
  · exact Iff.rfl

/-- **Entry points are found by their names**: each one has a name of its own, by which it is found,
exactly if annotations name no two of them alike, and none after the position of one without a
name. -/
theorem addressable_iff (t : Tree) : t.Addressable ↔
    (t.givenNames.filterMap id).Nodup ∧ ¬ Entrypoint.PositionTaken t.givenNames :=
  ⟨fun h => nodup_names_iff.1 h.nodup, fun h =>
    have hnodup := nodup_names_iff.2 h
    ⟨hnodup, fun _ => findEntrypoint?_of_nodup hnodup⟩⟩

/-- A parameter with an entry point without a name, and another one named after the position of the
first. -/
def usurper : Micheline := .prim "or" [.prim "unit" [] [], .prim "nat" [] ["%entrypoint_0"]] []

/-- Distinct annotations do not always make entry points that are found by their names. -/
theorem not_addressable_usurper :
    ¬ ∀ (type : Micheline) (t : Tree), ofType type = .ok t → (t.givenNames.filterMap id).Nodup →
      t.Addressable := by
  intro hclaim
  have hrun : (do
      let t ← ofType usurper
      return (t.givenNames, t.entrypoints.map Entrypoint.name)).toOption =
        some ([none, some "entrypoint_0"], ["entrypoint_0", "entrypoint_0"]) := by
    decide +kernel
  obtain ⟨t, htype, hrun⟩ := except_bind_ok.1 (except_ok_of_toOption hrun)
  obtain ⟨hgiven, hnames⟩ := Prod.mk.inj (Except.ok.inj hrun)
  have hnodup := (hclaim usurper t htype (by rw [hgiven]; decide)).nodup
  rw [hnames] at hnodup
  exact absurd hnodup (by decide)

end Tree

end Lineage
