import Mathlib.Data.List.Nodup
import Lineage.Proofs.Typed.Alternatives

/-!
# The paths of alternatives

When a type is read each node gets a path, which for an arm of an `or` is made of the path of the
`or` and the side (`Formed`). So an alternative stands at a path that tells the sides that lead to
it (`Formed.path_inj`).
-/

namespace Lineage

def Side.segment : Side → String
  | left => "0"
  | right => "1"

namespace Node

def pathAlong (path : String) : List Side → String
  | [] => path
  | side :: sides => pathAlong (childPath path side.segment) sides

variable {n m m' : Node} {path : String} {sides sides' : List Side}

lemma toList_pathAlong :
    (pathAlong path sides).toList =
      path.toList ++ sides.flatMap fun side => '/' :: side.segment.toList := by
  induction sides generalizing path with
  | nil => simp [pathAlong]
  | cons side sides ih =>
    rw [pathAlong, ih, childPath, String.toList_append, String.toList_append]
    simp

lemma pathAlong_inj (h : pathAlong path sides' = pathAlong path sides) : sides' = sides := by
  have hlist := congrArg String.toList h
  rw [toList_pathAlong, toList_pathAlong, List.append_cancel_left_eq] at hlist
  clear h
  induction sides generalizing sides' with
  | nil =>
    cases sides' with
    | nil => rfl
    | cons => cases hlist
  | cons side sides ih =>
    cases sides' with
    | nil => cases hlist
    | cons side' sides' =>
      -- a segment is one character, which is not the same for both sides
      obtain ⟨hside, hrest⟩ : side' = side ∧
          sides'.flatMap (fun side => '/' :: side.segment.toList) =
            sides.flatMap fun side => '/' :: side.segment.toList := by
        cases side <;> cases side' <;> simp_all [Side.segment]
      rw [hside, ih hrest]

/-- **How types are read**: the arms of an `or` stand at the paths of their sides, and what a ticket
is made of is a pair. -/
def Formed : Node → Prop
  | scalar .. => True
  | contract _ parameter _ => parameter.Formed
  | ticket _ inner => inner.Formed ∧ inner.isPair = true
  | option _ inner _ => inner.Formed
  | pair _ l r => l.Formed ∧ r.Formed
  | or s l r _ =>
    l.Formed ∧ r.Formed ∧ l.path = childPath s.path Side.left.segment ∧
      r.path = childPath s.path Side.right.segment
  | collection _ _ elem _ => elem.Formed
  | map _ key value _ => key.Formed ∧ value.Formed
  | bigMap _ key value _ _ => key.Formed ∧ value.Formed
  | lambda _ parameter result _ => parameter.Formed ∧ result.Formed

lemma Reads.path_eq {i j depth : Nat} {t : Micheline} (h : Reads i path depth t n j) :
    n.path = path := by
  cases h <;> rfl

lemma Reads.formed {i j depth : Nat} {t : Micheline} (h : Reads i path depth t n j) :
    n.Formed := by
  induction h with
  | scalar _ => trivial
  | pair _ _ ihl ihr => exact ⟨ihl, ihr⟩
  | or hl hr ihl ihr => exact ⟨ihl, ihr, hl.path_eq, hr.path_eq⟩
  | option _ ih => exact ih
  | collection _ _ ih => exact ih
  | map _ _ ihk ihv => exact ⟨ihk, ihv⟩
  | bigMap _ _ ihk ihv => exact ⟨ihk, ihv⟩
  | lambda _ _ ihp ihr => exact ⟨ihp, ihr⟩
  | contract _ ih => exact ih
  | ticket _ ih => exact ⟨⟨trivial, ih, trivial⟩, rfl⟩

theorem formed_ofTypeAt {t : Micheline} (h : ofTypeAt path t = .ok n) : n.Formed := by
  obtain ⟨j, hreads⟩ := exists_reads h
  exact hreads.formed

lemma Formed.asFields (h : n.Formed) : ∀ field ∈ n.asFields, field.Formed := by
  induction n using typeInduction with
  | pair s l r ihl ihr =>
    rw [Node.asFields]
    split
    · exact List.forall_mem_append.2 ⟨ihl h.1, ihr h.2⟩
    · simpa using h
  | _ => simpa [Node.asFields] using h

lemma Formed.pairFields {s : Site} {l r : Node} (h : (pair s l r).Formed) :
    ∀ field ∈ (pair s l r).pairFields, field.Formed :=
  List.forall_mem_append.2 ⟨h.1.asFields, h.2.asFields⟩

/-- What goes on to the arms of each `or`, where these stand at the paths of their sides, goes on to
what stands behind sides, and this stands at their path. -/
lemma Behind.along {P : Node → Prop}
    (hor : ∀ {s l r side}, P (or s l r side) → P l ∧ P r ∧
      l.path = childPath s.path Side.left.segment ∧ r.path = childPath s.path Side.right.segment)
    (h : Behind n sides m) (hn : P n) : P m ∧ m.path = pathAlong n.path sides := by
  induction h with
  | here => exact ⟨hn, rfl⟩
  | left h ih =>
    obtain ⟨hl, -, hpath, -⟩ := hor hn
    obtain ⟨hm, heq⟩ := ih hl
    rw [hpath] at heq
    exact ⟨hm, heq⟩
  | right h ih =>
    obtain ⟨-, hr, -, hpath⟩ := hor hn
    obtain ⟨hm, heq⟩ := ih hr
    rw [hpath] at heq
    exact ⟨hm, heq⟩

lemma Behind.formed (h : Behind n sides m) (hn : n.Formed) :
    m.Formed ∧ m.path = pathAlong n.path sides :=
  h.along id hn

/-- Two alternatives at one path are one. -/
theorem Formed.path_inj (hn : n.Formed) (h : (sides, m) ∈ n.orAlternatives)
    (h' : (sides', m') ∈ n.orAlternatives) (hpath : m'.path = m.path) :
    sides' = sides ∧ m' = m := by
  rw [((behind_of_mem_orAlternatives h).formed hn).2,
    ((behind_of_mem_orAlternatives h').formed hn).2] at hpath
  obtain rfl := pathAlong_inj hpath
  have heq := List.inj_on_of_nodup_map nodup_orAlternatives h' h rfl
  exact ⟨rfl, congrArg Prod.snd heq⟩

end Node

end Lineage
