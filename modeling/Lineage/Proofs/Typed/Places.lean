import Mathlib.Data.List.Forall2
import Lineage.Proofs.BigMap.Pointers

/-!
# Changes to what counts, place by place

A part that counts has a place in a value, the numbers of the parts that lead to it
(`active_iff_partAt?`). Changes that are laid over a value keep its places: the part at a place
is replaced by what the changes make of it, or stands behind the change that did not fit and is as
it was (`Laid`). Apart from these parts and the entries of big maps with a pointer the value stays
the same (`Congruent`).

What goes from the parts that count to the whole is carried along a value by `Laid.induct`, and from
a value to its parts by `exists_partAt?`.
-/

namespace Lineage

/-! ### Several changes in turn -/

namespace Attempt

variable {α : Type} {change : α → Attempt α} {a : α} {as : List α} {rest : Attempt (List α)}

/-- What becomes of one of several things that are changed in turn, given how the changes end: it is
changed, in full unless they stop short, or it stands behind the stop and is as it was. -/
def Reaches (change : α → Attempt α) (failure : Option NodeError) (a a' : α) : Prop :=
  (a' = (change a).result ∧ (failure = none → (change a).failure = none)) ∨
    (failure ≠ none ∧ a' = a)

lemma reaches_cons (h : List.Forall₂ (Reaches change rest.failure) as rest.result) :
    let all := (change a).andThen (· :: as) fun a' => rest.map (a' :: ·)
    List.Forall₂ (Reaches change all.failure) (a :: as) all.result := by
  intro all
  obtain ⟨hdone, hall⟩ | ⟨e, -, hall⟩ : (_ ∧ all = _) ∨ ∃ e, _ ∧ all = _ := andThen_eq
  · rw [hall]
    exact .cons (.inl ⟨rfl, fun _ => hdone⟩) h
  · rw [hall]
    exact .cons (.inl ⟨rfl, nofun⟩) (List.forall₂_same.2 fun _ _ => .inr ⟨nofun, rfl⟩)

end Attempt

namespace Node

open Attempt

variable {n n' m : Node}

/-! ### Places -/

/-- The part that counts at a place, which is given by the numbers of the parts that lead to it. -/
def partAt? : List Nat → Node → Option Node
  | [], n => some n
  | i :: place, n => n.activeParts[i]?.bind (partAt? place)

/-- **What counts has a place.** -/
theorem active_iff_partAt? : Active m n ↔ ∃ place, n.partAt? place = some m := by
  constructor
  · intro h
    induction h with
    | self => exact ⟨[], rfl⟩
    | part hpart _ ih =>
      obtain ⟨i, hi⟩ := List.mem_iff_getElem?.1 hpart
      obtain ⟨place, hplace⟩ := ih
      exact ⟨i :: place, Option.bind_eq_some_iff.2 ⟨_, hi, hplace⟩⟩
  · rintro ⟨place, h⟩
    induction place generalizing n with
    | nil =>
      cases h
      exact .self
    | cons i place ih =>
      obtain ⟨part, hpart, h⟩ := Option.bind_eq_some_iff.1 h
      exact .part (List.mem_of_getElem? hpart) (ih h)

lemma exists_getElem? {α β : Type} {R : α → β → Prop} {xs : List α} {ys : List β}
    (h : List.Forall₂ R xs ys) {i : Nat} {x : α} (hx : xs[i]? = some x) :
    ∃ y, ys[i]? = some y ∧ R x y := by
  obtain ⟨hi, rfl⟩ := List.getElem?_eq_some_iff.1 hx
  have hi' : i < ys.length := h.length_eq ▸ hi
  exact ⟨ys[i], List.getElem?_eq_getElem hi', h.get hi hi'⟩

/-- What goes from nodes to their parts holds at every place. -/
theorem exists_partAt? {R : Node → Node → Prop} {place : List Nat}
    (hR : ∀ n n', R n n' → List.Forall₂ R n.activeParts n'.activeParts) (h : R n n')
    (hm : n.partAt? place = some m) : ∃ m', n'.partAt? place = some m' ∧ R m m' := by
  induction place generalizing n n' with
  | nil =>
    cases hm
    exact ⟨n', rfl, h⟩
  | cons i place ih =>
    obtain ⟨part, hpart, hm⟩ := Option.bind_eq_some_iff.1 hm
    obtain ⟨part', hpart', hrel⟩ := exists_getElem? (hR n n' h) hpart
    obtain ⟨m', hm', hrel'⟩ := ih hrel hm
    exact ⟨m', Option.bind_eq_some_iff.2 ⟨part', hpart', hm'⟩, hrel'⟩

/-! ### Nodes that differ in their parts -/

/-- **The same apart from what counts**: the flags, the number of items and the keys are the same,
and so is all that does not count; the parts that count are in relation, each with the one in its
place, and entries may differ where a big map has a pointer. -/
inductive Congruent (R : Node → Node → Prop) : Node → Node → Prop
  | same {n : Node} (h : ∀ part ∈ n.activeParts, R part part) : Congruent R n n
  | ticket {s : Site} {inner inner' : Node} (h : R inner inner') :
    Congruent R (.ticket s inner) (.ticket s inner')
  | option {s : Site} {inner inner' : Node} (h : R inner inner') :
    Congruent R (.option s inner (some true)) (.option s inner' (some true))
  | pair {s : Site} {l l' r r' : Node} (hl : R l l') (hr : R r r') :
    Congruent R (.pair s l r) (.pair s l' r')
  | left {s : Site} {l l' r : Node} (h : R l l') :
    Congruent R (.or s l r (some .left)) (.or s l' r (some .left))
  | right {s : Site} {l r r' : Node} (h : R r r') :
    Congruent R (.or s l r (some .right)) (.or s l r' (some .right))
  | collection {s : Site} {kind : Collection} {elem : Node} {items items' : List Node}
      (h : List.Forall₂ R items items') :
    Congruent R (.collection s kind elem (some items)) (.collection s kind elem (some items'))
  | map {s : Site} {key value : Node} {entries entries' : List (Node × Node)}
      (h : List.Forall₂ (fun e e' => e'.1 = e.1 ∧ R e.2 e'.2) entries entries') :
    Congruent R (.map s key value (some entries)) (.map s key value (some entries'))
  | bigMap {s : Site} {key value : Node} {p : Int}
      {entries entries' : Option (List (Node × Node))} :
    Congruent R (.bigMap s key value (some p) entries) (.bigMap s key value (some p) entries')

variable {R : Node → Node → Prop} {changes : List EntryChange}

lemma congruent_self (h : n.activeParts = []) : Congruent R n n := .same (by simp [h])

lemma Congruent.activeParts (h : Congruent R n n') :
    List.Forall₂ R n.activeParts n'.activeParts := by
  cases h with
  | same h => exact List.forall₂_same.2 h
  | ticket h | option h | left h | right h => exact .cons h .nil
  | pair hl hr => exact .cons hl (.cons hr .nil)
  | collection h => exact h
  | map h =>
    show List.Forall₂ R (List.map Prod.snd _) (List.map Prod.snd _)
    rw [List.forall₂_map_left_iff, List.forall₂_map_right_iff]
    exact h.imp fun _ _ => And.right
  | bigMap => exact .nil

/-! ### Laying changes over a value -/

lemma reaches_overlayItems (changes : List EntryChange) (items : List Node) :
    List.Forall₂ (Reaches (overlay changes) (overlayItems changes items).failure) items
      (overlayItems changes items).result := by
  induction items with
  | nil => exact .nil
  | cons item items ih => exact reaches_cons ih

lemma reaches_overlayValues (changes : List EntryChange) (entries : List (Node × Node)) :
    List.Forall₂ (Reaches (fun e => (e.2.overlay changes).map (e.1, ·))
        (overlayValues changes entries).failure) entries
      (overlayValues changes entries).result := by
  induction entries with
  | nil => exact .nil
  | cons entry entries ih => exact reaches_cons ih

/-- **One step**: laying changes over a node replaces the parts that count by what becomes of them,
and makes nothing else of the node but new entries of a big map with a pointer. -/
theorem congruent_overlay
    (h : ∀ part ∈ n.activeParts, ∀ part',
      Reaches (overlay changes) (n.overlay changes).failure part part' → R part part') :
    Congruent R n (n.overlay changes).result := by
  have hself : ∀ part ∈ n.activeParts,
      (n.overlay changes).failure = (part.overlay changes).failure →
        R part (part.overlay changes).result := by
    intro part hpart hfailure
    exact h part hpart _ (.inl ⟨rfl, hfailure ▸ id⟩)
  cases n with
  | scalar | contract | lambda => exact congruent_self rfl
  | ticket s inner => exact .ticket (hself inner List.mem_cons_self rfl)
  | option s inner present =>
    obtain _ | _ | _ := present
    · exact congruent_self rfl
    · exact congruent_self rfl
    · exact .option (hself inner List.mem_cons_self rfl)
  | pair s l r =>
    have hl := h l (by simp [activeParts])
    have hr := h r (by simp [activeParts])
    rw [overlay] at hl hr ⊢
    obtain ⟨hdone, heq⟩ | ⟨e, -, heq⟩ := andThen_eq (t := l.overlay changes) <;>
      rw [heq] at hl hr ⊢
    · exact .pair (hl _ (.inl ⟨rfl, fun _ => hdone⟩)) (hr _ (.inl ⟨rfl, id⟩))
    · have hstop := Option.some_ne_none e
      exact .pair (hl _ (.inl ⟨rfl, fun h => absurd h hstop⟩)) (hr _ (.inr ⟨hstop, rfl⟩))
  | or s l r side =>
    obtain _ | _ | _ := side
    · exact congruent_self rfl
    · exact .left (hself l List.mem_cons_self rfl)
    · exact .right (hself r List.mem_cons_self rfl)
  | collection s kind elem items =>
    cases items with
    | none => exact congruent_self rfl
    | some items =>
      have hitems := (List.forall₂_and_left _ _).2 ⟨h, reaches_overlayItems changes items⟩
      exact .collection (hitems.imp fun item item' hitem => hitem.1 item' hitem.2)
  | map s key value entries =>
    cases entries with
    | none => exact congruent_self rfl
    | some entries =>
      have hentries := (List.forall₂_and_left _ _).2
        ⟨List.forall_mem_map.1 h, reaches_overlayValues changes entries⟩
      refine .map (hentries.imp ?_)
      rintro entry _ ⟨hentry, ⟨rfl, hdone⟩ | ⟨hstop, rfl⟩⟩
      · exact ⟨rfl, hentry _ (.inl ⟨rfl, hdone⟩)⟩
      · exact ⟨rfl, hentry _ (.inr ⟨hstop, rfl⟩)⟩
  | bigMap s key value pointer entries =>
    cases pointer with
    | none => cases entries <;> exact congruent_self rfl
    | some p => exact .bigMap

/-- What becomes of a part of a value over which changes are laid: they are laid over the part, or
else it is not reached. -/
def Laid (changes : List EntryChange) (n n' : Node) : Prop :=
  n' = (n.overlay changes).result ∨ n' = n

lemma Laid.of_reaches {failure : Option NodeError}
    (h : Reaches (overlay changes) failure n n') : Laid changes n n' :=
  h.imp And.left And.right

lemma Laid.congruent (h : Laid changes n n')
    (hR : ∀ part ∈ n.activeParts, ∀ part', Laid changes part part' → R part part') :
    Congruent R n n' := by
  obtain rfl | rfl := h
  · exact congruent_overlay fun part hpart part' hreach => hR part hpart part' (.of_reaches hreach)
  · exact .same fun part hpart => hR part hpart part (.inr rfl)

/-- **The whole value**: what the parts that count pass on to the node holds of a value before and
after, however far the changes come. -/
theorem Laid.induct (hR : ∀ n n', Congruent R n n' → R n n') (h : Laid changes n n') : R n n' := by
  induction n using sizeInduction generalizing n' with
  | step n ih =>
    refine hR n n' (h.congruent fun part hpart part' hpart' => ?_)
    exact ih part (sizeOf_lt_of_mem_activeParts hpart) hpart'

/-- However far the changes come, each part that counts is replaced by what became of it. -/
lemma Laid.activeParts (h : Laid changes n n') :
    List.Forall₂ (Laid changes) n.activeParts n'.activeParts :=
  (h.congruent fun _ _ _ => id).activeParts

lemma activeParts_of_done (h : n.overlay changes = .done n') :
    List.Forall₂ (fun m m' => m.overlay changes = .done m') n.activeParts n'.activeParts := by
  have hcongruent : Congruent (fun m m' => m.overlay changes = .done m') n
      (n.overlay changes).result := by
    refine congruent_overlay fun part _ part' hreach => ?_
    rw [h] at hreach
    obtain ⟨rfl, hdone⟩ | ⟨hstop, -⟩ := hreach
    · exact congrArg (Attempt.mk _) (hdone rfl)
    · exact absurd rfl hstop
  rw [h] at hcongruent
  exact hcongruent.activeParts

end Node

/-! ### Trees -/

namespace Tree

open Attempt

variable {t t' : Tree} {m : Node} {changes : List EntryChange} {place : List Nat}

/-- The part that counts at a place, which begins with the number of a root. -/
def partAt? : List Nat → Tree → Option Node
  | [], _ => none
  | i :: place, t => t.roots[i]?.bind (Node.partAt? place)

theorem active_iff_partAt? : t.Active m ↔ ∃ place, t.partAt? place = some m := by
  constructor
  · rintro ⟨root, hroot, h⟩
    obtain ⟨i, hi⟩ := List.mem_iff_getElem?.1 hroot
    obtain ⟨place, hplace⟩ := Node.active_iff_partAt?.1 h
    exact ⟨i :: place, Option.bind_eq_some_iff.2 ⟨root, hi, hplace⟩⟩
  · rintro ⟨_ | ⟨i, place⟩, h⟩
    · cases h
    · obtain ⟨root, hroot, h⟩ := Option.bind_eq_some_iff.1 h
      exact ⟨root, List.mem_of_getElem? hroot, Node.active_iff_partAt?.2 ⟨place, h⟩⟩

lemma exists_partAt? {R : Node → Node → Prop}
    (hR : ∀ n n', R n n' → List.Forall₂ R n.activeParts n'.activeParts)
    (h : List.Forall₂ R t.roots t'.roots) (hm : t.partAt? place = some m) :
    ∃ m', t'.partAt? place = some m' ∧ R m m' := by
  cases place with
  | nil => cases hm
  | cons i place =>
    obtain ⟨root, hroot, hm⟩ := Option.bind_eq_some_iff.1 hm
    obtain ⟨root', hroot', hrel⟩ := Node.exists_getElem? h hroot
    obtain ⟨m', hm', hrel'⟩ := Node.exists_partAt? hR hrel hm
    exact ⟨m', Option.bind_eq_some_iff.2 ⟨root', hroot', hm'⟩, hrel'⟩

lemma reaches_changeRoots (change : Node → Attempt Node) (roots : List Node) :
    List.Forall₂ (Reaches change (changeRoots change roots).failure) roots
      (changeRoots change roots).result := by
  induction roots with
  | nil => exact .nil
  | cons root roots ih => exact reaches_cons ih

lemma laid_roots (t : Tree) (changes : List EntryChange) :
    List.Forall₂ (Node.Laid changes) t.roots (t.overlay changes).result.roots :=
  (reaches_changeRoots _ _).imp fun _ _ => Node.Laid.of_reaches

/-- At every place there is what the changes make of the part there, if they reach it. -/
theorem exists_laid (hm : t.partAt? place = some m) :
    ∃ m', (t.overlay changes).result.partAt? place = some m' ∧ Node.Laid changes m m' :=
  exists_partAt? (fun _ _ => Node.Laid.activeParts) (laid_roots t changes) hm

/-- If all changes are made, they are made at every place. -/
theorem exists_overlay_done (h : (t.overlay changes).toExcept = .ok t')
    (hm : t.partAt? place = some m) :
    ∃ m', t'.partAt? place = some m' ∧ m.overlay changes = .done m' := by
  obtain ⟨hdone, rfl⟩ := toExcept_eq_ok.1 h
  refine exists_partAt? (fun _ _ => Node.activeParts_of_done) ?_ hm
  refine (reaches_changeRoots (Node.overlay changes) t.roots).imp ?_
  rintro root _ (⟨rfl, hroot⟩ | ⟨hstop, -⟩)
  · exact congrArg (Attempt.mk _) (hroot hdone)
  · exact absurd hdone hstop

end Tree

end Lineage
