import Mathlib.Logic.Function.Basic
import Lineage.BigMap.Arena

/-!
# Arenas as maps

An arena keeps its slots in a list and finds them through an index. As long as every pointer has a
slot of its own (`Arena.Wf`), which no operation gives up, an arena is the pair of two functions of
a pointer: where it came from (`link?`) and which records it was given (`records?`). Each operation
changes these functions at one pointer at most, and there as a plain map would be changed.
-/

namespace Lineage.Arena

open Function

variable {a : Arena} {p q : Int}

/-- Every pointer has a slot of its own. -/
structure Wf (a : Arena) : Prop where
  lt_length {p : Int} {i : Nat} (h : Dictionary.find? p a.index = some i) : i < a.slots.length
  injective {p q : Int} {i : Nat} (hp : Dictionary.find? p a.index = some i)
    (hq : Dictionary.find? q a.index = some i) : p = q

theorem wf_empty : empty.Wf where
  lt_length h := by simp [empty, Dictionary.find?] at h
  injective h := by simp [empty, Dictionary.find?] at h

/-! ### Changing a slot -/

section Modify

variable (p : Int) (f : Slot → Slot)

/-- No slot is made for a pointer that has one, since the next position is not given to it. -/
lemma modify_of_some (h : a.Wf) {i : Nat} (hi : Dictionary.find? p a.index = some i) :
    a.modify p f = { a with slots := a.slots.modify i f } := by
  unfold modify assign
  rw [hi]
  dsimp only
  rw [if_neg (Nat.ne_of_lt (h.lt_length hi))]

lemma modify_of_none (hi : Dictionary.find? p a.index = none) :
    a.modify p f = ⟨a.slots ++ [f .empty], Dictionary.insert p a.slots.length a.index⟩ := by
  have hmade : (a.slots ++ [Slot.empty]).modify a.slots.length f = a.slots ++ [f .empty] :=
    List.modifyTailIdx_add (List.modifyHead f) 0 a.slots [.empty]
  unfold modify assign
  rw [hi]
  dsimp only
  rw [if_pos rfl, hmade]

lemma slot?_of_some {i : Nat} (hi : Dictionary.find? p a.index = some i) :
    a.slot? p = a.slots[i]? := by
  unfold slot?
  rw [hi]
  rfl

lemma slot?_of_none (hi : Dictionary.find? p a.index = none) : a.slot? p = none := by
  unfold slot?
  rw [hi]
  rfl

theorem Wf.modify (h : a.Wf) : (a.modify p f).Wf := by
  cases hi : Dictionary.find? p a.index with
  | some i =>
    rw [modify_of_some p f h hi]
    exact ⟨fun hq => by simpa using h.lt_length hq, h.injective⟩
  | none =>
    rw [modify_of_none p f hi]
    have hlt : ∀ {q j}, Dictionary.find? q (Dictionary.insert p a.slots.length a.index) = some j →
        q = p ∧ j = a.slots.length ∨ Dictionary.find? q a.index = some j ∧ j < a.slots.length := by
      intro q j hq
      rw [Dictionary.find?_insert] at hq
      split at hq
      · next hpq => exact .inl ⟨hpq.symm, (Option.some.inj hq).symm⟩
      · exact .inr ⟨hq, h.lt_length hq⟩
    constructor
    · intro q j hq
      rw [List.length_append, List.length_singleton]
      rcases hlt hq with ⟨-, hj⟩ | ⟨-, hj⟩ <;> omega
    · intro q q' j hq hq'
      rcases hlt hq with ⟨rfl, hj⟩ | ⟨hq, hj⟩ <;> rcases hlt hq' with ⟨rfl, hj'⟩ | ⟨hq', hj'⟩
      · rfl
      · omega
      · omega
      · exact h.injective hq hq'

/-- A change concerns the slot of its pointer and no other. -/
theorem slot?_modify (h : a.Wf) :
    (a.modify p f).slot? = update a.slot? p (some (f ((a.slot? p).getD .empty))) := by
  funext q
  cases hi : Dictionary.find? p a.index with
  | some i =>
    have hlt := h.lt_length hi
    rw [modify_of_some p f h hi, slot?_of_some p hi, List.getElem?_eq_getElem hlt, Option.getD_some]
    by_cases hq : q = p
    · subst hq
      rw [update_self]
      unfold slot?
      simp [hi, hlt]
    · rw [update_of_ne hq]
      unfold slot?
      cases hj : Dictionary.find? q a.index with
      | none => rfl
      | some j =>
        have hij : i ≠ j := fun e => hq (h.injective hj (e ▸ hi))
        simp [List.getElem?_modify, hij]
  | none =>
    rw [modify_of_none p f hi, slot?_of_none p hi, Option.getD_none]
    unfold slot?
    rw [Dictionary.find?_insert]
    by_cases hq : q = p
    · subst hq
      simp
    · rw [update_of_ne hq, if_neg (Ne.symm hq)]
      cases hj : Dictionary.find? q a.index with
      | none => rfl
      | some j => simp [List.getElem?_append_left (h.lt_length hj)]

lemma slot?_modify_of_ne (h : a.Wf) (hq : q ≠ p) : (a.modify p f).slot? q = a.slot? q := by
  rw [slot?_modify p f h, update_of_ne hq]

lemma link?_modify (h : a.Wf) :
    (a.modify p f).link? = update a.link? p (f ((a.slot? p).getD .empty)).link := by
  funext q
  unfold link?
  rw [slot?_modify p f h]
  by_cases hq : q = p
  · subst hq
    simp
  · simp [update_of_ne hq]

lemma records?_modify (h : a.Wf) :
    (a.modify p f).records? = update a.records? p (f ((a.slot? p).getD .empty)).records := by
  funext q
  unfold records?
  rw [slot?_modify p f h]
  by_cases hq : q = p
  · subst hq
    simp
  · simp [update_of_ne hq]

end Modify

lemma link_getD_slot? : ((a.slot? p).getD .empty).link = a.link? p := by
  unfold link?
  cases a.slot? p <;> rfl

lemma records_getD_slot? : ((a.slot? p).getD .empty).records = a.records? p := by
  unfold records?
  cases a.slot? p <;> rfl

/-! ### The operations -/

section Operations

variable (p : Int) (l : Link) (path : String) (d : Diff)

theorem Wf.openAt (h : a.Wf) : (a.openAt p l).Wf := h.modify p _
theorem Wf.setLink (h : a.Wf) : (a.setLink p l).Wf := h.modify p _
theorem Wf.setPath (h : a.Wf) : (a.setPath p path).Wf := h.modify p _
theorem Wf.push (h : a.Wf) : (a.push p d).Wf := h.modify p _
theorem Wf.touch (h : a.Wf) : (a.touch p).Wf := h.modify p _

theorem link?_openAt (h : a.Wf) : (a.openAt p l).link? = update a.link? p (some l) :=
  link?_modify p _ h

theorem records?_openAt (h : a.Wf) : (a.openAt p l).records? = update a.records? p (some []) :=
  records?_modify p _ h

theorem link?_setLink (h : a.Wf) : (a.setLink p l).link? = update a.link? p (some l) :=
  link?_modify p _ h

theorem records?_setLink (h : a.Wf) : (a.setLink p l).records? = a.records? := by
  unfold setLink
  rw [records?_modify p _ h, records_getD_slot?, update_eq_self]

theorem link?_setPath (h : a.Wf) :
    (a.setPath p path).link? =
      update a.link? p ((a.link? p).map fun link => { link with path := some path }) := by
  unfold setPath
  rw [link?_modify p _ h, link_getD_slot?]

theorem records?_setPath (h : a.Wf) : (a.setPath p path).records? = a.records? := by
  unfold setPath
  rw [records?_modify p _ h, records_getD_slot?, update_eq_self]

/-- Keeping a path leaves alone all that is known of where a pointer came from but its path. -/
theorem link?_keepPath (h : a.Wf) (path : Option String) (q : Int) :
    ((a.keepPath p path).link? q).map (fun l => (l.source, l.types)) =
      (a.link? q).map fun l => (l.source, l.types) := by
  cases path with
  | none => rfl
  | some path =>
    unfold keepPath
    rw [link?_setPath p path h]
    by_cases hq : q = p
    · subst hq
      rw [update_self]
      cases a.link? q <;> rfl
    · rw [update_of_ne hq]

lemma source_keepPath (h : a.Wf) (path : Option String) (q : Int) :
    ((a.keepPath p path).link? q).map Link.source = (a.link? q).map Link.source := by
  have hmap := congrArg (Option.map Prod.fst) (link?_keepPath p h path q)
  rwa [Option.map_map, Option.map_map] at hmap

lemma types_keepPath (h : a.Wf) (path : Option String) (q : Int) :
    ((a.keepPath p path).link? q).bind Link.types = (a.link? q).bind Link.types := by
  have hmap := congrArg (fun o => o.bind Prod.snd) (link?_keepPath p h path q)
  simp only [Option.bind_map] at hmap
  exact hmap

theorem records?_keepPath (h : a.Wf) (path : Option String) :
    (a.keepPath p path).records? = a.records? := by
  cases path with
  | none => rfl
  | some path => exact records?_setPath p path h

theorem Wf.keepPath (h : a.Wf) (path : Option String) : (a.keepPath p path).Wf := by
  cases path with
  | none => exact h
  | some path => exact h.setPath p path

theorem link?_push (h : a.Wf) : (a.push p d).link? = a.link? := by
  unfold push
  rw [link?_modify p _ h, link_getD_slot?, update_eq_self]

theorem records?_push (h : a.Wf) :
    (a.push p d).records? = update a.records? p (some ((a.records? p).getD [] ++ [d])) := by
  unfold push
  rw [records?_modify p _ h, records_getD_slot?]

theorem link?_touch (h : a.Wf) : (a.touch p).link? = a.link? := by
  unfold touch
  rw [link?_modify p _ h, link_getD_slot?, update_eq_self]

theorem records?_touch (h : a.Wf) :
    (a.touch p).records? = update a.records? p (some ((a.records? p).getD [])) := by
  unfold touch
  rw [records?_modify p _ h, records_getD_slot?]

/-- A pointer without a slot has no records to forget, so that forgetting them is a change too. -/
lemma discard_eq_modify (h : a.Wf) {i : Nat} (hi : Dictionary.find? p a.index = some i) :
    a.discard p = a.modify p fun s => { s with records := none } := by
  rw [modify_of_some p _ h hi]
  unfold discard
  rw [hi]

lemma discard_of_none (hi : Dictionary.find? p a.index = none) : a.discard p = a := by
  unfold discard
  rw [hi]

theorem Wf.discard (h : a.Wf) : (a.discard p).Wf := by
  cases hi : Dictionary.find? p a.index with
  | some i => rw [discard_eq_modify p h hi]; exact h.modify p _
  | none => rw [discard_of_none p hi]; exact h

theorem link?_discard (h : a.Wf) : (a.discard p).link? = a.link? := by
  cases hi : Dictionary.find? p a.index with
  | some i => rw [discard_eq_modify p h hi, link?_modify p _ h, link_getD_slot?, update_eq_self]
  | none => rw [discard_of_none p hi]

theorem records?_discard (h : a.Wf) : (a.discard p).records? = update a.records? p none := by
  cases hi : Dictionary.find? p a.index with
  | some i => rw [discard_eq_modify p h hi, records?_modify p _ h]
  | none =>
    have hp : a.records? p = none := by
      unfold records?
      rw [slot?_of_none p hi]
      rfl
    rw [discard_of_none p hi, ← hp, update_eq_self]

lemma slot?_keepPath_of_ne (h : a.Wf) (path : Option String) (hq : q ≠ p) :
    (a.keepPath p path).slot? q = a.slot? q := by
  cases path with
  | none => rfl
  | some path => exact slot?_modify_of_ne p _ h hq

lemma slot?_discard_of_ne (h : a.Wf) (hq : q ≠ p) : (a.discard p).slot? q = a.slot? q := by
  cases hi : Dictionary.find? p a.index with
  | some i => rw [discard_eq_modify p h hi, slot?_modify_of_ne p _ h hq]
  | none => rw [discard_of_none p hi]

end Operations

/-! ### The records of a pointer -/

/-- The records given to a pointer, none if it has never been opened or was discarded. -/
def pending (a : Arena) (p : Int) : List Diff := (a.records? p).getD []

def pushAll (a : Arena) (p : Int) (ds : List Diff) : Arena := ds.foldl (fun a d => a.push p d) a

lemma pushAll_cons (p : Int) (d : Diff) (ds : List Diff) :
    a.pushAll p (d :: ds) = (a.push p d).pushAll p ds := rfl

theorem Wf.pushAll (h : a.Wf) (p : Int) (ds : List Diff) : (a.pushAll p ds).Wf := by
  induction ds generalizing a with
  | nil => exact h
  | cons d ds ih => exact ih (h.push p d)

lemma slot?_pushAll_of_ne (h : a.Wf) (ds : List Diff) (hq : q ≠ p) :
    (a.pushAll p ds).slot? q = a.slot? q := by
  induction ds generalizing a with
  | nil => rfl
  | cons d ds ih => rw [pushAll_cons, ih (h.push p d), push, slot?_modify_of_ne p _ h hq]

theorem link?_pushAll (h : a.Wf) (p : Int) (ds : List Diff) :
    (a.pushAll p ds).link? = a.link? := by
  induction ds generalizing a with
  | nil => rfl
  | cons d ds ih => rw [pushAll_cons, ih (h.push p d), link?_push p d h]

lemma pending_of_records?_eq {b : Arena} (h : b.records? = a.records?) : b.pending = a.pending := by
  funext p
  unfold pending
  rw [h]

lemma pending_of_records?_update {b : Arena} {rs : Option (List Diff)}
    (h : b.records? = update a.records? p rs) : b.pending = update a.pending p (rs.getD []) := by
  funext q
  unfold pending
  rw [h]
  by_cases hq : q = p
  · subst hq
    simp
  · simp [update_of_ne hq]

theorem pending_openAt (h : a.Wf) (p : Int) (l : Link) :
    (a.openAt p l).pending = update a.pending p [] :=
  pending_of_records?_update (records?_openAt p l h)

theorem pending_setLink (h : a.Wf) (p : Int) (l : Link) : (a.setLink p l).pending = a.pending :=
  pending_of_records?_eq (records?_setLink p l h)

theorem pending_keepPath (h : a.Wf) (p : Int) (path : Option String) :
    (a.keepPath p path).pending = a.pending :=
  pending_of_records?_eq (records?_keepPath p h path)

theorem pending_push (h : a.Wf) (p : Int) (d : Diff) :
    (a.push p d).pending = update a.pending p (a.pending p ++ [d]) :=
  pending_of_records?_update (records?_push p d h)

theorem pending_touch (h : a.Wf) (p : Int) : (a.touch p).pending = a.pending := by
  rw [pending_of_records?_update (records?_touch p h)]
  exact update_eq_self p a.pending

theorem pending_discard (h : a.Wf) (p : Int) : (a.discard p).pending = update a.pending p [] :=
  pending_of_records?_update (records?_discard p h)

theorem pending_pushAll (h : a.Wf) (p : Int) (ds : List Diff) :
    (a.pushAll p ds).pending = update a.pending p (a.pending p ++ ds) := by
  induction ds generalizing a with
  | nil => rw [List.append_nil, update_eq_self]; rfl
  | cons d ds ih =>
    rw [pushAll_cons, ih (h.push p d), pending_push h, update_idem, update_self, List.append_assoc]
    rfl

theorem isSome_records?_touch (h : a.Wf) (p : Int) : ((a.touch p).records? p).isSome := by
  rw [records?_touch p h, update_self]
  rfl

theorem isSome_records?_pushAll (h : a.Wf) (hs : (a.records? p).isSome) (ds : List Diff) :
    ((a.pushAll p ds).records? p).isSome := by
  induction ds generalizing a with
  | nil => exact hs
  | cons d ds ih =>
    refine ih (h.push p d) ?_
    rw [records?_push p d h, update_self]
    rfl

end Lineage.Arena
