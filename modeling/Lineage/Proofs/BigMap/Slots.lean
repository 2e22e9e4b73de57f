import Lineage.Proofs.BigMap.Resolver

/-!
# Arenas without positions

What an arena is for could be had more simply: a dictionary of pointers with what is known of them
(`PlainArena`), in which nothing has a position. An arena makes its slots as it goes along, some
operations make one and others do not, and a pointer stays where it was put. It can be told from the
plain dictionary by nothing that is asked of it, whatever has been done to both (`run_plain`).

The relation between the two is `Represents`. That every pointer has a slot of its own is part of
it, since a change of a shared slot would be a change of two pointers. A resolver does nothing else
to its arena than these operations, also when an entry fails (`Resolver.Reachable.exists_run`).
-/

namespace Lineage

/-- What can be done to an arena. -/
inductive Arena.Operation where
  | openAt (pointer : Int) (link : Link)
  | setLink (pointer : Int) (link : Link)
  | setPath (pointer : Int) (path : String)
  | push (pointer : Int) (record : Diff)
  | touch (pointer : Int)
  | discard (pointer : Int)

def Arena.Operation.pointer : Arena.Operation → Int
  | openAt p _ | setLink p _ | setPath p _ | push p _ | touch p | discard p => p

/-- Pointers with what is known of them. A pointer that is not there has neither link nor
records. -/
abbrev PlainArena := Dictionary Int Slot

namespace PlainArena

variable (m : PlainArena) (p : Int)

def link? : Option Link := (Dictionary.find? p m).bind Slot.link

def records? : Option (List Diff) := (Dictionary.find? p m).bind Slot.records

/-- Says what is known of a pointer from now on. -/
def put (link : Option Link) (records : Option (List Diff)) : PlainArena :=
  Dictionary.insert p ⟨link, records⟩ m

def apply : Arena.Operation → PlainArena
  | .openAt p link => m.put p (some link) (some [])
  | .setLink p link => m.put p (some link) (m.records? p)
  | .setPath p path =>
    m.put p ((m.link? p).map fun link => { link with path := some path }) (m.records? p)
  | .push p record => m.put p (m.link? p) (some ((m.records? p).getD [] ++ [record]))
  | .touch p => m.put p (m.link? p) (some ((m.records? p).getD []))
  | .discard p => if (Dictionary.find? p m).isSome then m.put p (m.link? p) none else m

def run (operations : List Arena.Operation) : PlainArena := operations.foldl apply []

end PlainArena

namespace Arena

variable {a : Arena} {m : PlainArena} {p q : Int}

def apply (a : Arena) : Operation → Arena
  | .openAt p link => a.openAt p link
  | .setLink p link => a.setLink p link
  | .setPath p path => a.setPath p path
  | .push p record => a.push p record
  | .touch p => a.touch p
  | .discard p => a.discard p

def run (operations : List Operation) : Arena := operations.foldl apply .empty

/-! ### One operation -/

/-- An operation leaves the slots of all pointers but its own alone. -/
theorem slot?_apply_of_ne (h : a.Wf) {operation : Operation} (hq : q ≠ operation.pointer) :
    (a.apply operation).slot? q = a.slot? q := by
  cases operation with
  | openAt p _ | setLink p _ | setPath p _ | push p _ | touch p => exact slot?_modify_of_ne p _ h hq
  | discard p => exact slot?_discard_of_ne p h hq

/-- **An arena and a dictionary that know the same of all pointers.** -/
structure Represents (a : Arena) (m : PlainArena) : Prop where
  wf : a.Wf
  slot (p : Int) : a.slot? p = Dictionary.find? p m

namespace Represents

theorem start : Represents .empty [] := ⟨wf_empty, fun _ => rfl⟩

lemma link (h : Represents a m) (p : Int) : a.link? p = m.link? p := by
  unfold link? PlainArena.link?
  rw [h.slot]

lemma records (h : Represents a m) (p : Int) : a.records? p = m.records? p := by
  unfold records? PlainArena.records?
  rw [h.slot]

lemma slot_getD (h : Represents a m) (p : Int) :
    (a.slot? p).getD .empty = ⟨m.link? p, m.records? p⟩ := by
  rw [← h.link, ← h.records, ← link_getD_slot?, ← records_getD_slot?]

/-- To change a slot is to put what becomes of it, also if the slot is only made for that. -/
lemma modify (h : Represents a m) (p : Int) (f : Slot → Slot) :
    Represents (a.modify p f) (Dictionary.insert p (f ⟨m.link? p, m.records? p⟩) m) where
  wf := h.wf.modify p f
  slot q := by
    rw [slot?_modify p f h.wf, h.slot_getD, Dictionary.find?_insert]
    by_cases hq : q = p
    · rw [hq, Function.update_self, if_pos rfl]
    · rw [Function.update_of_ne hq, if_neg (Ne.symm hq), h.slot]

lemma discard (h : Represents a m) (p : Int) : Represents (a.discard p) (m.apply (.discard p)) := by
  show Represents _ (if (Dictionary.find? p m).isSome then m.put p (m.link? p) none else m)
  rw [← h.slot p]
  cases hi : Dictionary.find? p a.index with
  | none =>
    -- a pointer without a position is not in the dictionary either
    rw [discard_of_none p hi, slot?_of_none p hi]
    exact h
  | some i =>
    have hsome : (a.slot? p).isSome := by
      rw [slot?_of_some p hi, List.getElem?_eq_getElem (h.wf.lt_length hi)]
      rfl
    rw [discard_eq_modify p h.wf hi, if_pos hsome]
    exact h.modify p _

/-- Every operation keeps them alike. -/
theorem apply (h : Represents a m) (operation : Operation) :
    Represents (a.apply operation) (m.apply operation) := by
  cases operation with
  | openAt p _ | setLink p _ | setPath p _ | push p _ | touch p => exact h.modify p _
  | discard p => exact h.discard p

end Represents

/-! ### All operations -/

/-- **Operations that are done to both keep an arena and a dictionary alike.** -/
theorem Represents.foldl (h : Represents a m) (operations : List Operation) :
    Represents (operations.foldl Arena.apply a) (operations.foldl PlainArena.apply m) := by
  induction operations generalizing a m with
  | nil => exact h
  | cons operation operations ih => exact ih (h.apply operation)

theorem represents_run (operations : List Operation) :
    Represents (run operations) (PlainArena.run operations) := Represents.start.foldl operations

/-- **An arena is a plain map.** After any operations the link and the records of each pointer are
those in a plain dictionary to which the same was done. Every position is that of a slot, no two
pointers have the same position, and whatever is done next to a pointer changes neither the link nor
the records of another. -/
theorem run_plain (operations : List Operation) :
    let a := run operations
    let m := PlainArena.run operations
    (∀ p, a.link? p = m.link? p ∧ a.records? p = m.records? p) ∧
      (∀ p i, Dictionary.find? p a.index = some i → i < a.slots.length ∧
        ∀ q, Dictionary.find? q a.index = some i → q = p) ∧
      ∀ (next : Operation) q, q ≠ next.pointer →
        (a.apply next).link? q = a.link? q ∧ (a.apply next).records? q = a.records? q := by
  have h := represents_run operations
  refine ⟨fun p => ⟨h.link p, h.records p⟩, fun p i hp => ?_, fun next q hq => ?_⟩
  · exact ⟨h.wf.lt_length hp, fun q hq => h.wf.injective hq hp⟩
  · have hslot := slot?_apply_of_ne h.wf hq
    unfold link? records?
    rw [hslot]
    exact ⟨rfl, rfl⟩

/-- Slots are made as pointers are first written to, which is not when they are discarded. -/
example (link : Link) :
    (run [.touch 3, .discard 5, .setPath 3 "0", .openAt (-1) link, .discard (-1)]).index =
      [(-1, 1), (3, 0)] := rfl

/-! ### The arenas of resolvers -/

/-- Operations make one arena of another. -/
def Becomes (a b : Arena) : Prop := ∃ operations : List Operation, b = operations.foldl apply a

namespace Becomes

variable {b c : Arena}

theorem trans (h : Becomes a b) (h' : Becomes b c) : Becomes a c := by
  obtain ⟨operations, rfl⟩ := h
  obtain ⟨more, rfl⟩ := h'
  exact ⟨operations ++ more, List.foldl_append.symm⟩

lemma one (a : Arena) (operation : Operation) : Becomes a (a.apply operation) := ⟨[operation], rfl⟩

lemma keepPath (a : Arena) (p : Int) (path : Option String) : Becomes a (a.keepPath p path) := by
  cases path with
  | none => exact ⟨[], rfl⟩
  | some path => exact .one a (.setPath p path)

lemma pushAll (a : Arena) (p : Int) (records : List Diff) : Becomes a (a.pushAll p records) := by
  refine ⟨records.map (.push p), ?_⟩
  rw [List.foldl_map]
  rfl

end Becomes

end Arena

namespace Resolver

variable {live : LiveRecords} {settings : Settings} {ctx : Context} {r : Resolver}

/-- An entry does operations to the arena, and nothing else. -/
theorem becomes_entry (hr : r.arena.Wf) (e : LogEntry) :
    r.arena.Becomes ((entry live settings ctx e).exec r).2.arena := by
  rcases hx : (entry live settings ctx e).exec r with ⟨_ | out, r'⟩
  · obtain ⟨q, path, ha⟩ := entry_error hx
    exact ha ▸ .keepPath r.arena q path
  · cases e with
    | alloc pointer keyType valueType =>
      obtain ⟨key, value, -, -, -, rfl⟩ := alloc_ok hx
      exact .one r.arena (.openAt pointer _)
    | update pointer key keyHash value =>
      obtain ⟨located, types, normal, -, -, -, -, rfl⟩ := update_ok hr hx
      exact (Arena.Becomes.keepPath r.arena pointer _).trans (.one _ (.push pointer _))
    | copy source destination =>
      obtain ⟨actions, rows, link, -, -, -, -, rfl⟩ := copy_ok hx
      have hlinked := Arena.Becomes.one r.arena (.setLink destination link)
      exact (hlinked.trans (.one _ (.touch destination))).trans (.pushAll _ destination _)
    | remove pointer =>
      by_cases hp : pointer < 0
      · cases (remove_of_neg hp).symm.trans hx
        exact .one r.arena (.discard pointer)
      · obtain ⟨rows, -, -, rfl⟩ := remove_ok (Int.not_lt.1 hp) hx
        exact .pushAll r.arena pointer _

/-- **The arena of a resolver is made by operations**, whatever logs it has seen and whatever came
of them. -/
theorem Reachable.exists_run (h : Reachable settings r) :
    ∃ operations, r.arena = Arena.run operations := by
  refine h.keeps (P := fun r => Arena.empty.Becomes r.arena) ⟨[], rfl⟩ fun live ctx e r hr => ?_
  obtain ⟨operations, ha⟩ := hr
  have hwf : r.arena.Wf := ha ▸ (Arena.represents_run operations).wf
  exact Arena.Becomes.trans ⟨operations, ha⟩ (becomes_entry hwf e)

end Resolver

end Lineage
