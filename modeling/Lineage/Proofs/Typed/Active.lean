import Lineage.BigMap.Pointer
import Lineage.Proofs.Typed.Bound

/-!
# What counts in a value

Of the nodes that a type is made of, a value need not use all: there is an arm that was not chosen
and the content of an option that is absent, and the elements of collections and the values of maps
are copies of the nodes of their types. The parts that count are `Active`.

When a value is bound to a node, each part that counts is bound to a node of the skeleton
(`exists_mem_skeleton_of_active`). The pointers of a value are those of its active big maps
(`mem_pointers`).
-/

namespace Lineage.Node

/-- The parts that count at once: the components of a pair, the arm that was chosen, the content of
an option that is there, what a ticket holds, the items of a collection and the values of a map.
Neither keys nor the entries of big maps count. -/
def activeParts : Node → List Node
  | ticket _ inner | option _ inner (some true) => [inner]
  | pair _ l r => [l, r]
  | or _ l _ (some .left) => [l]
  | or _ _ r (some .right) => [r]
  | collection _ _ _ (some items) => items
  | map _ _ _ (some entries) => entries.map Prod.snd
  | _ => []

/-- **What counts**: the value itself, and what counts in a part that counts. -/
inductive Active (m : Node) : Node → Prop
  | self : Active m m
  | part {n part : Node} (hpart : part ∈ n.activeParts) (h : Active m part) : Active m n

variable {n n' m part : Node} {v : Micheline} {p : Int} {path : String}

lemma mem_activeParts (h : part ∈ n.activeParts) :
    part ∈ n.typeChildren ∨
      (∃ s kind elem items, n = collection s kind elem (some items) ∧ part ∈ items) ∨
      ∃ s key value entries, n = map s key value (some entries) ∧ ∃ e ∈ entries, e.2 = part := by
  unfold activeParts at h
  split at h
  · exact .inl h
  · exact .inl h
  · exact .inl h
  · exact .inl (List.mem_cons.2 (.inl (List.mem_singleton.1 h)))
  · exact .inl (List.mem_cons_of_mem _ h)
  · exact .inr (.inl ⟨_, _, _, _, rfl, h⟩)
  · exact .inr (.inr ⟨_, _, _, _, rfl, List.mem_map.1 h⟩)
  · cases h

lemma sizeOf_lt_of_mem_activeParts (h : part ∈ n.activeParts) : sizeOf part < sizeOf n := by
  obtain hchild | ⟨s, kind, elem, items, rfl, hitem⟩ |
    ⟨s, key, value, entries, rfl, entry, hentry, rfl⟩ := mem_activeParts h
  · exact sizeOf_lt_of_mem_typeChildren hchild
  · exact sizeOf_lt_collection hitem
  · exact (sizeOf_lt_map hentry).2

theorem Sound.of_active (h : n.Sound) (hm : Active m n) : m.Sound := by
  induction hm with
  | self => exact h
  | @part n part hpart _ ih =>
    refine ih ?_
    obtain hchild | ⟨s, kind, elem, items, rfl, hitem⟩ |
      ⟨s, key, value, entries, rfl, entry, hentry, rfl⟩ := mem_activeParts hpart
    · exact h.of_mem_skeleton (mem_skeleton.2 (.inr ⟨part, hchild, mem_skeleton_self⟩))
    · cases h with | collection _ hitems => exact hitems part hitem
    · cases h with | map _ _ hvalues => exact hvalues entry hentry

/-! ### Where active parts come from -/

lemma exists_settle_of_mem_activeParts (h : n.settle v = .ok n') (hpart : part ∈ n'.activeParts) :
    ∃ child ∈ n.typeChildren, ∃ x, child.settle x = .ok part := by
  cases n with
  | scalar =>
    obtain ⟨-, rfl⟩ := settle_scalar.1 h
    cases hpart
  | contract =>
    obtain ⟨-, rfl⟩ := settle_contract.1 h
    cases hpart
  | lambda =>
    obtain ⟨-, rfl⟩ := settle_lambda.1 h
    cases hpart
  | bigMap =>
    obtain ⟨literal, p, -, -, rfl⟩ | ⟨elts, entries, -, -, rfl⟩ := settle_bigMap.1 h <;> cases hpart
  | ticket s inner =>
    obtain ⟨inner', hinner, rfl⟩ := settle_ticket.1 h
    obtain rfl := List.mem_singleton.1 hpart
    exact ⟨inner, by simp [typeChildren], v, hinner⟩
  | option s inner present =>
    obtain ⟨-, rfl⟩ | ⟨a, inner', -, ha, rfl⟩ := settle_option.1 h
    · cases hpart
    · obtain rfl := List.mem_singleton.1 hpart
      exact ⟨inner, by simp [typeChildren], a, ha⟩
  | pair s l r =>
    obtain ⟨first, second, rest, l', r', -, hl, hr, rfl⟩ := settle_pair.1 h
    obtain rfl | rfl := List.mem_pair.1 hpart
    · exact ⟨l, by simp [typeChildren], _, hl⟩
    · exact ⟨r, by simp [typeChildren], _, hr⟩
  | or s l r side =>
    obtain ⟨a, l', -, ha, rfl⟩ | ⟨a, r', -, ha, rfl⟩ := settle_or.1 h <;>
      obtain rfl := List.mem_singleton.1 hpart
    · exact ⟨l, by simp [typeChildren], a, ha⟩
    · exact ⟨r, by simp [typeChildren], a, ha⟩
  | collection s kind elem items =>
    obtain ⟨vs, items', -, hitems, rfl⟩ := settle_collection.1 h
    obtain ⟨x, -, hx⟩ := exists_mem_of_forall₂ hitems hpart
    exact ⟨elem, by simp [typeChildren], x, hx⟩
  | map s key value entries =>
    obtain ⟨elts, entries', -, hentries, rfl⟩ := settle_map.1 h
    obtain ⟨entry, hentry, rfl⟩ := List.mem_map.1 hpart
    obtain ⟨elt, -, k, x, -, -, hx⟩ := exists_mem_of_forall₂ hentries hentry
    exact ⟨value, by simp [typeChildren], x, hx⟩

/-- The parts that count are bound to nodes of the skeleton. -/
theorem exists_mem_skeleton_of_active (h : n.settle v = .ok n') (hm : Active m n') :
    ∃ m₀ ∈ n.skeleton, m₀.erase = m.erase := by
  induction hm generalizing n v with
  | self => exact ⟨n, mem_skeleton_self, (erase_settle h).symm⟩
  | part hpart _ ih =>
    obtain ⟨child, hchild, x, hx⟩ := exists_settle_of_mem_activeParts h hpart
    obtain ⟨m₀, hm₀, herase⟩ := ih hx
    exact ⟨m₀, mem_skeleton.2 (.inr ⟨child, hchild, hm₀⟩), herase⟩

/-! ### Pointers -/

lemma itemPointers_eq (items : List Node) : itemPointers items = items.flatMap pointers := by
  induction items with
  | nil => rfl
  | cons item items ih => rw [itemPointers, ih, List.flatMap_cons]

lemma valuePointers_eq (entries : List (Node × Node)) :
    valuePointers entries = (entries.map Prod.snd).flatMap pointers := by
  induction entries with
  | nil => rfl
  | cons entry entries ih => rw [valuePointers, ih, List.map_cons, List.flatMap_cons]

/-- A pointer stands at the node itself or in a part that counts. -/
lemma mem_pointers_iff : (p, path) ∈ n.pointers ↔
    (∃ s key value entries, n = bigMap s key value (some p) entries ∧ s.path = path) ∨
      ∃ part ∈ n.activeParts, (p, path) ∈ part.pointers := by
  rw [pointers.eq_def]
  unfold activeParts
  split <;> simp_all [itemPointers_eq, valuePointers_eq, eq_comm]

/-- **The pointers of a value** are those of the active big maps. -/
theorem mem_pointers : (p, path) ∈ n.pointers ↔
    ∃ s key value entries, Active (bigMap s key value (some p) entries) n ∧ s.path = path := by
  constructor
  · intro h
    induction n using sizeInduction with
    | step n ih =>
      obtain ⟨s, key, value, entries, rfl, hpath⟩ | ⟨part, hpart, h⟩ := mem_pointers_iff.1 h
      · exact ⟨s, key, value, entries, .self, hpath⟩
      · obtain ⟨s, key, value, entries, hm, hpath⟩ :=
          ih part (sizeOf_lt_of_mem_activeParts hpart) h
        exact ⟨s, key, value, entries, .part hpart hm, hpath⟩
  · rintro ⟨s, key, value, entries, hm, rfl⟩
    generalize hbig : bigMap s key value (some p) entries = m at hm
    induction hm with
    | self => exact mem_pointers_iff.2 (.inl ⟨s, key, value, entries, hbig.symm, rfl⟩)
    | part hpart _ ih => exact mem_pointers_iff.2 (.inr ⟨_, hpart, ih⟩)

end Lineage.Node
