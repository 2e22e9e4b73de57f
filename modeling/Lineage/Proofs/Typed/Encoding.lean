import Lineage.Proofs.Typed.RoundTrip
import Lineage.Proofs.Typed.Skeleton

/-!
# What is written of a node and of its parts

Nothing is written of a node without values. Of a node with a value bound to it more is written than
of any part of it, but for the contents of a ticket: a ticket is written as what it holds
(`mem_shells_or_lt`).
-/

namespace Lineage.Node

variable {n n' m l r inner : Node} {s : Site} {v w x : Micheline} {optimized : Bool}

/-! ### Parts in the writing of the whole -/

lemma toWire_some_ok :
    (option s inner (some true)).toWire optimized = .ok w ↔
      ∃ x, inner.toWire optimized = .ok x ∧ .data .some [x] = w := by
  simp [toWire, required, except_bind_ok, pure, Except.pure]

lemma toWire_pair_ok :
    (pair s l r).toWire optimized = .ok w ↔
      ∃ x, l.toWire optimized = .ok x ∧
        ∃ y, r.toWire optimized = .ok y ∧ .data .pair [x, y] = w := by
  simp [toWire, except_bind_ok, pure, Except.pure]

lemma toWire_left_ok :
    (or s l r (some .left)).toWire optimized = .ok w ↔
      ∃ x, l.toWire optimized = .ok x ∧ .data .left [x] = w := by
  simp [toWire, except_bind_ok, pure, Except.pure]

lemma toWire_right_ok :
    (or s l r (some .right)).toWire optimized = .ok w ↔
      ∃ x, r.toWire optimized = .ok x ∧ .data .right [x] = w := by
  simp [toWire, except_bind_ok, pure, Except.pure]

lemma Unbound.toWire_ne (h : n.Unbound) : n.toWire optimized ≠ .ok w := by
  induction n using typeInduction generalizing w with
  | scalar =>
    obtain rfl := h
    simp [toWire, required]
  | contract =>
    obtain ⟨-, rfl⟩ := h
    simp [toWire, required]
  | ticket s inner ih => exact ih h
  | option s inner present =>
    obtain ⟨-, rfl⟩ := h
    simp [toWire, required, Bind.bind, Except.bind]
  | pair s l r ihl ihr =>
    intro hw
    obtain ⟨x, hx, -⟩ := toWire_pair_ok.1 hw
    exact ihl h.1 hx
  | or =>
    obtain ⟨-, -, rfl⟩ := h
    simp [toWire]
  | collection =>
    obtain ⟨-, rfl⟩ := h
    simp [toWire]
  | map =>
    obtain ⟨-, -, rfl⟩ := h
    simp [toWire]
  | bigMap =>
    obtain ⟨-, -, rfl, rfl⟩ := h
    simp [toWire]
  | lambda =>
    obtain ⟨-, -, rfl⟩ := h
    simp [toWire, required]

/-! ### Tickets -/

/-- The node and, if it is a ticket, what it holds. -/
def shells : Node → List Node
  | n@(ticket _ inner) => n :: inner.shells
  | n => [n]

lemma mem_shells_self : n ∈ n.shells := by cases n <;> simp [shells]

lemma toWire_of_mem_shells (h : m ∈ n.shells) : m.toWire optimized = n.toWire optimized := by
  induction n using typeInduction with
  | ticket s inner ih =>
    obtain rfl | h := List.mem_cons.1 h
    · rfl
    · exact ih h
  | _ => rw [List.mem_singleton.1 h]

lemma shells_append (n : Node) : ∃ rest, n.skeleton = n.shells ++ rest := by
  induction n using typeInduction with
  | ticket s inner ih =>
    obtain ⟨rest, hrest⟩ := ih
    exact ⟨rest, by rw [skeleton, shells, hrest]; rfl⟩
  | _ => exact ⟨_, rfl⟩

/-! ### Parts -/

/-- The types that a bound node is made of have no values, or they have a part of the value. -/
lemma child_of_settle (hn : n.Unbound) (h : n.settle v = .ok n') (hw : n'.toWire optimized = .ok w)
    (hm : m ∈ n'.typeChildren) :
    m.Unbound ∨ ∃ (child : Node) (u x : Micheline), child.Unbound ∧ child.settle u = .ok m ∧
      m.toWire optimized = .ok x ∧
        (sizeOf x < sizeOf w ∨ (∃ s, n' = ticket s m) ∧ x = w) := by
  cases n with
  | scalar =>
    obtain ⟨-, rfl⟩ := settle_scalar.1 h
    cases hm
  | contract =>
    obtain ⟨-, rfl⟩ := settle_contract.1 h
    obtain rfl := List.mem_singleton.1 hm
    exact .inl hn.1
  | lambda =>
    obtain ⟨-, rfl⟩ := settle_lambda.1 h
    obtain rfl | rfl := List.mem_pair.1 hm
    · exact .inl hn.1
    · exact .inl hn.2.1
  | collection =>
    obtain ⟨vs, items', -, -, rfl⟩ := settle_collection.1 h
    obtain rfl := List.mem_singleton.1 hm
    exact .inl hn.1
  | map =>
    obtain ⟨elts, entries', -, -, rfl⟩ := settle_map.1 h
    obtain rfl | rfl := List.mem_pair.1 hm
    · exact .inl hn.1
    · exact .inl hn.2.1
  | bigMap s key value pointer entries =>
    have hchildren : n'.typeChildren = [key, value] := by
      obtain ⟨literal, p, -, -, rfl⟩ | ⟨elts, entries', -, -, rfl⟩ := settle_bigMap.1 h <;> rfl
    rw [hchildren] at hm
    obtain rfl | rfl := List.mem_pair.1 hm
    · exact .inl hn.1
    · exact .inl hn.2.1
  | ticket s inner =>
    obtain ⟨inner', hinner, rfl⟩ := settle_ticket.1 h
    obtain rfl := List.mem_singleton.1 hm
    exact .inr ⟨inner, v, w, hn, hinner, hw, .inr ⟨⟨s, rfl⟩, rfl⟩⟩
  | option s inner present =>
    obtain ⟨-, rfl⟩ | ⟨a, inner', -, ha, rfl⟩ := settle_option.1 h <;>
      obtain rfl := List.mem_singleton.1 hm
    · exact .inl hn.1
    · obtain ⟨x, hx, rfl⟩ := toWire_some_ok.1 hw
      exact .inr ⟨inner, a, x, hn.1, ha, hx, .inl (sizeOf_arg_lt (by simp))⟩
  | pair s l r =>
    obtain ⟨first, second, rest, l', r', -, hl, hr, rfl⟩ := settle_pair.1 h
    obtain ⟨x, hx, y, hy, rfl⟩ := toWire_pair_ok.1 hw
    obtain rfl | rfl := List.mem_pair.1 hm
    · exact .inr ⟨l, _, x, hn.1, hl, hx, .inl (sizeOf_arg_lt (by simp))⟩
    · exact .inr ⟨r, _, y, hn.2, hr, hy, .inl (sizeOf_arg_lt (by simp))⟩
  | or s l r side =>
    obtain ⟨a, l', -, ha, rfl⟩ | ⟨a, r', -, ha, rfl⟩ := settle_or.1 h <;>
      obtain rfl | rfl := List.mem_pair.1 hm
    · obtain ⟨x, hx, rfl⟩ := toWire_left_ok.1 hw
      exact .inr ⟨l, a, x, hn.1, ha, hx, .inl (sizeOf_arg_lt (by simp))⟩
    · exact .inl hn.2.1
    · exact .inl hn.1
    · obtain ⟨x, hx, rfl⟩ := toWire_right_ok.1 hw
      exact .inr ⟨r, a, x, hn.2.1, ha, hx, .inl (sizeOf_arg_lt (by simp))⟩

/-- **Less is written of parts**: of what stands in the skeleton of a node to which a value was
bound, only the shells are written like the node. -/
theorem mem_shells_or_lt (hn : n.Unbound) (h : n.settle v = .ok n')
    (hw : n'.toWire optimized = .ok w) (hm : m ∈ n'.skeleton) (hx : m.toWire optimized = .ok x) :
    m ∈ n'.shells ∨ sizeOf x < sizeOf w := by
  induction n' using sizeInduction generalizing n v w with
  | step n' ih =>
    obtain rfl | ⟨child', hchild', hm⟩ := mem_skeleton.1 hm
    · exact .inl mem_shells_self
    · obtain hchild | ⟨child, u, y, hchild, hu, hy, hsize⟩ := child_of_settle hn h hw hchild'
      · exact absurd hx (hchild.of_mem_skeleton hm).toWire_ne
      · have hpart := ih child' (sizeOf_lt_of_mem_typeChildren hchild') hchild hu hy hm
        obtain hlt | ⟨⟨s, rfl⟩, rfl⟩ := hsize
        · obtain hshell | hpart := hpart
          · rw [toWire_of_mem_shells hshell, hy] at hx
            cases hx
            exact .inr hlt
          · exact .inr (Nat.lt_trans hpart hlt)
        · exact hpart.imp_left (List.mem_cons_of_mem _)

end Lineage.Node
