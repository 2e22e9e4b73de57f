import Lineage.Proofs.Typed.RoundTrip
import Lineage.Proofs.Typed.Skeleton

/-!
# Where the parts of a bound node come from

A value that is bound to a node is taken apart, and its parts are bound to parts of the node: to the
components of a pair, to the arm that was chosen, to copies of the element type. `Lands` tells which
part of the value goes to which part of the node. All nodes of the tree, be they templates, items,
keys or values of entries, are either without any value or such a part
(`exists_lands_of_part`).
-/

namespace Lineage

lemma exists_mem_zip_of_forall₂ {α β : Type} {R : α → β → Prop} {xs : List α} {ys : List β} {y : β}
    (h : List.Forall₂ R xs ys) (hy : y ∈ ys) : ∃ x, (x, y) ∈ xs.zip ys ∧ R x y := by
  induction h with
  | nil => cases hy
  | cons hxy _ ih =>
    obtain rfl | hy := List.mem_cons.1 hy
    · exact ⟨_, List.mem_cons_self, hxy⟩
    · obtain ⟨x, hx, hR⟩ := ih hy
      exact ⟨x, List.mem_cons_of_mem _ hx, hR⟩

namespace Node

/-- The items of a collection, and the keys and values of a map. -/
def held : Node → List Node
  | collection _ _ _ (some items) => items
  | map _ _ _ (some entries) => entries.flatMap fun e => [e.1, e.2]
  | bigMap _ _ _ _ (some entries) => entries.flatMap fun e => [e.1, e.2]
  | _ => []

/-- **The nodes of a tree**: the node itself, and those of its types, items and entries. -/
inductive Part (m : Node) : Node → Prop
  | self : Part m m
  | part {n part : Node} (hpart : part ∈ n.typeChildren ++ n.held) (h : Part m part) : Part m n

/-- A node to which the value is given hands a part of the value to a part of its own. -/
inductive Hands : Micheline → Node → Micheline → Node → Prop
  | ticket {s inner v} : Hands v (ticket s inner) v inner
  | content {s inner v x} (hv : v.Applies .some [x]) : Hands v (option s inner (some true)) x inner
  | first {s l r v x second rest} (hv : v.Components (x :: second :: rest)) :
      Hands v (pair s l r) x l
  | second {s l r v x second rest} (hv : v.Components (x :: second :: rest)) :
      Hands v (pair s l r) (.behind Constructor.pair.name second rest) r
  | left {s l r v x} (hv : v.Applies .left [x]) : Hands v (or s l r (some .left)) x l
  | right {s l r v x} (hv : v.Applies .right [x]) : Hands v (or s l r (some .right)) x r
  | item {s kind elem items vs x item} (hitem : (x, item) ∈ vs.zip items) :
      Hands (.seq vs) (collection s kind elem (some items)) x item
  | mapKey {s key value entries elts elt entry k x} (hentry : (elt, entry) ∈ elts.zip entries)
      (helt : elt.Applies .elt [k, x]) : Hands (.seq elts) (map s key value (some entries)) k entry.1
  | mapValue {s key value entries elts elt entry k x} (hentry : (elt, entry) ∈ elts.zip entries)
      (helt : elt.Applies .elt [k, x]) : Hands (.seq elts) (map s key value (some entries)) x entry.2
  | bigMapKey {s key value pointer entries elts elt entry k x}
      (hentry : (elt, entry) ∈ elts.zip entries) (helt : elt.Applies .elt [k, x]) :
      Hands (.seq elts) (bigMap s key value pointer (some entries)) k entry.1
  | bigMapValue {s key value pointer entries elts elt entry k x}
      (hentry : (elt, entry) ∈ elts.zip entries) (helt : elt.Applies .elt [k, x]) :
      Hands (.seq elts) (bigMap s key value pointer (some entries)) x entry.2

/-- **Where a part of a value goes**: the part `w` of the value goes to the part `m` of the node. -/
inductive Lands (w : Micheline) (m : Node) : Micheline → Node → Prop
  | self : Lands w m w m
  | step {v n x part} (hhands : Hands v n x part) (h : Lands w m x part) : Lands w m v n

variable {n n' m part : Node} {v : Micheline}

/-! ### Trees without values -/

lemma Unbound.of_part (h : n.Unbound) (hm : Part m n) : m.Unbound := by
  induction hm with
  | self => exact h
  | @part n part hpart _ ih =>
    have hheld : n.held = [] := by
      cases n with
      | collection | map | bigMap => simp_all [Unbound, held]
      | _ => rfl
    rw [hheld, List.append_nil] at hpart
    exact ih (h.of_mem_skeleton (mem_skeleton.2 (.inr ⟨part, hpart, mem_skeleton_self⟩)))

/-! ### Trees with values -/

/-- The part `part` of a node that was bound to `v` has no value, or was given one when it had none. -/
inductive Fresh (v : Micheline) (n part : Node) : Prop
  | unbound (h : part.Unbound)
  | bound {n₀ : Node} {x : Micheline} (hn₀ : n₀.Unbound) (h : n₀.settle x = .ok part)
      (hhands : Hands v n x part)

lemma fresh_of_template {key value : Node} (hkey : key.Unbound) (hvalue : value.Unbound)
    (hpart : part ∈ [key, value]) : Fresh v n part := by
  obtain rfl | rfl := List.mem_pair.1 hpart
  · exact .unbound hkey
  · exact .unbound hvalue

lemma fresh_of_entry {key value : Node} {elts : List Micheline} {entries : List (Node × Node)}
    (hkey : key.Unbound) (hvalue : value.Unbound)
    (hentries : List.Forall₂ (SettlesElt key value) elts entries)
    (hpart : part ∈ entries.flatMap fun e => [e.1, e.2])
    (hk : ∀ {elt entry k x}, (elt, entry) ∈ elts.zip entries → elt.Applies .elt [k, x] →
      Hands v n k entry.1)
    (hx : ∀ {elt entry k x}, (elt, entry) ∈ elts.zip entries → elt.Applies .elt [k, x] →
      Hands v n x entry.2) : Fresh v n part := by
  obtain ⟨entry, hentry, hpart⟩ := List.mem_flatMap.1 hpart
  obtain ⟨elt, hzip, k, x, helt, hksettle, hxsettle⟩ := exists_mem_zip_of_forall₂ hentries hentry
  obtain rfl | rfl := List.mem_pair.1 hpart
  · exact .bound hkey hksettle (hk hzip helt)
  · exact .bound hvalue hxsettle (hx hzip helt)

lemma fresh_of_mem (hn : n.Unbound) (h : n.settle v = .ok n')
    (hpart : part ∈ n'.typeChildren ++ n'.held) : Fresh v n' part := by
  cases n with
  | scalar =>
    obtain ⟨-, rfl⟩ := settle_scalar.1 h
    cases hpart
  | contract s parameter value =>
    obtain ⟨-, rfl⟩ := settle_contract.1 h
    obtain rfl := List.mem_singleton.1 hpart
    exact .unbound hn.1
  | lambda s parameter result code =>
    obtain ⟨-, rfl⟩ := settle_lambda.1 h
    exact fresh_of_template hn.1 hn.2.1 hpart
  | ticket s inner =>
    obtain ⟨inner', hinner, rfl⟩ := settle_ticket.1 h
    obtain rfl := List.mem_singleton.1 hpart
    have hunbound : inner.Unbound := hn
    exact .bound hunbound hinner .ticket
  | option s inner present =>
    obtain ⟨-, rfl⟩ | ⟨a, inner', hv, ha, rfl⟩ := settle_option.1 h <;>
      obtain rfl := List.mem_singleton.1 hpart
    · exact .unbound hn.1
    · exact .bound hn.1 ha (.content hv)
  | pair s l r =>
    obtain ⟨first, second, rest, l', r', hv, hl, hr, rfl⟩ := settle_pair.1 h
    obtain rfl | rfl := List.mem_pair.1 hpart
    · exact .bound hn.1 hl (.first hv)
    · exact .bound hn.2 hr (.second hv)
  | or s l r side =>
    obtain ⟨a, l', hv, ha, rfl⟩ | ⟨a, r', hv, ha, rfl⟩ := settle_or.1 h <;>
      obtain rfl | rfl := List.mem_pair.1 hpart
    · exact .bound hn.1 ha (.left hv)
    · exact .unbound hn.2.1
    · exact .unbound hn.1
    · exact .bound hn.2.1 ha (.right hv)
  | collection s kind elem items =>
    obtain ⟨vs, items', rfl, hitems, rfl⟩ := settle_collection.1 h
    obtain rfl | hpart := List.mem_cons.1 hpart
    · exact .unbound hn.1
    · obtain ⟨x, hzip, hx⟩ := exists_mem_zip_of_forall₂ hitems hpart
      exact .bound hn.1 hx (.item hzip)
  | map s key value entries =>
    obtain ⟨elts, entries', rfl, hentries, rfl⟩ := settle_map.1 h
    obtain hpart | hpart := List.mem_append.1 hpart
    · exact fresh_of_template hn.1 hn.2.1 hpart
    · exact fresh_of_entry hn.1 hn.2.1 hentries hpart .mapKey .mapValue
  | bigMap s key value pointer entries =>
    obtain ⟨hkey, hvalue, rfl, rfl⟩ := hn
    obtain ⟨literal, p, rfl, -, rfl⟩ | ⟨elts, entries', rfl, hentries, rfl⟩ := settle_bigMap.1 h <;>
      obtain hpart | hpart := List.mem_append.1 hpart
    · exact fresh_of_template hkey hvalue hpart
    · cases hpart
    · exact fresh_of_template hkey hvalue hpart
    · exact fresh_of_entry hkey hvalue hentries hpart .bigMapKey .bigMapValue

/-- **Every node of the tree** is without a value, or a part of the value was bound to it. -/
theorem exists_lands_of_part (hn : n.Unbound) (h : n.settle v = .ok n') (hm : Part m n') :
    m.Unbound ∨ ∃ (n₀ : Node) (w : Micheline), n₀.Unbound ∧ n₀.settle w = .ok m ∧ Lands w m v n' := by
  induction hm generalizing n v with
  | self => exact .inr ⟨n, v, hn, h, .self⟩
  | part hpart hm ih =>
    cases fresh_of_mem hn h hpart with
    | unbound hunbound => exact .inl (hunbound.of_part hm)
    | bound hn₀ hx hhands =>
      obtain hunbound | ⟨n₁, w, hn₁, hw, hlands⟩ := ih hn₀ hx
      · exact .inl hunbound
      · exact .inr ⟨n₁, w, hn₁, hw, .step hhands hlands⟩

end Node

end Lineage
