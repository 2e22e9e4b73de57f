import Lineage.Proofs.Typed.Active

/-!
# Contents in the place of pointers

`Node.inlined` writes a value with given contents in the place of the pointers of its big maps.
This is what changes come to that are laid over a value before it is written, if that is what they
come to at each big map that counts (`inlines_of_active`).
-/

namespace Lineage.Node

mutual
/-- The encoding of a value with contents in the place of the pointers of big maps. A big map that
has entries keeps them. -/
def inlined (contents : Int → List Micheline) : Node → Except NodeError Micheline
  | bigMap _ _ _ (some p) none => .ok (.seq (contents p))
  | ticket _ inner => inner.inlined contents
  | option _ inner (some true) => return .data .some [← inner.inlined contents]
  | pair _ l r => return .data .pair [← l.inlined contents, ← r.inlined contents]
  | or _ l _ (some .left) => return .data .left [← l.inlined contents]
  | or _ _ r (some .right) => return .data .right [← r.inlined contents]
  | collection _ _ _ (some items) => return .seq (← itemsInlined contents items)
  | map _ _ _ (some entries) => return .seq (← valuesInlined contents entries)
  | n => n.toWire false

def itemsInlined (contents : Int → List Micheline) : List Node → Except NodeError (List Micheline)
  | [] => return []
  | item :: items => return (← item.inlined contents) :: (← itemsInlined contents items)

def valuesInlined (contents : Int → List Micheline) :
    List (Node × Node) → Except NodeError (List Micheline)
  | [] => return []
  | (key, value) :: entries =>
    return .data .elt [← key.toWire false, ← value.inlined contents] ::
      (← valuesInlined contents entries)
end

/-- All changes are made, and the value then is written with the contents in it. -/
def Inlines (contents : Int → List Micheline) (changes : List EntryChange) (n : Node) : Prop :=
  ∃ n', n.overlay changes = .done n' ∧ n'.toWire false = n.inlined contents

variable {n key value : Node} {s : Site} {p : Int} {contents : Int → List Micheline} {changes : List EntryChange}
  {items : List Node} {entries : List (Node × Node)}

/-! ### Big maps -/

lemma inlines_pointer
    (h : applyChanges key value [] (changes.filter (·.pointer == p)) = .done entries)
    (hwire : entriesToWire false entries = .ok (contents p)) :
    Inlines contents changes (bigMap s key value (some p) none) := by
  refine ⟨bigMap s key value (some p) (some entries), ?_, ?_⟩
  · rw [overlay, Option.getD_none, h]
    rfl
  · show (entriesToWire false entries).map Micheline.seq = _
    rw [hwire]
    rfl

/-- A big map that no change is about keeps its entries; a bare pointer turns into an empty list. -/
lemma inlines_of_filter_eq_nil {entries : Option (List (Node × Node))}
    (h : changes.filter (·.pointer == p) = []) (hcontents : contents p = []) :
    Inlines contents changes (bigMap s key value (some p) entries) := by
  refine ⟨bigMap s key value (some p) (some (entries.getD [])), ?_, ?_⟩
  · rw [overlay, h]
    rfl
  · cases entries with
    | none =>
      rw [inlined, hcontents]
      rfl
    | some entries => rfl

/-! ### All of a value -/

lemma inlines_items (h : ∀ item ∈ items, Inlines contents changes item) :
    ∃ items', overlayItems changes items = .done items' ∧
      itemsToWire false items' = itemsInlined contents items := by
  induction items with
  | nil => exact ⟨[], rfl, rfl⟩
  | cons item items ih =>
    obtain ⟨⟨item', hitem, hwire⟩, h⟩ := List.forall_mem_cons.1 h
    obtain ⟨items', hitems, hwires⟩ := ih h
    refine ⟨item' :: items', ?_, ?_⟩
    · rw [overlayItems, hitem]
      show (overlayItems changes items).map (item' :: ·) = _
      rw [hitems]
      rfl
    · rw [itemsToWire, itemsInlined, hwire, hwires]

lemma inlines_values (h : ∀ entry ∈ entries, Inlines contents changes entry.2) :
    ∃ entries', overlayValues changes entries = .done entries' ∧
      entriesToWire false entries' = valuesInlined contents entries := by
  induction entries with
  | nil => exact ⟨[], rfl, rfl⟩
  | cons entry entries ih =>
    obtain ⟨⟨value', hvalue, hwire⟩, h⟩ := List.forall_mem_cons.1 h
    obtain ⟨entries', hentries, hwires⟩ := ih h
    refine ⟨(entry.1, value') :: entries', ?_, ?_⟩
    · rw [overlayValues, hvalue]
      show (overlayValues changes entries).map ((entry.1, value') :: ·) = _
      rw [hentries]
      rfl
    · rw [entriesToWire, valuesInlined, hwire, hwires]

/-- The parts that count decide, but for a big map with a pointer. -/
lemma inlines_of_parts (hbig : ∀ s key value p entries, n ≠ bigMap s key value (some p) entries)
    (h : ∀ part ∈ n.activeParts, Inlines contents changes part) : Inlines contents changes n := by
  cases n with
  | scalar | contract | lambda => exact ⟨_, rfl, rfl⟩
  | ticket s inner =>
    obtain ⟨inner', hinner, hwire⟩ := h inner List.mem_cons_self
    exact ⟨ticket s inner', by rw [overlay, hinner]; rfl, by rw [toWire, inlined, hwire]⟩
  | option s inner present =>
    obtain _ | _ | _ := present
    · exact ⟨_, rfl, rfl⟩
    · exact ⟨_, rfl, rfl⟩
    · obtain ⟨inner', hinner, hwire⟩ := h inner List.mem_cons_self
      exact ⟨option s inner' (some true), by rw [overlay, hinner]; rfl, by
        rw [toWire, inlined, hwire]; rfl⟩
  | pair s l r =>
    obtain ⟨l', hl, hwirel⟩ := h l (by simp [activeParts])
    obtain ⟨r', hr, hwirer⟩ := h r (by simp [activeParts])
    refine ⟨pair s l' r', ?_, by rw [toWire, inlined, hwirel, hwirer]⟩
    rw [overlay, hl]
    show (r.overlay changes).map (pair s l') = _
    rw [hr]
    rfl
  | or s l r side =>
    obtain _ | _ | _ := side
    · exact ⟨_, rfl, rfl⟩
    · obtain ⟨l', hl, hwire⟩ := h l List.mem_cons_self
      exact ⟨or s l' r (some .left), by rw [overlay, hl]; rfl, by rw [toWire, inlined, hwire]⟩
    · obtain ⟨r', hr, hwire⟩ := h r List.mem_cons_self
      exact ⟨or s l r' (some .right), by rw [overlay, hr]; rfl, by rw [toWire, inlined, hwire]⟩
  | collection s kind elem items =>
    cases items with
    | none => exact ⟨_, rfl, rfl⟩
    | some items =>
      have hparts : ∀ item ∈ items, Inlines contents changes item := h
      obtain ⟨items', hitems, hwires⟩ := inlines_items hparts
      exact ⟨collection s kind elem (some items'), by rw [overlay, hitems]; rfl, by
        rw [toWire, inlined, hwires]⟩
  | map s key value entries =>
    cases entries with
    | none => exact ⟨_, rfl, rfl⟩
    | some entries =>
      obtain ⟨entries', hentries, hwires⟩ := inlines_values (List.forall_mem_map.1 h)
      exact ⟨map s key value (some entries'), by rw [overlay, hentries]; rfl, by
        rw [toWire, inlined, hwires]⟩
  | bigMap s key value pointer entries =>
    cases pointer with
    | some p => exact absurd rfl (hbig s key value p entries)
    | none => cases entries <;> exact ⟨_, rfl, rfl⟩

/-- **Changes come to contents** in the whole value if they do so at each big map that counts. -/
theorem inlines_of_active (h : ∀ s key value p entries,
      Active (bigMap s key value (some p) entries) n →
        Inlines contents changes (bigMap s key value (some p) entries)) :
    Inlines contents changes n := by
  induction n using sizeInduction with
  | step n ih =>
    by_cases hbig : ∃ s key value p entries, n = bigMap s key value (some p) entries
    · obtain ⟨s, key, value, p, entries, rfl⟩ := hbig
      exact h s key value p entries .self
    · refine inlines_of_parts (by simpa using hbig) fun part hpart => ?_
      exact ih part (sizeOf_lt_of_mem_activeParts hpart) fun s key value p entries hactive =>
        h s key value p entries (.part hpart hactive)

end Lineage.Node
