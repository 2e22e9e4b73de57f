import Lineage.Proofs.BigMap.Pointers
import Lineage.Proofs.Typed.Places
import Lineage.Proofs.Typed.Rereading

/-!
# What enrichment leaves alone

Entries that are laid over the big maps of a value are no part of the value: the types, the pointers
and the flags, sides, items and keys are what they were, and so is the optimized encoding, in which
a big map is its pointer (`overlay_keeps`). This holds of every part of a value, also where the
changes stop half way. In the plain encoding only those big maps differ that some change is about,
but for bare pointers, which are written as an empty list once the changes have come to them.
-/

namespace Lineage

namespace Node

variable {n n' key value : Node} {s : Site} {pointer : Option Int} {changes : List EntryChange}
  {items items' : List Node} {entries entries' : List (Node × Node)}

/-! ### Congruent nodes -/

section Congruent

/-- The nodes are written alike in the optimized encoding. -/
abbrev SameWire (n n' : Node) : Prop := n'.toWire true = n.toWire true

lemma itemsToWire_congr (h : List.Forall₂ SameWire items items') :
    itemsToWire true items' = itemsToWire true items := by
  induction h with
  | nil => rfl
  | cons hitem _ ih => rw [itemsToWire, itemsToWire, hitem, ih]

lemma entriesToWire_congr
    (h : List.Forall₂ (fun e e' => e'.1 = e.1 ∧ SameWire e.2 e'.2) entries entries') :
    entriesToWire true entries' = entriesToWire true entries := by
  induction h with
  | nil => rfl
  | cons hentry _ ih => rw [entriesToWire, entriesToWire, hentry.1, hentry.2, ih]

lemma Congruent.toWire (h : Congruent SameWire n n') : n'.toWire true = n.toWire true := by
  cases h with
  | same => rfl
  | ticket h => exact h
  | option h => rw [Node.toWire, Node.toWire, h]
  | pair hl hr => rw [Node.toWire, Node.toWire, hl, hr]
  | left h => rw [Node.toWire, Node.toWire, h]
  | right h => rw [Node.toWire, Node.toWire, h]
  | collection h => rw [Node.toWire, Node.toWire, itemsToWire_congr h]
  | map h => rw [Node.toWire, Node.toWire, entriesToWire_congr h]
  | @bigMap _ _ _ _ before after =>
    -- with entries or without, a big map with a pointer is written as the pointer
    cases before <;> cases after <;> rfl

lemma flatMap_pointers_congr
    (h : List.Forall₂ (fun n n' => n'.pointers = n.pointers) items items') :
    items'.flatMap pointers = items.flatMap pointers := by
  induction h with
  | nil => rfl
  | cons hitem _ ih => rw [List.flatMap_cons, List.flatMap_cons, hitem, ih]

lemma Congruent.pointers (h : Congruent (fun n n' => n'.pointers = n.pointers) n n') :
    n'.pointers = n.pointers := by
  have hparts := flatMap_pointers_congr h.activeParts
  cases h with
  | same => rfl
  | ticket h | option h | left h | right h => exact h
  | pair hl hr => rw [Node.pointers, Node.pointers, hl, hr]
  | collection h => rwa [Node.pointers, Node.pointers, itemPointers_eq, itemPointers_eq]
  | map h => rwa [Node.pointers, Node.pointers, valuePointers_eq, valuePointers_eq]
  | bigMap => rfl

lemma Congruent.erase (h : Congruent (fun n n' => n'.erase = n.erase) n n') :
    n'.erase = n.erase := by
  cases h with
  | same => rfl
  | ticket h => exact congrArg (Node.ticket _) h
  | option h => exact congrArg (Node.option _ · none) h
  | pair hl hr => exact congrArg₂ (Node.pair _) hl hr
  | left h => exact congrArg (Node.or _ · _ none) h
  | right h => exact congrArg (Node.or _ _ · none) h
  | collection | map | bigMap => rfl

end Congruent

/-! ### What is kept -/

/-- A big map that no change is about is as it was, or it was a bare pointer and has an empty list
of entries. -/
lemma Laid.bigMap {entries : Option (List (Node × Node))}
    (h : Laid changes (bigMap s key value pointer entries) n')
    (hc : ∀ c ∈ changes, pointer ≠ some c.pointer) :
    n' = bigMap s key value pointer entries ∨
      (pointer.isSome = true ∧ entries = none ∧ n' = bigMap s key value pointer (some [])) := by
  obtain rfl | rfl := h
  · cases pointer with
    | none => cases entries <;> exact .inl rfl
    | some p =>
      have hfilter : changes.filter (·.pointer == p) = [] := by
        rw [List.filter_eq_nil_iff]
        intro c hmem heq
        exact hc c hmem (congrArg some (eq_of_beq heq).symm)
      have hoverlay : overlay changes (Node.bigMap s key value (some p) entries) =
          .done (Node.bigMap s key value (some p) (some (entries.getD []))) := by
        rw [overlay, hfilter]
        rfl
      rw [hoverlay]
      cases entries with
      | none => exact .inr ⟨rfl, rfl, rfl⟩
      | some entries => exact .inl rfl
  · exact .inl rfl

/-- **What is kept** of a part of a value when changes are laid over the value: its flags, its side,
the number of its items and its keys, its type and pointers, and how it is written in the optimized
encoding; of a big map that no change is about also how it is written in the plain one, unless it
was a bare pointer. -/
structure Kept (changes : List EntryChange) (n n' : Node) : Prop where
  congruent : Congruent (Laid changes) n n'
  type : n'.toType = n.toType
  pointers : n'.pointers = n.pointers
  optimized : n'.toWire true = n.toWire true
  plain : ∀ s key value pointer entries, n = bigMap s key value pointer entries →
    (∀ c ∈ changes, pointer ≠ some c.pointer) →
      n'.toWire false = n.toWire false ∨
        (pointer.isSome = true ∧ entries = none ∧ n'.toWire false = .ok (.seq []))

theorem Laid.kept (h : Laid changes n n') : Kept changes n n' where
  congruent := h.congruent fun _ _ _ => id
  type := by
    have herase : n'.erase = n.erase :=
      h.induct (R := fun n n' => n'.erase = n.erase) fun _ _ => Congruent.erase
    rw [← toType_erase, herase, toType_erase]
  pointers := h.induct fun _ _ => Congruent.pointers
  optimized := h.induct fun _ _ => Congruent.toWire
  plain := by
    rintro s key value pointer entries rfl hc
    rcases h.bigMap hc with rfl | ⟨hpointer, rfl, rfl⟩
    · exact .inl rfl
    · refine .inr ⟨hpointer, rfl, ?_⟩
      cases pointer <;> rfl

end Node

namespace Tree

variable {t u : Tree} {type : Micheline} {values : List Micheline}

lemma mapM_toWire_congr {roots roots' : List Node} (h : List.Forall₂ Node.SameWire roots roots') :
    roots'.mapM (Node.toWire true) = roots.mapM (Node.toWire true) := by
  induction h with
  | nil => rfl
  | cons hroot _ ih => rw [List.mapM_cons, List.mapM_cons, hroot, ih]

/-- Changes do not show in the optimized encoding, whether they are all made or not. -/
theorem toWire_overlay (t : Tree) (changes : List EntryChange) :
    (t.overlay changes).result.toWire true = t.toWire true := by
  have hroots : List.Forall₂ Node.SameWire t.roots (t.overlay changes).result.roots :=
    (laid_roots t changes).imp fun _ _ h => h.kept.optimized
  have hall := mapM_toWire_congr hroots
  unfold toWire
  generalize (t.overlay changes).result.roots = roots' at hroots hall ⊢
  generalize t.roots = roots at hroots hall ⊢
  cases hroots with
  | nil => rfl
  | cons hroot hrest =>
    cases hrest with
    | nil => exact hroot
    | cons => exact congrArg (· >>= fun ws => pure (Micheline.seq ws)) hall

lemma bind_eq_settledBy :
    (∃ change, t.bind values = t.settledBy change) ∨ ∃ e, t.bind values = .stopped t e := by
  unfold bind
  split
  · split
    · exact .inl ⟨_, rfl⟩
    · split
      · exact .inl ⟨_, rfl⟩
      · exact .inr ⟨_, rfl⟩
  · split
    · exact .inl ⟨_, rfl⟩
    · exact .inr ⟨_, rfl⟩

lemma settled_of_settle (h : t.settle values = .ok u) : u.settled = true := by
  obtain ⟨hdone, rfl⟩ := Attempt.toExcept_eq_ok.1 h
  obtain ⟨change, hchange⟩ | ⟨e, hstop⟩ : (∃ change, t.bind values = t.settledBy change) ∨
      ∃ e, t.bind values = .stopped t e := bind_eq_settledBy
  · rw [hchange] at hdone ⊢
    exact Bool.or_eq_true_iff.2 (.inr (Option.isNone_iff_eq_none.2 hdone))
  · rw [hstop] at hdone
    cases hdone

/-- **Enrichment is no part of a value.** Let changes be laid over the big maps of a value that was
bound to a tree of its types, in full or up to one that does not fit. The value is written as before
in the optimized encoding, it has as many roots, and at each place at which there was a part that
counts there is one of which all but entries is kept. -/
theorem overlay_keeps (htype : ofType type = .ok t) (hsettle : t.settle values = .ok u)
    (changes : List EntryChange) :
    (∃ w, u.toWire true = .ok w ∧ (u.overlay changes).result.toWire true = .ok w) ∧
      (u.overlay changes).result.roots.length = u.roots.length ∧
      ∀ place n, u.partAt? place = some n →
        ∃ n', (u.overlay changes).result.partAt? place = some n' ∧ n.Kept changes n' := by
  refine ⟨?_, (laid_roots u changes).length_eq.symm, fun place n hn => ?_⟩
  · have hreachable : u.Reachable := by
      obtain ⟨-, rfl⟩ := Attempt.toExcept_eq_ok.1 hsettle
      exact (Reachable.ofType htype).bind values
    have hbound := hreachable.sound.bound (settled_of_settle hsettle)
    obtain ⟨w, hw⟩ := exists_toWire hbound true
    exact ⟨w, hw, (toWire_overlay u changes).trans hw⟩
  · obtain ⟨n', hn', hlaid⟩ := exists_laid hn
    exact ⟨n', hn', hlaid.kept⟩

/-- Changes to the depot: one is about two big maps of it, and the key of the other does not fit. -/
def depotChanges : List EntryChange :=
  [⟨5, .int "1", some (.int "2")⟩, ⟨9, .string "x", some (.int "2")⟩]

theorem overlay_keeps_depot :
    ∃ t u w, ofType depot = .ok t ∧ t.settle [depotValue] = .ok u ∧
      (u.overlay depotChanges).failure.isSome = true ∧
      (u.overlay depotChanges).result.toWire false ≠ u.toWire false ∧
      u.toWire true = .ok w ∧ (u.overlay depotChanges).result.toWire true = .ok w ∧
      ∀ place n, u.partAt? place = some n → ∃ n',
        (u.overlay depotChanges).result.partAt? place = some n' ∧ n.Kept depotChanges n' := by
  have hrun : (do
      let t ← ofType depot
      let u ← t.settle [depotValue]
      let laid := u.overlay depotChanges
      return (laid.failure.isSome, decide (laid.result.toWire false = u.toWire false)) :
        Except NodeError (Bool × Bool)).toOption = some (true, false) := by
    decide +kernel
  obtain ⟨t, htype, hrun⟩ := except_bind_ok.1 (except_ok_of_toOption hrun)
  obtain ⟨u, hsettle, hrun⟩ := except_bind_ok.1 hrun
  obtain ⟨hfailure, hwire⟩ := Prod.mk.inj (Except.ok.inj hrun)
  obtain ⟨⟨w, hw, hw'⟩, -, hkept⟩ := overlay_keeps htype hsettle depotChanges
  exact ⟨t, u, w, htype, hsettle, hfailure, of_decide_eq_false hwire, hw, hw', hkept⟩

end Tree

end Lineage
