import Lineage.Proofs.Typed.RoundTrip
import Lineage.Proofs.Typed.View
import Lineage.Typed.Difference

/-!
# Marks in views

Marks are what a difference adds to a view: a view that only shows a value has none
(`hasChanges_render`). What has to be shown for a node to be shown is told by `Shown`.
-/

namespace Lineage

namespace View

variable {v : View} {vs vs' : List View} {c : Change} {name : String}

lemma hasChanges_eq_false_iff :
    v.hasChanges = false ↔ v.change = none ∧ anyChanges v.children = false := by
  cases v
  simp [hasChanges]

lemma anyChanges_eq_false_iff : anyChanges vs = false ↔ ∀ v ∈ vs, v.hasChanges = false := by
  induction vs with
  | nil => simp [anyChanges]
  | cons v vs ih => simp [anyChanges, ih]

@[simp] lemma anyChanges_append :
    anyChanges (vs ++ vs') = (anyChanges vs || anyChanges vs') := by
  induction vs with
  | nil => simp [anyChanges]
  | cons v vs ih => simp [anyChanges, ih, Bool.or_assoc]

lemma anyChanges_flatten {vss : List (List View)} :
    anyChanges vss.flatten = false ↔ ∀ vs ∈ vss, anyChanges vs = false := by
  induction vss with
  | nil => simp [anyChanges]
  | cons vs vss ih => simp [ih]

@[simp] lemma hasChanges_tag : (v.tag c).hasChanges = true := by
  cases v
  simp [tag, hasChanges]

@[simp] lemma hasChanges_named : (v.named name).hasChanges = v.hasChanges := by
  cases v
  simp [named, hasChanges]

@[simp] lemma hasChanges_unnamed : v.unnamed.hasChanges = v.hasChanges := by
  cases v
  simp [unnamed, hasChanges]

end View

namespace Node

open View (hasChanges_eq_false_iff anyChanges_eq_false_iff hasChanges_named hasChanges_unnamed)

variable {n key value elem inner l r : Node} {s : Site} {view : View} {views : List View}
  {items : List Node} {entries : List (Node × Node)}

/-! ### Views of lists -/

lemma renderItems_ok :
    renderItems items = .ok views ↔
      List.Forall₂ (fun item view => ∃ v, item.render = .ok v ∧ view = v.unnamed) items views := by
  induction items generalizing views with
  | nil => cases views <;> simp [renderItems, pure, Except.pure]
  | cons item items ih =>
    simp only [renderItems, except_bind_ok, pure, Except.pure, Except.ok.injEq, ih]
    constructor
    · rintro ⟨v, hv, vs, hvs, rfl⟩
      exact .cons ⟨v, hv, rfl⟩ hvs
    · rintro (_ | ⟨⟨v, hv, rfl⟩, hvs⟩)
      exact ⟨v, hv, _, hvs, rfl⟩

lemma renderEntries_cons :
    renderEntries ((key, value) :: entries) = (do
      let view ← value.render
      let name ← key.label
      return view.named name :: (← renderEntries entries)) := by
  simp [renderEntries, label]

lemma renderEntries_ok :
    renderEntries entries = .ok views ↔
      List.Forall₂ (fun entry view => ∃ v name, entry.2.render = .ok v ∧
        entry.1.label = .ok name ∧ view = v.named name) entries views := by
  induction entries generalizing views with
  | nil => cases views <;> simp [renderEntries, pure, Except.pure]
  | cons entry entries ih =>
    obtain ⟨key, value⟩ := entry
    simp only [renderEntries_cons, except_bind_ok, pure, Except.pure, Except.ok.injEq, ih]
    constructor
    · rintro ⟨v, hv, name, hname, vs, hvs, rfl⟩
      exact .cons ⟨v, name, hv, hname, rfl⟩ hvs
    · rintro (_ | ⟨⟨v, name, hv, hname, rfl⟩, hvs⟩)
      exact ⟨v, hv, name, hname, _, hvs, rfl⟩

lemma render_bigMap {pointer : Option Int} :
    (bigMap s key value pointer (some entries)).render = (do
      let views ← renderEntries entries
      return { (bigMap s key value pointer (some entries)).mapShell pointer with
        children := views }) := by
  cases pointer <;> rw [render] <;> rfl

/-! ### Views of values -/

lemma hasChanges_of_renderItems (h : renderItems items = .ok views)
    (hitems : ∀ item ∈ items, ∀ v, item.render = .ok v → v.hasChanges = false) :
    View.anyChanges views = false := by
  rw [anyChanges_eq_false_iff]
  intro view hview
  obtain ⟨item, hitem, v, hv, rfl⟩ := exists_mem_of_forall₂ (renderItems_ok.1 h) hview
  rw [hasChanges_unnamed]
  exact hitems item hitem v hv

lemma hasChanges_of_renderEntries (h : renderEntries entries = .ok views)
    (hentries : ∀ entry ∈ entries, ∀ v, entry.2.render = .ok v → v.hasChanges = false) :
    View.anyChanges views = false := by
  rw [anyChanges_eq_false_iff]
  intro view hview
  obtain ⟨entry, hentry, v, name, hv, -, rfl⟩ := exists_mem_of_forall₂ (renderEntries_ok.1 h) hview
  rw [hasChanges_named]
  exact hentries entry hentry v hv

/-- **A value is shown without marks.** -/
theorem hasChanges_render (h : n.render = .ok view) : view.hasChanges = false := by
  induction n using sizeInduction generalizing view with
  | step n ih =>
    cases n with
    | scalar s type typeArgs value =>
      simp only [render, except_bind_ok, pure, Except.pure, Except.ok.injEq] at h
      obtain ⟨x, hx, shown, hshown, rfl⟩ := h
      rfl
    | contract s parameter value =>
      simp only [render, except_bind_ok, pure, Except.pure, Except.ok.injEq] at h
      obtain ⟨x, hx, address, haddress, rfl⟩ := h
      rfl
    | lambda s parameter result code =>
      simp only [render, except_bind_ok, pure, Except.pure, Except.ok.injEq] at h
      obtain ⟨c, hc, rfl⟩ := h
      rfl
    | ticket s inner =>
      simp only [render, except_bind_ok, pure, Except.pure, Except.ok.injEq] at h
      obtain ⟨v, hv, rfl⟩ := h
      have hinner := ih inner (sizeOf_lt_of_mem_typeChildren List.mem_cons_self) hv
      exact hasChanges_eq_false_iff.2 ⟨rfl, (hasChanges_eq_false_iff.1 hinner).2⟩
    | option s inner present =>
      rw [render, except_bind_ok] at h
      obtain ⟨p, hp, h⟩ := h
      split at h
      · simp only [except_bind_ok, pure, Except.pure, Except.ok.injEq] at h
        obtain ⟨v, hv, rfl⟩ := h
        rw [hasChanges_named]
        exact ih inner (sizeOf_lt_of_mem_typeChildren List.mem_cons_self) hv
      · cases h
        rfl
    | pair s l r =>
      rw [render_of_isPair rfl] at h
      simp only [except_bind_ok, pure, Except.pure, Except.ok.injEq] at h
      obtain ⟨views, hviews, rfl⟩ := h
      refine hasChanges_eq_false_iff.2 ⟨rfl, anyChanges_eq_false_iff.2 fun v hv => ?_⟩
      obtain ⟨field, hfield, hv⟩ := exists_mem_of_forall₂ (mapM_ok.1 hviews) hv
      exact ih field (sizeOf_lt_of_mem_pairFields hfield) hv
    | or s l r side =>
      rw [render_of_isOr rfl] at h
      split at h
      · cases h
      · next chosen hchosen =>
        dsimp only at h
        split at h
        · cases h
          rfl
        · simp only [except_bind_ok, pure, Except.pure, Except.ok.injEq] at h
          obtain ⟨v, hv, rfl⟩ := h
          have hv := ih chosen (sizeOf_lt_of_chosenAlternative hchosen) hv
          rw [hasChanges_eq_false_iff] at hv
          refine hasChanges_eq_false_iff.2 ⟨rfl, anyChanges_eq_false_iff.2 fun v' hv' => ?_⟩
          rw [List.mem_singleton.1 hv']
          exact hasChanges_eq_false_iff.2 hv
    | collection s kind elem items =>
      cases items with
      | none =>
        rw [render] at h
        cases h
      | some items =>
        simp only [render, except_bind_ok, pure, Except.pure, Except.ok.injEq] at h
        obtain ⟨views, hviews, rfl⟩ := h
        refine hasChanges_eq_false_iff.2 ⟨rfl, hasChanges_of_renderItems hviews ?_⟩
        exact fun item hitem v hv => ih item (sizeOf_lt_collection hitem) hv
    | map s key value entries =>
      cases entries with
      | none =>
        rw [render] at h
        cases h
      | some entries =>
        simp only [render, except_bind_ok, pure, Except.pure, Except.ok.injEq] at h
        obtain ⟨views, hviews, rfl⟩ := h
        refine hasChanges_eq_false_iff.2 ⟨rfl, hasChanges_of_renderEntries hviews ?_⟩
        exact fun entry hentry v hv => ih entry.2 (sizeOf_lt_map hentry).2 hv
    | bigMap s key value pointer entries =>
      cases entries with
      | none =>
        cases pointer with
        | none =>
          rw [render] at h
          cases h
        | some p =>
          rw [render] at h
          cases h
          rfl
      | some entries =>
        simp only [render_bigMap, except_bind_ok, pure, Except.pure, Except.ok.injEq] at h
        obtain ⟨views, hviews, rfl⟩ := h
        refine hasChanges_eq_false_iff.2 ⟨rfl, hasChanges_of_renderEntries hviews ?_⟩
        exact fun entry hentry v hv => ih entry.2 (sizeOf_lt_bigMap hentry).2 hv

/-! ### Nodes that are shown -/

/-- The value of the node can be shown. -/
def Shown (n : Node) : Prop := ∃ view, n.render = .ok view

/-- An entry of a map can be shown: its value, under the name that its key gives it. -/
def ShownEntry (entry : Node × Node) : Prop :=
  entry.2.Shown ∧ ∃ name, entry.1.label = .ok name

lemma Shown.of_ticket (h : (ticket s inner).Shown) : inner.Shown := by
  obtain ⟨view, h⟩ := h
  rw [render, except_bind_ok] at h
  obtain ⟨v, hv, -⟩ := h
  exact ⟨v, hv⟩

lemma Shown.of_option (h : (option s inner (some true)).Shown) : inner.Shown := by
  obtain ⟨view, h⟩ := h
  simp only [render, required, except_bind_ok, Except.ok.injEq] at h
  obtain ⟨p, rfl, h⟩ := h
  obtain ⟨v, hv, -⟩ := except_bind_ok.1 h
  exact ⟨v, hv⟩

lemma Shown.field (h : n.Shown) (hn : n.isPair = true) : ∀ field ∈ n.pairFields, field.Shown := by
  obtain ⟨view, h⟩ := h
  rw [render_of_isPair hn, except_bind_ok] at h
  obtain ⟨views, hviews, -⟩ := h
  intro field hfield
  obtain ⟨v, -, hv⟩ := exists_mem_of_forall₂ (mapM_ok.1 hviews).flip hfield
  exact ⟨v, hv⟩

lemma Shown.item {kind : Collection} (h : (collection s kind elem (some items)).Shown) :
    ∀ item ∈ items, item.Shown := by
  obtain ⟨view, h⟩ := h
  rw [render, except_bind_ok] at h
  obtain ⟨views, hviews, -⟩ := h
  intro item hitem
  obtain ⟨_, -, v, hv, -⟩ := exists_mem_of_forall₂ (renderItems_ok.1 hviews).flip hitem
  exact ⟨v, hv⟩

lemma shownEntry_of_renderEntries (h : renderEntries entries = .ok views) :
    ∀ entry ∈ entries, ShownEntry entry := by
  intro entry hentry
  obtain ⟨_, -, v, name, hv, hname, -⟩ :=
    exists_mem_of_forall₂ (renderEntries_ok.1 h).flip hentry
  exact ⟨⟨v, hv⟩, name, hname⟩

lemma Shown.entry_of_map (h : (map s key value (some entries)).Shown) :
    ∀ entry ∈ entries, ShownEntry entry := by
  obtain ⟨view, h⟩ := h
  rw [render, except_bind_ok] at h
  obtain ⟨views, hviews, -⟩ := h
  exact shownEntry_of_renderEntries hviews

lemma Shown.entry_of_bigMap {pointer : Option Int}
    (h : (bigMap s key value pointer (some entries)).Shown) :
    ∀ entry ∈ entries, ShownEntry entry := by
  obtain ⟨view, h⟩ := h
  rw [render_bigMap, except_bind_ok] at h
  obtain ⟨views, hviews, -⟩ := h
  exact shownEntry_of_renderEntries hviews

/-! ### Views of what has changed -/

section Changed

variable {before after : Node} {w : Micheline}

lemma Shown.created (h : n.Shown) : ∃ view, n.created = .ok view ∧ view.hasChanges = true := by
  obtain ⟨v, hv⟩ := h
  exact ⟨v.tag .created, by rw [Node.created, hv]; rfl, View.hasChanges_tag⟩

lemma Shown.deleted (h : n.Shown) : ∃ view, n.deleted = .ok view ∧ view.hasChanges = true := by
  obtain ⟨v, hv⟩ := h
  exact ⟨v.tag .deleted, by rw [Node.deleted, hv]; rfl, View.hasChanges_tag⟩

lemma Shown.updated (h : before.Shown) (hw : before.toWire false = .ok w) (h' : after.Shown) :
    ∃ view, before.updated after = .ok view ∧ view.hasChanges = true := by
  obtain ⟨v, hv⟩ := h
  obtain ⟨v', hv'⟩ := h'
  have hsummary : ∃ json, before.summary = .ok json := by
    cases hvalue : v.value with
    | some json =>
      refine ⟨json, except_bind_ok.2 ⟨v, hv, ?_⟩⟩
      rw [hvalue]
      rfl
    | none =>
      refine ⟨w.toJson, except_bind_ok.2 ⟨v, hv, ?_⟩⟩
      rw [hvalue]
      exact except_bind_ok.2 ⟨w, hw, rfl⟩
  obtain ⟨json, hjson⟩ := hsummary
  refine ⟨{ v' with change := some .updated, previous := some json }, ?_, ?_⟩
  · rw [Node.updated, hv', hjson]
    rfl
  · rw [← Bool.not_eq_false, hasChanges_eq_false_iff]
    exact fun hnone => nomatch hnone.1

end Changed

end Node

end Lineage
