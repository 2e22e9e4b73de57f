import Lineage.Proofs.Typed.Faithful

/-!
# What differences tell

Two values of a type that can be shown have a difference, and there is no mark in it just if they
are the same up to the order of entries and elements (`Formed.faithful`). So a difference neither
invents a change nor hides one (`distinguish_honest`).

Lists are compared by position, sets and maps by what is written of elements and keys. With these
the types of all kinds are `Faithful`, by an induction along the size of types.
-/

namespace Lineage.Node

open View (anyChanges anyChanges_eq_false_iff hasChanges_eq_false_iff hasChanges_named)

variable {n a b elem key value : Node} {s s' : Site} {w w' : Micheline}
  {items items' : List Node} {ws ws' : List Micheline} {entries entries' : List (Node × Node)}
  {es es' : List (Micheline × Micheline)} {view : View} {views : List View}

lemma exists_mapM {α β γ ε : Type} {f : α → Except ε β} {R : α → γ → Prop} {P : β → Prop}
    {Q : γ → Prop} {xs : List α} {zs : List γ} (h : List.Forall₂ R xs zs)
    (hf : ∀ x z, R x z → ∃ y, f x = .ok y ∧ (P y ↔ Q z)) :
    ∃ ys, xs.mapM f = .ok ys ∧ ((∀ y ∈ ys, P y) ↔ ∀ z ∈ zs, Q z) := by
  induction h with
  | nil => exact ⟨[], rfl, by simp⟩
  | cons hxz _ ih =>
    obtain ⟨y, hy, hiff⟩ := hf _ _ hxz
    obtain ⟨ys, hys, hall⟩ := ih
    refine ⟨y :: ys, mapM_ok.2 (.cons hy (mapM_ok.1 hys)), ?_⟩
    rw [List.forall_mem_cons, List.forall_mem_cons, hiff, hall]

/-! ### Lists -/

/-- Values of the type that can be shown, and what is written of them. -/
abbrev DisplaysAll (n : Node) : List Node → List Micheline → Prop := List.Forall₂ n.Displays

lemma displaysAll_of_shown {kind : Collection} (h : List.Forall₂ elem.Holds items ws)
    (hs : (collection s kind elem (some items)).Shown) : elem.DisplaysAll items ws := by
  have hall := (List.forall₂_and_left items ws).2 ⟨hs.item, h⟩
  exact hall.imp fun _ _ hitem => ⟨hitem.2, hitem.1⟩

lemma exists_distinguishItems (helem : elem.Faithful) (h : elem.DisplaysAll items ws)
    (h' : elem.DisplaysAll items' ws') :
    ∃ views, distinguishItems items items' = .ok views ∧
      (anyChanges views = false ↔ List.Forall₂ elem.SameUpToOrder ws ws') := by
  induction h generalizing items' ws' with
  | nil =>
    -- all that is there is new
    obtain ⟨views, hviews, hiff⟩ := exists_mapM (P := fun v : View => v.hasChanges = false)
      (Q := fun _ => False) h' fun y _ hy => by
        obtain ⟨view, hview, hmarked⟩ := hy.2.created
        exact ⟨view, hview, by simp [hmarked]⟩
    refine ⟨views, by rw [distinguishItems]; exact hviews, ?_⟩
    rw [anyChanges_eq_false_iff, hiff, List.forall₂_nil_left_iff]
    exact List.eq_nil_iff_forall_not_mem.symm
  | cons hx hxs ih =>
    cases h' with
    | nil =>
      obtain ⟨view, hview, hmarked⟩ := hx.2.deleted
      obtain ⟨views, hviews, -⟩ := ih .nil
      refine ⟨view :: views, ?_, iff_of_false (by simp [anyChanges, hmarked]) ?_⟩
      · rw [distinguishItems]
        exact except_bind_ok.2 ⟨view, hview, except_bind_ok.2 ⟨views, hviews, rfl⟩⟩
      · intro hsame
        cases hsame
    | cons hy hys =>
      obtain ⟨view, hview, hiff⟩ := helem hx hy
      obtain ⟨views, hviews, hiffs⟩ := ih hys
      refine ⟨view :: views, ?_, ?_⟩
      · rw [distinguishItems]
        exact except_bind_ok.2 ⟨view, hview, except_bind_ok.2 ⟨views, hviews, rfl⟩⟩
      · rw [anyChanges, Bool.or_eq_false_iff, hiff, hiffs, List.forall₂_cons]

lemma faithful_list {items : Option (List Node)} (h : elem.Faithful) :
    (collection s .list elem items).Faithful := by
  intro a b w w' ⟨ha, hsa⟩ ⟨hb, hsb⟩
  have htype := ha.equalType hb
  obtain ⟨as, ws, rfl, rfl, has, -⟩ := ha
  obtain ⟨bs, ws', rfl, rfl, hbs, -⟩ := hb
  obtain ⟨views, hviews, hiff⟩ :=
    exists_distinguishItems h (displaysAll_of_shown has hsa) (displaysAll_of_shown hbs hsb)
  obtain ⟨view, hview, hmarks⟩ := hsb.exists_withChildren hviews
  refine ⟨view, ?_, ?_⟩
  · rw [distinguish, if_pos htype]
    exact hview
  · rw [hmarks, hiff]
    simp [SameUpToOrder]

/-! ### Sets -/

lemma occursIn_eq (h : elem.DisplaysAll items ws) :
    occursIn w items = .ok (decide (w ∈ ws)) := by
  induction h with
  | nil => simp [occursIn, pure, Except.pure]
  | @cons x v items ws hx _ ih =>
    rw [occursIn, hx.1.toWire]
    show (if v = w then pure true else occursIn w items) = _
    split
    · next heq => simp [heq, pure, Except.pure]
    · next hne => simp [ih, Ne.symm hne]

/-- The view of an element before a change. -/
def oldElement (after : List Node) (x : Node) : Except NodeError View := do
  let view ← x.render
  if ← occursIn (← x.toWire false) after then return view else return view.tag .deleted

/-- The view of an element after a change, if it is new. -/
def newElement (before : List Node) (y : Node) : Except NodeError (List View) := do
  if ← occursIn (← y.toWire false) before then return [] else return [← y.created]

lemma exists_oldElement (h' : elem.DisplaysAll items' ws') (ha : elem.Displays a w) :
    ∃ view, oldElement items' a = .ok view ∧ (view.hasChanges = false ↔ w ∈ ws') := by
  obtain ⟨hholds, view, hview⟩ := ha
  by_cases hw : w ∈ ws'
  · refine ⟨view, ?_, iff_of_true (hasChanges_render hview) hw⟩
    refine except_bind_ok.2 ⟨view, hview, except_bind_ok.2 ⟨w, hholds.toWire, ?_⟩⟩
    exact except_bind_ok.2 ⟨_, occursIn_eq h', if_pos (decide_eq_true hw)⟩
  · refine ⟨view.tag .deleted, ?_, iff_of_false (by simp) hw⟩
    refine except_bind_ok.2 ⟨view, hview, except_bind_ok.2 ⟨w, hholds.toWire, ?_⟩⟩
    exact except_bind_ok.2 ⟨_, occursIn_eq h', if_neg (by simp [hw])⟩

lemma exists_newElement (h : elem.DisplaysAll items ws) (hb : elem.Displays b w') :
    ∃ views, newElement items b = .ok views ∧ (anyChanges views = false ↔ w' ∈ ws) := by
  by_cases hw : w' ∈ ws
  · refine ⟨[], except_bind_ok.2 ⟨w', hb.1.toWire, ?_⟩, iff_of_true rfl hw⟩
    exact except_bind_ok.2 ⟨_, occursIn_eq h, if_pos (decide_eq_true hw)⟩
  · obtain ⟨view, hview, hmarked⟩ := hb.2.created
    refine ⟨[view], except_bind_ok.2 ⟨w', hb.1.toWire, ?_⟩,
      iff_of_false (by simp [anyChanges, hmarked]) hw⟩
    refine except_bind_ok.2 ⟨_, occursIn_eq h, (if_neg (by simp [hw])).trans ?_⟩
    exact except_bind_ok.2 ⟨view, hview, rfl⟩

lemma exists_distinguishElements (h : elem.DisplaysAll items ws)
    (h' : elem.DisplaysAll items' ws') :
    ∃ views, distinguishElements items items' = .ok views ∧
      (anyChanges views = false ↔ (∀ w ∈ ws, w ∈ ws') ∧ ∀ w ∈ ws', w ∈ ws) := by
  obtain ⟨old, hold, hiff⟩ := exists_mapM (P := fun v : View => v.hasChanges = false) h
    fun _ _ ha => exists_oldElement h' ha
  obtain ⟨new, hnew, hiff'⟩ := exists_mapM (P := fun vs => anyChanges vs = false) h'
    fun _ _ hb => exists_newElement h hb
  refine ⟨old ++ new.flatten, ?_, ?_⟩
  · exact except_bind_ok.2 ⟨old, hold, except_bind_ok.2 ⟨new, hnew, rfl⟩⟩
  · rw [View.anyChanges_append, Bool.or_eq_false_iff, View.anyChanges_flatten, hiff',
      anyChanges_eq_false_iff, hiff]

lemma faithful_set {items : Option (List Node)} : (collection s .set elem items).Faithful := by
  intro a b w w' ⟨ha, hsa⟩ ⟨hb, hsb⟩
  have htype := ha.equalType hb
  obtain ⟨as, ws, rfl, rfl, has, hnodup⟩ := ha
  obtain ⟨bs, ws', rfl, rfl, hbs, hnodup'⟩ := hb
  obtain ⟨views, hviews, hiff⟩ :=
    exists_distinguishElements (displaysAll_of_shown has hsa) (displaysAll_of_shown hbs hsb)
  obtain ⟨view, hview, hmarks⟩ := hsb.exists_withChildren hviews
  refine ⟨view, ?_, ?_⟩
  · rw [distinguish, if_pos htype]
    exact hview
  · have hperm : ws.Perm ws' ↔ (∀ w ∈ ws, w ∈ ws') ∧ ∀ w ∈ ws', w ∈ ws := by
      rw [List.perm_ext_iff_of_nodup (hnodup rfl) (hnodup' rfl), ← forall_and]
      exact forall_congr' fun w => iff_iff_implies_and_implies
    rw [hmarks, hiff, ← hperm]
    simp [SameUpToOrder]

/-! ### Maps -/

/-- An entry of a map that can be shown, and what is written of its key and of its value. -/
def DisplaysEntry (value : Node) (entry : Node × Node) (e : Micheline × Micheline) : Prop :=
  entry.1.toWire false = .ok e.1 ∧ (∃ name, entry.1.label = .ok name) ∧
    value.Displays entry.2 e.2

/-- Entries of a map that can be shown, and what is written of them. -/
abbrev DisplaysEntries (value : Node) : List (Node × Node) → List (Micheline × Micheline) → Prop :=
  List.Forall₂ (DisplaysEntry value)

lemma displaysEntries_of_shown (h : HoldsEntries value.Holds entries es)
    (hs : ∀ entry ∈ entries, ShownEntry entry) : value.DisplaysEntries entries es := by
  have hall := (List.forall₂_and_left entries es).2 ⟨hs, h.1⟩
  exact hall.imp fun _ _ ⟨⟨hshown, hname⟩, hkey, hvalue⟩ => ⟨hkey, hname, hvalue, hshown⟩

lemma findEntry_ok {k : Micheline} (h : value.DisplaysEntries entries es) :
    (∃ c x, findEntry k entries = .ok (some c) ∧ (k, x) ∈ es ∧ value.Displays c x) ∨
      findEntry k entries = .ok none ∧ ∀ e ∈ es, e.1 ≠ k := by
  induction h with
  | nil => exact .inr ⟨rfl, nofun⟩
  | @cons entry e entries es he _ ih =>
    obtain ⟨k', x⟩ := e
    have hfind : findEntry k (entry :: entries) =
        if k' = k then .ok (some entry.2) else findEntry k entries := by
      rw [findEntry, he.1]
      rfl
    rw [hfind]
    by_cases hk : k' = k
    · subst hk
      exact .inl ⟨entry.2, x, if_pos rfl, List.mem_cons_self, he.2.2⟩
    · rw [if_neg hk]
      obtain ⟨c, y, hc, hmem, hy⟩ | ⟨hnone, hall⟩ := ih
      · exact .inl ⟨c, y, hc, List.mem_cons_of_mem _ hmem, hy⟩
      · exact .inr ⟨hnone, List.forall_mem_cons.2 ⟨hk, hall⟩⟩

/-- The view of an entry before a change. -/
def oldEntry (after : List (Node × Node)) (entry : Node × Node) : Except NodeError View := do
  let view ←
    match ← findEntry (← entry.1.toWire false) after with
    | some value => entry.2.distinguish value
    | none => entry.2.deleted
  return view.named (← entry.1.label)

/-- The view of an entry after a change, if its key is new. -/
def newEntry (before : List (Node × Node)) (entry : Node × Node) :
    Except NodeError (List View) := do
  if (← findEntry (← entry.1.toWire false) before).isSome then return []
  else return [(← entry.2.created).named (← entry.1.label)]

lemma oldEntries_eq : oldEntries entries entries' = entries.mapM (oldEntry entries') := by
  induction entries with
  | nil =>
    rw [oldEntries]
    rfl
  | cons entry entries ih =>
    obtain ⟨key, value⟩ := entry
    rw [oldEntries, List.mapM_cons, ih]
    simp only [oldEntry, bind_assoc]
    refine bind_congr fun wanted => bind_congr fun found => ?_
    cases found <;> simp only [bind_assoc, pure_bind]

lemma exists_oldEntry {entry : Node × Node} {e : Micheline × Micheline} (hvalue : value.Faithful)
    (h' : value.DisplaysEntries entries' es') (hnodup' : (es'.map Prod.fst).Nodup)
    (he : DisplaysEntry value entry e) :
    ∃ view, oldEntry entries' entry = .ok view ∧
      (view.hasChanges = false ↔ ∃ e' ∈ es', SameEntry value.SameUpToOrder e e') := by
  obtain ⟨hkey, ⟨name, hname⟩, hshown⟩ := he
  have hrun : ∀ {found : Option Node} {view : View}, findEntry e.1 entries' = .ok found →
      (match found with
        | some c => entry.2.distinguish c
        | none => entry.2.deleted) = .ok view →
      oldEntry entries' entry = .ok (view.named name) := by
    intro found view hfound hview
    refine except_bind_ok.2 ⟨e.1, hkey, except_bind_ok.2 ⟨found, hfound, ?_⟩⟩
    cases found <;> exact except_bind_ok.2 ⟨view, hview, except_bind_ok.2 ⟨name, hname, rfl⟩⟩
  obtain ⟨c, x, hfind, hmem, hc⟩ | ⟨hfind, hall⟩ := findEntry_ok (k := e.1) h'
  · obtain ⟨view, hview, hiff⟩ := hvalue hshown hc
    refine ⟨view.named name, hrun hfind hview, ?_⟩
    rw [hasChanges_named, hiff]
    constructor
    · exact fun hsame => ⟨_, hmem, rfl, hsame⟩
    · -- the entry that was found is the only one of the key
      rintro ⟨e', he', hkey', hsame⟩
      obtain rfl := List.inj_on_of_nodup_map hnodup' he' hmem hkey'
      exact hsame
  · obtain ⟨view, hview, hmarked⟩ := hshown.2.deleted
    refine ⟨view.named name, hrun hfind hview, iff_of_false (by simp [hmarked]) ?_⟩
    rintro ⟨e', he', hkey', -⟩
    exact hall e' he' hkey'

lemma exists_newEntry {entry : Node × Node} {e : Micheline × Micheline}
    (h : value.DisplaysEntries entries es) (he : DisplaysEntry value entry e) :
    ∃ views, newEntry entries entry = .ok views ∧
      (anyChanges views = false ↔ e.1 ∈ es.map Prod.fst) := by
  obtain ⟨hkey, ⟨name, hname⟩, hshown⟩ := he
  obtain ⟨c, x, hfind, hmem, -⟩ | ⟨hfind, hall⟩ := findEntry_ok (k := e.1) h
  · refine ⟨[], except_bind_ok.2 ⟨e.1, hkey, except_bind_ok.2 ⟨some c, hfind, rfl⟩⟩, ?_⟩
    exact iff_of_true rfl (List.mem_map.2 ⟨_, hmem, rfl⟩)
  · obtain ⟨view, hview, hmarked⟩ := hshown.2.created
    refine ⟨[view.named name], ?_, iff_of_false (by simp [anyChanges, hmarked]) ?_⟩
    · refine except_bind_ok.2 ⟨e.1, hkey, except_bind_ok.2 ⟨none, hfind, ?_⟩⟩
      exact except_bind_ok.2 ⟨view, hview, except_bind_ok.2 ⟨name, hname, rfl⟩⟩
    · intro hmem
      obtain ⟨e', he', heq⟩ := List.mem_map.1 hmem
      exact hall e' he' heq

lemma exists_newEntries (h : value.DisplaysEntries entries es)
    (h' : value.DisplaysEntries entries' es') :
    ∃ views, newEntries entries entries' = .ok views ∧
      (anyChanges views = false ↔ ∀ e' ∈ es', e'.1 ∈ es.map Prod.fst) := by
  obtain ⟨new, hnew, hiff⟩ := exists_mapM (P := fun vs => anyChanges vs = false) h'
    fun _ _ he => exists_newEntry h he
  exact ⟨new.flatten, except_bind_ok.2 ⟨new, hnew, rfl⟩, View.anyChanges_flatten.trans hiff⟩

/-- Entries that are there before a change and new ones tell whether two maps are the same. -/
lemma exists_distinguishEntries (hvalue : value.Faithful) (h : value.DisplaysEntries entries es)
    (h' : value.DisplaysEntries entries' es') (hnodup : (es.map Prod.fst).Nodup)
    (hnodup' : (es'.map Prod.fst).Nodup) :
    ∃ old new, oldEntries entries entries' = .ok old ∧ newEntries entries entries' = .ok new ∧
      (anyChanges (old ++ new) = false ↔
        SameEntries value.SameUpToOrder (.seq (es.map Micheline.elt))
          (.seq (es'.map Micheline.elt))) := by
  obtain ⟨old, hold, hiff⟩ := exists_mapM (P := fun v : View => v.hasChanges = false) h
    fun _ _ he => exists_oldEntry hvalue h' hnodup' he
  obtain ⟨new, hnew, hiff'⟩ := exists_newEntries h h'
  refine ⟨old, new, oldEntries_eq.trans hold, hnew, ?_⟩
  rw [sameEntries_iff hnodup hnodup', View.anyChanges_append, Bool.or_eq_false_iff, hiff',
    anyChanges_eq_false_iff, hiff]

lemma hasChanges_mapShell {pointer : Option Int} :
    ({ n.mapShell pointer with children := views } : View).hasChanges = false ↔
      anyChanges views = false := by
  rw [hasChanges_eq_false_iff]
  exact and_iff_right rfl

lemma faithful_map {entries : Option (List (Node × Node))} (h : value.Faithful) :
    (map s key value entries).Faithful := by
  intro a b w w' ⟨ha, hsa⟩ ⟨hb, hsb⟩
  have htype := ha.equalType hb
  obtain ⟨as, es, rfl, rfl, has⟩ := ha
  obtain ⟨bs, es', rfl, rfl, hbs⟩ := hb
  obtain ⟨old, new, hold, hnew, hiff⟩ := exists_distinguishEntries h
    (displaysEntries_of_shown has hsa.entry_of_map) (displaysEntries_of_shown hbs hsb.entry_of_map)
    has.2 hbs.2
  refine ⟨{ (map s key value (some bs)).mapShell none with children := old ++ new }, ?_, ?_⟩
  · rw [distinguish, if_pos htype]
    exact except_bind_ok.2 ⟨old, hold, except_bind_ok.2 ⟨new, hnew, rfl⟩⟩
  · rw [hasChanges_mapShell, hiff]
    rfl

/-! ### Big maps -/

lemma distinguish_bigMap {p p' : Option Int} {e e' : Option (List (Node × Node))}
    {key' value' : Node} {old new : List View}
    (h : (bigMap s key value p e).equalType (bigMap s' key' value' p' e') = true)
    (hold : oldEntries (e.getD []) (e'.getD []) = .ok old)
    (hnew : newEntries (e.getD []) (e'.getD []) = .ok new) :
    (bigMap s key value p e).distinguish (bigMap s' key' value' p' e') =
      .ok (markPointers p p'
        { (bigMap s' key' value' p' e').mapShell p' with children := old ++ new }) := by
  rw [distinguish, if_pos h]
  cases e with
  | none =>
    rw [Option.getD_none, oldEntries] at hold
    cases hold
    exact except_bind_ok.2 ⟨[], rfl, except_bind_ok.2 ⟨new, hnew, rfl⟩⟩
  | some e => exact except_bind_ok.2 ⟨old, hold, except_bind_ok.2 ⟨new, hnew, rfl⟩⟩

lemma hasChanges_markPointers {p p' : Option Int} :
    (markPointers p p' view).hasChanges = false ↔ p = p' ∧ view.hasChanges = false := by
  rw [markPointers]
  split
  · next h => rw [and_iff_right h]
  · next h => simp [hasChanges_eq_false_iff, h]

lemma toString_inj_of_fits {p q : Int} (hp : Decimal.FitsInt64 p) (hq : Decimal.FitsInt64 q)
    (h : toString p = toString q) : p = q := by
  have hparse := congrArg Decimal.parseInt64? h
  rw [Decimal.parseInt64?_toString, Decimal.parseInt64?_toString,
    Decimal.int64?_eq_some_iff.2 ⟨hp, rfl⟩, Decimal.int64?_eq_some_iff.2 ⟨hq, rfl⟩] at hparse
  exact Option.some.inj hparse

lemma not_sameEntries_of_int {same : Micheline → Micheline → Prop} {literal : String}
    (h : w = .int literal ∨ w' = .int literal) : ¬ SameEntries same w w' := by
  rintro ⟨es, es', matched, rfl, rfl, -⟩
  exact h.elim nofun nofun

lemma same_pointer {pointer : Option Int} {entries : Option (List (Node × Node))} {p q : Int}
    (hp : Decimal.FitsInt64 p) (hq : Decimal.FitsInt64 q) :
    (bigMap s key value pointer entries).SameUpToOrder (.int (toString p)) (.int (toString q)) ↔
      p = q := by
  constructor
  · rintro (⟨_, -, heq⟩ | hsame)
    · exact toString_inj_of_fits hp hq (Micheline.int.inj heq).symm
    · exact absurd hsame (not_sameEntries_of_int (.inl rfl))
  · rintro rfl
    exact .inl ⟨p, rfl, rfl⟩

lemma faithful_bigMap {pointer : Option Int} {entries : Option (List (Node × Node))}
    (h : value.Faithful) : (bigMap s key value pointer entries).Faithful := by
  intro a b w w' ⟨ha, hsa⟩ ⟨hb, hsb⟩
  have htype := ha.equalType hb
  obtain ⟨p, hp, rfl, rfl⟩ | ⟨as, es, rfl, rfl, has⟩ := ha <;>
    obtain ⟨q, hq, rfl, rfl⟩ | ⟨bs, es', rfl, rfl, hbs⟩ := hb
  · obtain ⟨old, new, hold, hnew, hiff⟩ :=
      exists_distinguishEntries h .nil .nil List.nodup_nil List.nodup_nil
    refine ⟨_, distinguish_bigMap htype hold hnew, ?_⟩
    rw [hasChanges_markPointers, hasChanges_mapShell, hiff, same_pointer hp hq, Option.some_inj]
    exact and_iff_left ⟨[], [], [], rfl, rfl, .nil, .nil⟩
  · obtain ⟨old, new, hold, hnew, -⟩ := exists_distinguishEntries h .nil
      (displaysEntries_of_shown hbs hsb.entry_of_bigMap) List.nodup_nil hbs.2
    refine ⟨_, distinguish_bigMap htype hold hnew, ?_⟩
    rw [hasChanges_markPointers]
    refine iff_of_false (fun hmarks => nomatch hmarks.1) ?_
    rintro (⟨_, -, heq⟩ | hsame)
    · cases heq
    · exact not_sameEntries_of_int (.inl rfl) hsame
  · obtain ⟨old, new, hold, hnew, -⟩ := exists_distinguishEntries h
      (displaysEntries_of_shown has hsa.entry_of_bigMap) .nil has.2 List.nodup_nil
    refine ⟨_, distinguish_bigMap htype hold hnew, ?_⟩
    rw [hasChanges_markPointers]
    refine iff_of_false (fun hmarks => nomatch hmarks.1) ?_
    rintro (⟨_, heq, -⟩ | hsame)
    · cases heq
    · exact not_sameEntries_of_int (.inr rfl) hsame
  · obtain ⟨old, new, hold, hnew, hiff⟩ := exists_distinguishEntries h
      (displaysEntries_of_shown has hsa.entry_of_bigMap)
      (displaysEntries_of_shown hbs hsb.entry_of_bigMap) has.2 hbs.2
    refine ⟨_, distinguish_bigMap htype hold hnew, ?_⟩
    rw [hasChanges_markPointers, and_iff_right rfl, hasChanges_mapShell, hiff]
    simp [SameUpToOrder]

/-! ### All types -/

/-- **Differences tell changes**, for every type that was read. -/
theorem Formed.faithful (hn : n.Formed) : n.Faithful := by
  induction n using sizeInduction with
  | step n ih =>
    have hpart : ∀ {m : Node}, m ∈ n.typeChildren → m.Formed → m.Faithful := fun hm =>
      ih _ (sizeOf_lt_of_mem_typeChildren hm)
    cases n with
    | scalar | contract | lambda => exact faithful_of_isLeaf rfl
    | ticket s inner => exact faithful_ticket hn.2 (hpart List.mem_cons_self hn.1)
    | option s inner present => exact faithful_option (hpart List.mem_cons_self hn)
    | pair s l r =>
      exact faithful_pair fun field hfield =>
        ih field (sizeOf_lt_of_mem_pairFields hfield) (hn.pairFields field hfield)
    | or s l r side =>
      refine faithful_of_isOr rfl hn fun alternative halternative => ?_
      have hformed := ((behind_of_mem_orAlternatives halternative).formed hn).1
      exact ih _ (sizeOf_lt_of_mem_orAlternatives halternative) hformed
    | collection s kind elem items =>
      cases kind with
      | list => exact faithful_list (hpart List.mem_cons_self hn)
      | set => exact faithful_set
    | map s key value entries =>
      exact faithful_map (hpart (List.mem_cons_of_mem _ List.mem_cons_self) hn.2)
    | bigMap s key value pointer entries =>
      exact faithful_bigMap (hpart (List.mem_cons_of_mem _ List.mem_cons_self) hn.2)

/-- **Differences are honest**: two values that were bound to new nodes of a type, in which nothing
is annotated and nothing comes twice, have a difference if both can be shown. If they are written
in one way there is no mark in it, and if there is no mark in it they are the same but for the order
of entries and elements. -/
theorem distinguish_honest {path : String} {type u v : Micheline} {view view' : View}
    (htype : ofTypeAt path type = .ok n) (ha : n.settle u = .ok a) (hb : n.settle v = .ok b)
    (hu : n.isUnannotated u = true) (hv : n.isUnannotated v = true) (hda : a.isDistinct = true)
    (hdb : b.isDistinct = true) (hx : a.render = .ok view) (hy : b.render = .ok view') :
    ∃ w w' shown, a.toWire false = .ok w ∧ b.toWire false = .ok w' ∧
      a.distinguish b = .ok shown ∧ (w = w' → shown.hasChanges = false) ∧
      (shown.hasChanges = false → n.SameUpToOrder w w') := by
  have hunbound := unbound_ofTypeAt htype
  obtain ⟨w, hw⟩ := holds_of_settle hunbound ha hu hda
  obtain ⟨w', hw'⟩ := holds_of_settle hunbound hb hv hdb
  obtain ⟨shown, hshown, hiff⟩ :=
    (formed_ofTypeAt htype).faithful ⟨hw, view, hx⟩ ⟨hw', view', hy⟩
  refine ⟨w, w', shown, hw.toWire, hw'.toWire, hshown, ?_, hiff.1⟩
  rintro rfl
  exact hiff.2 hw.same

/-- Prices by name, the codes of what is open, a big map and a list of optional numbers. -/
def shelf : Micheline :=
  .prim "pair" [.prim "map" [.prim "string" [] [], .prim "nat" [] []] ["%prices"],
    .prim "or" [.prim "unit" [] ["%closed"], .prim "set" [.prim "nat" [] []] ["%codes"]] [],
    .prim "big_map" [.prim "nat" [] [], .prim "unit" [] []] [],
    .prim "list" [.prim "option" [.prim "nat" [] []] []] []] []

def shelfValue (prices codes : List Micheline) : Micheline :=
  .data .pair [.seq prices, .data .pair [.data .right [.seq codes],
    .data .pair [.int "7", .seq [.data .some [.int "1"], .data .none []]]]]

def shelfBefore : Micheline :=
  shelfValue [.elt (.string "a", .int "1"), .elt (.string "b", .int "2")] [.int "3", .int "4"]

def shelfAfter : Micheline :=
  shelfValue [.elt (.string "b", .int "2"), .elt (.string "a", .int "1")] [.int "4", .int "3"]

theorem distinguish_honest_shelf :
    ∃ n a b shown, ofTypeAt "0" shelf = .ok n ∧ n.settle shelfBefore = .ok a ∧
      n.settle shelfAfter = .ok b ∧ a.distinguish b = .ok shown ∧ shown.hasChanges = false ∧
      n.SameUpToOrder shelfBefore shelfAfter := by
  have hrun : (do
      let n ← ofTypeAt "0" shelf
      let a ← n.settle shelfBefore
      let b ← n.settle shelfAfter
      let _ ← a.render
      let _ ← b.render
      let w ← a.toWire false
      let w' ← b.toWire false
      let shown ← a.distinguish b
      let isPlain := n.isUnannotated shelfBefore && n.isUnannotated shelfAfter
      return (w, w', shown.hasChanges, isPlain && a.isDistinct && b.isDistinct)).toOption =
      some (shelfBefore, shelfAfter, false, true) := by decide +kernel
  obtain ⟨n, htype, hrun⟩ := except_bind_ok.1 (except_ok_of_toOption hrun)
  obtain ⟨a, ha, hrun⟩ := except_bind_ok.1 hrun
  obtain ⟨b, hb, hrun⟩ := except_bind_ok.1 hrun
  obtain ⟨view, hx, hrun⟩ := except_bind_ok.1 hrun
  obtain ⟨view', hy, hrun⟩ := except_bind_ok.1 hrun
  obtain ⟨w, hw, hrun⟩ := except_bind_ok.1 hrun
  obtain ⟨w', hw', hrun⟩ := except_bind_ok.1 hrun
  obtain ⟨shown, hshown, hrun⟩ := except_bind_ok.1 hrun
  simp only [pure, Except.pure, Except.ok.injEq, Prod.mk.injEq, Bool.and_eq_true] at hrun
  obtain ⟨rfl, rfl, hunmarked, ⟨⟨hu, hv⟩, hda⟩, hdb⟩ := hrun
  obtain ⟨w, w', view, hwire, hwire', hdiff, -, hsame⟩ :=
    distinguish_honest htype ha hb hu hv hda hdb hx hy
  obtain rfl := Except.ok.inj (hwire.symm.trans hw)
  obtain rfl := Except.ok.inj (hwire'.symm.trans hw')
  obtain rfl := Except.ok.inj (hdiff.symm.trans hshown)
  exact ⟨n, a, b, view, htype, ha, hb, hdiff, hunmarked, hsame hunmarked⟩

end Lineage.Node
