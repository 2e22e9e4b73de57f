import Lineage.Proofs.Typed.Difference

/-!
# Differences by key

The difference of two maps has one child for each key of either one, and that of two sets one for
each element. `ChildOf` tells which: keys of both maps are shown with the difference of their
values, and what is in one of them only is shown with marks on all of it (`distinguish_keyed`).
-/

namespace Lineage

/-! ### Marks -/

namespace View

mutual
/-- The view without marks. -/
def unmarked : View → View
  | ⟨prim, kind, name, value, previous, _, children⟩ =>
    ⟨prim, kind, name, value, previous, none, unmarkedAll children⟩

def unmarkedAll : List View → List View
  | [] => []
  | v :: vs => v.unmarked :: unmarkedAll vs
end

mutual
/-- The marks of a view and of all it contains. -/
def marks : View → List (Option Change)
  | ⟨_, _, _, _, _, change, children⟩ => change :: marksAll children

def marksAll : List View → List (Option Change)
  | [] => []
  | v :: vs => v.marks ++ marksAll vs
end

/-- A view that shows what another one shows, with a mark on each part of it. -/
structure Tagged (c : Change) (shown view : View) : Prop where
  unmarked : view.unmarked = shown
  marks : ∀ mark ∈ view.marks, mark = some c

variable {v w : View} {vs : List View} {c : Change} {name : String}

mutual
lemma unmarked_tag : ∀ {v : View}, (v.tag c).unmarked = v.unmarked
  | ⟨_, _, _, _, _, _, _⟩ => congrArg (View.mk _ _ _ _ _ _) unmarkedAll_tagAll

lemma unmarkedAll_tagAll : ∀ {vs : List View}, unmarkedAll (tagAll c vs) = unmarkedAll vs
  | [] => rfl
  | _ :: _ => congrArg₂ List.cons unmarked_tag unmarkedAll_tagAll
end

mutual
lemma marks_tag : ∀ {v : View}, ∀ mark ∈ (v.tag c).marks, mark = some c
  | ⟨_, _, _, _, _, _, _⟩ => List.forall_mem_cons.2 ⟨rfl, marksAll_tagAll⟩

lemma marksAll_tagAll : ∀ {vs : List View}, ∀ mark ∈ marksAll (tagAll c vs), mark = some c
  | [] => nofun
  | _ :: _ => List.forall_mem_append.2 ⟨marks_tag, marksAll_tagAll⟩
end

mutual
lemma unmarked_of_hasChanges : ∀ {v : View}, v.hasChanges = false →
    v.unmarked = v ∧ ∀ mark ∈ v.marks, mark = none
  | ⟨_, _, _, _, _, change, _⟩, h => by
    obtain ⟨hchange, hchildren⟩ := hasChanges_eq_false_iff.1 h
    obtain rfl : change = none := hchange
    obtain ⟨hsame, hmarks⟩ := unmarkedAll_of_anyChanges hchildren
    exact ⟨congrArg (View.mk _ _ _ _ _ _) hsame, List.forall_mem_cons.2 ⟨rfl, hmarks⟩⟩

lemma unmarkedAll_of_anyChanges : ∀ {vs : List View}, anyChanges vs = false →
    unmarkedAll vs = vs ∧ ∀ mark ∈ marksAll vs, mark = none
  | [], _ => ⟨rfl, nofun⟩
  | _ :: _, h => by
    obtain ⟨hv, hvs⟩ := Bool.or_eq_false_iff.1 h
    obtain ⟨hsame, hmarks⟩ := unmarked_of_hasChanges hv
    obtain ⟨hsames, hmarkss⟩ := unmarkedAll_of_anyChanges hvs
    exact ⟨congrArg₂ List.cons hsame hsames, List.forall_mem_append.2 ⟨hmarks, hmarkss⟩⟩
end

lemma tagged_tag (h : v.hasChanges = false) : Tagged c v (v.tag c) :=
  ⟨unmarked_tag.trans (unmarked_of_hasChanges h).1, marks_tag⟩

lemma Tagged.named (h : Tagged c v w) : Tagged c (v.named name) (w.named name) := by
  obtain ⟨rfl, hmarks⟩ := h
  cases w
  exact ⟨rfl, hmarks⟩

end View

namespace Node

open View (Tagged tagged_tag)

/-! ### Keys and what they stand for -/

/-- A key of a map with its value, or an element of a set, which is a key itself. -/
structure Keyed where
  key : Node
  value? : Option Node

namespace Keyed

def ofEntry (entry : Node × Node) : Keyed := ⟨entry.1, some entry.2⟩

def ofElement (x : Node) : Keyed := ⟨x, none⟩

/-- What is written of the key. -/
def wire (x : Keyed) : Option Micheline := (x.key.toWire false).toOption

/-- The value under the name of its key, or the element. -/
def shown : Keyed → Except NodeError View
  | ⟨key, some value⟩ => return (← value.render).named (← key.label)
  | ⟨key, none⟩ => key.render

/-- The keys of the second list that are not in the first one, in their order. -/
def newcomers (xs ys : List Keyed) : List Keyed := ys.filter fun y => y.wire ∉ xs.map wire

end Keyed

open Keyed (newcomers)

/-- The entries of a map or a big map, or the elements of a set. -/
def keyed? : Node → Option (List Keyed)
  | collection _ .set _ (some items) => some (items.map .ofElement)
  | map _ _ _ (some entries) => some (entries.map .ofEntry)
  | bigMap _ _ _ _ (some entries) => some (entries.map .ofEntry)
  | _ => none

/-- Is the key shown in a view with one mark on each part of it? -/
def Keyed.IsMarked (x : Keyed) (c : Change) (view : View) : Prop :=
  ∃ shown child, x.shown = .ok shown ∧ child ∈ view.children ∧ Tagged c shown child

/-- The child that a difference has for a key of either list. -/
inductive ChildOf (xs ys : List Keyed) : Keyed → View → Prop
  /-- a key of both maps, with the difference of its two values -/
  | compared {x y : Keyed} {v v' : Node} {view : View} {name : String} (hx : x ∈ xs) (hy : y ∈ ys)
      (hkey : y.wire = x.wire) (hv : x.value? = some v) (hv' : y.value? = some v')
      (hview : v.distinguish v' = .ok view) (hname : x.key.label = .ok name) :
    ChildOf xs ys x (view.named name)
  /-- an element of both sets -/
  | same {x y : Keyed} {view : View} (hx : x ∈ xs) (hy : y ∈ ys) (hkey : y.wire = x.wire)
      (hv : x.value? = none) (hshown : x.shown = .ok view)
      (hmarks : ∀ mark ∈ view.marks, mark = none) : ChildOf xs ys x view
  /-- what is only there before the change -/
  | deleted {x : Keyed} {shown view : View} (hx : x ∈ xs) (hkey : x.wire ∉ ys.map Keyed.wire)
      (hshown : x.shown = .ok shown) (htagged : Tagged .deleted shown view) : ChildOf xs ys x view
  /-- what is only there after the change -/
  | created {y : Keyed} {shown view : View} (hy : y ∈ ys) (hkey : y.wire ∉ xs.map Keyed.wire)
      (hshown : y.shown = .ok shown) (htagged : Tagged .created shown view) : ChildOf xs ys y view

variable {a b c : Node} {xs ys : List Keyed} {x y : Keyed} {items before after : List Node}
  {entries : List (Node × Node)} {entry : Node × Node} {wanted : Micheline} {view : View}
  {views : List View}

/-! ### Search -/

lemma toOption_eq_some {ε α : Type} {x : Except ε α} {a : α} : x.toOption = some a ↔ x = .ok a := by
  cases x <;> simp [Except.toOption]

lemma occursIn_ok {found : Bool} (h : occursIn wanted items = .ok found) :
    found = true ↔ some wanted ∈ (items.map Keyed.ofElement).map Keyed.wire := by
  induction items with
  | nil =>
    cases h
    simp
  | cons item items ih =>
    obtain ⟨w, hw, h⟩ := except_bind_ok.1 h
    have hwire : (Keyed.ofElement item).wire = some w := toOption_eq_some.2 hw
    rw [List.map_cons, List.map_cons, List.mem_cons, hwire, Option.some_inj]
    by_cases heq : w = wanted
    · rw [if_pos heq] at h
      cases h
      simp [heq]
    · rw [if_neg heq] at h
      rw [ih h, or_iff_right (Ne.symm heq)]

/-- What is found of a key is the value of an entry of the key; none is found if no entry has the
key. -/
lemma findEntry_eq_ok {found : Option Node} (h : findEntry wanted entries = .ok found) :
    match found with
    | some value => ∃ y ∈ entries.map Keyed.ofEntry, y.wire = some wanted ∧ y.value? = some value
    | none => some wanted ∉ (entries.map Keyed.ofEntry).map Keyed.wire := by
  induction entries with
  | nil =>
    cases h
    simp
  | cons entry entries ih =>
    obtain ⟨w, hw, h⟩ := except_bind_ok.1 h
    have hwire : (Keyed.ofEntry entry).wire = some w := toOption_eq_some.2 hw
    by_cases heq : w = wanted
    · subst heq
      rw [if_pos rfl] at h
      cases h
      exact ⟨.ofEntry entry, List.mem_cons_self, hwire, rfl⟩
    · rw [if_neg heq] at h
      have ih := ih h
      cases found with
      | some value =>
        obtain ⟨y, hy, hfound⟩ := ih
        exact ⟨y, List.mem_cons_of_mem _ hy, hfound⟩
      | none =>
        rw [List.map_cons, List.map_cons, List.mem_cons, hwire, Option.some_inj]
        exact not_or_intro (Ne.symm heq) ih

/-! ### Children -/

lemma created_ok {n : Node} (h : n.created = .ok view) :
    ∃ shown, n.render = .ok shown ∧ view = shown.tag .created := by
  obtain ⟨shown, hshown, h⟩ := except_bind_ok.1 h
  exact ⟨shown, hshown, (Except.ok.inj h).symm⟩

lemma deleted_ok {n : Node} (h : n.deleted = .ok view) :
    ∃ shown, n.render = .ok shown ∧ view = shown.tag .deleted := by
  obtain ⟨shown, hshown, h⟩ := except_bind_ok.1 h
  exact ⟨shown, hshown, (Except.ok.inj h).symm⟩

lemma childOf_oldElement (hx : c ∈ before) (h : oldElement after c = .ok view) :
    ChildOf (before.map .ofElement) (after.map .ofElement) (.ofElement c) view := by
  obtain ⟨shown, hshown, h⟩ := except_bind_ok.1 h
  obtain ⟨w, hw, h⟩ := except_bind_ok.1 h
  obtain ⟨found, hfound, h⟩ := except_bind_ok.1 h
  have hfound := occursIn_ok hfound
  have hwire : (Keyed.ofElement c).wire = some w := toOption_eq_some.2 hw
  have hmem := List.mem_map_of_mem (f := Keyed.ofElement) hx
  cases found with
  | true =>
    cases h
    obtain ⟨y, hy, hkey⟩ := List.mem_map.1 (hfound.1 rfl)
    exact .same hmem hy (hkey.trans hwire.symm) rfl hshown
      (View.unmarked_of_hasChanges (hasChanges_render hshown)).2
  | false =>
    cases h
    have hnew := mt hfound.2 Bool.false_ne_true
    exact .deleted hmem (hwire ▸ hnew) hshown (tagged_tag (hasChanges_render hshown))

lemma childOf_newElement (hy : c ∈ after) (h : newElement before c = .ok views) :
    if (Keyed.ofElement c).wire ∈ (before.map Keyed.ofElement).map Keyed.wire then views = []
    else ∃ view, views = [view] ∧
      ChildOf (before.map .ofElement) (after.map .ofElement) (.ofElement c) view := by
  obtain ⟨w, hw, h⟩ := except_bind_ok.1 h
  obtain ⟨found, hfound, h⟩ := except_bind_ok.1 h
  have hfound := occursIn_ok hfound
  have hwire : (Keyed.ofElement c).wire = some w := toOption_eq_some.2 hw
  rw [hwire]
  cases found with
  | true =>
    cases h
    rw [if_pos (hfound.1 rfl)]
  | false =>
    have hnew := mt hfound.2 Bool.false_ne_true
    obtain ⟨view, hview, h⟩ := except_bind_ok.1 h
    cases h
    obtain ⟨shown, hshown, rfl⟩ := created_ok hview
    rw [if_neg hnew]
    exact ⟨_, rfl, .created (List.mem_map_of_mem hy) (hwire ▸ hnew) hshown
      (tagged_tag (hasChanges_render hshown))⟩

variable {old new : List (Node × Node)}

lemma childOf_oldEntry (hx : entry ∈ old) (h : oldEntry new entry = .ok view) :
    ChildOf (old.map .ofEntry) (new.map .ofEntry) (.ofEntry entry) view := by
  obtain ⟨w, hw, h⟩ := except_bind_ok.1 h
  obtain ⟨found, hfound, h⟩ := except_bind_ok.1 h
  have hfound := findEntry_eq_ok hfound
  have hwire : (Keyed.ofEntry entry).wire = some w := toOption_eq_some.2 hw
  have hmem := List.mem_map_of_mem (f := Keyed.ofEntry) hx
  cases found with
  | some value =>
    obtain ⟨view, hview, h⟩ := except_bind_ok.1 h
    obtain ⟨name, hname, h⟩ := except_bind_ok.1 h
    cases h
    obtain ⟨y, hy, hkey, hvalue⟩ := hfound
    exact .compared hmem hy (hkey.trans hwire.symm) rfl hvalue hview hname
  | none =>
    obtain ⟨view, hview, h⟩ := except_bind_ok.1 h
    obtain ⟨name, hname, h⟩ := except_bind_ok.1 h
    cases h
    obtain ⟨shown, hshown, rfl⟩ := deleted_ok hview
    refine .deleted hmem (hwire ▸ hfound) ?_ (tagged_tag (hasChanges_render hshown)).named
    exact except_bind_ok.2 ⟨shown, hshown, except_bind_ok.2 ⟨name, hname, rfl⟩⟩

lemma childOf_newEntry (hy : entry ∈ new) (h : newEntry old entry = .ok views) :
    if (Keyed.ofEntry entry).wire ∈ (old.map Keyed.ofEntry).map Keyed.wire then views = []
    else ∃ view, views = [view] ∧
      ChildOf (old.map .ofEntry) (new.map .ofEntry) (.ofEntry entry) view := by
  obtain ⟨w, hw, h⟩ := except_bind_ok.1 h
  obtain ⟨found, hfound, h⟩ := except_bind_ok.1 h
  have hfound := findEntry_eq_ok hfound
  have hwire : (Keyed.ofEntry entry).wire = some w := toOption_eq_some.2 hw
  rw [hwire]
  cases found with
  | some value =>
    cases h
    obtain ⟨y, hy, hkey, -⟩ := hfound
    rw [if_pos (List.mem_map.2 ⟨y, hy, hkey⟩)]
  | none =>
    obtain ⟨view, hview, h⟩ := except_bind_ok.1 h
    obtain ⟨name, hname, h⟩ := except_bind_ok.1 h
    cases h
    obtain ⟨shown, hshown, rfl⟩ := created_ok hview
    rw [if_neg hfound]
    refine ⟨_, rfl, .created (List.mem_map_of_mem hy) (hwire ▸ hfound) ?_
      (tagged_tag (hasChanges_render hshown)).named⟩
    exact except_bind_ok.2 ⟨shown, hshown, except_bind_ok.2 ⟨name, hname, rfl⟩⟩

lemma forall₂_filter_flatten {α β : Type} {R : α → β → Prop} {p : α → Prop} [DecidablePred p]
    {as : List α} {bss : List (List β)}
    (h : List.Forall₂ (fun a bs => if p a then bs = [] else ∃ b, bs = [b] ∧ R a b) as bss) :
    List.Forall₂ R (as.filter fun a => ¬ p a) bss.flatten := by
  induction h with
  | nil => exact .nil
  | @cons a bs as bss hbs _ ih =>
    by_cases ha : p a
    · obtain rfl : bs = [] := (if_pos ha).mp hbs
      rw [List.filter_cons_of_neg (by simpa using ha)]
      exact ih
    · obtain ⟨b, rfl, hb⟩ : ∃ b, bs = [b] ∧ R a b := (if_neg ha).mp hbs
      rw [List.filter_cons_of_pos (by simpa using ha)]
      exact .cons hb ih

/-- The children of the old keys come first, and behind them those of the new keys. -/
lemma forall₂_childOf {α : Type} {make : α → Keyed} {before after : List α}
    {shownOld : α → Except NodeError View} {shownNew : α → Except NodeError (List View)}
    {olds : List View} {news : List (List View)}
    (hold : ∀ x ∈ before, ∀ {view}, shownOld x = .ok view →
      ChildOf (before.map make) (after.map make) (make x) view)
    (hnew : ∀ y ∈ after, ∀ {views}, shownNew y = .ok views →
      if (make y).wire ∈ (before.map make).map Keyed.wire then views = []
      else ∃ view, views = [view] ∧ ChildOf (before.map make) (after.map make) (make y) view)
    (holds : before.mapM shownOld = .ok olds) (hnews : after.mapM shownNew = .ok news) :
    List.Forall₂ (ChildOf (before.map make) (after.map make))
      (before.map make ++ newcomers (before.map make) (after.map make)) (olds ++ news.flatten) := by
  have holds := (List.forall₂_and_left _ _).2 ⟨fun _ hx => hx, mapM_ok.1 holds⟩
  have hnews := (List.forall₂_and_left _ _).2 ⟨fun _ hy => hy, mapM_ok.1 hnews⟩
  refine List.rel_append ?_ (forall₂_filter_flatten ?_)
  · exact List.forall₂_map_left_iff.2 (holds.imp fun x _ ⟨hx, h⟩ => hold x hx h)
  · exact List.forall₂_map_left_iff.2 (hnews.imp fun y _ ⟨hy, h⟩ => hnew y hy h)

lemma children_markPointers {p p' : Option Int} :
    (markPointers p p' view).children = view.children := by
  unfold markPointers
  split <;> rfl

lemma forall₂_entries {old new : List (Node × Node)} {olds news : List View}
    (holds : oldEntries old new = .ok olds) (hnews : newEntries old new = .ok news) :
    List.Forall₂ (ChildOf (old.map .ofEntry) (new.map .ofEntry))
      (old.map .ofEntry ++ newcomers (old.map .ofEntry) (new.map .ofEntry)) (olds ++ news) := by
  obtain ⟨raw, hraw, h⟩ := except_bind_ok.1 hnews
  cases h
  have hraw : new.mapM (newEntry old) = .ok raw := hraw
  exact forall₂_childOf (fun _ hx _ => childOf_oldEntry hx) (fun _ hy _ => childOf_newEntry hy)
    (oldEntries_eq ▸ holds) hraw

lemma equalType_of_distinguish (h : a.distinguish b = .ok view) : a.equalType b = true := by
  by_contra htype
  rw [distinguish.eq_def, if_neg htype] at h
  cases h

/-- **The children of a difference** belong to the keys of both maps, or to the elements of both
sets. -/
lemma children_distinguish (ha : a.keyed? = some xs) (hb : b.keyed? = some ys)
    (h : a.distinguish b = .ok view) :
    List.Forall₂ (ChildOf xs ys) (xs ++ newcomers xs ys) view.children := by
  have htype := equalType_of_distinguish h
  unfold keyed? at ha
  split at ha
  · next s elem before =>
    cases ha
    unfold keyed? at hb
    split at hb
    · next s' elem' after =>
      cases hb
      rw [distinguish, if_pos htype] at h
      obtain ⟨shown, hshown, h⟩ := except_bind_ok.1 h
      obtain ⟨views, hviews, h⟩ := except_bind_ok.1 h
      cases h
      obtain ⟨olds, holds, hviews⟩ := except_bind_ok.1 hviews
      obtain ⟨news, hnews, hviews⟩ := except_bind_ok.1 hviews
      cases hviews
      have holds : before.mapM (oldElement after) = .ok olds := holds
      have hnews : after.mapM (newElement before) = .ok news := hnews
      exact forall₂_childOf (fun _ hx _ => childOf_oldElement hx)
        (fun _ hy _ => childOf_newElement hy) holds hnews
    · cases htype
    · cases htype
    · cases hb
  · next s key value old =>
    cases ha
    unfold keyed? at hb
    split at hb
    · cases htype
    · next s' key' value' new =>
      cases hb
      rw [distinguish, if_pos htype] at h
      obtain ⟨olds, holds, h⟩ := except_bind_ok.1 h
      obtain ⟨news, hnews, h⟩ := except_bind_ok.1 h
      cases h
      exact forall₂_entries holds hnews
    · cases htype
    · cases hb
  · next s key value p old =>
    cases ha
    unfold keyed? at hb
    split at hb
    · cases htype
    · cases htype
    · next s' key' value' p' new =>
      cases hb
      rw [distinguish, if_pos htype] at h
      obtain ⟨olds, holds, h⟩ := except_bind_ok.1 h
      obtain ⟨news, hnews, h⟩ := except_bind_ok.1 h
      cases h
      rw [children_markPointers]
      exact forall₂_entries holds hnews
    · cases hb
  · cases ha

/-! ### Keys of one side -/

lemma mem_newcomers : y ∈ newcomers xs ys ↔ y ∈ ys ∧ y.wire ∉ xs.map Keyed.wire := by
  simp [newcomers]

lemma exists_childOf (h : List.Forall₂ (ChildOf xs ys) (xs ++ newcomers xs ys) views)
    (hx : x ∈ xs ++ newcomers xs ys) : ∃ child ∈ views, ChildOf xs ys x child :=
  exists_mem_of_forall₂ (List.Forall₂.flip h) hx

lemma isMarked_created (h : List.Forall₂ (ChildOf xs ys) (xs ++ newcomers xs ys) view.children)
    (hy : y ∈ newcomers xs ys) : y.IsMarked .created view := by
  obtain ⟨child, hmem, hchild⟩ := exists_childOf h (List.mem_append_right _ hy)
  have hnot : y ∉ xs := fun hxs => (mem_newcomers.1 hy).2 (List.mem_map_of_mem hxs)
  cases hchild with
  | compared hx | same hx | deleted hx => exact absurd hx hnot
  | created _ _ hshown htagged => exact ⟨_, child, hshown, hmem, htagged⟩

lemma isMarked_deleted (h : List.Forall₂ (ChildOf xs ys) (xs ++ newcomers xs ys) view.children)
    (hx : x ∈ newcomers ys xs) : x.IsMarked .deleted view := by
  obtain ⟨hxs, hnot⟩ := mem_newcomers.1 hx
  obtain ⟨child, hmem, hchild⟩ := exists_childOf h (List.mem_append_left _ hxs)
  cases hchild with
  | compared _ hy hkey | same _ hy hkey => exact absurd (List.mem_map.2 ⟨_, hy, hkey⟩) hnot
  | deleted _ _ hshown htagged => exact ⟨_, child, hshown, hmem, htagged⟩
  | created _ hkey => exact absurd (List.mem_map_of_mem hxs) hkey

/-- A view has one child for each key of either list: those of the first list in their order, and
behind them those that are only in the second one. -/
structure PairedByKey (xs ys : List Keyed) (view : View) : Prop where
  nodup : ((xs ++ newcomers xs ys).map Keyed.wire).Nodup
  mem_iff (k : Option Micheline) : k ∈ (xs ++ newcomers xs ys).map Keyed.wire ↔
    k ∈ xs.map Keyed.wire ∨ k ∈ ys.map Keyed.wire
  children : List.Forall₂ (ChildOf xs ys) (xs ++ newcomers xs ys) view.children

lemma nodup_union (hxs : (xs.map Keyed.wire).Nodup) (hys : (ys.map Keyed.wire).Nodup) :
    ((xs ++ newcomers xs ys).map Keyed.wire).Nodup := by
  rw [List.map_append]
  refine hxs.append (hys.sublist (List.filter_sublist.map _)) ?_
  intro k hk hnew
  obtain ⟨y, hy, rfl⟩ := List.mem_map.1 hnew
  exact (mem_newcomers.1 hy).2 hk

lemma mem_union {k : Option Micheline} : k ∈ (xs ++ newcomers xs ys).map Keyed.wire ↔
    k ∈ xs.map Keyed.wire ∨ k ∈ ys.map Keyed.wire := by
  rw [List.map_append, List.mem_append]
  constructor
  · exact Or.imp_right fun hnew => (List.filter_sublist.map _).subset hnew
  · rintro (hk | hk)
    · exact .inl hk
    · obtain ⟨y, hy, rfl⟩ := List.mem_map.1 hk
      by_cases hold : y.wire ∈ xs.map Keyed.wire
      · exact .inl hold
      · exact .inr (List.mem_map_of_mem (mem_newcomers.2 ⟨hy, hold⟩))

/-- **Differences pair by key**: the difference of two maps without repeated keys, or of two sets
without repeated elements, has one child for each key of either one. What is only on one side is
created in one direction and deleted in the other, and every part of it is marked so. -/
theorem distinguish_keyed (ha : a.keyed? = some xs) (hb : b.keyed? = some ys)
    (hxs : (xs.map Keyed.wire).Nodup) (hys : (ys.map Keyed.wire).Nodup)
    (h : a.distinguish b = .ok view) :
    PairedByKey xs ys view ∧ ∀ back, b.distinguish a = .ok back →
      (∀ y ∈ newcomers xs ys, y.IsMarked .created view ∧ y.IsMarked .deleted back) ∧
      ∀ x ∈ newcomers ys xs, x.IsMarked .deleted view ∧ x.IsMarked .created back := by
  have hchildren := children_distinguish ha hb h
  refine ⟨⟨nodup_union hxs hys, fun _ => mem_union, hchildren⟩, fun back hback => ?_⟩
  have hchildren' := children_distinguish hb ha hback
  exact ⟨fun y hy => ⟨isMarked_created hchildren hy, isMarked_deleted hchildren' hy⟩,
    fun x hx => ⟨isMarked_deleted hchildren hx, isMarked_created hchildren' hx⟩⟩

def tab : Micheline :=
  .prim "big_map" [.prim "string" [] [],
    .prim "pair" [.prim "nat" [] ["%owed"], .prim "nat" [] ["%paid"]] []] []

def tabEntry (name owed paid : String) : Micheline :=
  .elt (.string name, .data .pair [.int owed, .int paid])

theorem distinguish_keyed_tab :
    ∃ n a b xs ys view back, ofTypeAt "0" tab = .ok n ∧
      n.settle (.seq [tabEntry "ann" "1" "1", tabEntry "bob" "2" "0"]) = .ok a ∧
      n.settle (.seq [tabEntry "cid" "7" "7", tabEntry "ann" "3" "1"]) = .ok b ∧
      a.keyed? = some xs ∧ b.keyed? = some ys ∧
      a.distinguish b = .ok view ∧ b.distinguish a = .ok back ∧
      xs.map Keyed.wire = [some (.string "ann"), some (.string "bob")] ∧
      ys.map Keyed.wire = [some (.string "cid"), some (.string "ann")] ∧
      PairedByKey xs ys view ∧
      (∀ y ∈ newcomers xs ys, y.IsMarked .created view ∧ y.IsMarked .deleted back) ∧
      ∀ x ∈ newcomers ys xs, x.IsMarked .deleted view ∧ x.IsMarked .created back := by
  have hrun : (do
      let n ← ofTypeAt "0" tab
      let a ← n.settle (.seq [tabEntry "ann" "1" "1", tabEntry "bob" "2" "0"])
      let b ← n.settle (.seq [tabEntry "cid" "7" "7", tabEntry "ann" "3" "1"])
      let _ ← a.distinguish b
      let _ ← b.distinguish a
      return (a.keyed?.map (List.map Keyed.wire),
        b.keyed?.map (List.map Keyed.wire))).toOption =
      some (some [some (.string "ann"), some (.string "bob")],
        some [some (.string "cid"), some (.string "ann")]) := by decide +kernel
  obtain ⟨n, htype, hrun⟩ := except_bind_ok.1 (except_ok_of_toOption hrun)
  obtain ⟨a, ha, hrun⟩ := except_bind_ok.1 hrun
  obtain ⟨b, hb, hrun⟩ := except_bind_ok.1 hrun
  obtain ⟨view, hview, hrun⟩ := except_bind_ok.1 hrun
  obtain ⟨back, hback, hrun⟩ := except_bind_ok.1 hrun
  obtain ⟨hkeys, hkeys'⟩ := Prod.mk.inj (Except.ok.inj hrun)
  obtain ⟨xs, hxs, hwires⟩ := Option.map_eq_some_iff.1 hkeys
  obtain ⟨ys, hys, hwires'⟩ := Option.map_eq_some_iff.1 hkeys'
  obtain ⟨hpaired, hmarked⟩ := distinguish_keyed hxs hys (hwires ▸ by decide)
    (hwires' ▸ by decide) hview
  exact ⟨n, a, b, xs, ys, view, back, htype, ha, hb, hxs, hys, hview, hback, hwires, hwires',
    hpaired, hmarked back hback⟩

end Node

end Lineage
