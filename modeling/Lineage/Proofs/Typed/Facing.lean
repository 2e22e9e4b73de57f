import Lineage.Proofs.Typed.Pairing

/-!
# What differences compare

A difference of two values is made of the differences of parts that face each other (`Faces`): the
fields of pairs one by one, alternatives at one path, items of lists by position, values of maps by
key. Equal types are asked for at each of these comparisons, and this is the only thing that goes
wrong with two values that can be shown (`distinguish_failsOnly`). So two values have a difference
exactly if all parts that are compared, however far down, have equal types
(`exists_distinguish_iff`).
-/

namespace Lineage.Node

/-- Two parts of two values face each other: their difference is part of the difference of the
values. -/
inductive Faces (c d : Node) : Node → Node → Prop
  | content {s s' : Site} : Faces c d (.ticket s c) (.ticket s' d)
  | present {s s' : Site} : Faces c d (.option s c (some true)) (.option s' d (some true))
  | field {s s' : Site} {l r l' r' : Node}
      (h : (c, d) ∈ (pair s l r).pairFields.zip (pair s' l' r').pairFields) :
    Faces c d (.pair s l r) (.pair s' l' r')
  | alternative {s s' : Site} {l r l' r' : Node} {side side' : Option Side}
      (hc : (or s l r side).chosenAlternative? = some c)
      (hd : (or s' l' r' side').chosenAlternative? = some d) (hpath : c.path = d.path)
      (hshown : (or s' l' r' side').isEnumeration = false) :
    Faces c d (.or s l r side) (.or s' l' r' side')
  | item {s s' : Site} {elem elem' : Node} {items items' : List Node}
      (h : (c, d) ∈ items.zip items') :
    Faces c d (.collection s .list elem (some items)) (.collection s' .list elem' (some items'))
  | value {s s' : Site} {key value key' value' k : Node} {w : Micheline}
      {old new : List (Node × Node)} (he : (k, c) ∈ old) (hk : k.toWire false = .ok w)
      (hfind : findEntry w new = .ok (some d)) :
    Faces c d (.map s key value (some old)) (.map s' key' value' (some new))
  | entry {s s' : Site} {key value key' value' k : Node} {p p' : Option Int} {w : Micheline}
      {old new : List (Node × Node)} (he : (k, c) ∈ old) (hk : k.toWire false = .ok w)
      (hfind : findEntry w new = .ok (some d)) :
    Faces c d (.bigMap s key value p (some old)) (.bigMap s' key' value' p' (some new))

/-- **What is compared**: the two values, and what is compared in parts that face each other. -/
inductive Compared (c d : Node) : Node → Node → Prop
  | self : Compared c d c d
  | part {a b i j : Node} (hpart : Faces i j a b) (h : Compared c d i j) : Compared c d a b

/-- A value that is bound in full and can be shown. -/
structure Viewable (n : Node) : Prop where
  bound : n.Bound
  shown : n.Shown

variable {a b c d : Node} {E : NodeError → Prop} {items items' : List Node}
  {old new : List (Node × Node)} {view : View} {views : List View} {w : Micheline}

/-! ### Parts that face each other -/

lemma exists_of_findEntry (h : findEntry w old = .ok (some d)) : ∃ entry ∈ old, entry.2 = d := by
  obtain ⟨y, hy, -, hvalue⟩ := findEntry_eq_ok h
  obtain ⟨entry, hentry, rfl⟩ := List.mem_map.1 hy
  exact ⟨entry, hentry, Option.some.inj hvalue⟩

lemma Faces.sizeOf_lt (h : Faces c d a b) : sizeOf c < sizeOf a := by
  cases h with
  | content | present => exact sizeOf_lt_of_mem_typeChildren List.mem_cons_self
  | field h => exact sizeOf_lt_of_mem_pairFields (List.of_mem_zip h).1
  | alternative hc => exact sizeOf_lt_of_chosenAlternative hc
  | item h => exact sizeOf_lt_collection (List.of_mem_zip h).1
  | value he => exact (sizeOf_lt_map he).2
  | entry he => exact (sizeOf_lt_bigMap he).2

lemma exists_leads_of_asChosen? (h : a.asChosen? = some c) : ∃ sides, Leads a sides c := by
  induction a using innerInduction with
  | alternative a ha =>
    rw [asChosen?_of_alternative ha] at h
    exact ⟨[], Option.some.inj h ▸ .here ha⟩
  | inner s l r side hs ihl ihr =>
    obtain _ | _ | _ := side <;> rw [asChosen?, if_pos hs] at h
    · cases h
    · obtain ⟨sides, hlead⟩ := ihl h
      exact ⟨_, .left hs hlead⟩
    · obtain ⟨sides, hlead⟩ := ihr h
      exact ⟨_, .right hs hlead⟩

lemma exists_mem_orAlternatives (h : a.chosenAlternative? = some c) :
    ∃ sides, (sides, c) ∈ a.orAlternatives := by
  cases a with
  | or s l r side =>
    obtain _ | _ | _ := side
    · cases h
    · obtain ⟨sides, hlead⟩ := exists_leads_of_asChosen? h
      exact ⟨_, mem_orAlternatives.2 (.inl ⟨sides, rfl, hlead⟩)⟩
    · obtain ⟨sides, hlead⟩ := exists_leads_of_asChosen? h
      exact ⟨_, mem_orAlternatives.2 (.inr ⟨sides, rfl, hlead⟩)⟩
  | _ => cases h

lemma Bound.shown_of_isUnit (h : c.Bound) (hunit : c.isUnit = true) : c.Shown := by
  cases h with
  | @scalar s type =>
    cases type with
    | unit => exact ⟨_, by rw [render]; rfl⟩
    | _ => cases hunit
  | _ => cases hunit

/-- An alternative can be shown, even if nothing but its name is shown. -/
lemma Viewable.chosenAlternative (ha : a.Viewable) (hor : a.isOr = true)
    (hc : a.chosenAlternative? = some c) : c.Viewable := by
  obtain ⟨c', hc', hbound⟩ := ha.bound.chosenAlternative? hor
  obtain rfl := Option.some.inj (hc'.symm.trans hc)
  obtain ⟨view, hview⟩ := ha.shown
  obtain ⟨henum, -⟩ | ⟨-, -, hshown⟩ := render_or_ok hor hc hview
  · obtain ⟨sides, hmem⟩ := exists_mem_orAlternatives hc
    exact ⟨hbound, hbound.shown_of_isUnit (isUnit_of_isEnumeration hor henum _ hmem)⟩
  · exact ⟨hbound, hshown⟩

lemma Viewable.field (ha : a.Viewable) (hpair : a.isPair = true) :
    ∀ field ∈ a.pairFields, field.Viewable := by
  cases a with
  | pair s l r => exact fun c hc => ⟨ha.bound.pairFields c hc, ha.shown.field rfl c hc⟩
  | _ => cases hpair

lemma Viewable.item {s : Site} {kind : Collection} {elem : Node}
    (ha : (collection s kind elem (some items)).Viewable) : ∀ item ∈ items, item.Viewable := by
  cases ha.bound with
  | collection hbound => exact fun item hitem => ⟨hbound item hitem, ha.shown.item item hitem⟩

/-- An entry of a map whose value can be shown under a name. -/
structure ViewableEntry (entry : Node × Node) : Prop where
  key : entry.1.Bound
  value : entry.2.Viewable
  label : ∃ name, entry.1.label = .ok name

lemma Viewable.entry_of_map {s : Site} {key value : Node}
    (ha : (map s key value (some old)).Viewable) : ∀ entry ∈ old, ViewableEntry entry := by
  cases ha.bound with
  | map hk hv =>
    intro entry he
    obtain ⟨hvalue, hlabel⟩ := ha.shown.entry_of_map entry he
    exact ⟨hk entry he, ⟨hv entry he, hvalue⟩, hlabel⟩

lemma Viewable.entry_of_bigMap {s : Site} {key value : Node} {pointer : Option Int}
    {entries : Option (List (Node × Node))} (ha : (bigMap s key value pointer entries).Viewable) :
    ∀ entry ∈ entries.getD [], ViewableEntry entry := by
  cases ha.bound with
  | pointer => exact nofun
  | entries hk hv =>
    intro entry he
    obtain ⟨hvalue, hlabel⟩ := ha.shown.entry_of_bigMap entry he
    exact ⟨hk entry he, ⟨hv entry he, hvalue⟩, hlabel⟩

lemma Faces.viewable (h : Faces c d a b) (ha : a.Viewable) (hb : b.Viewable) :
    c.Viewable ∧ d.Viewable := by
  have hentries : ∀ {k w} {old new : List (Node × Node)}, (∀ entry ∈ old, ViewableEntry entry) →
      (∀ entry ∈ new, ViewableEntry entry) → (k, c) ∈ old → findEntry w new = .ok (some d) →
      c.Viewable ∧ d.Viewable := by
    intro k w old new hold hnew he hfind
    obtain ⟨entry, hentry, rfl⟩ := exists_of_findEntry hfind
    exact ⟨(hold _ he).value, (hnew entry hentry).value⟩
  cases h with
  | content =>
    cases ha.bound with
    | ticket hc =>
      cases hb.bound with
      | ticket hd => exact ⟨⟨hc, ha.shown.of_ticket⟩, ⟨hd, hb.shown.of_ticket⟩⟩
  | present =>
    cases ha.bound with
    | present hc =>
      cases hb.bound with
      | present hd => exact ⟨⟨hc, ha.shown.of_option⟩, ⟨hd, hb.shown.of_option⟩⟩
  | field h =>
    obtain ⟨hc, hd⟩ := List.of_mem_zip h
    exact ⟨ha.field rfl _ hc, hb.field rfl _ hd⟩
  | alternative hc hd => exact ⟨ha.chosenAlternative rfl hc, hb.chosenAlternative rfl hd⟩
  | item h =>
    obtain ⟨hc, hd⟩ := List.of_mem_zip h
    exact ⟨ha.item _ hc, hb.item _ hd⟩
  | value he _ hfind => exact hentries ha.entry_of_map hb.entry_of_map he hfind
  | entry he _ hfind => exact hentries ha.entry_of_bigMap hb.entry_of_bigMap he hfind

/-! ### What goes wrong with a difference -/

lemma failsOnly_of_exists {α : Type} {x : Except NodeError α} (h : ∃ a, x = .ok a) :
    FailsOnly E x := by
  obtain ⟨a, rfl⟩ := h
  exact failsOnly_ok a

lemma Viewable.failsOnly_created (h : a.Viewable) : FailsOnly E a.created := by
  obtain ⟨view, hview, -⟩ := h.shown.created
  exact failsOnly_of_exists ⟨view, hview⟩

lemma Viewable.failsOnly_deleted (h : a.Viewable) : FailsOnly E a.deleted := by
  obtain ⟨view, hview, -⟩ := h.shown.deleted
  exact failsOnly_of_exists ⟨view, hview⟩

lemma Viewable.failsOnly_updated (ha : a.Viewable) (hb : b.Viewable) :
    FailsOnly E (a.updated b) := by
  obtain ⟨w, hw⟩ := ha.bound.exists_toWire false
  obtain ⟨view, hview, -⟩ := ha.shown.updated hw hb.shown
  exact failsOnly_of_exists ⟨view, hview⟩

lemma Bound.failsOnly_toWire (h : a.Bound) : FailsOnly E (a.toWire false) :=
  failsOnly_of_exists (h.exists_toWire false)

lemma failsOnly_occursIn (h : ∀ item ∈ items, item.Bound) : FailsOnly E (occursIn w items) := by
  induction items with
  | nil => exact failsOnly_ok _
  | cons item items ih =>
    obtain ⟨hitem, hitems⟩ := List.forall_mem_cons.1 h
    refine failsOnly_bind hitem.failsOnly_toWire fun w' _ => ?_
    split
    · exact failsOnly_ok _
    · exact ih hitems

lemma failsOnly_findEntry (h : ∀ entry ∈ old, entry.1.Bound) : FailsOnly E (findEntry w old) := by
  induction old with
  | nil => exact failsOnly_ok _
  | cons entry old ih =>
    obtain ⟨hentry, hold⟩ := List.forall_mem_cons.1 h
    refine failsOnly_bind hentry.failsOnly_toWire fun w' _ => ?_
    split
    · exact failsOnly_ok _
    · exact ih hold

lemma failsOnly_distinguishItems (hitems : ∀ item ∈ items, item.Viewable)
    (hitems' : ∀ item ∈ items', item.Viewable)
    (h : ∀ p ∈ items.zip items', FailsOnly E (p.1.distinguish p.2)) :
    FailsOnly E (distinguishItems items items') := by
  induction items generalizing items' with
  | nil =>
    rw [distinguishItems]
    exact failsOnly_mapM fun item hitem => (hitems' item hitem).failsOnly_created
  | cons x items ih =>
    obtain ⟨hx, hitems⟩ := List.forall_mem_cons.1 hitems
    cases items' with
    | nil =>
      rw [distinguishItems]
      exact failsOnly_bind hx.failsOnly_deleted fun _ _ =>
        failsOnly_bind (ih hitems (List.forall_mem_nil _) (by simp)) fun _ _ => failsOnly_ok _
    | cons y items' =>
      rw [List.zip_cons_cons, List.forall_mem_cons] at h
      rw [distinguishItems]
      exact failsOnly_bind h.1 fun _ _ =>
        failsOnly_bind (ih hitems (List.forall_mem_cons.1 hitems').2 h.2) fun _ _ => failsOnly_ok _

lemma failsOnly_distinguishElements (hitems : ∀ item ∈ items, item.Viewable)
    (hitems' : ∀ item ∈ items', item.Viewable) :
    FailsOnly E (distinguishElements items items') := by
  refine failsOnly_bind (failsOnly_mapM fun x hx => ?_) fun _ _ =>
    failsOnly_bind (failsOnly_mapM fun y hy => ?_) fun _ _ => failsOnly_ok _
  · refine failsOnly_bind (failsOnly_of_exists (hitems x hx).shown) fun _ _ =>
      failsOnly_bind (hitems x hx).bound.failsOnly_toWire fun _ _ =>
        failsOnly_bind (failsOnly_occursIn fun item hi => (hitems' item hi).bound) fun _ _ => ?_
    split <;> exact failsOnly_ok _
  · refine failsOnly_bind (hitems' y hy).bound.failsOnly_toWire fun _ _ =>
      failsOnly_bind (failsOnly_occursIn fun item hi => (hitems item hi).bound) fun _ _ => ?_
    split
    · exact failsOnly_ok _
    · exact failsOnly_bind (hitems' y hy).failsOnly_created fun _ _ => failsOnly_ok _

lemma failsOnly_oldEntries (hold : ∀ entry ∈ old, ViewableEntry entry)
    (hnew : ∀ entry ∈ new, ViewableEntry entry)
    (h : ∀ k c, (k, c) ∈ old → ∀ w d, k.toWire false = .ok w → findEntry w new = .ok (some d) →
      FailsOnly E (c.distinguish d)) : FailsOnly E (oldEntries old new) := by
  rw [oldEntries_eq]
  refine failsOnly_mapM fun entry he => ?_
  obtain ⟨hkey, hvalue, hlabel⟩ := hold entry he
  refine failsOnly_bind hkey.failsOnly_toWire fun w hw =>
    failsOnly_bind (failsOnly_findEntry fun entry he => (hnew entry he).key) fun found hfound => ?_
  cases found with
  | some d =>
    exact failsOnly_bind (h entry.1 entry.2 he w d hw hfound) fun _ _ =>
      failsOnly_bind (failsOnly_of_exists hlabel) fun _ _ => failsOnly_ok _
  | none =>
    exact failsOnly_bind hvalue.failsOnly_deleted fun _ _ =>
      failsOnly_bind (failsOnly_of_exists hlabel) fun _ _ => failsOnly_ok _

lemma failsOnly_newEntries (hold : ∀ entry ∈ old, ViewableEntry entry)
    (hnew : ∀ entry ∈ new, ViewableEntry entry) : FailsOnly E (newEntries old new) := by
  refine failsOnly_bind (failsOnly_mapM fun entry he => ?_) fun _ _ => failsOnly_ok _
  obtain ⟨hkey, hvalue, hlabel⟩ := hnew entry he
  refine failsOnly_bind hkey.failsOnly_toWire fun w hw =>
    failsOnly_bind (failsOnly_findEntry fun entry he => (hold entry he).key) fun found hfound => ?_
  split
  · exact failsOnly_ok _
  · exact failsOnly_bind hvalue.failsOnly_created fun _ _ =>
      failsOnly_bind (failsOnly_of_exists hlabel) fun _ _ => failsOnly_ok _

/-- **A step into the parts**: with two values of equal types that can be shown, nothing goes wrong
but what goes wrong with parts that face each other. -/
theorem failsOnly_distinguish (ha : a.Viewable) (hb : b.Viewable) (htype : a.equalType b = true)
    (h : ∀ c d, Faces c d a b → FailsOnly E (c.distinguish d)) :
    FailsOnly E (a.distinguish b) := by
  have hview : FailsOnly E b.render := failsOnly_of_exists hb.shown
  by_cases hleaf : a.isLeaf = true
  · obtain ⟨w, hw⟩ := ha.bound.exists_toWire false
    obtain ⟨w', hw'⟩ := hb.bound.exists_toWire false
    rw [distinguish_of_isLeaf hleaf htype hw hw']
    split
    · exact hview
    · exact ha.failsOnly_updated hb
  cases a with
  | scalar | contract | lambda => exact absurd rfl hleaf
  | ticket s c =>
    cases b <;> try cases htype
    rw [distinguish, if_pos htype]
    exact failsOnly_bind hview fun _ _ =>
      failsOnly_bind (h _ _ .content) fun _ _ => failsOnly_ok _
  | option s c present =>
    cases b <;> try cases htype
    cases ha.bound <;> cases hb.bound <;> rw [distinguish.eq_def, if_pos htype]
    · exact hview
    · exact hb.failsOnly_created
    · exact ha.failsOnly_deleted
    · exact failsOnly_bind (h _ _ .present) fun _ _ => failsOnly_ok _
  | pair s l r =>
    cases b <;> try cases htype
    rw [distinguish_pair htype]
    exact failsOnly_bind hview fun _ _ =>
      failsOnly_bind (failsOnly_mapM fun p hp => h p.1 p.2 (.field hp)) fun _ _ => failsOnly_ok _
  | or s l r side =>
    cases b <;> try cases htype
    obtain ⟨c, hc, -⟩ := ha.bound.chosenAlternative? rfl
    obtain ⟨d, hd, -⟩ := hb.bound.chosenAlternative? rfl
    rw [distinguish_of_isOr rfl rfl htype hc hd]
    split
    · next hpath =>
      refine failsOnly_bind hview fun view hrender => ?_
      obtain ⟨-, hempty⟩ | ⟨hshown, hempty, -⟩ := render_or_ok rfl hd hrender
      · rw [if_pos hempty]
        exact failsOnly_ok _
      · rw [if_neg (Bool.eq_false_iff.1 hempty)]
        exact failsOnly_bind (h c d (.alternative hc hd hpath hshown)) fun _ _ => failsOnly_ok _
    · exact ha.failsOnly_updated hb
  | collection s kind elem items =>
    cases b <;> try cases htype
    next s' kind' elem' items' =>
    obtain rfl := of_decide_eq_true (Bool.and_eq_true_iff.1 htype).1
    cases ha.bound with
    | @collection _ _ _ items =>
      cases hb.bound with
      | @collection _ _ _ items' =>
        cases kind with
        | list =>
          rw [distinguish, if_pos htype]
          refine failsOnly_bind hview fun _ _ => failsOnly_bind ?_ fun _ _ => failsOnly_ok _
          exact failsOnly_distinguishItems ha.item hb.item fun p hp => h p.1 p.2 (.item hp)
        | set =>
          rw [distinguish, if_pos htype]
          exact failsOnly_bind hview fun _ _ =>
            failsOnly_bind (failsOnly_distinguishElements ha.item hb.item) fun _ _ => failsOnly_ok _
  | map s key value entries =>
    cases b <;> try cases htype
    cases ha.bound with
    | @map old =>
      cases hb.bound with
      | @map new =>
        rw [distinguish, if_pos htype]
        refine failsOnly_bind ?_ fun _ _ => failsOnly_bind ?_ fun _ _ => failsOnly_ok _
        · exact failsOnly_oldEntries ha.entry_of_map hb.entry_of_map fun k c he w d hk hfind =>
            h c d (.value he hk hfind)
        · exact failsOnly_newEntries ha.entry_of_map hb.entry_of_map
  | bigMap s key value pointer entries =>
    cases b <;> try cases htype
    next s' key' value' pointer' entries' =>
    have hold := ha.entry_of_bigMap
    have hnew := hb.entry_of_bigMap
    have hshown : ∀ olds : List View, FailsOnly E (do
        let news ← newEntries (entries.getD []) (entries'.getD [])
        return markPointers pointer pointer'
          { (bigMap s' key' value' pointer' entries').mapShell pointer' with
            children := olds ++ news }) := fun _ =>
      failsOnly_bind (failsOnly_newEntries hold hnew) fun _ _ => failsOnly_ok _
    rw [distinguish, if_pos htype]
    cases entries with
    | none => exact hshown []
    | some old =>
      refine failsOnly_bind (failsOnly_oldEntries hold hnew ?_) fun olds _ => hshown olds
      intro k c he w d hk hfind
      cases entries' with
      | none => cases hfind
      | some new => exact h c d (.entry he hk hfind)

/-- **What goes wrong with a difference** of two values that can be shown: parts are compared whose
types are not equal, and nothing else. -/
theorem distinguish_failsOnly (ha : a.Viewable) (hb : b.Viewable) :
    FailsOnly (fun e => ∃ c d, Compared c d a b ∧ c.equalType d = false ∧
      e = .notComparable c.prim d.prim) (a.distinguish b) := by
  induction a using sizeInduction generalizing b with
  | step a ih =>
    by_cases htype : a.equalType b = true
    · refine failsOnly_distinguish ha hb htype fun c d hface => ?_
      obtain ⟨hc, hd⟩ := hface.viewable ha hb
      refine (ih c hface.sizeOf_lt hc hd).imp ?_
      rintro e ⟨c', d', hcompared, hne, rfl⟩
      exact ⟨c', d', .part hface hcompared, hne, rfl⟩
    · rw [distinguish.eq_def, if_neg htype]
      rintro e ⟨⟩
      exact ⟨a, b, .self, Bool.eq_false_iff.2 htype, rfl⟩

/-! ### What a difference is made of -/

lemma exists_distinguish_item (h : distinguishItems items items' = .ok views)
    (hitem : (c, d) ∈ items.zip items') : ∃ view, c.distinguish d = .ok view := by
  induction items generalizing items' views with
  | nil => cases hitem
  | cons x items ih =>
    cases items' with
    | nil => cases hitem
    | cons y items' =>
      rw [distinguishItems] at h
      obtain ⟨view, hview, h⟩ := except_bind_ok.1 h
      obtain ⟨rest, hrest, -⟩ := except_bind_ok.1 h
      rw [List.zip_cons_cons, List.mem_cons, Prod.mk.injEq] at hitem
      obtain ⟨rfl, rfl⟩ | hitem := hitem
      · exact ⟨view, hview⟩
      · exact ih hrest hitem

lemma exists_distinguish_value {k : Node} (h : oldEntries old new = .ok views)
    (he : (k, c) ∈ old) (hk : k.toWire false = .ok w) (hfind : findEntry w new = .ok (some d)) :
    ∃ view, c.distinguish d = .ok view := by
  rw [oldEntries_eq, mapM_ok] at h
  obtain ⟨view, -, hview⟩ := exists_mem_of_forall₂ h.flip he
  obtain ⟨w', hw', hview⟩ := except_bind_ok.1 hview
  obtain rfl := Except.ok.inj (hw'.symm.trans hk)
  obtain ⟨found, hfound, hview⟩ := except_bind_ok.1 hview
  obtain rfl := Except.ok.inj (hfound.symm.trans hfind)
  obtain ⟨view, hview, -⟩ := except_bind_ok.1 hview
  exact ⟨view, hview⟩

/-- Where there is a difference, there is one of each two parts that face each other. -/
lemma Faces.exists_distinguish (h : Faces c d a b) (hview : a.distinguish b = .ok view) :
    ∃ view, c.distinguish d = .ok view := by
  have htype := equalType_of_distinguish hview
  cases h with
  | content =>
    rw [distinguish, if_pos htype] at hview
    obtain ⟨shown, -, hview⟩ := except_bind_ok.1 hview
    obtain ⟨child, hchild, -⟩ := except_bind_ok.1 hview
    exact ⟨child, hchild⟩
  | present =>
    rw [distinguish, if_pos htype] at hview
    obtain ⟨child, hchild, -⟩ := except_bind_ok.1 hview
    exact ⟨child, hchild⟩
  | field h =>
    rw [distinguish_pair htype] at hview
    obtain ⟨shown, -, hview⟩ := except_bind_ok.1 hview
    obtain ⟨views, hviews, -⟩ := except_bind_ok.1 hview
    obtain ⟨child, -, hchild⟩ := exists_mem_of_forall₂ (mapM_ok.1 hviews).flip h
    exact ⟨child, hchild⟩
  | alternative hc hd hpath hshown =>
    rw [distinguish_of_isOr rfl rfl htype hc hd, if_pos hpath] at hview
    obtain ⟨shown, hrender, hview⟩ := except_bind_ok.1 hview
    obtain ⟨henum, -⟩ | ⟨-, hempty, -⟩ := render_or_ok rfl hd hrender
    · rw [hshown] at henum
      cases henum
    · rw [if_neg (Bool.eq_false_iff.1 hempty)] at hview
      obtain ⟨child, hchild, -⟩ := except_bind_ok.1 hview
      exact ⟨child, hchild⟩
  | item h =>
    rw [distinguish, if_pos htype] at hview
    obtain ⟨shown, -, hview⟩ := except_bind_ok.1 hview
    obtain ⟨views, hviews, -⟩ := except_bind_ok.1 hview
    exact exists_distinguish_item hviews h
  | value he hk hfind | entry he hk hfind =>
    rw [distinguish, if_pos htype] at hview
    obtain ⟨olds, holds, -⟩ := except_bind_ok.1 hview
    exact exists_distinguish_value holds he hk hfind

/-- **Values have a difference** exactly if all parts of them that are compared have equal types. -/
theorem exists_distinguish_iff (ha : a.Viewable) (hb : b.Viewable) :
    (∃ view, a.distinguish b = .ok view) ↔ ∀ c d, Compared c d a b → c.equalType d = true := by
  constructor
  · rintro hview c d hcompared
    induction hcompared with
    | self =>
      obtain ⟨view, hview⟩ := hview
      exact equalType_of_distinguish hview
    | part hface _ ih =>
      obtain ⟨view, hview⟩ := hview
      obtain ⟨hi, hj⟩ := hface.viewable ha hb
      exact ih hi hj (hface.exists_distinguish hview)
  · intro hall
    cases h : a.distinguish b with
    | ok view => exact ⟨view, rfl⟩
    | error e =>
      obtain ⟨c, d, hcompared, hne, -⟩ := distinguish_failsOnly ha hb e h
      rw [hall c d hcompared] at hne
      cases hne

end Lineage.Node
