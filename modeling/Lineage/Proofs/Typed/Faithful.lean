import Lineage.Proofs.Typed.Marks
import Lineage.Proofs.Typed.Paths
import Lineage.Proofs.Typed.Sameness

/-!
# Differences that tell changes

The differences of a type are `Faithful` if every two of its values have one, and there is no mark
in it just if the two values are the same up to the order of entries and elements.

Here are the types with a fixed number of parts, with one lemma for each kind of them. It takes what
a difference is made of, and what is known of the types of the parts. The parts of a pair are its
fields, and those of an `or` its alternatives, which are told apart by their paths.
-/

namespace Lineage.Node

open View (anyChanges hasChanges_eq_false_iff hasChanges_named)

variable {n a b c d inner l r : Node} {s s' : Site} {w w' x x' y y' : Micheline}
  {view : View} {views : List View}

/-! ### Faithful differences -/

/-- A value of the type that can be shown, and what is written of it. -/
def Displays (n a : Node) (w : Micheline) : Prop := n.Holds a w ∧ a.Shown

/-- **The differences of values of the type tell changes**: every two values have one, and it has
no marks just if they are the same. -/
def Faithful (n : Node) : Prop :=
  ∀ ⦃a b : Node⦄ ⦃w w' : Micheline⦄, n.Displays a w → n.Displays b w' →
    ∃ view, a.distinguish b = .ok view ∧ (view.hasChanges = false ↔ n.SameUpToOrder w w')

lemma equalType_refl : n.equalType n = true := by
  induction n using typeInduction with
  | scalar => exact decide_eq_true rfl
  | contract _ _ _ ih | ticket _ _ ih | option _ _ _ ih => exact ih
  | collection s kind elem items ih => exact Bool.and_eq_true_iff.2 ⟨decide_eq_true rfl, ih⟩
  | pair _ _ _ ih ih' | or _ _ _ _ ih ih' | map _ _ _ _ ih ih' | bigMap _ _ _ _ _ ih ih'
  | lambda _ _ _ _ ih ih' => exact Bool.and_eq_true_iff.2 ⟨ih, ih'⟩

lemma equalType_erase : a.erase.equalType b.erase = a.equalType b := by
  induction a using typeInduction generalizing b with
  | scalar | contract | collection | map | bigMap | lambda => cases b <;> rfl
  | ticket s inner ih =>
    cases b with
    | ticket => exact ih
    | _ => rfl
  | option s inner present ih =>
    cases b with
    | option => exact ih
    | _ => rfl
  | pair s l r ihl ihr =>
    cases b with
    | pair => exact congrArg₂ and ihl ihr
    | _ => rfl
  | or s l r side ihl ihr =>
    cases b with
    | or => exact congrArg₂ and ihl ihr
    | _ => rfl

lemma Holds.equalType (ha : n.Holds a w) (hb : n.Holds b w') : a.equalType b = true := by
  rw [← equalType_erase, ha.erase, hb.erase, equalType_refl]

lemma Holds.path (h : n.Holds a w) : a.path = n.path :=
  congrArg Site.path (site_of_erase h.erase)

lemma hasChanges_withChildren (h : n.render = .ok view) :
    ({ view with children := views } : View).hasChanges = false ↔ anyChanges views = false := by
  rw [hasChanges_eq_false_iff]
  exact and_iff_right (hasChanges_eq_false_iff.1 (hasChanges_render h)).1

/-- The view of a value under which the children of a difference are put. -/
lemma Shown.exists_withChildren {children : Except NodeError (List View)} (h : n.Shown)
    (hviews : children = .ok views) :
    ∃ view, (do
      let view ← n.render
      let views ← children
      return { view with children := views }) = .ok view ∧
        (view.hasChanges = false ↔ anyChanges views = false) := by
  obtain ⟨view, hview⟩ := h
  refine ⟨{ view with children := views }, ?_, hasChanges_withChildren hview⟩
  exact except_bind_ok.2 ⟨view, hview, except_bind_ok.2 ⟨views, hviews, rfl⟩⟩

/-! ### Values without parts -/

/-- Is a value of the type compared as a whole? -/
def isLeaf : Node → Bool
  | scalar .. | contract .. | lambda .. => true
  | _ => false

lemma isLeaf_erase : n.erase.isLeaf = n.isLeaf := by cases n <;> rfl

lemma distinguish_of_isLeaf (ha : a.isLeaf = true) (h : a.equalType b = true)
    (hw : a.toWire false = .ok w) (hw' : b.toWire false = .ok w') :
    a.distinguish b = if w = w' then b.render else a.updated b := by
  cases a with
  | scalar | contract | lambda =>
    cases b <;> try cases h
    rw [distinguish.eq_def, if_pos h]
    dsimp only
    rw [hw, hw']
    rfl
  | _ => cases ha

lemma faithful_of_isLeaf (h : n.isLeaf = true) : n.Faithful := by
  intro a b w w' ⟨ha, hsa⟩ ⟨hb, hsb⟩
  have hleaf : a.isLeaf = true := by rw [← isLeaf_erase, ha.erase, isLeaf_erase, h]
  have hsame : n.SameUpToOrder w w' ↔ w' = w := by
    cases n with
    | scalar | contract | lambda => rfl
    | _ => cases h
  rw [distinguish_of_isLeaf hleaf (ha.equalType hb) ha.toWire hb.toWire, hsame]
  split
  · next heq =>
    obtain ⟨view, hview⟩ := hsb
    exact ⟨view, hview, by simp [hasChanges_render hview, heq]⟩
  · next hne =>
    obtain ⟨view, hview, hmarked⟩ := hsa.updated ha.toWire hsb
    exact ⟨view, hview, by simp [hmarked, Ne.symm hne]⟩

/-! ### Options -/

lemma faithful_option {present : Option Bool} (h : inner.Faithful) :
    (option s inner present).Faithful := by
  intro a b w w' ⟨ha, hsa⟩ ⟨hb, hsb⟩
  have htype := ha.equalType hb
  obtain ⟨rfl, rfl⟩ | ⟨i, x, rfl, rfl, hi⟩ := ha <;>
    obtain ⟨rfl, rfl⟩ | ⟨j, y, rfl, rfl, hj⟩ := hb <;> rw [distinguish.eq_def, if_pos htype]
  · obtain ⟨view, hview⟩ := hsb
    refine ⟨view, hview, iff_of_true (hasChanges_render hview) (.inl ⟨rfl, rfl⟩)⟩
  · obtain ⟨view, hview, hmarked⟩ := hsb.created
    exact ⟨view, hview, iff_of_false (by simp [hmarked]) not_same_none_some⟩
  · obtain ⟨view, hview, hmarked⟩ := hsa.deleted
    exact ⟨view, hview, iff_of_false (by simp [hmarked]) not_same_some_none⟩
  · obtain ⟨view, hview, hiff⟩ := h ⟨hi, hsa.of_option⟩ ⟨hj, hsb.of_option⟩
    refine ⟨_, except_bind_ok.2 ⟨view, hview, rfl⟩, ?_⟩
    rw [hasChanges_named, same_some, hiff]

/-! ### Pairs -/

lemma distinguish_pair {l' r' : Node} (h : (pair s l r).equalType (pair s' l' r') = true) :
    (pair s l r).distinguish (pair s' l' r') = (do
      let view ← (pair s' l' r').render
      let fields := (pair s l r).pairFields.zip (pair s' l' r').pairFields
      let views ← fields.mapM fun p => p.1.distinguish p.2
      return { view with children := views }) := by
  have hzip : (pair s l r).pairFields.zip (pair s' l' r').pairFields =
      ((pair s l r).pairFields.attach.zip (pair s' l' r').pairFields).map
        (Prod.map Subtype.val id) := by
    rw [← List.zip_map_left, List.attach_map_subtype_val]
  rw [distinguish, if_pos h]
  simp only [hzip, List.mapM_map]
  rfl

/-- The fields that two values of the type contribute to a pair tell whether they are the same. -/
def FieldsTell (n : Node) (as bs : List Node) (w w' : Micheline) : Prop :=
  ∃ views, (as.zip bs).mapM (fun p => p.1.distinguish p.2) = .ok views ∧
    (anyChanges views = false ↔ n.SameUpToOrder w w')

lemma FieldsTell.append {as bs cs ds : List Node} (hl : l.FieldsTell as bs x x')
    (hr : r.FieldsTell cs ds y y') (hlength : as.length = bs.length) :
    (pair s l r).FieldsTell (as ++ cs) (bs ++ ds) (.data .pair [x, y]) (.data .pair [x', y']) := by
  obtain ⟨views, hviews, hiff⟩ := hl
  obtain ⟨views', hviews', hiff'⟩ := hr
  refine ⟨views ++ views', ?_, ?_⟩
  · rw [List.zip_append hlength, List.mapM_append, hviews, hviews']
    rfl
  · rw [View.anyChanges_append, Bool.or_eq_false_iff, hiff, hiff', same_pair]

/-- Is the node part of a pair that it stands in? -/
def isInnerPair (n : Node) : Bool := n.isPair && n.annots.isEmpty

lemma isInnerPair_pair : (pair s l r).isInnerPair = s.annots.isEmpty := by
  simp [isInnerPair, isPair, annots, site]

lemma isPair_erase : n.erase.isPair = n.isPair := by cases n <;> rfl

lemma isInnerPair_erase : n.erase.isInnerPair = n.isInnerPair := by
  rw [isInnerPair, isInnerPair, isPair_erase, annots, annots, site_erase]

lemma asFields_of_field (h : n.isInnerPair = false) : n.asFields = [n] := by
  cases n with
  | pair s l r =>
    rw [isInnerPair_pair] at h
    simp [asFields, h]
  | _ => rfl

lemma Holds.length_asFields (ha : n.Holds a w) (hb : n.Holds b w') :
    a.asFields.length = b.asFields.length := by
  have hlength : ∀ m : Node, m.asFields.length = m.erase.asFields.length := fun m => by
    rw [asFields_erase, List.length_map]
  rw [hlength a, hlength b, ha.erase, hb.erase]

lemma fieldsTell_of_field (hfield : n.isInnerPair = false)
    (hn : ∀ field ∈ n.asFields, field.Faithful) (ha : n.Holds a w) (hb : n.Holds b w')
    (hsa : ∀ field ∈ a.asFields, field.Shown) (hsb : ∀ field ∈ b.asFields, field.Shown) :
    n.FieldsTell a.asFields b.asFields w w' := by
  have hsingle : ∀ {m v}, n.Holds m v → m.asFields = [m] := fun hm => by
    rw [asFields_of_field]
    rw [← isInnerPair_erase, hm.erase, isInnerPair_erase, hfield]
  rw [hsingle ha, List.forall_mem_singleton] at hsa
  rw [hsingle hb, List.forall_mem_singleton] at hsb
  rw [asFields_of_field hfield, List.forall_mem_singleton] at hn
  obtain ⟨view, hview, hiff⟩ := hn ⟨ha, hsa⟩ ⟨hb, hsb⟩
  refine ⟨[view], ?_, by simpa [anyChanges] using hiff⟩
  rw [hsingle ha, hsingle hb]
  exact mapM_ok.2 (.cons hview .nil)

/-- The fields of a type tell its values apart, if their differences do. -/
lemma fieldsTell_asFields (hn : ∀ field ∈ n.asFields, field.Faithful) (ha : n.Holds a w)
    (hb : n.Holds b w') (hsa : ∀ field ∈ a.asFields, field.Shown)
    (hsb : ∀ field ∈ b.asFields, field.Shown) : n.FieldsTell a.asFields b.asFields w w' := by
  induction n using typeInduction generalizing a b w w' with
  | pair s l r ihl ihr =>
    by_cases hs : s.annots.isEmpty = true
    · have hfields : ∀ {l r}, (pair s l r).asFields = l.asFields ++ r.asFields := by
        simp [asFields, hs]
      obtain ⟨l₁, r₁, x, y, rfl, rfl, hl, hr⟩ := ha
      obtain ⟨l₂, r₂, x', y', rfl, rfl, hl', hr'⟩ := hb
      rw [hfields, List.forall_mem_append] at hn hsa hsb
      rw [hfields, hfields]
      exact (ihl hn.1 hl hl' hsa.1 hsb.1).append (ihr hn.2 hr hr' hsa.2 hsb.2)
        (hl.length_asFields hl')
    · rw [Bool.not_eq_true] at hs
      exact fieldsTell_of_field (isInnerPair_pair.trans hs) hn ha hb hsa hsb
  | _ => exact fieldsTell_of_field rfl hn ha hb hsa hsb

lemma faithful_pair (h : ∀ field ∈ (pair s l r).pairFields, field.Faithful) :
    (pair s l r).Faithful := by
  intro a b w w' ⟨ha, hsa⟩ ⟨hb, hsb⟩
  have htype := ha.equalType hb
  obtain ⟨l₁, r₁, x, y, rfl, rfl, hl, hr⟩ := ha
  obtain ⟨l₂, r₂, x', y', rfl, rfl, hl', hr'⟩ := hb
  obtain ⟨hfl, hfr⟩ := List.forall_mem_append.1 h
  obtain ⟨hsl, hsr⟩ := List.forall_mem_append.1 (hsa.field rfl)
  obtain ⟨hsl', hsr'⟩ := List.forall_mem_append.1 (hsb.field rfl)
  obtain ⟨views, hviews, hiff⟩ :=
    (fieldsTell_asFields hfl hl hl' hsl hsl').append (s := s)
      (fieldsTell_asFields hfr hr hr' hsr hsr') (hl.length_asFields hl')
  obtain ⟨view, hview, hmarks⟩ := hsb.exists_withChildren hviews
  exact ⟨view, (distinguish_pair htype).trans hview, hmarks.trans hiff⟩

/-! ### Tickets -/

lemma change_distinguish (ha : a.isPair = true) (hb : b.isPair = true)
    (htype : a.equalType b = true) (h : a.distinguish b = .ok view) : view.change = none := by
  cases a with
  | pair s l r =>
    cases b with
    | pair s' l' r' =>
      rw [distinguish_pair htype, except_bind_ok] at h
      obtain ⟨shown, hshown, h⟩ := h
      obtain ⟨views, -, h⟩ := except_bind_ok.1 h
      cases h
      exact (hasChanges_eq_false_iff.1 (hasChanges_render hshown)).1
    | _ => cases hb
  | _ => cases ha

lemma faithful_ticket (hpair : inner.isPair = true) (h : inner.Faithful) :
    (ticket s inner).Faithful := by
  intro a b w w' ⟨ha, hsa⟩ ⟨hb, hsb⟩
  have htype := ha.equalType hb
  obtain ⟨i, rfl, hi⟩ := ha
  obtain ⟨j, rfl, hj⟩ := hb
  obtain ⟨shape, hshape, hiff⟩ := h ⟨hi, hsa.of_ticket⟩ ⟨hj, hsb.of_ticket⟩
  have hisPair : ∀ {m v}, inner.Holds m v → m.isPair = true := fun hm => by
    rw [← isPair_erase, hm.erase, isPair_erase, hpair]
  have hchange := change_distinguish (hisPair hi) (hisPair hj) (hi.equalType hj) hshape
  obtain ⟨view, hview⟩ := hsb
  refine ⟨{ view with children := shape.children }, ?_, ?_⟩
  · rw [distinguish, if_pos htype]
    exact except_bind_ok.2 ⟨view, hview, except_bind_ok.2 ⟨shape, hshape, rfl⟩⟩
  · rw [hasChanges_withChildren hview, ← and_iff_right hchange (b := anyChanges _ = false),
      ← hasChanges_eq_false_iff, hiff]
    rfl

/-! ### Alternatives -/

lemma distinguish_of_isOr (ha : a.isOr = true) (hb : b.isOr = true) (h : a.equalType b = true)
    (hc : a.chosenAlternative? = some c) (hd : b.chosenAlternative? = some d) :
    a.distinguish b =
      if c.path = d.path then do
        let view ← b.render
        if view.children.isEmpty then return view
        let child ← c.distinguish d
        return { view with children := [{ child with name := d.entryName?.or child.name }] }
      else a.updated b := by
  cases a with
  | or s l r side =>
    cases b with
    | or s' l' r' side' =>
      rw [distinguish, if_pos h]
      split
      · simp_all
      · simp_all
    | _ => cases hb
  | _ => cases ha

lemma isInner_erase : n.erase.isInner = n.isInner := by
  rw [isInner, isInner, isOr_erase, annots, annots, site_erase]

/-- What a node holds is held by one of its alternatives, behind the sides that lead to it. -/
lemma Holds.exists_leads (h : n.Holds a w) :
    ∃ sides m c x, Leads n sides m ∧ m.Holds c x ∧ w = wrap sides x ∧ a.asChosen? = some c := by
  induction n using innerInduction generalizing a w with
  | alternative n hn =>
    have ha : a.isInner = false := by rw [← isInner_erase, h.erase, isInner_erase, hn]
    exact ⟨[], n, a, w, .here hn, h, rfl, asChosen?_of_alternative ha⟩
  | inner s l r side hs ihl ihr =>
    obtain ⟨l', x, rfl, rfl, hl⟩ | ⟨r', x, rfl, rfl, hr⟩ := h
    · obtain ⟨sides, m, c, y, hlead, hc, rfl, hchosen⟩ := ihl hl
      exact ⟨_, m, c, y, .left hs hlead, hc, rfl, by rw [asChosen?, if_pos hs]; exact hchosen⟩
    · obtain ⟨sides, m, c, y, hlead, hc, rfl, hchosen⟩ := ihr hr
      exact ⟨_, m, c, y, .right hs hlead, hc, rfl, by rw [asChosen?, if_pos hs]; exact hchosen⟩

lemma Holds.exists_alternative (hor : n.isOr = true) (h : n.Holds a w) :
    ∃ sides m c x, (sides, m) ∈ n.orAlternatives ∧ m.Holds c x ∧ w = wrap sides x ∧
      a.chosenAlternative? = some c := by
  cases n with
  | or s l r side =>
    obtain ⟨l', x, rfl, rfl, hl⟩ | ⟨r', x, rfl, rfl, hr⟩ := h
    · obtain ⟨sides, m, c, y, hlead, hc, rfl, hchosen⟩ := hl.exists_leads
      exact ⟨_, m, c, y, mem_orAlternatives.2 (.inl ⟨sides, rfl, hlead⟩), hc, rfl, hchosen⟩
    · obtain ⟨sides, m, c, y, hlead, hc, rfl, hchosen⟩ := hr.exists_leads
      exact ⟨_, m, c, y, mem_orAlternatives.2 (.inr ⟨sides, rfl, hlead⟩), hc, rfl, hchosen⟩
  | _ => cases hor

lemma Behind.same_wrap {sides : List Side} {m : Node} (h : Behind n sides m) :
    n.SameUpToOrder (wrap sides x) (wrap sides y) ↔ m.SameUpToOrder x y := by
  induction h with
  | here => rfl
  | left h ih => exact same_left.trans ih
  | right h ih => exact same_right.trans ih

lemma Leads.sides_eq_of_same {sides sides' : List Side} {m m' : Node} (h : Leads n sides m)
    (h' : Leads n sides' m') (hsame : n.SameUpToOrder (wrap sides x) (wrap sides' y)) :
    sides' = sides := by
  induction h generalizing sides' with
  | here h => exact ((leads_iff h).1 h').1
  | left hs h ih =>
    obtain ⟨rest, rfl, hrest⟩ | ⟨rest, rfl, hrest⟩ := (leads_or hs).1 h'
    · rw [ih hrest (same_left.1 hsame)]
    · exact absurd hsame not_same_left_right
  | right hs h ih =>
    obtain ⟨rest, rfl, hrest⟩ | ⟨rest, rfl, hrest⟩ := (leads_or hs).1 h'
    · exact absurd hsame not_same_right_left
    · rw [ih hrest (same_right.1 hsame)]

lemma sides_eq_of_same {sides sides' : List Side} {m m' : Node} (hor : n.isOr = true)
    (h : (sides, m) ∈ n.orAlternatives) (h' : (sides', m') ∈ n.orAlternatives)
    (hsame : n.SameUpToOrder (wrap sides x) (wrap sides' y)) : sides' = sides := by
  cases n with
  | or s l r side =>
    obtain ⟨rest, rfl, hlead⟩ | ⟨rest, rfl, hlead⟩ := mem_orAlternatives.1 h <;>
      obtain ⟨rest', rfl, hlead'⟩ | ⟨rest', rfl, hlead'⟩ := mem_orAlternatives.1 h'
    · rw [hlead.sides_eq_of_same hlead' (same_left.1 hsame)]
    · exact absurd hsame not_same_left_right
    · exact absurd hsame not_same_right_left
    · rw [hlead.sides_eq_of_same hlead' (same_right.1 hsame)]
  | _ => cases hor

/-- Are the alternatives of an `or` shown by their names only? -/
def isEnumeration (n : Node) : Bool := (n.shape?.map Shape.isEnumeration).getD false

lemma isUnit_of_isEnumeration (hor : n.isOr = true) (h : n.isEnumeration = true) :
    ∀ alternative ∈ n.orAlternatives, alternative.2.isUnit = true := by
  cases n with
  | or s l r side =>
    simp only [isEnumeration, shape?, Option.map_some, Option.getD_some] at h
    split at h
    · next hall =>
      intro alternative hmem
      simpa using List.all_eq_true.1 hall _ (List.mem_map_of_mem hmem)
    · cases h
  | _ => cases hor

lemma Holds.isEnumeration (h : n.Holds a w) : a.isEnumeration = n.isEnumeration := by
  rw [Node.isEnumeration, Node.isEnumeration, ← shape?_erase, h.erase, shape?_erase]

lemma Holds.eq_unit (hn : n.isUnit = true) (h : n.Holds a w) : w = .data .unit [] := by
  cases n with
  | scalar s type typeArgs value =>
    cases type with
    | unit => exact h.2 rfl
    | _ => cases hn
  | _ => cases hn

lemma render_or_ok (hor : b.isOr = true) (hd : b.chosenAlternative? = some d)
    (h : b.render = .ok view) :
    (b.isEnumeration = true ∧ view.children.isEmpty = true) ∨
      b.isEnumeration = false ∧ view.children.isEmpty = false ∧ d.Shown := by
  rw [render_of_isOr hor, hd] at h
  dsimp only at h
  split at h
  · next henum =>
    cases h
    exact .inl ⟨henum, rfl⟩
  · next henum =>
    obtain ⟨v, hv, h⟩ := except_bind_ok.1 h
    cases h
    exact .inr ⟨Bool.eq_false_iff.2 henum, rfl, v, hv⟩

lemma faithful_of_isOr (hor : n.isOr = true) (hn : n.Formed)
    (h : ∀ alternative ∈ n.orAlternatives, alternative.2.Faithful) : n.Faithful := by
  intro a b w w' ⟨ha, hsa⟩ ⟨hb, hsb⟩
  have hora : a.isOr = true := by rw [← isOr_erase, ha.erase, isOr_erase, hor]
  have horb : b.isOr = true := by rw [← isOr_erase, hb.erase, isOr_erase, hor]
  obtain ⟨sides, m, c, x, hm, hc, rfl, hchosen⟩ := ha.exists_alternative hor
  obtain ⟨sides', m', d, y, hm', hd, rfl, hchosen'⟩ := hb.exists_alternative hor
  rw [distinguish_of_isOr hora horb (ha.equalType hb) hchosen hchosen', hc.path, hd.path]
  split
  · next heq =>
    obtain ⟨rfl, rfl⟩ := hn.path_inj hm' hm heq
    rw [(behind_of_mem_orAlternatives hm).same_wrap]
    obtain ⟨view, hview⟩ := hsb
    obtain ⟨henum, hempty⟩ | ⟨henum, hempty, hsd⟩ := render_or_ok horb hchosen' hview
    · -- both values are the only one of the alternative
      have hunit := isUnit_of_isEnumeration hor (hb.isEnumeration ▸ henum) _ hm
      obtain rfl := hc.eq_unit hunit
      obtain rfl := hd.eq_unit hunit
      refine ⟨view, except_bind_ok.2 ⟨view, hview, ?_⟩, ?_⟩
      · rw [if_pos hempty]
        rfl
      · exact iff_of_true (hasChanges_render hview) hc.same
    · obtain ⟨viewa, hviewa⟩ := hsa
      obtain ⟨henuma, -⟩ | ⟨-, -, hsc⟩ := render_or_ok hora hchosen hviewa
      · rw [ha.isEnumeration, ← hb.isEnumeration, henum] at henuma
        cases henuma
      obtain ⟨child, hchild, hiff⟩ := h _ hm ⟨hc, hsc⟩ ⟨hd, hsd⟩
      refine ⟨{ view with children := [{ child with name := d.entryName?.or child.name }] },
        except_bind_ok.2 ⟨view, hview, ?_⟩, ?_⟩
      · rw [if_neg (Bool.eq_false_iff.1 hempty)]
        exact except_bind_ok.2 ⟨child, hchild, rfl⟩
      · rw [hasChanges_withChildren hview, ← hiff]
        simp [anyChanges, hasChanges_eq_false_iff]
  · next hne =>
    obtain ⟨view, hview, hmarked⟩ := hsa.updated ha.toWire hsb
    refine ⟨view, hview, iff_of_false (by simp [hmarked]) fun hsame => hne ?_⟩
    obtain rfl := sides_eq_of_same hor hm hm' hsame
    exact congrArg (·.2.path) (List.inj_on_of_nodup_map nodup_orAlternatives hm hm' rfl)

end Lineage.Node
