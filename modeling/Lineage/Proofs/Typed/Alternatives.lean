import Lineage.Proofs.Typed.RoundTrip
import Lineage.Proofs.Typed.Skeleton

/-!
# The alternatives of an `or`

An `or` offers alternatives, each behind some sides that lead to it (`Leads`). The same sides are
found in three places: in the list of the alternatives, around a value that is bound to one of them,
and on the way down to the alternative that a value has chosen. So a value is bound to an
alternative as it is bound, enclosed along the sides, to the `or` (`Behind.settle_wrap`), and each
value of the `or` is a value of one alternative in this way (`exists_leads`, `Leads.unique`).
-/

namespace Lineage

/-- A value enclosed in the constructors of sides, the first one outermost. -/
def wrap (sides : List Side) (v : Micheline) : Micheline :=
  sides.foldr (fun side v => .data side.constructor [v]) v

/-- The first value is the second one enclosed along sides. Annotations do not matter. -/
def Along : List Side → Micheline → Micheline → Prop
  | [], u, v => u = v
  | side :: sides, u, v => ∃ a, u.Applies side.constructor [a] ∧ Along sides a v

namespace Node

/-- A node stands in another one behind sides. -/
inductive Behind : Node → List Side → Node → Prop
  | here {n : Node} : Behind n [] n
  | left {s : Site} {l r m : Node} {side : Option Side} {sides : List Side}
      (h : Behind l sides m) : Behind (.or s l r side) (.left :: sides) m
  | right {s : Site} {l r m : Node} {side : Option Side} {sides : List Side}
      (h : Behind r sides m) : Behind (.or s l r side) (.right :: sides) m

/-- The node with another one put behind sides, which then are chosen. -/
def fill : Node → List Side → Node → Node
  | or s l r _, .left :: sides, m => or s (l.fill sides m) r (some .left)
  | or s l r _, .right :: sides, m => or s l (r.fill sides m) (some .right)
  | _, _, m => m

/-- Is the node part of an `or` that it stands in? -/
def isInner (n : Node) : Bool := n.isOr && n.annots.isEmpty

/-- Sides lead from a node, which may be part of an `or`, to one of its alternatives. -/
inductive Leads : Node → List Side → Node → Prop
  | here {n : Node} (h : n.isInner = false) : Leads n [] n
  | left {s : Site} {l r m : Node} {side : Option Side} {sides : List Side}
      (hs : s.annots.isEmpty = true) (h : Leads l sides m) :
    Leads (.or s l r side) (.left :: sides) m
  | right {s : Site} {l r m : Node} {side : Option Side} {sides : List Side}
      (hs : s.annots.isEmpty = true) (h : Leads r sides m) :
    Leads (.or s l r side) (.right :: sides) m

variable {n n' m m' l r : Node} {s : Site} {sides sides' before : List Side} {side : Option Side}
  {u v v' : Micheline} {optimized : Bool}

/-! ### Behind sides -/

lemma fill_nil : n.fill [] m = m := by cases n <;> rfl

/-- **Binding behind sides** is binding the enclosed value, and it fails in the same way. -/
theorem Behind.settle_wrap (h : Behind n sides m) (v : Micheline) :
    n.settle (wrap sides v) = (m.settle v).map (n.fill sides) := by
  induction h with
  | @here n =>
    have hfill : n.fill [] = id := funext fun _ => fill_nil
    rw [hfill, Except.map_id]
    rfl
  | @left s l r m side sides h ih =>
    have hv : (wrap (.left :: sides) v).Applies .left [wrap sides v] := ⟨[], rfl⟩
    rw [settle_left hv, ih]
    cases m.settle v <;> rfl
  | @right s l r m side sides h ih =>
    have hv : (wrap (.right :: sides) v).Applies .right [wrap sides v] := ⟨[], rfl⟩
    rw [settle_right hv, ih]
    cases m.settle v <;> rfl

/-- What is put behind sides is written with the sides around it. -/
theorem Behind.toWire_fill (h : Behind n sides m) :
    (n.fill sides m').toWire optimized = (m'.toWire optimized).map (wrap sides) := by
  induction h with
  | here =>
    rw [fill_nil]
    cases m'.toWire optimized <;> rfl
  | left h ih =>
    rw [fill, toWire, ih]
    cases m'.toWire optimized <;> rfl
  | right h ih =>
    rw [fill, toWire, ih]
    cases m'.toWire optimized <;> rfl

lemma Behind.mem_skeleton (h : Behind n sides m) : m ∈ n.skeleton := by
  induction h with
  | here => exact mem_skeleton_self
  | left h ih => simp [skeleton, ih]
  | right h ih => simp [skeleton, ih]

/-! ### Ways to alternatives -/

lemma isInner_or : (or s l r side).isInner = s.annots.isEmpty := by
  simp [isInner, isOr, annots, site]

lemma isInner_settle (h : n.settle v = .ok n') : n'.isInner = n.isInner := by
  have hsite : n'.site = n.site := site_of_erase (erase_settle h)
  have hor : n'.isOr = n.isOr := by rw [← isOr_erase, erase_settle h, isOr_erase]
  rw [isInner, isInner, annots, annots, hsite, hor]

lemma Leads.behind (h : Leads n sides m) : Behind n sides m := by
  induction h with
  | here => exact .here
  | left _ _ ih => exact .left ih
  | right _ _ ih => exact .right ih

lemma Leads.isInner_eq_false (h : Leads n sides m) : m.isInner = false := by
  induction h with
  | here h => exact h
  | left _ _ ih => exact ih
  | right _ _ ih => exact ih

lemma leads_iff (h : n.isInner = false) : Leads n sides m ↔ sides = [] ∧ m = n := by
  constructor
  · intro hl
    cases hl with
    | here => exact ⟨rfl, rfl⟩
    | left hs => rw [isInner_or, hs] at h; cases h
    | right hs => rw [isInner_or, hs] at h; cases h
  · rintro ⟨rfl, rfl⟩
    exact .here h

lemma leads_or (hs : s.annots.isEmpty = true) :
    Leads (or s l r side) sides m ↔
      (∃ rest, sides = .left :: rest ∧ Leads l rest m) ∨
        ∃ rest, sides = .right :: rest ∧ Leads r rest m := by
  constructor
  · intro h
    cases h with
    | here h => rw [isInner_or, hs] at h; cases h
    | left _ h => exact .inl ⟨_, rfl, h⟩
    | right _ h => exact .inr ⟨_, rfl, h⟩
  · rintro (⟨rest, rfl, h⟩ | ⟨rest, rfl, h⟩)
    · exact .left hs h
    · exact .right hs h

/-- Induction along the part of a skeleton that belongs to one `or`. -/
@[elab_as_elim]
theorem innerInduction {P : Node → Prop} (n : Node)
    (alternative : ∀ n, n.isInner = false → P n)
    (inner : ∀ s l r side, s.annots.isEmpty = true → P l → P r → P (or s l r side)) : P n := by
  induction n using typeInduction with
  | or s l r side ihl ihr =>
    by_cases hs : s.annots.isEmpty = true
    · exact inner s l r side hs ihl ihr
    · exact alternative _ (by rw [isInner_or]; exact Bool.eq_false_iff.2 hs)
  | _ => exact alternative _ rfl

lemma asAlternatives_of_alternative (h : n.isInner = false) :
    n.asAlternatives before = [(before, n)] := by
  cases n with
  | or s l r side =>
    rw [isInner_or] at h
    rw [asAlternatives, if_neg (Bool.eq_false_iff.1 h)]
  | _ => rfl

lemma mem_asAlternatives :
    (sides, m) ∈ n.asAlternatives before ↔ ∃ rest, sides = before ++ rest ∧ Leads n rest m := by
  induction n using innerInduction generalizing before with
  | alternative n h => simp [asAlternatives_of_alternative h, leads_iff h]
  | inner s l r side hs ihl ihr =>
    rw [asAlternatives, if_pos hs, List.mem_append, ihl, ihr]
    simp only [leads_or hs, List.append_assoc, List.cons_append, List.nil_append]
    constructor
    · rintro (⟨rest, rfl, h⟩ | ⟨rest, rfl, h⟩)
      · exact ⟨_, rfl, .inl ⟨rest, rfl, h⟩⟩
      · exact ⟨_, rfl, .inr ⟨rest, rfl, h⟩⟩
    · rintro ⟨_, rfl, ⟨rest, rfl, h⟩ | ⟨rest, rfl, h⟩⟩
      · exact .inl ⟨rest, rfl, h⟩
      · exact .inr ⟨rest, rfl, h⟩

lemma mem_orAlternatives :
    (sides, m) ∈ (or s l r side).orAlternatives ↔
      (∃ rest, sides = .left :: rest ∧ Leads l rest m) ∨
        ∃ rest, sides = .right :: rest ∧ Leads r rest m := by
  rw [orAlternatives, List.mem_append, mem_asAlternatives, mem_asAlternatives]
  rfl

lemma behind_of_mem_orAlternatives (h : (sides, m) ∈ n.orAlternatives) : Behind n sides m := by
  cases n with
  | or s l r side =>
    obtain ⟨rest, rfl, hlead⟩ | ⟨rest, rfl, hlead⟩ := mem_orAlternatives.1 h
    · exact .left hlead.behind
    · exact .right hlead.behind
  | _ =>
    obtain ⟨rfl, rfl⟩ := Prod.mk.inj (List.mem_singleton.1 h)
    exact .here

lemma nodup_arms (hl : ((l.asAlternatives (before ++ [.left])).map Prod.fst).Nodup)
    (hr : ((r.asAlternatives (before ++ [.right])).map Prod.fst).Nodup) :
    ((l.asAlternatives (before ++ [.left]) ++ r.asAlternatives (before ++ [.right])).map
      Prod.fst).Nodup := by
  rw [List.map_append, List.nodup_append]
  refine ⟨hl, hr, ?_⟩
  simp only [List.forall_mem_map, Prod.forall, mem_asAlternatives]
  rintro _ m ⟨rest, rfl, -⟩ _ m' ⟨rest', rfl, -⟩ heq
  simp at heq

lemma nodup_asAlternatives : ((n.asAlternatives before).map Prod.fst).Nodup := by
  induction n using innerInduction generalizing before with
  | alternative n h => simp [asAlternatives_of_alternative h]
  | inner s l r side hs ihl ihr =>
    rw [asAlternatives, if_pos hs]
    exact nodup_arms ihl ihr

lemma nodup_orAlternatives : (n.orAlternatives.map Prod.fst).Nodup := by
  cases n with
  | or s l r side =>
    rw [orAlternatives, ← List.nil_append [Side.left], ← List.nil_append [Side.right]]
    exact nodup_arms nodup_asAlternatives nodup_asAlternatives
  | _ => simp [orAlternatives]

/-! ### What a value chooses -/

lemma asChosen?_of_alternative (h : n.isInner = false) : n.asChosen? = some n := by
  cases n with
  | or s l r side =>
    rw [isInner_or] at h
    simp [asChosen?, h]
  | _ => rfl

lemma Leads.asChosen?_fill (h : Leads n sides m) (hm' : m'.isInner = false) :
    (n.fill sides m').asChosen? = some m' := by
  induction h with
  | here => rw [fill_nil, asChosen?_of_alternative hm']
  | left hs h ih =>
    rw [fill, asChosen?, if_pos hs]
    exact ih
  | right hs h ih =>
    rw [fill, asChosen?, if_pos hs]
    exact ih

/-- Each value is one of an alternative, and this is the one it chooses. -/
theorem exists_leads (h : n.settle u = .ok n') :
    ∃ sides m v m', Leads n sides m ∧ Along sides u v ∧ m.settle v = .ok m' ∧
      n'.asChosen? = some m' := by
  induction n using innerInduction generalizing u n' with
  | alternative n hn =>
    have hn' : n'.isInner = false := by rw [isInner_settle h, hn]
    exact ⟨[], n, u, n', .here hn, rfl, h, asChosen?_of_alternative hn'⟩
  | inner s l r side hs ihl ihr =>
    obtain ⟨a, l', hu, ha, rfl⟩ | ⟨a, r', hu, ha, rfl⟩ := settle_or.1 h
    · obtain ⟨sides, m, v, m', hlead, halong, hm, hchosen⟩ := ihl ha
      exact ⟨_, m, v, m', .left hs hlead, ⟨a, hu, halong⟩, hm, by
        rw [asChosen?, if_pos hs]; exact hchosen⟩
    · obtain ⟨sides, m, v, m', hlead, halong, hm, hchosen⟩ := ihr ha
      exact ⟨_, m, v, m', .right hs hlead, ⟨a, hu, halong⟩, hm, by
        rw [asChosen?, if_pos hs]; exact hchosen⟩

/-- There is only one way along a value. -/
theorem Leads.unique (h : Leads n sides m) (h' : Leads n sides' m') (hu : Along sides u v)
    (hu' : Along sides' u v') : sides' = sides := by
  induction h generalizing u sides' with
  | here h => exact ((leads_iff h).1 h').1
  | left hs h ih =>
    obtain ⟨a, ha, hu⟩ := hu
    obtain ⟨rest, rfl, hrest⟩ | ⟨rest, rfl, hrest⟩ := (leads_or hs).1 h' <;>
      obtain ⟨a', ha', hu'⟩ := hu'
    · cases (ha.unique ha').2
      rw [ih hrest hu hu']
    · cases (ha.unique ha').1
  | right hs h ih =>
    obtain ⟨a, ha, hu⟩ := hu
    obtain ⟨rest, rfl, hrest⟩ | ⟨rest, rfl, hrest⟩ := (leads_or hs).1 h' <;>
      obtain ⟨a', ha', hu'⟩ := hu'
    · cases (ha.unique ha').1
    · cases (ha.unique ha').2
      rw [ih hrest hu hu']

/-! ### The whole `or` -/

section Whole

variable (hor : n.isOr = true)

include hor

lemma chosenAlternative?_fill (h : (sides, m) ∈ n.orAlternatives) (hm : m.settle v = .ok m') :
    (n.fill sides m').chosenAlternative? = some m' := by
  cases n with
  | or s l r side =>
    obtain ⟨rest, rfl, hlead⟩ | ⟨rest, rfl, hlead⟩ := mem_orAlternatives.1 h
    · exact hlead.asChosen?_fill (by rw [isInner_settle hm, hlead.isInner_eq_false])
    · exact hlead.asChosen?_fill (by rw [isInner_settle hm, hlead.isInner_eq_false])
  | _ => cases hor

lemma exists_alternative (h : n.settle u = .ok n') :
    ∃ sides m v m', (sides, m) ∈ n.orAlternatives ∧ Along sides u v ∧ m.settle v = .ok m' ∧
      n'.chosenAlternative? = some m' := by
  cases n with
  | or s l r side =>
    obtain ⟨a, l', hu, ha, rfl⟩ | ⟨a, r', hu, ha, rfl⟩ := settle_or.1 h
    · obtain ⟨sides, m, v, m', hlead, halong, hm, hchosen⟩ := exists_leads ha
      exact ⟨_, m, v, m', mem_orAlternatives.2 (.inl ⟨sides, rfl, hlead⟩), ⟨a, hu, halong⟩, hm,
        hchosen⟩
    · obtain ⟨sides, m, v, m', hlead, halong, hm, hchosen⟩ := exists_leads ha
      exact ⟨_, m, v, m', mem_orAlternatives.2 (.inr ⟨sides, rfl, hlead⟩), ⟨a, hu, halong⟩, hm,
        hchosen⟩
  | _ => cases hor

lemma alternative_unique (h : (sides, m) ∈ n.orAlternatives) (h' : (sides', m') ∈ n.orAlternatives)
    (hu : Along sides u v) (hu' : Along sides' u v') : sides' = sides := by
  cases n with
  | or s l r side =>
    obtain ⟨rest, rfl, hlead⟩ | ⟨rest, rfl, hlead⟩ := mem_orAlternatives.1 h <;>
      obtain ⟨rest', rfl, hlead'⟩ | ⟨rest', rfl, hlead'⟩ := mem_orAlternatives.1 h' <;>
      obtain ⟨a, ha, hu⟩ := hu <;> obtain ⟨a', ha', hu'⟩ := hu'
    · cases (ha.unique ha').2
      rw [hlead.unique hlead' hu hu']
    · cases (ha.unique ha').1
    · cases (ha.unique ha').1
    · cases (ha.unique ha').2
      rw [hlead.unique hlead' hu hu']
  | _ => cases hor

end Whole

end Node

end Lineage
