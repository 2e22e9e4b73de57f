import Lineage.Proofs.Typed.Charts
import Lineage.Proofs.Typed.Facing
import Lineage.Proofs.Typed.Rebinding
import Lineage.Proofs.Typed.TypeEquality

/-!
# Types that are taken apart alike

Equal types may differ in annotations, and a pair within a pair is taken apart only if it has none.
So fields of equal pairs may face fields of other types, and then there is no difference of the two
values. Two nodes at one place (`Alongside`) keep facing parts at one place as long as pairs are
taken apart alike (`Alongside.faces`), and where they are not, some fields do not fit
(`splitsLike_of_faces`). This says when values of equal types have a difference
(`exists_distinguish_iff_of_equalType`).
-/

namespace Lineage.Node

variable {a b c d n m l r l' r' : Node} {s s' : Site} {v : Micheline} {sides : List Side}
  {view view' : View}

/-! ### Fields -/

/-- Do two types contribute the same fields to a pair they stand in? -/
def fieldsAlike : Node → Node → Bool
  | pair s l r, pair s' l' r' =>
    if s.annots.isEmpty then s'.annots.isEmpty && l.fieldsAlike l' && r.fieldsAlike r'
    else !s'.annots.isEmpty
  | _, _ => true

/-- Are two pairs taken apart alike? All other types are. -/
def splitsLike : Node → Node → Bool
  | pair _ l r, pair _ l' r' => l.fieldsAlike l' && r.fieldsAlike r'
  | _, _ => true

lemma asFields_ne_nil : n.asFields ≠ [] := by
  induction n using typeInduction with
  | pair s l r ihl ihr =>
    rw [asFields]
    split
    · simp [ihl]
    · simp
  | _ => simp [asFields]

/-- What relates pairs and their components relates the fields that are taken apart alike. -/
lemma forall₂_asFields {R : Node → Node → Prop} (htype : ∀ a b, R a b → a.equalType b = true)
    (hpair : ∀ {s l r s' l' r'}, R (pair s l r) (pair s' l' r') → R l l' ∧ R r r') (h : R a b)
    (halike : a.fieldsAlike b = true) : List.Forall₂ R a.asFields b.asFields := by
  have hab := htype a b h
  induction a using typeInduction generalizing b with
  | pair s l r ihl ihr =>
    cases b <;> try cases hab
    next s' l' r' =>
    obtain ⟨hl, hr⟩ := hpair h
    rw [fieldsAlike] at halike
    rw [asFields, asFields]
    split at halike
    · next hs =>
      simp only [Bool.and_eq_true] at halike
      obtain ⟨⟨hs', hal⟩, har⟩ := halike
      rw [if_pos hs, if_pos hs']
      exact List.rel_append (ihl hl hal (htype _ _ hl)) (ihr hr har (htype _ _ hr))
    · next hs =>
      rw [Bool.not_eq_true'] at halike
      rw [if_neg hs, if_neg (Bool.eq_false_iff.1 halike)]
      exact .cons h .nil
  | _ =>
    cases b <;> try cases hab
    exact .cons h .nil

lemma equalType_asFields (h : a.equalType b = true) (halike : a.fieldsAlike b = true) :
    List.Forall₂ (fun c d : Node => c.equalType d = true) a.asFields b.asFields :=
  forall₂_asFields (fun _ _ h => h) (fun h => Bool.and_eq_true_iff.1 h) h halike

lemma length_skeleton_of_equalType (h : a.equalType b = true) :
    a.skeleton.length = b.skeleton.length := by
  induction a using typeInduction generalizing b with
  | scalar =>
    cases b <;> try cases h
    rfl
  | contract _ _ _ ih | ticket _ _ ih | option _ _ _ ih =>
    cases b <;> try cases h
    simp only [skeleton, List.length_cons, ih h]
  | collection _ _ _ _ ih =>
    cases b <;> try cases h
    simp only [skeleton, List.length_cons, ih (Bool.and_eq_true_iff.1 h).2]
  | pair _ _ _ ih ih' | or _ _ _ _ ih ih' | map _ _ _ _ ih ih' | bigMap _ _ _ _ _ ih ih'
  | lambda _ _ _ _ ih ih' =>
    cases b <;> try cases h
    obtain ⟨hl, hr⟩ := Bool.and_eq_true_iff.1 h
    simp only [skeleton, List.length_cons, List.length_append, ih hl, ih' hr]

lemma length_skeleton_of_mem_asFields (h : m ∈ n.asFields) :
    m.skeleton.length ≤ n.skeleton.length := by
  induction n using typeInduction with
  | pair s l r ihl ihr =>
    rw [asFields] at h
    split at h
    · simp only [skeleton, List.length_cons, List.length_append]
      obtain h | h := List.mem_append.1 h
      · have := ihl h
        omega
      · have := ihr h
        omega
    · obtain rfl := List.mem_singleton.1 h
      exact Nat.le_refl _
  | _ =>
    obtain rfl := List.mem_singleton.1 h
    exact Nat.le_refl _

lemma forall_mem_pair {α : Type} {P : α → Prop} {x y : α} :
    (∀ z ∈ [x, y], P z) ↔ P x ∧ P y := by
  rw [List.forall_mem_cons, List.forall_mem_singleton]

/-! ### Copies -/

/-- The items of a collection and the values of a map, each with the node that it is a copy of. -/
def copies : Node → List (Node × Node)
  | collection _ _ elem (some items) => items.map fun item => (elem, item)
  | map _ _ value (some entries) => entries.map fun entry => (value, entry.2)
  | bigMap _ _ value _ (some entries) => entries.map fun entry => (value, entry.2)
  | _ => []

/-- All copies, however far down, are what they are copies of but for their values. -/
inductive Uniform : Node → Prop
  | intro {n : Node} (hchildren : ∀ child ∈ n.typeChildren, Uniform child)
      (hcopies : ∀ p ∈ n.copies, Uniform p.2) (herase : ∀ p ∈ n.copies, p.2.erase = p.1.erase) :
    Uniform n

lemma Uniform.child (h : n.Uniform) : ∀ child ∈ n.typeChildren, child.Uniform := by
  cases h with
  | intro hchildren => exact hchildren

lemma Uniform.copy (h : n.Uniform) {p : Node × Node} (hp : p ∈ n.copies) :
    p.2.Uniform ∧ p.2.erase = p.1.erase := by
  cases h with
  | intro _ hcopies herase => exact ⟨hcopies p hp, herase p hp⟩

lemma uniform_of_copies (hchildren : ∀ child ∈ n.typeChildren, child.Uniform)
    (hcopies : ∀ p ∈ n.copies, p.2.Uniform ∧ p.2.erase = p.1.erase) : n.Uniform :=
  .intro hchildren (fun p hp => (hcopies p hp).1) fun p hp => (hcopies p hp).2

lemma uniform_of_child (hcopies : n.copies = [])
    (hchildren : ∀ child ∈ n.typeChildren, child.Uniform) : n.Uniform :=
  uniform_of_copies hchildren (by rw [hcopies]; exact List.forall_mem_nil _)

lemma Unbound.uniform (h : n.Unbound) : n.Uniform := by
  induction n using sizeInduction with
  | step n ih =>
    refine uniform_of_child ?_ fun child hchild => ?_
    · cases n with
      | collection => cases h.2; rfl
      | map => cases h.2.2; rfl
      | bigMap => cases h.2.2.2; rfl
      | _ => rfl
    · refine ih child (sizeOf_lt_of_mem_typeChildren hchild) (h.of_mem_skeleton ?_)
      exact mem_skeleton.2 (.inr ⟨child, hchild, mem_skeleton_self⟩)

lemma uniform_of_settlesElt {key value : Node} {elts : List Micheline}
    {entries : List (Node × Node)} (hvalue : ∀ v, (value.bind v).result.Uniform)
    (h : List.Forall₂ (SettlesElt key value) elts entries) :
    ∀ entry ∈ entries, entry.2.Uniform ∧ entry.2.erase = value.erase := by
  refine forall_of_forall₂ h fun elt entry helt => ?_
  obtain ⟨k, x, -, -, hx⟩ := helt
  exact ⟨(Attempt.toExcept_eq_ok.1 hx).2 ▸ hvalue x, erase_settle hx⟩

/-- Binding a value leaves copies of what they are copies of. -/
theorem Uniform.bind (h : n.Uniform) (v : Micheline) : (n.bind v).result.Uniform := by
  induction n using typeInduction generalizing v with
  | scalar =>
    refine result_bind_of_isWhole rfl h fun n' hn' => ?_
    rw [(settle_scalar.1 hn').2]
    exact uniform_of_child rfl h.child
  | contract =>
    refine result_bind_of_isWhole rfl h fun n' hn' => ?_
    rw [(settle_contract.1 hn').2]
    exact uniform_of_child rfl h.child
  | lambda =>
    refine result_bind_of_isWhole rfl h fun n' hn' => ?_
    rw [(settle_lambda.1 hn').2]
    exact uniform_of_child rfl h.child
  | collection s kind elem items ih =>
    refine result_bind_of_isWhole rfl h fun n' hn' => ?_
    obtain ⟨vs, items', -, hitems, rfl⟩ := settle_collection.1 hn'
    have hitem : ∀ item ∈ items', item.Uniform ∧ item.erase = elem.erase :=
      forall_of_forall₂ hitems fun x item hx =>
        ⟨(Attempt.toExcept_eq_ok.1 hx).2 ▸ ih (h.child _ List.mem_cons_self) x, erase_settle hx⟩
    exact uniform_of_copies h.child (List.forall_mem_map.2 hitem)
  | map s key value entries ihk ihv =>
    refine result_bind_of_isWhole rfl h fun n' hn' => ?_
    obtain ⟨elts, entries', -, hentries, rfl⟩ := settle_map.1 hn'
    have hvalue := h.child value (List.mem_cons_of_mem _ List.mem_cons_self)
    have hentry := uniform_of_settlesElt (ihv hvalue) hentries
    exact uniform_of_copies h.child (List.forall_mem_map.2 hentry)
  | bigMap s key value pointer entries ihk ihv =>
    refine result_bind_of_isWhole rfl h fun n' hn' => ?_
    obtain ⟨literal, p, -, -, rfl⟩ | ⟨elts, entries', -, hentries, rfl⟩ := settle_bigMap.1 hn'
    · -- the entries from before are still there
      cases h with
      | intro hchildren hcopies herase =>
        cases entries <;> exact .intro hchildren hcopies herase
    · have hvalue := h.child value (List.mem_cons_of_mem _ List.mem_cons_self)
      have hentry := uniform_of_settlesElt (ihv hvalue) hentries
      exact uniform_of_copies h.child (List.forall_mem_map.2 hentry)
  | ticket s inner ih =>
    rw [bind_ticket]
    exact uniform_of_child rfl (List.forall_mem_singleton.2 (ih (h.child _ List.mem_cons_self) v))
  | option s inner present ih =>
    have hinner := h.child _ List.mem_cons_self
    obtain ⟨a, present', -, hbind⟩ | ⟨-, present', hbind⟩ := result_bind_option (v := v) <;>
      rw [hbind]
    · exact uniform_of_child rfl (List.forall_mem_singleton.2 (ih hinner a))
    · exact uniform_of_child rfl (List.forall_mem_singleton.2 hinner)
  | pair s l r ihl ihr =>
    obtain ⟨hl, hr⟩ := forall_mem_pair.1 h.child
    obtain ⟨first, second, rest, r', -, hbind, ⟨-, rfl⟩ | ⟨-, rfl⟩⟩ | ⟨-, hbind⟩ :=
      result_bind_pair (v := v) <;> rw [hbind]
    · exact uniform_of_child rfl (forall_mem_pair.2 ⟨ihl hl first, ihr hr _⟩)
    · exact uniform_of_child rfl (forall_mem_pair.2 ⟨ihl hl first, hr⟩)
    · exact h
  | or s l r side ihl ihr =>
    obtain ⟨hl, hr⟩ := forall_mem_pair.1 h.child
    obtain ⟨a, side', -, hbind⟩ | ⟨a, side', -, hbind⟩ | ⟨-, hbind⟩ := result_bind_or (v := v) <;>
      rw [hbind]
    · exact uniform_of_child rfl (forall_mem_pair.2 ⟨ihl hl a, hr⟩)
    · exact uniform_of_child rfl (forall_mem_pair.2 ⟨hl, ihr hr a⟩)
    · exact h

/-! ### Places -/

lemma path_of_erase (h : m.erase = n.erase) : m.path = n.path :=
  congrArg Site.path (site_of_erase h)

lemma map_path_eq_iff {nodes nodes' : List Node} :
    nodes.map Node.path = nodes'.map Node.path ↔
      List.Forall₂ (fun c d : Node => c.path = d.path) nodes nodes' := by
  rw [← List.forall₂_eq_eq_eq, List.forall₂_map_left_iff, List.forall₂_map_right_iff]

lemma charted_congr (hsegments : a.segments = b.segments) (hpath : a.path = b.path)
    (h : List.Forall₂ (fun c d : Node => c.path = d.path ∧ (c.Charted ↔ d.Charted)) a.typeChildren
      b.typeChildren) : a.Charted ↔ b.Charted := by
  rw [charted_iff, charted_iff (n := b), hsegments, hpath,
    map_path_eq_iff.2 (h.imp fun _ _ hcd => hcd.1)]
  refine and_congr_right fun _ => ?_
  generalize a.typeChildren = nodes, b.typeChildren = nodes' at h
  induction h with
  | nil => simp
  | cons hcd _ ih => rw [List.forall_mem_cons, List.forall_mem_cons, hcd.2, ih]

lemma charted_erase : n.erase.Charted ↔ n.Charted := by
  induction n using typeInduction with
  | scalar => exact charted_congr rfl rfl .nil
  | contract | collection => exact charted_congr rfl rfl (.cons ⟨rfl, Iff.rfl⟩ .nil)
  | map | bigMap | lambda =>
    exact charted_congr rfl rfl (.cons ⟨rfl, Iff.rfl⟩ (.cons ⟨rfl, Iff.rfl⟩ .nil))
  | ticket _ inner ih | option _ inner _ ih =>
    exact charted_congr rfl rfl (.cons ⟨path_of_erase erase_erase, ih⟩ .nil)
  | pair _ l r ihl ihr | or _ l r _ ihl ihr =>
    exact charted_congr rfl rfl (.cons ⟨path_of_erase erase_erase, ihl⟩
      (.cons ⟨path_of_erase erase_erase, ihr⟩ .nil))

lemma Behind.charted (h : Behind n sides m) (hn : n.Charted) :
    m.Charted ∧ m.path = pathAlong n.path sides := by
  refine h.along (fun hor => ?_) hn
  obtain ⟨hpaths, hcharted⟩ := charted_iff.1 hor
  obtain ⟨hl, hr⟩ := forall_mem_pair.1 hcharted
  obtain ⟨hpath, hpath'⟩ : _ ∧ _ := by simpa [typeChildren, segments] using hpaths
  exact ⟨hl, hr, hpath, hpath'⟩

/-- A node whose parts stand where the type says, and whose copies are what they are copies of. -/
structure Regular (n : Node) : Prop where
  charted : n.Charted
  uniform : n.Uniform

/-- Two nodes of equal types at one place. -/
structure Alongside (a b : Node) : Prop where
  type : a.equalType b = true
  path : a.path = b.path
  left : a.Regular
  right : b.Regular

lemma segments_of_equalType (h : a.equalType b = true) : a.segments = b.segments := by
  cases a with
  | collection =>
    cases b <;> try cases h
    rw [segments, segments, of_decide_eq_true (Bool.and_eq_true_iff.1 h).1]
  | _ =>
    cases b <;> try cases h
    rfl

lemma Alongside.children (h : Alongside a b) :
    List.Forall₂ Alongside a.typeChildren b.typeChildren := by
  obtain ⟨hpaths, hcharted⟩ := charted_iff.1 h.left.charted
  obtain ⟨hpaths', hcharted'⟩ := charted_iff.1 h.right.charted
  have hpath : a.typeChildren.map Node.path = b.typeChildren.map Node.path := by
    rw [hpaths, hpaths', segments_of_equalType h.type, h.path]
  obtain ⟨hlength, htype⟩ := List.forall₂_iff_zip.1 (equalType_iff.1 h.type).2
  refine List.forall₂_iff_zip.2 ⟨hlength, fun hcd => ?_⟩
  obtain ⟨hc, hd⟩ := List.of_mem_zip hcd
  exact ⟨htype hcd, (List.forall₂_iff_zip.1 (map_path_eq_iff.1 hpath)).2 hcd,
    ⟨hcharted _ hc, h.left.uniform.child _ hc⟩, ⟨hcharted' _ hd, h.right.uniform.child _ hd⟩⟩

lemma Alongside.copy (h : Alongside a b) (hc : c.erase = a.erase) (hd : d.erase = b.erase)
    (huc : c.Uniform) (hud : d.Uniform) : Alongside c d where
  type := by rw [← equalType_erase, hc, hd, equalType_erase, h.type]
  path := by rw [path_of_erase hc, path_of_erase hd, h.path]
  left := ⟨charted_erase.1 (hc ▸ charted_erase.2 h.left.charted), huc⟩
  right := ⟨charted_erase.1 (hd ▸ charted_erase.2 h.right.charted), hud⟩

lemma Alongside.asFields (h : Alongside a b) (halike : a.fieldsAlike b = true) :
    List.Forall₂ Alongside a.asFields b.asFields := by
  refine forall₂_asFields (fun _ _ h => h.type) (fun h => ?_) h halike
  obtain ⟨hl, hr⟩ := List.forall₂_cons.1 h.children
  exact ⟨hl, (List.forall₂_cons.1 hr).1⟩

lemma Alongside.behind (h : Alongside a b) (hc : Behind a sides c) (hd : Behind b sides d) :
    Alongside c d := by
  have htype := h.type
  induction hc generalizing b with
  | here =>
    cases hd
    exact h
  | left hc ih =>
    cases b <;> try cases htype
    cases hd with
    | left hd =>
      have hl := (List.forall₂_cons.1 h.children).1
      exact ih hl hd hl.type
  | right hc ih =>
    cases b <;> try cases htype
    cases hd with
    | right hd =>
      have hr := (List.forall₂_cons.1 (List.forall₂_cons.1 h.children).2).1
      exact ih hr hd hr.type

lemma Alongside.alternative (h : Alongside a b) (hc : a.chosenAlternative? = some c)
    (hd : b.chosenAlternative? = some d) (hpath : c.path = d.path) : Alongside c d := by
  obtain ⟨sides, hmem⟩ := exists_mem_orAlternatives hc
  obtain ⟨sides', hmem'⟩ := exists_mem_orAlternatives hd
  have hbehind := behind_of_mem_orAlternatives hmem
  have hbehind' := behind_of_mem_orAlternatives hmem'
  rw [(hbehind.charted h.left.charted).2, (hbehind'.charted h.right.charted).2, h.path] at hpath
  obtain rfl := pathAlong_inj hpath
  exact h.behind hbehind hbehind'

lemma Alongside.copies {m m' : Node} (h : Alongside a b) (hm : Alongside m m')
    (hc : (m, c) ∈ a.copies) (hd : (m', d) ∈ b.copies) : Alongside c d := by
  obtain ⟨huc, hc⟩ := h.left.uniform.copy hc
  obtain ⟨hud, hd⟩ := h.right.uniform.copy hd
  exact hm.copy hc hd huc hud

/-- **Parts that face each other stand at one place**, if pairs are taken apart alike. -/
lemma Alongside.faces (h : Alongside a b) (hsplits : a.splitsLike b = true)
    (hface : Faces c d a b) : Alongside c d := by
  cases hface with
  | content | present => exact (List.forall₂_cons.1 h.children).1
  | field hfield =>
    obtain ⟨hsl, hsr⟩ := Bool.and_eq_true_iff.1 hsplits
    obtain ⟨hl, hr⟩ := List.forall₂_cons.1 h.children
    have hfields := List.rel_append (hl.asFields hsl) ((List.forall₂_cons.1 hr).1.asFields hsr)
    exact (List.forall₂_iff_zip.1 hfields).2 hfield
  | alternative hc hd hpath => exact h.alternative hc hd hpath
  | item hitem =>
    obtain ⟨hc, hd⟩ := List.of_mem_zip hitem
    exact h.copies (List.forall₂_cons.1 h.children).1 (List.mem_map_of_mem hc)
      (List.mem_map_of_mem hd)
  | value he hk hfind | entry he hk hfind =>
    obtain ⟨entry, hentry, rfl⟩ := exists_of_findEntry hfind
    have hvalue := (List.forall₂_cons.1 (List.forall₂_cons.1 h.children).2).1
    exact h.copies hvalue (List.mem_map_of_mem he) (List.mem_map_of_mem hentry)

/-! ### Fields that do not fit -/

lemma mem_zip_append {α β : Type} {x : α} {y : β} {xs xs' : List α} {ys ys' : List β}
    (h : (x, y) ∈ xs.zip ys) : (x, y) ∈ (xs ++ xs').zip (ys ++ ys') := by
  induction xs generalizing ys with
  | nil => cases h
  | cons x' xs ih =>
    cases ys with
    | nil => cases h
    | cons y' ys =>
      rw [List.zip_cons_cons, List.mem_cons] at h
      rw [List.cons_append, List.cons_append, List.zip_cons_cons, List.mem_cons]
      exact h.imp_right ih

/-- A field of a component is no value of a type that is equal to the pair. -/
lemma not_equalType_field (hc : c ∈ l.asFields) (h : (pair s l r).equalType a = true) :
    c.equalType a = false ∧ a.equalType c = false := by
  have hfield := length_skeleton_of_mem_asFields hc
  have hpair := length_skeleton_of_equalType h
  simp only [skeleton, List.length_cons, List.length_append] at hpair
  refine ⟨Bool.eq_false_iff.2 fun hca => ?_, Bool.eq_false_iff.2 fun hac => ?_⟩
  · have := length_skeleton_of_equalType hca
    omega
  · have := length_skeleton_of_equalType hac
    omega

/-- Do all fields face fields of equal types, as far as they go? -/
def FieldsFit (as bs : List Node) : Prop := ∀ c d, (c, d) ∈ as.zip bs → c.equalType d = true

lemma fieldsAlike_append (hl : l.equalType l' = true)
    (ihl : FieldsFit l.asFields l'.asFields → l.fieldsAlike l' = true)
    (ihr : FieldsFit r.asFields r'.asFields → r.fieldsAlike r' = true)
    (h : FieldsFit (l.asFields ++ r.asFields) (l'.asFields ++ r'.asFields)) :
    l.fieldsAlike l' = true ∧ r.fieldsAlike r' = true := by
  have hal := ihl fun c d hcd => h c d (mem_zip_append hcd)
  refine ⟨hal, ihr fun c d hcd => h c d ?_⟩
  rw [List.zip_append (equalType_asFields hl hal).length_eq]
  exact List.mem_append_right _ hcd

lemma fieldsAlike_of_fieldsFit (htype : a.equalType b = true)
    (h : FieldsFit a.asFields b.asFields) : a.fieldsAlike b = true := by
  induction a using typeInduction generalizing b with
  | pair s l r ihl ihr =>
    cases b <;> try cases htype
    next s' l' r' =>
    obtain ⟨hl, hr⟩ := Bool.and_eq_true_iff.1 htype
    obtain ⟨c, cs, hc⟩ := List.exists_cons_of_ne_nil (asFields_ne_nil (n := l))
    obtain ⟨d, ds, hd⟩ := List.exists_cons_of_ne_nil (asFields_ne_nil (n := l'))
    rw [fieldsAlike]
    rw [asFields, asFields] at h
    by_cases hs : s.annots.isEmpty = true <;> by_cases hs' : s'.annots.isEmpty = true
    · rw [if_pos hs, if_pos hs'] at h
      obtain ⟨hal, har⟩ := fieldsAlike_append hl (ihl hl) (ihr hr) h
      simp [hs, hs', hal, har]
    · -- the first field faces the whole of the other pair
      rw [if_pos hs, if_neg hs', hc] at h
      have hface := h c (pair s' l' r') List.mem_cons_self
      rw [(not_equalType_field (hc ▸ List.mem_cons_self) htype).1] at hface
      cases hface
    · rw [if_neg hs, if_pos hs', hd] at h
      have hface := h (pair s l r) d List.mem_cons_self
      have hsymm := equivalence_equalType.symm htype
      rw [(not_equalType_field (hd ▸ List.mem_cons_self) hsymm).2] at hface
      cases hface
    · simp [hs, hs']
  | _ =>
    cases b <;> try cases htype
    rfl

/-- Pairs are taken apart alike if all parts of them that face each other have equal types. -/
lemma splitsLike_of_faces (htype : a.equalType b = true)
    (h : ∀ c d, Faces c d a b → c.equalType d = true) : a.splitsLike b = true := by
  cases a with
  | pair s l r =>
    cases b <;> try cases htype
    obtain ⟨hl, hr⟩ := Bool.and_eq_true_iff.1 htype
    exact Bool.and_eq_true_iff.2 (fieldsAlike_append hl (fieldsAlike_of_fieldsFit hl)
      (fieldsAlike_of_fieldsFit hr) fun c d hcd => h c d (.field hcd))
  | _ =>
    cases b <;> try cases htype
    rfl

/-! ### Values that were bound -/

/-- The node was bound to a value in full: a node of a type, new or used. -/
def Settled (a : Node) : Prop :=
  ∃ path type root n history v, ofTypeAt path type = .ok root ∧ n ∈ root.skeleton ∧
    (n.after history).settle v = .ok a

lemma settled_of_ofType {type : Micheline} (hn : ofType type = .ok n) (h : n.settle v = .ok a) :
    a.Settled :=
  ⟨"0", type, n, n, [], v, hn, mem_skeleton_self, h⟩

lemma after_of_bind {P : Node → Prop} (hbind : ∀ n v, P n → P (n.bind v).result) (h : P n)
    (history : List Micheline) : P (n.after history) := by
  induction history generalizing n with
  | nil => exact h
  | cons v history ih => exact ih (hbind n v h)

lemma Settled.bound (h : a.Settled) : a.Bound := by
  obtain ⟨path, type, root, n, history, v, hread, hn, ha⟩ := h
  have hsound := after_of_bind (P := Sound) (fun _ v h => (h.bind v).sound)
    ((unbound_ofTypeAt hread).of_mem_skeleton hn).sound history
  exact ((hsound.bind v).of_settle ha).2

lemma Settled.regular (h : a.Settled) : a.Regular := by
  obtain ⟨path, type, root, n, history, v, hread, hn, ha⟩ := h
  obtain ⟨j, hreads⟩ := exists_reads hread
  have hcharted : n.Charted := of_mem_skeleton (fun _ hm child hchild => (hm.child hchild).1)
    hreads.charted hn
  have huniform := after_of_bind (P := Uniform) (fun _ v h => h.bind v)
    ((unbound_ofTypeAt hread).of_mem_skeleton hn).uniform history
  refine ⟨charted_erase.1 ?_, (Attempt.toExcept_eq_ok.1 ha).2 ▸ huniform.bind v⟩
  rw [erase_settle ha, erase_after]
  exact charted_erase.2 hcharted

lemma Compared.face {i j : Node} (h : Compared c d a b) (hface : Faces i j c d) :
    Compared i j a b := by
  induction h with
  | self => exact .part hface .self
  | part hpart _ ih => exact .part hpart ih

/-- What is compared in nodes at one place stands at one place, if all pairs that are compared are
taken apart alike. -/
lemma Alongside.compared (h : Alongside a b)
    (hsplits : ∀ c d, Compared c d a b → c.splitsLike d = true) (hcd : Compared c d a b) :
    Alongside c d := by
  induction hcd with
  | self => exact h
  | part hface _ ih =>
    exact ih (h.faces (hsplits _ _ .self) hface) fun c d hcd => hsplits c d (.part hface hcd)

/-- At one place, all that is compared has equal types exactly if pairs are taken apart alike. -/
theorem Alongside.equalType_iff_splitsLike (h : Alongside a b) :
    (∀ c d, Compared c d a b → c.equalType d = true) ↔
      ∀ c d, Compared c d a b → c.splitsLike d = true := by
  constructor
  · intro htype c d hcd
    exact splitsLike_of_faces (htype c d hcd) fun i j hface => htype i j (hcd.face hface)
  · intro hsplits c d hcd
    exact (h.compared hsplits hcd).type

/-- **Values of equal types have a difference**, if both can be shown, exactly when all parts of
them that are compared have equal types; otherwise two parts that have not are what is reported. At
one place it takes that a pair within a pair has annotations on both sides or on neither. -/
theorem exists_distinguish_iff_of_equalType (ha : a.Settled) (hb : b.Settled)
    (htype : a.equalType b = true) (hview : a.render = .ok view) (hview' : b.render = .ok view') :
    ((∃ diff, a.distinguish b = .ok diff) ↔ ∀ c d, Compared c d a b → c.equalType d = true) ∧
    (∀ e, a.distinguish b = .error e →
      ∃ c d, Compared c d a b ∧ c.equalType d = false ∧ e = .notComparable c.prim d.prim) ∧
    (a.path = b.path → ((∃ diff, a.distinguish b = .ok diff) ↔
      ∀ c d, Compared c d a b → c.splitsLike d = true)) := by
  have hleft : a.Viewable := ⟨ha.bound, view, hview⟩
  have hright : b.Viewable := ⟨hb.bound, view', hview'⟩
  have hiff := exists_distinguish_iff hleft hright
  refine ⟨hiff, distinguish_failsOnly hleft hright, fun hpath => ?_⟩
  have hplace : Alongside a b := ⟨htype, hpath, ha.regular, hb.regular⟩
  exact hiff.trans hplace.equalType_iff_splitsLike

def span (annots : List String) : Micheline :=
  .prim "pair" [.prim "nat" [] [], .prim "pair" [.prim "nat" [] [], .prim "nat" [] []] annots] []

def spanValue : Micheline := .data .pair [.int "1", .data .pair [.int "2", .int "3"]]

theorem exists_distinguish_iff_of_equalType_span :
    ∃ n n' a b view view', ofType (span ["%range"]) = .ok n ∧ ofType (span [":slice"]) = .ok n' ∧
      n.settle spanValue = .ok a ∧ n'.settle spanValue = .ok b ∧ a.equalType b = true ∧
      a.render = .ok view ∧ b.render = .ok view' ∧ (∃ diff, a.distinguish b = .ok diff) ∧
      (∀ c d, Compared c d a b → c.equalType d = true) ∧
      ∀ c d, Compared c d a b → c.splitsLike d = true := by
  have hrun : (do
      let n ← ofType (span ["%range"])
      let n' ← ofType (span [":slice"])
      let a ← n.settle spanValue
      let b ← n'.settle spanValue
      let _ ← a.render
      let _ ← b.render
      let _ ← a.distinguish b
      return (a.equalType b, decide (a.path = b.path))).toOption = some (true, true) := by
    decide +kernel
  obtain ⟨n, hn, hrun⟩ := except_bind_ok.1 (except_ok_of_toOption hrun)
  obtain ⟨n', hn', hrun⟩ := except_bind_ok.1 hrun
  obtain ⟨a, ha, hrun⟩ := except_bind_ok.1 hrun
  obtain ⟨b, hb, hrun⟩ := except_bind_ok.1 hrun
  obtain ⟨view, hview, hrun⟩ := except_bind_ok.1 hrun
  obtain ⟨view', hview', hrun⟩ := except_bind_ok.1 hrun
  obtain ⟨diff, hdiff, hrun⟩ := except_bind_ok.1 hrun
  obtain ⟨htype, hpath⟩ := Prod.mk.inj (Except.ok.inj hrun)
  obtain ⟨hiff, -, hplace⟩ := exists_distinguish_iff_of_equalType
    (settled_of_ofType hn ha) (settled_of_ofType hn' hb) htype hview hview'
  exact ⟨n, n', a, b, view, view', hn, hn', ha, hb, htype, hview, hview', ⟨diff, hdiff⟩,
    hiff.1 ⟨diff, hdiff⟩, (hplace (of_decide_eq_true hpath)).1 ⟨diff, hdiff⟩⟩

/-- Values of equal types need not have a difference: a pair that is annotated on one side only
faces the first of its fields. -/
theorem not_exists_distinguish_span :
    ¬ ∀ (a b : Node) (view view' : View), a.Settled → b.Settled → a.equalType b = true →
      a.render = .ok view → b.render = .ok view' → ∃ diff, a.distinguish b = .ok diff := by
  intro hclaim
  have hrun : (do
      let n ← ofType (span ["%range"])
      let n' ← ofType (span [])
      let a ← n.settle spanValue
      let b ← n'.settle spanValue
      let _ ← a.render
      let _ ← b.render
      return (a.equalType b, (a.distinguish b).toOption.isSome)).toOption = some (true, false) := by
    decide +kernel
  obtain ⟨n, hn, hrun⟩ := except_bind_ok.1 (except_ok_of_toOption hrun)
  obtain ⟨n', hn', hrun⟩ := except_bind_ok.1 hrun
  obtain ⟨a, ha, hrun⟩ := except_bind_ok.1 hrun
  obtain ⟨b, hb, hrun⟩ := except_bind_ok.1 hrun
  obtain ⟨view, hview, hrun⟩ := except_bind_ok.1 hrun
  obtain ⟨view', hview', hrun⟩ := except_bind_ok.1 hrun
  obtain ⟨htype, hnone⟩ := Prod.mk.inj (Except.ok.inj hrun)
  obtain ⟨diff, hdiff⟩ := hclaim a b view view'
    (settled_of_ofType hn ha) (settled_of_ofType hn' hb) htype hview hview'
  rw [hdiff] at hnone
  cases hnone

end Lineage.Node
