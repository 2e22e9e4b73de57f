import Lineage.Proofs.Typed.Faithful
import Lineage.Proofs.Typed.Rereading

/-!
# Equal types

Two nodes have equal types if their type expressions have one outline, which leaves out annotations
and the arguments of scalar types. Type expressions that differ in annotations only have, besides
one outline, the same arguments of scalar types (`equalType_iff_toType`).
-/

namespace Lineage

/-! ### Expressions without annotations -/

namespace Micheline

mutual
/-- The expression without annotations. -/
def bare : Micheline → Micheline
  | seq items => .seq (bareAll items)
  | prim name args _ => .prim name (bareAll args) []
  | m => m

def bareAll : List Micheline → List Micheline
  | [] => []
  | m :: ms => m.bare :: bareAll ms
end

mutual
/-- The type expression without annotations, and without the arguments of scalar types. -/
def outline : Micheline → Micheline
  | seq items => .seq (outlineAll items)
  | prim name args _ => .prim name (if (Scalar.ofName? name).isSome then [] else outlineAll args) []
  | m => m

/-- The type expressions without annotations, and without the arguments of scalar types. -/
def outlineAll : List Micheline → List Micheline
  | [] => []
  | m :: ms => m.outline :: outlineAll ms
end

mutual
/-- The arguments of the scalar types in a type expression, from left to right, without
annotations. -/
def scalarArguments : Micheline → List (List Micheline)
  | seq items => scalarArgumentsAll items
  | prim name args _ =>
    if (Scalar.ofName? name).isSome then [bareAll args] else scalarArgumentsAll args
  | _ => []

def scalarArgumentsAll : List Micheline → List (List Micheline)
  | [] => []
  | m :: ms => m.scalarArguments ++ scalarArgumentsAll ms
end

mutual
lemma length_scalarArguments : ∀ {t u : Micheline}, t.outline = u.outline →
    t.scalarArguments.length = u.scalarArguments.length
  | .seq xs, u, h => by
    cases u with
    | seq ys => exact length_scalarArgumentsAll (seq.inj h)
    | _ => cases h
  | .prim name args annots, u, h => by
    cases u with
    | prim name' args' annots' =>
      obtain ⟨rfl, hargs, -⟩ := prim.inj h
      unfold scalarArguments
      split
      · rfl
      · next hscalar =>
        rw [if_neg hscalar, if_neg hscalar] at hargs
        exact length_scalarArgumentsAll hargs
    | _ => cases h
  | .int _, u, h | .string _, u, h | .bytes _, u, h => by cases u <;> first | rfl | cases h

lemma length_scalarArgumentsAll : ∀ {ts us : List Micheline}, outlineAll ts = outlineAll us →
    (scalarArgumentsAll ts).length = (scalarArgumentsAll us).length
  | [], us, h => by
    cases us with
    | nil => rfl
    | cons => cases h
  | t :: ts, us, h => by
    cases us with
    | nil => cases h
    | cons u us =>
      obtain ⟨hhead, htail⟩ := List.cons.inj h
      simp only [scalarArgumentsAll, List.length_append, length_scalarArguments hhead,
        length_scalarArgumentsAll htail]
end

mutual
lemma bare_eq_iff : ∀ {t u : Micheline}, t.bare = u.bare ↔
    t.outline = u.outline ∧ t.scalarArguments = u.scalarArguments
  | .seq xs, u => by
    cases u with
    | seq ys => simp only [bare, outline, scalarArguments, seq.injEq, bareAll_eq_iff]
    | _ => simp [bare, outline]
  | .prim name args annots, u => by
    cases u with
    | prim name' args' annots' =>
      simp only [bare, outline, scalarArguments, prim.injEq, and_true, and_assoc]
      refine and_congr_right ?_
      rintro rfl
      split
      · simp
      · exact bareAll_eq_iff
    | _ => simp [bare, outline]
  | .int _, u | .string _, u | .bytes _, u => by cases u <;> simp [bare, outline, scalarArguments]

lemma bareAll_eq_iff : ∀ {ts us : List Micheline}, bareAll ts = bareAll us ↔
    outlineAll ts = outlineAll us ∧ scalarArgumentsAll ts = scalarArgumentsAll us
  | [], us => by cases us <;> simp [bareAll, outlineAll, scalarArgumentsAll]
  | t :: ts, us => by
    cases us with
    | nil => simp [bareAll, outlineAll]
    | cons u us =>
      have hbare : t.bare = u.bare ↔ _ := bare_eq_iff
      have hbares : bareAll ts = bareAll us ↔ _ := bareAll_eq_iff
      simp only [bareAll, outlineAll, scalarArgumentsAll, List.cons.injEq, hbare, hbares]
      constructor
      · rintro ⟨⟨hhead, hargs⟩, htail, hrest⟩
        exact ⟨⟨hhead, htail⟩, by rw [hargs, hrest]⟩
      · rintro ⟨⟨hhead, htail⟩, hargs⟩
        obtain ⟨hargs, hrest⟩ := List.append_inj hargs (length_scalarArguments hhead)
        exact ⟨⟨hhead, hargs⟩, htail, hrest⟩
end

lemma outlineAll_eq_map {ts : List Micheline} : outlineAll ts = ts.map outline := by
  induction ts with
  | nil => rfl
  | cons t ts ih => rw [outlineAll, ih, List.map_cons]

end Micheline

/-! ### Names of types -/

lemma Scalar.name_inj {type type' : Scalar} : type.name = type'.name ↔ type = type' := by
  refine ⟨fun h => Option.some.inj ?_, congrArg _⟩
  rw [← ofName?_name, h, ofName?_name]

lemma Collection.name_inj {kind kind' : Collection} : kind.name = kind'.name ↔ kind = kind' := by
  cases kind <;> cases kind' <;> decide

lemma Collection.name_ne (kind : Collection) :
    kind.name ≠ "contract" ∧ kind.name ≠ "ticket" ∧ kind.name ≠ "option" := by
  cases kind <;> decide

namespace Node

variable {a b c m n inner : Node} {next depth j : Nat} {path path' : String} {t u : Micheline}

/-! ### Equality along the types a type is made of -/

/-- Equal types are called alike and made of equal types. -/
lemma equalType_iff : a.equalType b = true ↔
    a.prim = b.prim ∧
      List.Forall₂ (fun c d => c.equalType d = true) a.typeChildren b.typeChildren := by
  have hne := fun kind => (Collection.name_ne kind).imp Ne.symm (And.imp Ne.symm Ne.symm)
  constructor
  · intro h
    cases a with
    | scalar =>
      cases b <;> try cases h
      exact ⟨congrArg Scalar.name (of_decide_eq_true h), .nil⟩
    | contract | ticket | option =>
      cases b <;> try cases h
      exact ⟨rfl, .cons h .nil⟩
    | collection =>
      cases b <;> try cases h
      obtain ⟨hkind, helem⟩ := Bool.and_eq_true_iff.1 h
      exact ⟨congrArg Collection.name (of_decide_eq_true hkind), .cons helem .nil⟩
    | pair | or | map | bigMap | lambda =>
      cases b <;> try cases h
      obtain ⟨hl, hr⟩ := Bool.and_eq_true_iff.1 h
      exact ⟨rfl, .cons hl (.cons hr .nil)⟩
  · rintro ⟨hprim, hchildren⟩
    cases a with
    | scalar =>
      cases b <;> try cases hchildren
      exact decide_eq_true (Scalar.name_inj.1 hprim)
    | contract | ticket | option =>
      cases b <;> obtain _ | ⟨hinner, ⟨⟩⟩ := hchildren
      all_goals first
        | exact hinner
        | simp [prim, hne] at hprim
    | collection _ kind =>
      cases b <;> obtain _ | ⟨helem, ⟨⟩⟩ := hchildren
      all_goals first
        | exact Bool.and_eq_true_iff.2 ⟨decide_eq_true (Collection.name_inj.1 hprim), helem⟩
        | exact absurd hprim (by simp [prim, Collection.name_ne])
    | pair | or | map | bigMap | lambda =>
      cases b <;> obtain _ | ⟨hl, _ | ⟨hr, ⟨⟩⟩⟩ := hchildren
      all_goals first
        | exact Bool.and_eq_true_iff.2 ⟨hl, hr⟩
        | simp [prim] at hprim

lemma equalType_congr (h : a.equalType b = true) : a.equalType c = b.equalType c := by
  induction a using typeInduction generalizing b c with
  | scalar =>
    cases b <;> try cases h
    rw [Bool.eq_iff_iff, equalType_iff, equalType_iff, (equalType_iff.1 h).1]
    rfl
  | contract _ _ _ ih | ticket _ _ ih | option _ _ _ ih =>
    cases b <;> try cases h
    cases c <;> first | rfl | exact ih h
  | collection _ _ _ _ ih =>
    cases b <;> try cases h
    obtain ⟨hkind, helem⟩ := Bool.and_eq_true_iff.1 h
    obtain rfl := of_decide_eq_true hkind
    cases c <;> first | rfl | exact congrArg₂ and rfl (ih helem)
  | pair _ _ _ ih ih' | or _ _ _ _ ih ih' | map _ _ _ _ ih ih' | bigMap _ _ _ _ _ ih ih'
  | lambda _ _ _ _ ih ih' =>
    cases b <;> try cases h
    obtain ⟨hl, hr⟩ := Bool.and_eq_true_iff.1 h
    cases c <;> first | rfl | exact congrArg₂ and (ih hl) (ih' hr)

lemma equivalence_equalType : Equivalence fun a b : Node => a.equalType b = true where
  refl _ := equalType_refl
  symm h := (equalType_congr h).symm.trans equalType_refl
  trans hab hbc := (equalType_congr hab).trans hbc

/-! ### Type expressions -/

/-- A ticket holds its content between a ticketer and an amount. -/
def IsTicketed (inner : Node) : Prop :=
  ∃ s s' s₁ s₂ args args' v v' content, inner =
    pair s (scalar s₁ .address args v) (pair s' content (scalar s₂ .nat args' v'))

/-- Every ticket of the type holds its content between a ticketer and an amount. -/
def Ticketed (n : Node) : Prop := ∀ s inner, ticket s inner ∈ n.skeleton → inner.IsTicketed

lemma Reads.ticketed (h : Reads next path depth t n j) : n.Ticketed := by
  induction h with
  | scalar => exact fun s inner hm => by simp [skeleton] at hm
  | option _ ih | contract _ ih | collection _ _ ih =>
    exact fun s inner hm => ih s inner (by simpa [skeleton] using hm)
  | pair _ _ ih ih' | or _ _ ih ih' | map _ _ ih ih' | bigMap _ _ ih ih' | lambda _ _ ih ih' =>
    intro s inner hm
    simp only [skeleton, List.cons_append, List.mem_cons, List.mem_append, reduceCtorEq,
      false_or] at hm
    exact hm.elim (ih s inner) (ih' s inner)
  | ticket _ ih =>
    intro s inner hm
    simp only [ticketAround, ticketPart, skeleton, List.cons_append, List.nil_append, List.mem_cons,
      List.mem_append, ticket.injEq, reduceCtorEq, List.not_mem_nil, false_or, or_false] at hm
    obtain ⟨-, rfl⟩ | hm := hm
    · exact ⟨_, _, _, _, _, _, _, _, _, rfl⟩
    · exact ih s inner hm

/-- The types that stand in the type expression of a node. -/
def components : Node → List Node
  | ticket _ inner => inner.ticketContent?.toList
  | n => n.typeChildren

/-- A component is smaller than its type, and keeps what its tickets hold. -/
lemma Ticketed.of_mem_components (h : n.Ticketed) (hm : m ∈ n.components) :
    m.Ticketed ∧ sizeOf m < sizeOf n := by
  cases n with
  | ticket s inner =>
    obtain ⟨s', s'', _, _, _, _, _, _, content, rfl⟩ := h s inner mem_skeleton_self
    obtain rfl := List.mem_singleton.1 hm
    refine ⟨fun s inner hmem => h s inner (by simp [skeleton, hmem]), ?_⟩
    simp only [ticket.sizeOf_spec, pair.sizeOf_spec]
    omega
  | _ =>
    exact ⟨fun s inner hmem => h s inner (mem_skeleton.2 (.inr ⟨m, hm, hmem⟩)),
      sizeOf_lt_of_mem_typeChildren hm⟩

lemma exists_ticket (h : n.prim = "ticket") : ∃ s inner, n = ticket s inner := by
  cases n with
  | ticket s inner => exact ⟨s, inner, rfl⟩
  | scalar _ type => cases type <;> simp [prim, Scalar.name] at h
  | collection _ kind => exact absurd h kind.name_ne.2.1
  | _ => simp [prim] at h

lemma components_of_prim_ne (h : n.prim ≠ "ticket") : n.components = n.typeChildren := by
  cases n with
  | ticket => exact absurd rfl h
  | _ => rfl

lemma equalType_iff_components (ha : a.Ticketed) (hb : b.Ticketed) : a.equalType b = true ↔
    a.prim = b.prim ∧
      List.Forall₂ (fun c d => c.equalType d = true) a.components b.components := by
  rw [equalType_iff]
  refine and_congr_right fun hprim => ?_
  by_cases hticket : a.prim = "ticket"
  · obtain ⟨s, inner, rfl⟩ := exists_ticket hticket
    obtain ⟨s', inner', rfl⟩ := exists_ticket (hprim ▸ hticket)
    obtain ⟨_, _, _, _, _, _, _, _, content, rfl⟩ := ha s inner mem_skeleton_self
    obtain ⟨_, _, _, _, _, _, _, _, content', rfl⟩ := hb s' inner' mem_skeleton_self
    simp [equalType, typeChildren, components, ticketContent?]
  · rw [components_of_prim_ne hticket, components_of_prim_ne (hprim ▸ hticket)]

lemma outline_prim {name : String} {args : List Micheline} {annots : List String}
    (h : (Scalar.ofName? name).isSome = false) :
    (Micheline.prim name args annots).outline = .prim name (args.map Micheline.outline) [] := by
  rw [Micheline.outline, h, if_neg Bool.false_ne_true, Micheline.outlineAll_eq_map]

lemma outline_toType (h : n.Ticketed) :
    n.toType.outline = .prim n.prim (n.components.map fun m => m.toType.outline) [] := by
  cases n with
  | scalar s type =>
    rw [toType, Micheline.outline, Scalar.ofName?_name]
    rfl
  | ticket s inner =>
    obtain ⟨_, _, _, _, _, _, _, _, content, rfl⟩ := h s inner mem_skeleton_self
    rw [toType, outline_prim (by rfl)]
    rfl
  | collection s kind =>
    rw [toType, outline_prim (by cases kind <;> rfl)]
    rfl
  | _ =>
    rw [toType, outline_prim (by rfl)]
    rfl

lemma forall₂_congr {α β : Type} {R S : α → β → Prop} {xs : List α} {ys : List β}
    (h : ∀ x ∈ xs, ∀ y ∈ ys, R x y ↔ S x y) : List.Forall₂ R xs ys ↔ List.Forall₂ S xs ys := by
  induction xs generalizing ys with
  | nil => cases ys <;> simp
  | cons x xs ih =>
    cases ys with
    | nil => simp
    | cons y ys =>
      rw [List.forall₂_cons, List.forall₂_cons, h x List.mem_cons_self y List.mem_cons_self,
        ih fun x hx y hy => h x (List.mem_cons_of_mem _ hx) y (List.mem_cons_of_mem _ hy)]

/-- Types are equal if their type expressions have one outline. -/
lemma equalType_iff_outline (ha : a.Ticketed) (hb : b.Ticketed) :
    a.equalType b = true ↔ a.toType.outline = b.toType.outline := by
  induction a using sizeInduction generalizing b with
  | step a ih =>
    have hcomponents : ∀ c ∈ a.components, ∀ d ∈ b.components,
        c.equalType d = true ↔ c.toType.outline = d.toType.outline := fun c hc d hd =>
      ih c (ha.of_mem_components hc).2 (ha.of_mem_components hc).1 (hb.of_mem_components hd).1
    rw [equalType_iff_components ha hb, forall₂_congr hcomponents, outline_toType ha,
      outline_toType hb, Micheline.prim.injEq, and_iff_left rfl, ← List.forall₂_eq_eq_eq,
      List.forall₂_map_left_iff, List.forall₂_map_right_iff]

/-- **Types are equal up to annotations and the arguments of scalar types**: type equality is an
equivalence. It holds of two types if their type expressions have one outline; these differ in
annotations only if, besides, the arguments of their scalar types are the same. -/
theorem equalType_iff_toType (ha : ofTypeAt path t = .ok a) (hb : ofTypeAt path' u = .ok b) :
    (a.equalType b = true ↔ a.toType.outline = b.toType.outline) ∧
    (a.toType.bare = b.toType.bare ↔ a.equalType b = true ∧
      a.toType.scalarArguments = b.toType.scalarArguments) ∧
    Equivalence fun a b : Node => a.equalType b = true := by
  obtain ⟨_, hreads⟩ := exists_reads ha
  obtain ⟨_, hreads'⟩ := exists_reads hb
  have houtline := equalType_iff_outline hreads.ticketed hreads'.ticketed
  exact ⟨houtline, Micheline.bare_eq_iff.trans (and_congr_left' houtline.symm),
    equivalence_equalType⟩

/-- A type that is written with other annotations, and as nested pairs, in `treasuryRenamed`. -/
def treasury : Micheline :=
  .prim "pair" [.prim "nat" [] ["%counter"], .prim "ticket" [.prim "string" [] []] [":voucher"],
    .prim "sapling_state" [.int "8"] ["%pool"]] []

def treasuryRenamed : Micheline :=
  .prim "pair" [.prim "nat" [] [], .prim "pair" [.prim "ticket" [.prim "string" [] ["%held"]] [],
    .prim "sapling_state" [.int "8"] []] [":rest"]] []

theorem equalType_iff_toType_treasury :
    ∃ a b, ofType treasury = .ok a ∧ ofType treasuryRenamed = .ok b ∧ a.toType ≠ b.toType ∧
      (a.equalType b = true ↔ a.toType.outline = b.toType.outline) ∧
      (a.toType.bare = b.toType.bare ↔ a.equalType b = true ∧
        a.toType.scalarArguments = b.toType.scalarArguments) ∧
      Equivalence fun a b : Node => a.equalType b = true := by
  have hrun : (do
      let a ← ofType treasury
      let b ← ofType treasuryRenamed
      return decide (a.toType = b.toType)).toOption = some false := by
    decide +kernel
  obtain ⟨a, ha, hrun⟩ := except_bind_ok.1 (except_ok_of_toOption hrun)
  obtain ⟨b, hb, hrun⟩ := except_bind_ok.1 hrun
  exact ⟨a, b, ha, hb, of_decide_eq_false (Except.ok.inj hrun), equalType_iff_toType ha hb⟩

def pool (memoSize : String) : Micheline := .prim "sapling_state" [.int memoSize] []

/-- Types that differ in an argument of a scalar type are equal. -/
theorem not_equalType_pool :
    ¬ ∀ (t u : Micheline) (a b : Node), ofType t = .ok a → ofType u = .ok b →
      (a.equalType b = true ↔ a.toType.bare = b.toType.bare) := by
  intro hclaim
  have hrun : (do
      let a ← ofType (pool "8")
      let b ← ofType (pool "16")
      return (a.equalType b, decide (a.toType.bare = b.toType.bare))).toOption =
        some (true, false) := by
    decide +kernel
  obtain ⟨a, ha, hrun⟩ := except_bind_ok.1 (except_ok_of_toOption hrun)
  obtain ⟨b, hb, hrun⟩ := except_bind_ok.1 hrun
  obtain ⟨htype, hbare⟩ := Prod.mk.inj (Except.ok.inj hrun)
  exact of_decide_eq_false hbare ((hclaim _ _ a b ha hb).1 htype)

end Node

end Lineage
