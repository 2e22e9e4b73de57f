import Mathlib.Data.List.Forall2
import Lineage.Proofs.Typed.TypeExpression
import Lineage.Typed.Binding

/-!
# Which values are bound

For each kind of node one lemma says which values it takes and what node becomes of it
(`settle_pair` and its companions). `typeInduction` is the induction along a type.
-/

namespace Lineage

/-! ### Changes that are made in full -/

namespace Attempt

variable {α β : Type} {a : α} {b : β}

@[simp] lemma toExcept_done : (done a).toExcept = .ok a := rfl

@[simp] lemma toExcept_stopped {e : NodeError} : (stopped a e).toExcept = .error e := rfl

@[simp] lemma toExcept_map {t : Attempt α} {f : α → β} :
    (t.map f).toExcept = .ok b ↔ ∃ a, t.toExcept = .ok a ∧ f a = b := by
  obtain ⟨a, _ | e⟩ := t <;> simp [map, toExcept]

@[simp] lemma toExcept_andThen {t : Attempt α} {halted : α → β} {next : α → Attempt β} :
    (t.andThen halted next).toExcept = .ok b ↔
      ∃ a, t.toExcept = .ok a ∧ (next a).toExcept = .ok b := by
  obtain ⟨a, _ | e⟩ := t <;> simp [andThen, toExcept, stopped]

@[simp] lemma toExcept_ofExcept {old : β} {x : Except NodeError α} {f : α → β} :
    (ofExcept old x f).toExcept = .ok b ↔ ∃ a, x = .ok a ∧ f a = b := by
  cases x <;> simp [ofExcept]

end Attempt

lemma mapM_ok {ε α β : Type} {f : α → Except ε β} {xs : List α} {ys : List β} :
    xs.mapM f = .ok ys ↔ List.Forall₂ (fun x y => f x = .ok y) xs ys := by
  induction xs generalizing ys with
  | nil => cases ys <;> simp [pure, Except.pure]
  | cons x xs ih =>
    simp only [List.mapM_cons, except_bind_ok, pure, Except.pure, Except.ok.injEq, ih]
    constructor
    · rintro ⟨y, hy, ys', hys, rfl⟩
      exact .cons hy hys
    · rintro (_ | ⟨hy, hys⟩)
      exact ⟨_, hy, _, hys, rfl⟩

/-! ### Applications of constructors -/

lemma Constructor.ofName?_eq_some_iff {name : String} {c : Constructor} :
    ofName? name = Option.some c ↔ c.name = name := by
  constructor
  · intro h
    unfold ofName? at h
    simpa using List.find?_some h
  · rintro rfl
    cases c <;> rfl

namespace Micheline

variable {v w x : Micheline} {vs args : List Micheline} {c : Constructor}

/-- A constructor is applied to arguments, with any annotations. -/
def Applies (v : Micheline) (c : Constructor) (args : List Micheline) : Prop :=
  ∃ annots, v = .prim c.name args annots

/-- The components of a pair: the arguments of the constructor, or the items of a sequence. -/
def Components (v : Micheline) (vs : List Micheline) : Prop := v.Applies .pair vs ∨ v = .seq vs

lemma data_applies {c' : Constructor} {args' : List Micheline} :
    (data c args).Applies c' args' ↔ c' = c ∧ args' = args := by
  constructor
  · rintro ⟨annots, h⟩
    obtain ⟨hname, rfl, -⟩ := prim.inj h
    have hc := Constructor.ofName?_eq_some_iff.2 hname.symm
    rw [Constructor.ofName?_eq_some_iff.2 rfl] at hc
    exact ⟨(Option.some.inj hc).symm, rfl⟩
  · rintro ⟨rfl, rfl⟩
    exact ⟨[], rfl⟩

lemma construct_ok {type : String} {allowed : List Constructor} :
    v.construct type allowed = .ok (c, args) ↔ v.Applies c args ∧ c ∈ allowed := by
  constructor
  · intro h
    unfold construct at h
    split at h
    · next name args' annots =>
      split at h
      · cases h
      · next c' hname =>
        split at h
        · next hmem =>
          cases h
          refine ⟨⟨annots, ?_⟩, by simpa using hmem⟩
          rw [Constructor.ofName?_eq_some_iff.1 hname]
        · cases h
    · cases h
  · rintro ⟨⟨annots, rfl⟩, hmem⟩
    unfold construct
    dsimp only
    rw [Constructor.ofName?_eq_some_iff.2 rfl]
    exact if_pos (by simpa using hmem)

lemma components_construct {type : String} :
    (v.construct type [.pair]).map Prod.snd = .ok args ↔ v.Applies .pair args := by
  constructor
  · intro h
    cases hconstruct : v.construct type [.pair] with
    | error e =>
      rw [hconstruct] at h
      cases h
    | ok r =>
      obtain ⟨c, args'⟩ := r
      rw [hconstruct] at h
      cases h
      obtain ⟨happlies, hc⟩ := construct_ok.1 hconstruct
      rwa [List.mem_singleton.1 hc] at happlies
  · intro h
    rw [construct_ok.2 ⟨h, List.mem_singleton_self _⟩]
    rfl

lemma halves_ok {path : String} :
    v.halves path = .ok (w, x) ↔
      ∃ second rest, v.Components (w :: second :: rest) ∧
        x = .behind Constructor.pair.name second rest := by
  have hseq : ∀ components : List Micheline, (seq components).halves path = .ok (w, x) ↔
      ∃ second rest, components = w :: second :: rest ∧
        x = .behind Constructor.pair.name second rest := by
    intro components
    constructor
    · intro h
      obtain _ | ⟨a, _ | ⟨b, _ | ⟨c, rest⟩⟩⟩ := components
      · cases h
      · cases h
      · cases h
        exact ⟨_, [], rfl, rfl⟩
      · cases h
        exact ⟨_, _ :: _, rfl, rfl⟩
    · rintro ⟨second, rest, rfl, rfl⟩
      cases rest <;> rfl
  cases v with
  | seq items =>
    rw [hseq]
    constructor
    · rintro ⟨second, rest, rfl, hx⟩
      exact ⟨second, rest, .inr rfl, hx⟩
    · rintro ⟨second, rest, ⟨annots, hv⟩ | hv, hx⟩
      · cases hv
      · exact ⟨second, rest, seq.inj hv, hx⟩
  | _ =>
    show (Except.map _ _ >>= fun components => (seq components).halves path) = _ ↔ _
    simp only [except_bind_ok, components_construct, hseq]
    constructor
    · rintro ⟨components, hv, second, rest, rfl, hx⟩
      exact ⟨second, rest, .inl hv, hx⟩
    · rintro ⟨second, rest, hv | hv, hx⟩
      · exact ⟨_, hv, second, rest, rfl, hx⟩
      · cases hv

lemma entry_ok {path : String} : v.entry path = .ok (w, x) ↔ v.Applies .elt [w, x] := by
  unfold entry
  simp only [except_bind_ok, Prod.exists, construct_ok, List.mem_singleton]
  constructor
  · rintro ⟨c, args, ⟨happlies, rfl⟩, h⟩
    split at h
    · cases h
      exact happlies
    · cases h
  · intro h
    exact ⟨.elt, [w, x], ⟨h, rfl⟩, rfl⟩

end Micheline

/-! ### Nodes -/

namespace Node

variable {s : Site} {v : Micheline} {n : Node}

section Induction

variable {P : Node → Prop}
  (scalar : ∀ s type typeArgs value, P (.scalar s type typeArgs value))
  (contract : ∀ s parameter value, P parameter → P (.contract s parameter value))
  (ticket : ∀ s inner, P inner → P (.ticket s inner))
  (option : ∀ s inner present, P inner → P (.option s inner present))
  (pair : ∀ s l r, P l → P r → P (.pair s l r))
  (or : ∀ s l r side, P l → P r → P (.or s l r side))
  (collection : ∀ s kind elem items, P elem → P (.collection s kind elem items))
  (map : ∀ s key value entries, P key → P value → P (.map s key value entries))
  (bigMap : ∀ s key value pointer entries, P key → P value →
    P (.bigMap s key value pointer entries))
  (lambda : ∀ s parameter result code, P parameter → P result →
    P (.lambda s parameter result code))

include scalar contract ticket option pair or collection map bigMap lambda

/-- Induction along a type: values that are bound to nodes are not looked into. -/
@[elab_as_elim]
theorem typeInduction : ∀ n, P n
  | .scalar .. => scalar ..
  | .contract _ parameter _ => contract _ _ _ (typeInduction parameter)
  | .ticket _ inner => ticket _ _ (typeInduction inner)
  | .option _ inner _ => option _ _ _ (typeInduction inner)
  | .pair _ l r => pair _ _ _ (typeInduction l) (typeInduction r)
  | .or _ l r _ => or _ _ _ _ (typeInduction l) (typeInduction r)
  | .collection _ _ elem _ => collection _ _ _ _ (typeInduction elem)
  | .map _ key value _ => map _ _ _ _ (typeInduction key) (typeInduction value)
  | .bigMap _ key value _ _ => bigMap _ _ _ _ _ (typeInduction key) (typeInduction value)
  | .lambda _ parameter result _ =>
    lambda _ _ _ _ (typeInduction parameter) (typeInduction result)

end Induction

/-! ### Values -/

section Settle

open Micheline (construct_ok halves_ok entry_ok)

variable {parameter result inner l r elem key value n' : Node} {type : Scalar}
  {typeArgs : List Micheline} {old : Option Micheline} {present : Option Bool}
  {side : Option Side} {kind : Collection}
  {items : Option (List Node)} {entries : Option (List (Node × Node))} {pointer : Option Int}

lemma settle_scalar :
    (scalar s type typeArgs old).settle v = .ok n' ↔
      type.check v = .ok () ∧ n' = scalar s type typeArgs (some v) := by
  unfold settle
  rw [bind.eq_def]
  dsimp only
  rw [Attempt.toExcept_ofExcept]
  constructor
  · rintro ⟨⟨⟩, hcheck, rfl⟩
    exact ⟨hcheck, rfl⟩
  · rintro ⟨hcheck, rfl⟩
    exact ⟨(), hcheck, rfl⟩

lemma settle_contract :
    (contract s parameter old).settle v = .ok n' ↔
      (v.isString || v.isHex) = true ∧ n' = contract s parameter (some v) := by
  unfold settle
  rw [bind.eq_def]
  dsimp only
  split <;> simp [*, eq_comm]

lemma settle_ticket :
    (ticket s inner).settle v = .ok n' ↔
      ∃ inner', inner.settle v = .ok inner' ∧ n' = ticket s inner' := by
  unfold settle
  rw [bind_ticket, Attempt.toExcept_map]
  simp only [eq_comm]

lemma settle_option :
    (option s inner present).settle v = .ok n' ↔
      (v.Applies .none [] ∧ n' = option s inner (some false)) ∨
        ∃ a inner', v.Applies .some [a] ∧ inner.settle a = .ok inner' ∧
          n' = option s inner' (some true) := by
  unfold settle
  rw [bind.eq_def]
  dsimp only
  constructor
  · intro h
    split at h
    · cases h
    · next hv =>
      cases h
      exact .inl ⟨(construct_ok.1 hv).1, rfl⟩
    · cases h
    · next c a hnone hv =>
      obtain ⟨inner', ha, h⟩ := Attempt.toExcept_andThen.1 h
      cases h
      obtain ⟨happlies, hc⟩ := construct_ok.1 hv
      obtain rfl : c = .some := by
        rw [List.mem_pair] at hc
        exact hc.resolve_right hnone
      exact .inr ⟨a, inner', happlies, ha, rfl⟩
    · cases h
  · rintro (⟨hv, rfl⟩ | ⟨a, inner', hv, ha, rfl⟩)
    · rw [construct_ok.2 ⟨hv, by simp⟩]
      rfl
    · rw [construct_ok.2 ⟨hv, by simp⟩]
      exact Attempt.toExcept_andThen.2 ⟨inner', ha, rfl⟩

lemma settle_pair :
    (pair s l r).settle v = .ok n' ↔
      ∃ first second rest l' r', v.Components (first :: second :: rest) ∧ l.settle first = .ok l' ∧
        r.settle (.behind Constructor.pair.name second rest) = .ok r' ∧ n' = pair s l' r' := by
  unfold settle
  rw [bind.eq_def]
  dsimp only
  constructor
  · intro h
    split at h
    · cases h
    · next first other hv =>
      obtain ⟨second, rest, hcomponents, rfl⟩ := halves_ok.1 hv
      obtain ⟨l', hl, h⟩ := Attempt.toExcept_andThen.1 h
      obtain ⟨r', hr, rfl⟩ := Attempt.toExcept_map.1 h
      exact ⟨first, second, rest, l', r', hcomponents, hl, hr, rfl⟩
  · rintro ⟨first, second, rest, l', r', hv, hl, hr, rfl⟩
    rw [halves_ok.2 ⟨second, rest, hv, rfl⟩]
    exact Attempt.toExcept_andThen.2 ⟨l', hl, Attempt.toExcept_map.2 ⟨r', hr, rfl⟩⟩

lemma settle_or :
    (or s l r side).settle v = .ok n' ↔
      (∃ a l', v.Applies .left [a] ∧ l.settle a = .ok l' ∧ n' = or s l' r (some .left)) ∨
        ∃ a r', v.Applies .right [a] ∧ r.settle a = .ok r' ∧ n' = or s l r' (some .right) := by
  unfold settle
  rw [bind.eq_def]
  dsimp only
  constructor
  · intro h
    split at h
    · cases h
    · next a hv =>
      obtain ⟨l', ha, h⟩ := Attempt.toExcept_andThen.1 h
      cases h
      exact .inl ⟨a, l', (construct_ok.1 hv).1, ha, rfl⟩
    · next c a hleft hv =>
      obtain ⟨r', ha, h⟩ := Attempt.toExcept_andThen.1 h
      cases h
      obtain ⟨happlies, hc⟩ := construct_ok.1 hv
      obtain rfl : c = .right := by
        rw [List.mem_pair] at hc
        exact hc.resolve_left hleft
      exact .inr ⟨a, r', happlies, ha, rfl⟩
    · cases h
  · rintro (⟨a, l', hv, ha, rfl⟩ | ⟨a, r', hv, ha, rfl⟩)
    · rw [construct_ok.2 ⟨hv, by simp⟩]
      exact Attempt.toExcept_andThen.2 ⟨l', ha, rfl⟩
    · rw [construct_ok.2 ⟨hv, by simp⟩]
      exact Attempt.toExcept_andThen.2 ⟨r', ha, rfl⟩

lemma settle_collection :
    (collection s kind elem items).settle v = .ok n' ↔
      ∃ vs items', v = .seq vs ∧ List.Forall₂ (fun x y => elem.settle x = .ok y) vs items' ∧
        n' = collection s kind elem (some items') := by
  unfold settle
  rw [bind.eq_def]
  dsimp only
  constructor
  · intro h
    split at h
    · next vs =>
      obtain ⟨items', hitems, rfl⟩ := Attempt.toExcept_ofExcept.1 h
      exact ⟨vs, items', rfl, mapM_ok.1 hitems, rfl⟩
    · cases h
  · rintro ⟨vs, items', rfl, hitems, rfl⟩
    exact Attempt.toExcept_ofExcept.2 ⟨items', mapM_ok.2 hitems, rfl⟩

/-- The key and the value of an entry are bound to nodes of their types. -/
def SettlesElt (key value : Node) (elt : Micheline) (entry : Node × Node) : Prop :=
  ∃ k x, elt.Applies .elt [k, x] ∧ key.settle k = .ok entry.1 ∧ value.settle x = .ok entry.2

lemma settleEntries_ok {path : String} {elts : List Micheline} {entries : List (Node × Node)} :
    settleEntries (fun k => (key.bind k).toExcept) (fun x => (value.bind x).toExcept) path elts =
      .ok entries ↔ List.Forall₂ (SettlesElt key value) elts entries := by
  unfold settleEntries
  rw [mapM_ok]
  constructor <;> refine List.Forall₂.imp fun elt entry h => ?_
  · simp only [except_bind_ok, Prod.exists, entry_ok, pure, Except.pure, Except.ok.injEq] at h
    obtain ⟨k, x, helt, _, hk, _, hx, rfl⟩ := h
    exact ⟨k, x, helt, hk, hx⟩
  · obtain ⟨k, x, helt, hk, hx⟩ := h
    simp only [except_bind_ok, Prod.exists, entry_ok, pure, Except.pure, Except.ok.injEq]
    exact ⟨k, x, helt, _, hk, _, hx, rfl⟩

lemma settle_map :
    (map s key value entries).settle v = .ok n' ↔
      ∃ elts entries', v = .seq elts ∧ List.Forall₂ (SettlesElt key value) elts entries' ∧
        n' = map s key value (some entries') := by
  unfold settle
  rw [bind.eq_def]
  dsimp only
  constructor
  · intro h
    split at h
    · next elts =>
      obtain ⟨entries', hentries, rfl⟩ := Attempt.toExcept_ofExcept.1 h
      exact ⟨elts, entries', rfl, settleEntries_ok.1 hentries, rfl⟩
    · cases h
  · rintro ⟨elts, entries', rfl, hentries, rfl⟩
    exact Attempt.toExcept_ofExcept.2 ⟨entries', settleEntries_ok.2 hentries, rfl⟩

lemma settle_bigMap :
    (bigMap s key value pointer entries).settle v = .ok n' ↔
      (∃ literal p, v = .int literal ∧ Decimal.parseInt64? literal = some p ∧
        n' = bigMap s key value (some p) entries) ∨
      ∃ elts entries', v = .seq elts ∧ List.Forall₂ (SettlesElt key value) elts entries' ∧
        n' = bigMap s key value pointer (some entries') := by
  unfold settle
  rw [bind.eq_def]
  dsimp only
  constructor
  · intro h
    split at h
    · next literal =>
      split at h
      · next p hp =>
        cases h
        exact .inl ⟨literal, p, rfl, hp, rfl⟩
      · cases h
    · next elts =>
      obtain ⟨entries', hentries, rfl⟩ := Attempt.toExcept_ofExcept.1 h
      exact .inr ⟨elts, entries', rfl, settleEntries_ok.1 hentries, rfl⟩
    · cases h
  · rintro (⟨literal, p, rfl, hp, rfl⟩ | ⟨elts, entries', rfl, hentries, rfl⟩)
    · dsimp only
      rw [hp]
      rfl
    · exact Attempt.toExcept_ofExcept.2 ⟨entries', settleEntries_ok.2 hentries, rfl⟩

lemma settle_lambda :
    (lambda s parameter result old).settle v = .ok n' ↔
      ((∃ items, v = .seq items) ∨ ∃ name args annots, v = .prim name args annots) ∧
        n' = lambda s parameter result (some v) := by
  unfold settle
  rw [bind.eq_def]
  dsimp only
  cases v <;> simp [eq_comm]

end Settle

end Node

end Lineage
