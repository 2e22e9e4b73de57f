import Mathlib.Data.List.Nodup
import Lineage.Proofs.Typed.Bound

/-!
# Values that are the same

Maps and sets are written in an order that means nothing. Two values of a type are the same when
they are equal but for this order (`SameUpToOrder`).

What is said of two nodes with values is said of the values they are written as. `Holds` tells these
along the type, and it tells two more things, which are so when nothing in the value is annotated,
no key comes twice in a map and no element comes twice in a set (`holds_of_settle`): there is only
one way to write a unit, and the keys and elements are distinct as they are written.
-/

namespace Lineage

/-! ### Annotations -/

namespace Micheline

def parts : Micheline → List Micheline
  | seq items => items
  | prim _ args _ => args
  | _ => []

def annots : Micheline → List String
  | prim _ _ annots => annots
  | _ => []

mutual
/-- Is there no annotation in the expression? -/
def isBare : Micheline → Bool
  | seq items => areBare items
  | prim _ args annots => annots.isEmpty && areBare args
  | _ => true

def areBare : List Micheline → Bool
  | [] => true
  | m :: ms => m.isBare && areBare ms
end

/-- An entry of a map, made of a key and a value. -/
def elt (entry : Micheline × Micheline) : Micheline := .data .elt [entry.1, entry.2]

end Micheline

namespace Node

open Micheline (elt)

/-- Are the key and the value of an entry without annotations, and the entry too? -/
def isBareElt (key value : Micheline → Bool) (elt : Micheline) : Bool :=
  elt.annots.isEmpty &&
    match elt.parts with
    | [k, x] => key k && value x
    | _ => true

/-- Is there no annotation in a value of the type? The code of lambdas does not count. -/
def isUnannotated : Node → Micheline → Bool
  | lambda .., _ => true
  | scalar .., v => v.isBare
  | contract .., v => v.isBare
  | ticket _ inner, v => inner.isUnannotated v
  | option _ inner _, v => v.annots.isEmpty && v.parts.all inner.isUnannotated
  | pair _ l r, v =>
    v.annots.isEmpty &&
      match v.parts with
      | first :: second :: rest =>
        l.isUnannotated first && r.isUnannotated (.behind Constructor.pair.name second rest)
      | _ => true
  | or _ l r _, v =>
    v.annots.isEmpty &&
      if v.isPrim Constructor.left.name then v.parts.all l.isUnannotated
      else v.parts.all r.isUnannotated
  | collection _ _ elem _, v => v.parts.all elem.isUnannotated
  | map _ key value _, v => v.parts.all (isBareElt key.isUnannotated value.isUnannotated)
  | bigMap _ key value _ _, v => v.parts.all (isBareElt key.isUnannotated value.isUnannotated)

/-! ### Repetitions -/

/-- Are no two nodes written in the same way? -/
def areDistinct (nodes : List Node) : Bool :=
  decide (nodes.map fun n => (n.toWire false).toOption).Nodup

mutual
/-- Are there no two entries of one key in any map, and no two equal elements in any set? -/
def isDistinct : Node → Bool
  | ticket _ inner => inner.isDistinct
  | option _ inner (some true) => inner.isDistinct
  | pair _ l r => l.isDistinct && r.isDistinct
  | or _ l _ (some .left) => l.isDistinct
  | or _ _ r (some .right) => r.isDistinct
  | collection _ .list _ (some items) => itemsDistinct items
  | collection _ .set _ (some items) => areDistinct items && itemsDistinct items
  | map _ _ _ (some entries) => areDistinct (entries.map Prod.fst) && entriesDistinct entries
  | bigMap _ _ _ _ (some entries) => areDistinct (entries.map Prod.fst) && entriesDistinct entries
  | _ => true

def itemsDistinct : List Node → Bool
  | [] => true
  | item :: items => item.isDistinct && itemsDistinct items

def entriesDistinct : List (Node × Node) → Bool
  | [] => true
  | (key, value) :: entries => key.isDistinct && value.isDistinct && entriesDistinct entries
end

/-! ### Values up to order -/

/-- The entries have one key, and their values are the same. -/
def SameEntry (same : Micheline → Micheline → Prop) (e e' : Micheline × Micheline) : Prop :=
  e'.1 = e.1 ∧ same e.2 e'.2

/-- The entries of two maps are the same, in whatever order. -/
def SameEntries (same : Micheline → Micheline → Prop) (w w' : Micheline) : Prop :=
  ∃ es es' matched, w = .seq (es.map elt) ∧ w' = .seq (es'.map elt) ∧ matched.Perm es' ∧
    List.Forall₂ (SameEntry same) es matched

/-- **Equal up to order**: what is written of two values of a type differs at most in the order of
the entries of maps and big maps, and of the elements of sets. -/
def SameUpToOrder : Node → Micheline → Micheline → Prop
  | scalar .., w, w' => w' = w
  | contract .., w, w' => w' = w
  | lambda .., w, w' => w' = w
  | ticket _ inner, w, w' => inner.SameUpToOrder w w'
  | option _ inner _, w, w' =>
    (w = .data .none [] ∧ w' = .data .none []) ∨
      ∃ x x', w = .data .some [x] ∧ w' = .data .some [x'] ∧ inner.SameUpToOrder x x'
  | pair _ l r, w, w' =>
    ∃ x y x' y', w = .data .pair [x, y] ∧ w' = .data .pair [x', y'] ∧ l.SameUpToOrder x x' ∧
      r.SameUpToOrder y y'
  | or _ l r _, w, w' =>
    (∃ x x', w = .data .left [x] ∧ w' = .data .left [x'] ∧ l.SameUpToOrder x x') ∨
      ∃ x x', w = .data .right [x] ∧ w' = .data .right [x'] ∧ r.SameUpToOrder x x'
  | collection _ .list elem _, w, w' =>
    ∃ ws ws', w = .seq ws ∧ w' = .seq ws' ∧ List.Forall₂ elem.SameUpToOrder ws ws'
  | collection _ .set _ _, w, w' => ∃ ws ws', w = .seq ws ∧ w' = .seq ws' ∧ ws.Perm ws'
  | map _ _ value _, w, w' => SameEntries value.SameUpToOrder w w'
  | bigMap _ _ value _ _, w, w' =>
    (∃ p : Int, w = .int (toString p) ∧ w' = w) ∨ SameEntries value.SameUpToOrder w w'

/-! ### What nodes hold -/

/-- The entries of a map hold keys and values, and no key comes twice. -/
def HoldsEntries (value : Node → Micheline → Prop) (entries : List (Node × Node))
    (es : List (Micheline × Micheline)) : Prop :=
  List.Forall₂ (fun entry e => entry.1.toWire false = .ok e.1 ∧ value entry.2 e.2) entries es ∧
    (es.map Prod.fst).Nodup

/-- **What a node holds**: the second node is the first one with a value that is written as `w`. -/
def Holds : Node → Node → Micheline → Prop
  | scalar s type typeArgs _, a, w =>
    a = scalar s type typeArgs (some w) ∧ (type = .unit → w = .data .unit [])
  | contract s parameter _, a, w => a = contract s parameter (some w)
  | lambda s parameter result _, a, w => a = lambda s parameter result (some w)
  | ticket s inner, a, w => ∃ i, a = ticket s i ∧ inner.Holds i w
  | option s inner _, a, w =>
    (a = option s inner (some false) ∧ w = .data .none []) ∨
      ∃ i x, a = option s i (some true) ∧ w = .data .some [x] ∧ inner.Holds i x
  | pair s l r, a, w =>
    ∃ l' r' x y, a = pair s l' r' ∧ w = .data .pair [x, y] ∧ l.Holds l' x ∧ r.Holds r' y
  | or s l r _, a, w =>
    (∃ l' x, a = or s l' r (some .left) ∧ w = .data .left [x] ∧ l.Holds l' x) ∨
      ∃ r' x, a = or s l r' (some .right) ∧ w = .data .right [x] ∧ r.Holds r' x
  | collection s kind elem _, a, w =>
    ∃ items ws, a = collection s kind elem (some items) ∧ w = .seq ws ∧
      List.Forall₂ elem.Holds items ws ∧ (kind = .set → ws.Nodup)
  | map s key value _, a, w =>
    ∃ entries es, a = map s key value (some entries) ∧ w = .seq (es.map elt) ∧
      HoldsEntries value.Holds entries es
  | bigMap s key value _ _, a, w =>
    (∃ p, Decimal.FitsInt64 p ∧ a = bigMap s key value (some p) none ∧ w = .int (toString p)) ∨
      ∃ entries es, a = bigMap s key value none (some entries) ∧ w = .seq (es.map elt) ∧
        HoldsEntries value.Holds entries es

variable {n a inner l r key value : Node} {s : Site} {v w : Micheline} {nodes items : List Node}
  {entries : List (Node × Node)} {ws : List Micheline} {es : List (Micheline × Micheline)}

lemma HoldsEntries.toWire {value : Node → Micheline → Prop} (h : HoldsEntries value entries es)
    (hvalue : ∀ n w, value n w → n.toWire false = .ok w) :
    entriesToWire false entries = .ok (es.map elt) := by
  rw [entriesToWire_ok, List.forall₂_map_right_iff]
  exact h.1.imp fun entry e he => ⟨e.1, e.2, he.1, hvalue entry.2 e.2 he.2, rfl⟩

theorem Holds.toWire (h : n.Holds a w) : a.toWire false = .ok w := by
  induction n using typeInduction generalizing a w with
  | scalar s type typeArgs value =>
    obtain ⟨rfl, -⟩ := h
    rfl
  | contract s parameter value =>
    obtain rfl := h
    rfl
  | lambda s parameter result code =>
    obtain rfl := h
    rfl
  | ticket s inner ih =>
    obtain ⟨i, rfl, hi⟩ := h
    rw [Node.toWire, ih hi]
  | option s inner present ih =>
    obtain ⟨rfl, rfl⟩ | ⟨i, x, rfl, rfl, hi⟩ := h
    · rfl
    · rw [Node.toWire, ih hi]
      rfl
  | pair s l r ihl ihr =>
    obtain ⟨l', r', x, y, rfl, rfl, hl, hr⟩ := h
    rw [Node.toWire, ihl hl, ihr hr]
    rfl
  | or s l r side ihl ihr =>
    obtain ⟨l', x, rfl, rfl, hl⟩ | ⟨r', x, rfl, rfl, hr⟩ := h
    · rw [Node.toWire, ihl hl]
      rfl
    · rw [Node.toWire, ihr hr]
      rfl
  | collection s kind elem items ih =>
    obtain ⟨items', ws, rfl, rfl, hitems, -⟩ := h
    rw [Node.toWire, itemsToWire_ok.2 (hitems.imp fun _ _ hitem => ih hitem)]
    rfl
  | map s key value entries ihk ihv =>
    obtain ⟨entries', es, rfl, rfl, hentries⟩ := h
    rw [Node.toWire, hentries.toWire fun _ _ => ihv]
    rfl
  | bigMap s key value pointer entries ihk ihv =>
    obtain ⟨p, -, rfl, rfl⟩ | ⟨entries', es, rfl, rfl, hentries⟩ := h
    · rfl
    · simp [Node.toWire, hentries.toWire fun _ _ => ihv]

lemma Holds.erase (h : n.Holds a w) : a.erase = n.erase := by
  induction n using typeInduction generalizing a w with
  | scalar s type typeArgs value =>
    obtain ⟨rfl, -⟩ := h
    rfl
  | contract s parameter value =>
    obtain rfl := h
    rfl
  | lambda s parameter result code =>
    obtain rfl := h
    rfl
  | ticket s inner ih =>
    obtain ⟨i, rfl, hi⟩ := h
    exact congrArg (Node.ticket s) (ih hi)
  | option s inner present ih =>
    obtain ⟨rfl, rfl⟩ | ⟨i, x, rfl, rfl, hi⟩ := h
    · rfl
    · exact congrArg (Node.option s · none) (ih hi)
  | pair s l r ihl ihr =>
    obtain ⟨l', r', x, y, rfl, rfl, hl, hr⟩ := h
    exact congrArg₂ (Node.pair s) (ihl hl) (ihr hr)
  | or s l r side ihl ihr =>
    obtain ⟨l', x, rfl, rfl, hl⟩ | ⟨r', x, rfl, rfl, hr⟩ := h
    · exact congrArg (Node.or s · r.erase none) (ihl hl)
    · exact congrArg (Node.or s l.erase · none) (ihr hr)
  | collection s kind elem items ih =>
    obtain ⟨items', ws, rfl, rfl, -⟩ := h
    rfl
  | map s key value entries ihk ihv =>
    obtain ⟨entries', es, rfl, rfl, -⟩ := h
    rfl
  | bigMap s key value pointer entries ihk ihv =>
    obtain ⟨p, -, rfl, rfl⟩ | ⟨entries', es, rfl, rfl, -⟩ := h <;> rfl

lemma HoldsEntries.same {value : Node → Micheline → Prop} {same : Micheline → Micheline → Prop}
    (h : HoldsEntries value entries es) (hvalue : ∀ n w, value n w → same w w) :
    SameEntries same (.seq (es.map elt)) (.seq (es.map elt)) := by
  refine ⟨es, es, es, rfl, rfl, .rfl, List.forall₂_same.2 fun e he => ⟨rfl, ?_⟩⟩
  obtain ⟨entry, -, -, hvalue'⟩ := exists_mem_of_forall₂ h.1 he
  exact hvalue entry.2 e.2 hvalue'

theorem Holds.same (h : n.Holds a w) : n.SameUpToOrder w w := by
  induction n using typeInduction generalizing a w with
  | scalar | contract | lambda => exact rfl
  | ticket s inner ih =>
    obtain ⟨i, rfl, hi⟩ := h
    exact ih hi
  | option s inner present ih =>
    obtain ⟨rfl, rfl⟩ | ⟨i, x, rfl, rfl, hi⟩ := h
    · exact .inl ⟨rfl, rfl⟩
    · exact .inr ⟨x, x, rfl, rfl, ih hi⟩
  | pair s l r ihl ihr =>
    obtain ⟨l', r', x, y, rfl, rfl, hl, hr⟩ := h
    exact ⟨x, y, x, y, rfl, rfl, ihl hl, ihr hr⟩
  | or s l r side ihl ihr =>
    obtain ⟨l', x, rfl, rfl, hl⟩ | ⟨r', x, rfl, rfl, hr⟩ := h
    · exact .inl ⟨x, x, rfl, rfl, ihl hl⟩
    · exact .inr ⟨x, x, rfl, rfl, ihr hr⟩
  | collection s kind elem items ih =>
    obtain ⟨items', ws, rfl, rfl, hitems, -⟩ := h
    cases kind with
    | set => exact ⟨ws, ws, rfl, rfl, .rfl⟩
    | list =>
      refine ⟨ws, ws, rfl, rfl, List.forall₂_same.2 fun x hx => ?_⟩
      obtain ⟨item, -, hitem⟩ := exists_mem_of_forall₂ hitems hx
      exact ih hitem
  | map s key value entries ihk ihv =>
    obtain ⟨entries', es, rfl, rfl, hentries⟩ := h
    exact hentries.same fun _ _ => ihv
  | bigMap s key value pointer entries ihk ihv =>
    obtain ⟨p, -, rfl, rfl⟩ | ⟨entries', es, rfl, rfl, hentries⟩ := h
    · exact .inl ⟨p, rfl, rfl⟩
    · exact .inr (hentries.same fun _ _ => ihv)

/-! ### Sameness part by part -/

section Parts

attribute [local simp] SameUpToOrder Micheline.data Constructor.name

variable {x y x' y' : Micheline} {present : Option Bool} {side : Option Side}

lemma same_some :
    (option s inner present).SameUpToOrder (.data .some [x]) (.data .some [x']) ↔
      inner.SameUpToOrder x x' := by
  simp

lemma not_same_none_some :
    ¬ (option s inner present).SameUpToOrder (.data .none []) (.data .some [x']) := by
  simp

lemma not_same_some_none :
    ¬ (option s inner present).SameUpToOrder (.data .some [x]) (.data .none []) := by
  simp

lemma same_pair :
    (pair s l r).SameUpToOrder (.data .pair [x, y]) (.data .pair [x', y']) ↔
      l.SameUpToOrder x x' ∧ r.SameUpToOrder y y' := by
  simp

lemma same_left :
    (or s l r side).SameUpToOrder (.data .left [x]) (.data .left [x']) ↔
      l.SameUpToOrder x x' := by
  simp

lemma same_right :
    (or s l r side).SameUpToOrder (.data .right [x]) (.data .right [x']) ↔
      r.SameUpToOrder x x' := by
  simp

lemma not_same_left_right :
    ¬ (or s l r side).SameUpToOrder (.data .left [x]) (.data .right [x']) := by
  simp

lemma not_same_right_left :
    ¬ (or s l r side).SameUpToOrder (.data .right [x]) (.data .left [x']) := by
  simp

end Parts

/-! ### Entries in whatever order -/

section Entries

variable {same : Micheline → Micheline → Prop} {es es' : List (Micheline × Micheline)}

lemma elt_injective : Function.Injective elt := by
  rintro ⟨k, x⟩ ⟨k', x'⟩ h
  simpa [elt, Micheline.data] using h

/-- Where no key comes twice, entries are the same just if each one has its like. -/
theorem sameEntries_iff (hnodup : (es.map Prod.fst).Nodup) (hnodup' : (es'.map Prod.fst).Nodup) :
    SameEntries same (.seq (es.map elt)) (.seq (es'.map elt)) ↔
      (∀ e ∈ es, ∃ e' ∈ es', SameEntry same e e') ∧ ∀ e' ∈ es', e'.1 ∈ es.map Prod.fst := by
  constructor
  · rintro ⟨es₁, es₁', matched, heq, heq', hperm, hmatched⟩
    obtain rfl := List.map_injective_iff.2 elt_injective (Micheline.seq.inj heq)
    obtain rfl := List.map_injective_iff.2 elt_injective (Micheline.seq.inj heq')
    constructor
    · intro e he
      obtain ⟨e', he', hsame⟩ := exists_mem_of_forall₂ hmatched.flip he
      exact ⟨e', hperm.mem_iff.1 he', hsame⟩
    · intro e' he'
      obtain ⟨e, he, hkey, -⟩ := exists_mem_of_forall₂ hmatched (hperm.mem_iff.2 he')
      exact List.mem_map.2 ⟨e, he, hkey.symm⟩
  · rintro ⟨hes, hes'⟩
    obtain ⟨matched, hmatched⟩ := exists_forall₂ hes
    have hkeys : matched.map Prod.fst = es.map Prod.fst := by
      rw [← List.forall₂_eq_eq_eq, List.forall₂_map_left_iff, List.forall₂_map_right_iff]
      exact hmatched.flip.imp fun _ _ h => h.2.1
    have hmem : ∀ e' ∈ matched, e' ∈ es' := forall_of_forall₂ hmatched fun _ _ h => h.1
    refine ⟨es, es', matched, rfl, rfl, ?_, hmatched.imp fun _ _ h => h.2⟩
    have hnodupMatched : matched.Nodup := List.Nodup.of_map Prod.fst (hkeys ▸ hnodup)
    rw [List.perm_ext_iff_of_nodup hnodupMatched (List.Nodup.of_map Prod.fst hnodup')]
    refine fun e' => ⟨hmem e', fun he' => ?_⟩
    -- the entry that was matched with this key is the only one of the key
    have hkey : e'.1 ∈ matched.map Prod.fst := hkeys ▸ hes' e' he'
    obtain ⟨e'', he'', heq⟩ := List.mem_map.1 hkey
    rwa [← List.inj_on_of_nodup_map hnodup' (hmem e'' he'') he' heq]

end Entries

/-! ### Bound values are held -/

lemma itemsDistinct_iff : itemsDistinct items = true ↔ ∀ item ∈ items, item.isDistinct = true := by
  induction items with
  | nil => simp [itemsDistinct]
  | cons item items ih => simp [itemsDistinct, ih]

lemma entriesDistinct_iff :
    entriesDistinct entries = true ↔
      ∀ entry ∈ entries, entry.1.isDistinct = true ∧ entry.2.isDistinct = true := by
  induction entries with
  | nil => simp [entriesDistinct]
  | cons entry entries ih => simp [entriesDistinct, ih]

lemma nodup_of_areDistinct (h : areDistinct nodes = true)
    (hws : List.Forall₂ (fun n w => n.toWire false = .ok w) nodes ws) : ws.Nodup := by
  have hmap : nodes.map (fun n => (n.toWire false).toOption) = ws.map some := by
    clear h
    induction hws with
    | nil => rfl
    | cons hw _ ih =>
      rw [List.map_cons, List.map_cons, hw, ih]
      rfl
  rw [areDistinct, decide_eq_true_eq, hmap] at h
  exact List.Nodup.of_map _ h

lemma exists_holdsEntries {elts : List Micheline} (hkey : key.Unbound)
    (h : List.Forall₂ (SettlesElt key value) elts entries)
    (hbare : elts.all (isBareElt key.isUnannotated value.isUnannotated) = true)
    (hkeys : areDistinct (entries.map Prod.fst) = true) (hdistinct : entriesDistinct entries = true)
    (hvalue : ∀ {v a}, value.settle v = .ok a → value.isUnannotated v = true →
      a.isDistinct = true → ∃ w, value.Holds a w) :
    ∃ es, HoldsEntries value.Holds entries es := by
  have hentry : ∀ entry ∈ entries, ∃ e : Micheline × Micheline,
      entry.1.toWire false = .ok e.1 ∧ value.Holds entry.2 e.2 := by
    intro entry hentry
    obtain ⟨elt, helt, k, x, ⟨annots, rfl⟩, hk, hx⟩ := exists_mem_of_forall₂ h hentry
    have hbareElt := List.all_eq_true.1 hbare _ helt
    simp only [isBareElt, Micheline.parts, Bool.and_eq_true] at hbareElt
    obtain ⟨k', hk'⟩ := exists_returns hkey hk
    obtain ⟨x', hx'⟩ := hvalue hx hbareElt.2.2 (entriesDistinct_iff.1 hdistinct entry hentry).2
    exact ⟨(k', x'), hk'.wire false, hx'⟩
  obtain ⟨es, hes⟩ := exists_forall₂ hentry
  refine ⟨es, hes, nodup_of_areDistinct hkeys ?_⟩
  rw [List.forall₂_map_left_iff, List.forall₂_map_right_iff]
  exact hes.imp fun _ _ he => he.1

/-- A unit without annotations is written in one way only. -/
lemma eq_unit_of_check (hcheck : Scalar.unit.check v = .ok ()) (hv : v.isBare = true) :
    v = .data .unit [] := by
  obtain ⟨⟨c, args⟩, hconstruct, h⟩ := except_bind_ok.1 hcheck
  obtain ⟨⟨annots, rfl⟩, hc⟩ := Micheline.construct_ok.1 hconstruct
  obtain rfl := List.mem_singleton.1 hc
  dsimp only at h
  split at h
  · next hargs =>
    rw [Micheline.isBare, Bool.and_eq_true] at hv
    rw [List.isEmpty_iff.1 hargs, List.isEmpty_iff.1 hv.1]
    rfl
  · cases h

/-- **A new node holds what is bound to it**, if nothing in it is annotated or comes twice. -/
theorem holds_of_settle (hn : n.Unbound) (h : n.settle v = .ok a) (hv : n.isUnannotated v = true)
    (ha : a.isDistinct = true) : ∃ w, n.Holds a w := by
  induction n using typeInduction generalizing v a with
  | scalar s type typeArgs value =>
    obtain ⟨hcheck, rfl⟩ := settle_scalar.1 h
    refine ⟨v, rfl, ?_⟩
    rintro rfl
    exact eq_unit_of_check hcheck hv
  | contract s parameter value =>
    obtain ⟨-, rfl⟩ := settle_contract.1 h
    exact ⟨v, rfl⟩
  | lambda s parameter result code =>
    obtain ⟨-, rfl⟩ := settle_lambda.1 h
    exact ⟨v, rfl⟩
  | ticket s inner ih =>
    obtain ⟨i, hi, rfl⟩ := settle_ticket.1 h
    obtain ⟨w, hw⟩ := ih hn hi hv ha
    exact ⟨w, i, rfl, hw⟩
  | option s inner present ih =>
    obtain ⟨-, rfl⟩ | ⟨x, i, ⟨annots, rfl⟩, hx, rfl⟩ := settle_option.1 h
    · exact ⟨_, .inl ⟨rfl, rfl⟩⟩
    · simp only [isUnannotated, Micheline.parts, Bool.and_eq_true, List.all_cons] at hv
      obtain ⟨w, hw⟩ := ih hn.1 hx hv.2.1 ha
      exact ⟨_, .inr ⟨i, w, rfl, rfl, hw⟩⟩
  | pair s l r ihl ihr =>
    obtain ⟨first, second, rest, l', r', hcomponents, hl, hr, rfl⟩ := settle_pair.1 h
    have hparts : v.parts = first :: second :: rest := by
      obtain ⟨annots, rfl⟩ | rfl := hcomponents <;> rfl
    simp only [isUnannotated, hparts, Bool.and_eq_true] at hv
    rw [isDistinct, Bool.and_eq_true] at ha
    obtain ⟨x, hx⟩ := ihl hn.1 hl hv.2.1 ha.1
    obtain ⟨y, hy⟩ := ihr hn.2 hr hv.2.2 ha.2
    exact ⟨_, l', r', x, y, rfl, rfl, hx, hy⟩
  | or s l r side ihl ihr =>
    obtain ⟨x, l', ⟨annots, rfl⟩, hx, rfl⟩ | ⟨x, r', ⟨annots, rfl⟩, hx, rfl⟩ := settle_or.1 h
    · have hbare : annots.isEmpty = true ∧ l.isUnannotated x = true := by
        simpa [isUnannotated, Micheline.annots, Micheline.parts, Micheline.isPrim] using hv
      obtain ⟨w, hw⟩ := ihl hn.1 hx hbare.2 ha
      exact ⟨_, .inl ⟨l', w, rfl, rfl, hw⟩⟩
    · have hside : Constructor.right.name ≠ Constructor.left.name := by decide
      have hbare : annots.isEmpty = true ∧ r.isUnannotated x = true := by
        simpa [isUnannotated, Micheline.annots, Micheline.parts, Micheline.isPrim, hside] using hv
      obtain ⟨w, hw⟩ := ihr hn.2.1 hx hbare.2 ha
      exact ⟨_, .inr ⟨r', w, rfl, rfl, hw⟩⟩
  | collection s kind elem items ih =>
    obtain ⟨vs, items', rfl, hitems, rfl⟩ := settle_collection.1 h
    have hdistinct : itemsDistinct items' = true ∧ (kind = .set → areDistinct items' = true) := by
      cases kind <;> simpa [isDistinct, and_comm] using ha
    have hitem : ∀ item ∈ items', ∃ w, elem.Holds item w := by
      intro item hitem
      obtain ⟨x, hx, hsettle⟩ := exists_mem_of_forall₂ hitems hitem
      exact ih hn.1 hsettle (List.all_eq_true.1 hv x hx)
        (itemsDistinct_iff.1 hdistinct.1 item hitem)
    obtain ⟨ws, hws⟩ := exists_forall₂ hitem
    refine ⟨.seq ws, items', ws, rfl, rfl, hws, fun hkind => ?_⟩
    exact nodup_of_areDistinct (hdistinct.2 hkind) (hws.imp fun _ _ hw => hw.toWire)
  | map s key value entries ihk ihv =>
    obtain ⟨elts, entries', rfl, hentries, rfl⟩ := settle_map.1 h
    rw [isDistinct, Bool.and_eq_true] at ha
    obtain ⟨es, hes⟩ := exists_holdsEntries hn.1 hentries hv ha.1 ha.2 (ihv hn.2.1)
    exact ⟨_, entries', es, rfl, rfl, hes⟩
  | bigMap s key value pointer entries ihk ihv =>
    obtain ⟨hkey, hvalue, rfl, rfl⟩ := hn
    obtain ⟨literal, p, rfl, hp, rfl⟩ | ⟨elts, entries', rfl, hentries, rfl⟩ := settle_bigMap.1 h
    · exact ⟨_, .inl ⟨p, Decimal.fits_of_parseInt64? hp, rfl, rfl⟩⟩
    · rw [isDistinct, Bool.and_eq_true] at ha
      obtain ⟨es, hes⟩ := exists_holdsEntries hkey hentries hv ha.1 ha.2 (ihv hvalue)
      exact ⟨_, .inr ⟨entries', es, rfl, rfl, hes⟩⟩

end Node

end Lineage
