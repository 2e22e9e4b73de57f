import Lineage.Proofs.Typed.Binding
import Lineage.Typed.Ordering

/-!
# The order of values

Comparing two values fails for some of them, and where it succeeds it may not have looked at all of
both: a first component that is less decides, whatever stands behind it. All the same `Node.compare`
is a total preorder where it is defined (`ordered_compare`).

Scalars are compared by something that is read of each value alone (`Scalar.exists_key`), so nothing
is to be shown for them but that these things are in order. `Compares` has a rule for each way in
which a comparison of nodes succeeds, and what is said of the order follows along its rules.
-/

namespace Lineage

open Std (TransCmp OrientedCmp)

/-! ### Comparisons that may fail -/

/-- **A total preorder where it is defined**: comparing in reverse fails as well or gives the
reverse, everything is equal to itself, and what ascends step by step ascends as a whole. -/
structure Ordered {α ε : Type} (cmp : α → α → Except ε Ordering) : Prop where
  fails {a b : α} : (∃ e, cmp b a = .error e) ↔ ∃ e, cmp a b = .error e
  swap {a b : α} {o : Ordering} (h : cmp a b = .ok o) : cmp b a = .ok o.swap
  refl {a : α} {o : Ordering} (h : cmp a a = .ok o) : o = .eq
  trans {a b c : α} {o o' : Ordering} (h : cmp a b = .ok o) (h' : cmp b c = .ok o')
    (ho : o ≠ .gt) (ho' : o' ≠ .gt) :
    ∃ r, cmp a c = .ok r ∧ (o = .lt ∨ o' = .lt → r = .lt) ∧ (o = .eq ∧ o' = .eq → r = .eq)

/-- What the first of two steps leaves open is decided by the second one. -/
lemma ordered_of {α ε : Type} {cmp : α → α → Except ε Ordering}
    (hswap : ∀ {a b o}, cmp a b = .ok o → cmp b a = .ok o.swap)
    (htrans : ∀ {a b c o o'}, cmp a b = .ok o → cmp b c = .ok o' → o.isLE → o'.isLE →
      cmp a c = .ok (o.then o')) : Ordered cmp where
  fails {a b} := by
    have hfails : ∀ x y, (∃ e, cmp x y = .error e) → ∃ e, cmp y x = .error e := by
      rintro x y ⟨e, he⟩
      cases h : cmp y x with
      | error e' => exact ⟨e', rfl⟩
      | ok o =>
        rw [hswap h] at he
        cases he
    exact ⟨hfails b a, hfails a b⟩
  swap := hswap
  refl {a o} h := by
    have ho : o = o.swap := Except.ok.inj (h.symm.trans (hswap h))
    cases o with
    | eq => rfl
    | lt | gt => cases ho
  trans {a b c o o'} h h' ho ho' := by
    refine ⟨o.then o', htrans h h' (by cases o <;> trivial) (by cases o' <;> trivial), ?_, ?_⟩
    · rintro (rfl | rfl)
      · rfl
      · cases o with
        | lt | eq => rfl
        | gt => exact absurd rfl ho
    · rintro ⟨rfl, rfl⟩
      rfl

lemma eq_lt_of_isLE {o : Ordering} (h : o.isLE) (hne : o ≠ .eq) : o = .lt := by
  cases o with
  | lt => rfl
  | eq => exact absurd rfl hne
  | gt => cases h

lemma then_lt {o : Ordering} (h : o.isLE) : o.then .lt = .lt := by
  cases o with
  | lt | eq => rfl
  | gt => cases h

lemma compare_then {κ : Type} {cmp : κ → κ → Ordering} [TransCmp cmp] {a b c : κ}
    (h : (cmp a b).isLE) (h' : (cmp b c).isLE) : cmp a c = (cmp a b).then (cmp b c) := by
  cases hab : cmp a b with
  | gt => rw [hab] at h; cases h
  | lt => exact TransCmp.lt_of_lt_of_isLE hab h'
  | eq => exact TransCmp.congr_left hab

/-! ### Numerals -/

namespace Decimal

instance : TransCmp compareMagnitude :=
  inferInstanceAs (TransCmp (compareLex (compareOn byteLength) (compareOn String.ofList)))

/-- Orders integers that are given by their signs and digits. -/
def compareSigned : Bool × List Char → Bool × List Char → Ordering
  | (false, x), (false, y) => compareMagnitude x y
  | (true, x), (true, y) => compareMagnitude y x
  | (true, _), (false, _) => .lt
  | (false, _), (true, _) => .gt

lemma order_eq (a b : String) : order a b = compareSigned (split a) (split b) := rfl

instance : TransCmp compareSigned where
  eq_swap {a b} := by
    obtain ⟨_ | _, x⟩ := a <;> obtain ⟨_ | _, y⟩ := b
    · show compareMagnitude x y = (compareMagnitude y x).swap
      exact OrientedCmp.eq_swap
    · rfl
    · rfl
    · show compareMagnitude y x = (compareMagnitude x y).swap
      exact OrientedCmp.eq_swap
  isLE_trans {a b c} hab hbc := by
    obtain ⟨_ | _, x⟩ := a <;> obtain ⟨_ | _, y⟩ := b <;> obtain ⟨_ | _, z⟩ := c
    -- in the order of the signs: no negative integer follows one that is not
    · show (compareMagnitude x z).isLE
      exact TransCmp.isLE_trans hab hbc
    · cases hbc
    · cases hab
    · cases hab
    · rfl
    · cases hbc
    · rfl
    · show (compareMagnitude z x).isLE
      exact TransCmp.isLE_trans hbc hab

end Decimal

/-! ### Scalars -/

namespace Scalar

lemma compareOptional_eq : compareOptional = Ord.compare := by
  funext a b
  cases a <;> cases b <;> rfl

lemma compareBool_eq : compareBool = Ord.compare := by
  funext a b
  cases a <;> cases b <;> rfl

/-- Values of a type are compared by what is read of each of them. -/
lemma exists_key (type : Scalar) :
    ∃ (κ : Type) (key : Micheline → Except NodeError κ) (cmp : κ → κ → Ordering), TransCmp cmp ∧
      ∀ x y, type.compare x y = do return cmp (← key x) (← key y) := by
  cases type with
  | unit => exact ⟨Nat, fun _ => .ok 0, Ord.compare, inferInstance, fun _ _ => rfl⟩
  | bool =>
    refine ⟨Bool, fun v => .ok (v.isPrim Constructor.true.name), Ord.compare, inferInstance,
      fun _ _ => ?_⟩
    rw [compare, compareBool_eq]
    rfl
  | int | nat | mutez =>
    refine ⟨_, fun v => .ok (Decimal.split (numeral v)), Decimal.compareSigned, inferInstance,
      fun x y => ?_⟩
    exact congrArg Except.ok (Decimal.order_eq (numeral x) (numeral y))
  | timestamp =>
    refine ⟨_, fun v => (seconds v).map Decimal.split, Decimal.compareSigned, inferInstance,
      fun x y => ?_⟩
    dsimp only [compare]
    cases seconds x <;> cases seconds y <;> rfl
  | bytes =>
    refine ⟨_, fun v => .ok (v.bytes?.map String.toLower), Ord.compare, inferInstance,
      fun _ _ => ?_⟩
    rw [compare, compareOptional_eq]
    rfl
  | _ => exact ⟨String, text _, Ord.compare, inferInstance, fun _ _ => rfl⟩

variable {type : Scalar} {x y z : Micheline} {o o' : Ordering}

lemma compare_swap (h : type.compare x y = .ok o) : type.compare y x = .ok o.swap := by
  obtain ⟨κ, key, cmp, hcmp, heq⟩ := type.exists_key
  rw [heq] at h ⊢
  obtain ⟨a, ha, h⟩ := except_bind_ok.1 h
  obtain ⟨b, hb, h⟩ := except_bind_ok.1 h
  cases h
  rw [ha, hb, ← hcmp.eq_swap]
  rfl

lemma compare_trans (h : type.compare x y = .ok o) (h' : type.compare y z = .ok o')
    (ho : o.isLE) (ho' : o'.isLE) : type.compare x z = .ok (o.then o') := by
  obtain ⟨κ, key, cmp, hcmp, heq⟩ := type.exists_key
  rw [heq] at h h' ⊢
  obtain ⟨a, ha, h⟩ := except_bind_ok.1 h
  obtain ⟨b, hb, h⟩ := except_bind_ok.1 h
  obtain ⟨b', hb', h'⟩ := except_bind_ok.1 h'
  obtain ⟨c, hc, h'⟩ := except_bind_ok.1 h'
  cases hb.symm.trans hb'
  cases h
  cases h'
  rw [ha, hc, ← compare_then ho ho']
  rfl

end Scalar

/-! ### Nodes -/

namespace Node

/-- **The rules of comparing**: the ways in which a comparison of two nodes succeeds. -/
inductive Compares : Node → Node → Ordering → Prop
  | scalar {s s' : Site} {type : Scalar} {typeArgs typeArgs' : List Micheline} {x y : Micheline}
      {o : Ordering} (hc : type.isComparable = true) (h : type.compare x y = .ok o) :
    Compares (.scalar s type typeArgs (some x)) (.scalar s' type typeArgs' (some y)) o
  | first {s s' : Site} {l r l' r' : Node} {o : Ordering} (h : Compares l l' o) (ho : o ≠ .eq) :
    Compares (.pair s l r) (.pair s' l' r') o
  | second {s s' : Site} {l r l' r' : Node} {o : Ordering} (h : Compares l l' .eq)
      (h' : Compares r r' o) : Compares (.pair s l r) (.pair s' l' r') o
  | left {s s' : Site} {l r l' r' : Node} {o : Ordering} (h : Compares l l' o) :
    Compares (.or s l r (some .left)) (.or s' l' r' (some .left)) o
  | right {s s' : Site} {l r l' r' : Node} {o : Ordering} (h : Compares r r' o) :
    Compares (.or s l r (some .right)) (.or s' l' r' (some .right)) o
  | sides {s s' : Site} {l r l' r' : Node} :
    Compares (.or s l r (some .left)) (.or s' l' r' (some .right)) .lt
  | sidesBack {s s' : Site} {l r l' r' : Node} :
    Compares (.or s l r (some .right)) (.or s' l' r' (some .left)) .gt
  | present {s s' : Site} {n n' : Node} {o : Ordering} (h : Compares n n' o) :
    Compares (.option s n (some true)) (.option s' n' (some true)) o
  | absent {s s' : Site} {n n' : Node} :
    Compares (.option s n (some false)) (.option s' n' (some false)) .eq
  | appears {s s' : Site} {n n' : Node} :
    Compares (.option s n (some false)) (.option s' n' (some true)) .lt
  | vanishes {s s' : Site} {n n' : Node} :
    Compares (.option s n (some true)) (.option s' n' (some false)) .gt

variable {a b c : Node} {o o' : Ordering}

lemma required_ok {α : Type} {path : String} {x : Option α} {y : α} :
    required path x = .ok y ↔ x = some y := by
  cases x <;> simp [required]

/-- A comparison succeeds by the rules. -/
theorem compares_iff : Compares a b o ↔ a.compare b = .ok o := by
  constructor
  · intro h
    induction h with
    | scalar hc h => simp [compare, hc, required, h, Bind.bind, Except.bind]
    | @first s s' l r l' r' o h ho ih =>
      rw [compare, ih]
      cases o <;> trivial
    | second h h' ih ih' =>
      rw [compare, ih]
      exact ih'
    | left h ih | right h ih | present h ih =>
      rw [compare]
      exact ih
    | sides | sidesBack | absent | appears | vanishes => rfl
  · intro h
    induction a using typeInduction generalizing b o with
    | scalar s type typeArgs x =>
      cases b with
      | scalar s' type' typeArgs' y =>
        rw [compare] at h
        split at h
        · next hc =>
          obtain ⟨rfl, hc⟩ := hc
          simp only [except_bind_ok, required_ok] at h
          obtain ⟨x, rfl, y, rfl, h⟩ := h
          exact .scalar hc h
        · cases h
      | _ => cases h
    | pair s l r ihl ihr =>
      cases b with
      | pair s' l' r' =>
        rw [compare, except_bind_ok] at h
        obtain ⟨o', hl, h⟩ := h
        cases o' with
        | eq => exact .second (ihl hl) (ihr h)
        | lt | gt =>
          cases h
          exact .first (ihl hl) nofun
      | _ => cases h
    | or s l r side ihl ihr =>
      cases b with
      | or s' l' r' side' =>
        simp only [compare, except_bind_ok, required_ok] at h
        obtain ⟨x, rfl, y, rfl, h⟩ := h
        cases x <;> cases y
        · exact .left (ihl h)
        · cases h
          exact .sides
        · cases h
          exact .sidesBack
        · exact .right (ihr h)
      | _ => cases h
    | option s inner present ih =>
      cases b with
      | option s' inner' present' =>
        simp only [compare, except_bind_ok, required_ok] at h
        obtain ⟨x, rfl, y, rfl, h⟩ := h
        cases x <;> cases y
        · cases h
          exact .absent
        · cases h
          exact .appears
        · cases h
          exact .vanishes
        · exact .present (ih h)
      | _ => cases h
    | _ => cases b <;> cases h

/-- The rules for the reverse are the rules read from right to left. -/
theorem Compares.swap (h : Compares a b o) : Compares b a o.swap := by
  induction h with
  | scalar hc h => exact .scalar hc (Scalar.compare_swap h)
  | first h ho ih => exact .first ih fun heq => ho (Ordering.swap_inj.1 heq)
  | second h h' ih ih' => exact .second ih ih'
  | left h ih => exact .left ih
  | right h ih => exact .right ih
  | sides => exact .sidesBack
  | sidesBack => exact .sides
  | present h ih => exact .present ih
  | absent => exact .absent
  | appears => exact .vanishes
  | vanishes => exact .appears

/-- Two steps upwards make one, and this one looks at no part that they have not looked at. -/
theorem Compares.trans (h : Compares a b o) (h' : Compares b c o') (ho : o.isLE) (ho' : o'.isLE) :
    Compares a c (o.then o') := by
  induction h generalizing c o' with
  | scalar hc h =>
    cases h' with
    | scalar _ h' => exact .scalar hc (Scalar.compare_trans h h' ho ho')
  | @first s s' l r l' r' o h hne ih =>
    obtain rfl := eq_lt_of_isLE ho hne
    cases h' with
    | first h' _ => exact .first (o := .lt) (ih h' rfl ho') nofun
    | second h' _ => exact .first (o := .lt) (ih h' rfl rfl) nofun
  | second h hr ih ihr =>
    cases h' with
    | first h' hne =>
      obtain rfl := eq_lt_of_isLE ho' hne
      rw [then_lt ho]
      exact .first (ih h' rfl rfl) nofun
    | second h' hr' => exact .second (ih h' rfl rfl) (ihr hr' ho ho')
  | left h ih =>
    cases h' with
    | left h' => exact .left (ih h' ho ho')
    | sides =>
      rw [then_lt ho]
      exact .sides
  | right h ih =>
    cases h' with
    | right h' => exact .right (ih h' ho ho')
    | sidesBack => cases ho'
  | sides =>
    cases h' with
    | right h' => exact .sides
    | sidesBack => cases ho'
  | sidesBack => cases ho
  | present h ih =>
    cases h' with
    | present h' => exact .present (ih h' ho ho')
    | vanishes => cases ho'
  | absent =>
    cases h' with
    | absent => exact .absent
    | appears => exact .appears
  | appears =>
    cases h' with
    | present h' => exact .appears
    | vanishes => cases ho'
  | vanishes => cases ho

/-- **Values are in order**: comparing nodes is a total preorder where it is defined, for nodes of
all types, whether values are bound to them or not. -/
theorem ordered_compare : Ordered compare :=
  ordered_of (fun h => compares_iff.1 (compares_iff.2 h).swap)
    fun h h' ho ho' => compares_iff.1 ((compares_iff.2 h).trans (compares_iff.2 h') ho ho')

end Node

end Lineage
