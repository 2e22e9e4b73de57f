import Lineage.Proofs.Calendar.DateTime
import Lineage.Proofs.Text.Grammar
import Lineage.Proofs.Typed.Landing
import Lineage.Proofs.Typed.Literals
import Lineage.Proofs.Typed.Sameness

/-!
# Which literals are stored

A value that is bound to a node of a type has literals of the forms that the grammars tell: integers
are decimal texts, bytes are pairs of hexadecimal digits, texts of timestamps are those of RFC 3339
with any separator (`Scalar.WellFormed`). The integers of one type are not looked at, so of these
any text is stored (`wellFormed_of_settle`). The pointer of a big map is the number that its part of
the value denotes.
-/

namespace Lineage

/-- What is found in an expression: itself, and what is found in its arguments or its items. -/
inductive Micheline.Within (w : Micheline) : Micheline → Prop
  | self : Within w w
  | part {v x : Micheline} (hx : x ∈ v.parts) (h : Within w x) : Within w v

lemma Micheline.Within.eq_of_parts {v w : Micheline} (h : w.Within v) (hv : v.parts = []) :
    w = v := by
  cases h with
  | self => rfl
  | part hx =>
    rw [hv] at hx
    cases hx

namespace Scalar

/-- Types of which every value is taken as it comes. -/
def takesAny (type : Scalar) : Bool :=
  [operation, never, saplingState, saplingTransaction].contains type

/-- **Well-formed literals** of a type: integers are decimal texts, without a sign for natural numbers
and for amounts, bytes are hexadecimal texts, and texts of timestamps are dates with times. -/
def WellFormed (type : Scalar) : Micheline → Prop
  | .int x => Decimal.IsDecimal (type != nat && type != mutez) x
  | .bytes x => Hex.IsHexadecimal x
  | .string x => type = timestamp → Timestamp.IsDateTime x
  | .seq _ | .prim .. => True

section Admits

variable {type : Scalar} {x : String} {v : Micheline} (hany : type.takesAny = false)

include hany

lemma isDecimal_of_admits (h : type.admits (.int x) = true) :
    type = bls12381Fr ∨ Decimal.IsDecimal (type != nat && type != mutez) x := by
  cases type with
  | int | nat | mutez | timestamp => exact .inr (Decimal.isNumeral_iff.1 h)
  | bls12381Fr => exact .inl rfl
  | operation | never | saplingState | saplingTransaction => cases hany
  | _ => cases h

lemma isHexadecimal_of_admits (h : type.admits (.bytes x) = true) : Hex.IsHexadecimal x := by
  cases type with
  | int | nat | mutez | timestamp | string | bool | unit => cases h
  | operation | never | saplingState | saplingTransaction => cases hany
  | _ => exact Hex.isSome_decode?_iff.1 h

lemma parts_of_admits (h : type.admits v = true) : v.parts = [] := by
  cases v with
  | seq | prim =>
    cases type with
    | operation | never | saplingState | saplingTransaction => cases hany
    | _ => cases h
  | _ => rfl

lemma wellFormed_iff_of_admits (h : type.admits v = true) :
    type.WellFormed v ↔ ∀ x, type = bls12381Fr → v = .int x → Decimal.IsDecimal true x := by
  cases v with
  | int x =>
    constructor
    · rintro hx y rfl hy
      rwa [← Micheline.int.inj hy]
    · intro hx
      obtain rfl | hdecimal := isDecimal_of_admits hany h
      · exact hx x rfl rfl
      · exact hdecimal
  | bytes x => exact iff_of_true (isHexadecimal_of_admits hany h) nofun
  | string x =>
    refine iff_of_true ?_ nofun
    rintro rfl
    exact Timestamp.isSome_parse?_iff.1 h
  | seq | prim => exact iff_of_true trivial nofun

end Admits

variable {type : Scalar} {v : Micheline}

lemma wellFormed_of_checkConstant {allowed : List Constructor}
    (h : checkConstant type allowed v = .ok ()) : v.parts = [] ∧ ∀ type : Scalar, type.WellFormed v := by
  obtain ⟨⟨c, args⟩, hconstruct, hargs⟩ := except_bind_ok.1 h
  obtain ⟨⟨annots, rfl⟩, -⟩ := Micheline.construct_ok.1 hconstruct
  dsimp only at hargs
  split at hargs
  · next hempty => exact ⟨List.isEmpty_iff.1 hempty, fun _ => trivial⟩
  · cases hargs

/-- **The literals that a type takes** are well formed, but for the integers of one type. -/
theorem wellFormed_iff_of_check (hany : type.takesAny = false) (h : type.check v = .ok ()) :
    (∀ w : Micheline, w.Within v → type.WellFormed w) ↔
      ∀ x, type = bls12381Fr → v = .int x → Decimal.IsDecimal true x := by
  have hliteral : ∀ {P : Prop}, v.parts = [] → (type.WellFormed v ↔ P) →
      ((∀ w : Micheline, w.Within v → type.WellFormed w) ↔ P) := by
    intro P hparts hP
    rw [← hP]
    refine ⟨fun hall => hall v .self, fun hv w hw => ?_⟩
    rwa [hw.eq_of_parts hparts]
  by_cases hconstant : type = bool ∨ type = unit
  · obtain ⟨allowed, hcheck⟩ : ∃ allowed, checkConstant type allowed v = .ok () := by
      rcases hconstant with rfl | rfl
      · exact ⟨_, h⟩
      · exact ⟨_, h⟩
    obtain ⟨hparts, hv⟩ := wellFormed_of_checkConstant hcheck
    refine hliteral hparts (iff_of_true (hv type) ?_)
    rintro x rfl
    rcases hconstant with hbool | hunit
    · cases hbool
    · cases hunit
  · rw [not_or] at hconstant
    have hadmits := admits_of_check hconstant.1 hconstant.2 h
    exact hliteral (parts_of_admits hany hadmits) (wellFormed_iff_of_admits hany hadmits)

end Scalar

namespace Node

/-- **The literals that a node stores itself** are well formed. Code, and values that are taken as they
come, are not looked into. -/
def WellFormed : Node → Prop
  | scalar _ type _ (some v) =>
    type.takesAny = false → ∀ w : Micheline, w.Within v → type.WellFormed w
  | contract _ _ (some v) => ∀ w : Micheline, w.Within v → Scalar.address.WellFormed w
  | _ => True

variable {n n' m : Node} {t v w : Micheline}

lemma Unbound.wellFormed (h : n.Unbound) : n.WellFormed := by
  cases n with
  | scalar s type typeArgs value =>
    obtain rfl : value = none := h
    trivial
  | contract s parameter value =>
    obtain rfl : value = none := h.2
    trivial
  | _ => trivial

section Kinds

variable {s : Site} {parameter key value : Node} {type : Scalar} {typeArgs : List Micheline}
  {old : Option Micheline} {pointer : Option Int} {entries : Option (List (Node × Node))}

lemma check_of_settle_scalar (h : n.settle v = .ok (scalar s type typeArgs old)) :
    type.check v = .ok () ∧ old = some v := by
  have herase := erase_settle h
  cases n with
  | scalar =>
    obtain ⟨hcheck, heq⟩ := settle_scalar.1 h
    cases heq
    exact ⟨hcheck, rfl⟩
  | _ => cases herase

lemma check_of_settle_contract (h : n.settle v = .ok (contract s parameter old)) :
    Scalar.address.check v = .ok () ∧ old = some v := by
  have herase := erase_settle h
  cases n with
  | contract =>
    obtain ⟨hliteral, heq⟩ := settle_contract.1 h
    cases heq
    refine ⟨if_pos ?_, rfl⟩
    cases v with
    | string | bytes => exact hliteral
    | _ => cases hliteral
  | _ => cases herase

lemma isInt64_of_settle {p : Int} (hn : n.Unbound)
    (h : n.settle v = .ok (bigMap s key value (some p) entries)) :
    ∃ literal, v = .int literal ∧ Decimal.IsInt64 literal p := by
  have herase := erase_settle h
  cases n with
  | bigMap =>
    obtain ⟨-, -, rfl, rfl⟩ := hn
    obtain ⟨literal, q, hv, hq, heq⟩ | ⟨elts, entries', -, -, heq⟩ := settle_bigMap.1 h <;>
      cases heq
    exact ⟨literal, hv, Decimal.parseInt64?_eq_some_iff.1 hq⟩
  | _ => cases herase

end Kinds

/-- What a node stores is well formed, but for the integers of one type. -/
lemma wellFormed_iff_of_settle (h : n.settle v = .ok n') :
    n'.WellFormed ↔ ∀ s typeArgs x, n' = scalar s .bls12381Fr typeArgs (some (.int x)) →
      Decimal.IsDecimal true x := by
  cases n' with
  | scalar s type typeArgs value =>
    obtain ⟨hcheck, rfl⟩ := check_of_settle_scalar h
    constructor
    · rintro hv s' typeArgs' x hx
      obtain ⟨-, rfl, -, hint⟩ := scalar.inj hx
      exact (Scalar.wellFormed_iff_of_check rfl hcheck).1 (hv rfl) x rfl (Option.some.inj hint)
    · intro hx hany
      refine (Scalar.wellFormed_iff_of_check hany hcheck).2 fun x htype hint => ?_
      exact hx s typeArgs x (by rw [htype, hint])
  | contract s parameter value =>
    obtain ⟨hcheck, rfl⟩ := check_of_settle_contract h
    exact iff_of_true ((Scalar.wellFormed_iff_of_check rfl hcheck).2 nofun) nofun
  | _ => exact iff_of_true trivial nofun

/-- **The literals in the tree that a value is bound to.** At every node of it, be it a template, an
item, a key or a value, the literals that are stored there are well formed, unless it is an element
of the field that is given as an integer: such an integer may be any text. The pointer of a big map
is the 64-bit integer of the literal that the big map was given as. -/
theorem wellFormed_of_settle (ht : ofType t = .ok n) (h : n.settle v = .ok n') (hm : Part m n') :
    (m.WellFormed ↔ ∀ s typeArgs x, m = scalar s .bls12381Fr typeArgs (some (.int x)) →
      Decimal.IsDecimal true x) ∧
    ∀ s key value p entries, m = bigMap s key value (some p) entries →
      ∃ literal, Lands (.int literal) m v n' ∧ Decimal.IsInt64 literal p := by
  obtain hunbound | ⟨n₀, w, hn₀, hw, hlands⟩ := exists_lands_of_part (unbound_ofType ht) h hm
  · constructor
    · refine iff_of_true hunbound.wellFormed ?_
      rintro s typeArgs x rfl
      cases hunbound
    · rintro s key value p entries rfl
      cases hunbound.2.2.1
  · refine ⟨wellFormed_iff_of_settle hw, ?_⟩
    rintro s key value p entries rfl
    obtain ⟨literal, rfl, hp⟩ := isInt64_of_settle hn₀ hw
    exact ⟨literal, hlands, hp⟩

/-! ### A list of times with big maps -/

/-- The type of a list that has a big map for each time. -/
def journal : Micheline :=
  .prim "list" [.prim "pair" [.prim "timestamp" [] [],
    .prim "big_map" [.prim "nat" [] [], .prim "bytes" [] []] []] []] []

def journalPage (time : Option Micheline) (pointer : Option Int) : Node :=
  pair ⟨1, "0/l", .empty, 1⟩ (scalar ⟨2, "0/l/0", .empty, 2⟩ .timestamp [] time)
    (bigMap ⟨3, "0/l/1", .empty, 2⟩ (scalar ⟨4, "0/l/1/k", .empty, 3⟩ .nat [] none)
      (scalar ⟨5, "0/l/1/v", .empty, 3⟩ .bytes [] none) pointer none)

def journalNode (pages : Option (List Node)) : Node :=
  collection ⟨0, "0", .empty, 0⟩ .list (journalPage none none) pages

def journalTime : Micheline := .string "2020-02-29T12:00:00.5+01:00"

def journalValue : Micheline := .seq [.data .pair [journalTime, .int "-012"]]

theorem wellFormed_of_settle_journal :
    ∃ n n' l r, ofType journal = .ok n ∧ n.settle journalValue = .ok n' ∧
      Part l n' ∧ (∃ s, l = scalar s .timestamp [] (some journalTime)) ∧ l.WellFormed ∧
      Part r n' ∧ (∃ s key value, r = bigMap s key value (some (-12)) none) ∧
      ∃ literal, Lands (.int literal) r journalValue n' ∧ Decimal.IsInt64 literal (-12) := by
  have htype : ofType journal = .ok (journalNode none) := rfl
  have hsettle : (journalNode none).settle journalValue =
      .ok (journalNode (some [journalPage (some journalTime) (some (-12))])) := rfl
  have hpage : ∀ m ∈ (journalPage (some journalTime) (some (-12))).typeChildren,
      Part m (journalNode (some [journalPage (some journalTime) (some (-12))])) := fun m hm =>
    .part (List.mem_append_right _ (List.mem_singleton_self _))
      (.part (List.mem_append_left _ hm) .self)
  have htime := hpage _ List.mem_cons_self
  have hbigMap := hpage _ (List.mem_cons_of_mem _ (List.mem_singleton_self _))
  refine ⟨_, _, _, _, htype, hsettle, htime, ⟨_, rfl⟩, ?_, hbigMap, ⟨_, _, _, rfl⟩, ?_⟩
  · exact (wellFormed_of_settle htype hsettle htime).1.2 fun _ _ _ hscalar => by cases hscalar
  · exact (wellFormed_of_settle htype hsettle hbigMap).2 _ _ _ _ _ rfl

/-- An element of the field is stored though it is no number. -/
theorem not_wellFormed_zz :
    ∃ n n' m, ofType (.prim "bls12_381_fr" [] []) = .ok n ∧ n.settle (.int "zz") = .ok n' ∧
      Part m n' ∧ ¬ m.WellFormed := by
  have hsettle : (scalar ⟨0, "0", .empty, 0⟩ .bls12381Fr [] none).settle (.int "zz") =
      .ok (scalar ⟨0, "0", .empty, 0⟩ .bls12381Fr [] (some (.int "zz"))) := rfl
  refine ⟨_, _, _, rfl, hsettle, .self, fun h => ?_⟩
  have hdecimal := (wellFormed_iff_of_settle hsettle).1 h _ _ _ rfl
  exact absurd (Decimal.isNumeral_iff.2 hdecimal) (by decide)

end Node

end Lineage
