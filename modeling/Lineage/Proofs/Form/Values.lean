import Lineage.Proofs.Form.Fields
import Lineage.Proofs.Form.Reader
import Lineage.Proofs.Micheline.Json
import Lineage.Proofs.Typed.Bound
import Lineage.Proofs.Typed.Literals

/-!
# Values that are entered in forms

A reader of forms makes expressions of one kind only (`written_of_ofForm`): pairs of two,
constructors without annotations, one sort of literal for each type, and big maps as pointers. For a
type whose fields are told apart by their names, every expression of this kind that can be bound is
made of some object (`exists_ofForm`).
-/

namespace Lineage

open Form (Schema Values)

/-- A literal is of the sort that is entered in a form. -/
def Scalar.Written : Scalar → Micheline → Prop
  | unit, v => v = .data .unit []
  | bool, v => v = .data .true [] ∨ v = .data .false []
  | int, v | nat, v | mutez, v => ∃ literal, v = .int literal
  | bytes, v | bls12381Fr, v | bls12381G1, v | bls12381G2, v => ∃ hex, v = .bytes hex
  | _, v => ∃ text, v = .string text

namespace Node

variable {n inner l r elem key value parameter result : Node} {s : Site} {v w : Micheline}
  {pointer : String → Prop}

/-- **Expressions that are made of forms**: pairs of two components, constructors without
annotations, the literals that are entered, any code, and pointers of a given sort for big maps. -/
def Written (pointer : String → Prop) : Node → Micheline → Prop
  | scalar _ type _ _, v => type.Written v
  | contract .., v => ∃ text, v = .string text
  | lambda .., _ => True
  | ticket _ inner, v => inner.Written pointer v
  | option _ inner _, v =>
    v = .data .none [] ∨ ∃ a, v = .data .some [a] ∧ inner.Written pointer a
  | pair _ l r, v => ∃ a b, v = .data .pair [a, b] ∧ l.Written pointer a ∧ r.Written pointer b
  | or _ l r _, v =>
    (∃ a, v = .data .left [a] ∧ l.Written pointer a) ∨
      ∃ a, v = .data .right [a] ∧ r.Written pointer a
  | collection _ _ elem _, v => ∃ vs, v = .seq vs ∧ ∀ x ∈ vs, elem.Written pointer x
  | map _ key value _, v =>
    ∃ vs, v = .seq vs ∧ ∀ x ∈ vs, PlainElt (key.Written pointer) (value.Written pointer) x
  | bigMap .., v => ∃ literal, v = .int literal ∧ pointer literal

/-- A numeral, perhaps with a minus sign. -/
def Numeral (s : String) : Prop := Decimal.isNumeral true s = true

instance {s : String} : Decidable (Numeral s) :=
  inferInstanceAs (Decidable (Decimal.isNumeral true s = true))

/-- A value of the type, as it is made of forms. -/
def Takes (n : Node) (v : Micheline) : Prop :=
  (∃ n', n.settle v = .ok n') ∧ n.Written Numeral v

/-! ### Values by their types -/

section Takes

open Micheline (data_applies)

variable {type : Scalar} {typeArgs : List Micheline} {old : Option Micheline}
  {present : Option Bool} {side : Option Side} {kind : Collection} {items : Option (List Node)}
  {entries : Option (List (Node × Node))} {pointer : Option Int}

lemma takes_scalar :
    (scalar s type typeArgs old).Takes v ↔ type.check v = .ok () ∧ type.Written v := by
  refine and_congr_left fun _ => ?_
  simp only [settle_scalar]
  exact ⟨fun ⟨_, h, _⟩ => h, fun h => ⟨_, h, rfl⟩⟩

lemma takes_contract : (contract s parameter old).Takes v ↔ ∃ text, v = .string text := by
  constructor
  · exact fun h => h.2
  · rintro ⟨text, rfl⟩
    exact ⟨⟨_, settle_contract.2 ⟨rfl, rfl⟩⟩, text, rfl⟩

lemma takes_lambda : (lambda s parameter result old).Takes v ↔
    (∃ vs, v = .seq vs) ∨ ∃ name args annots, v = .prim name args annots := by
  constructor
  · rintro ⟨⟨n', h⟩, -⟩
    exact (settle_lambda.1 h).1
  · exact fun h => ⟨⟨_, settle_lambda.2 ⟨h, rfl⟩⟩, trivial⟩

lemma takes_ticket : (ticket s inner).Takes v ↔ inner.Takes v := by
  refine and_congr_left fun _ => ?_
  simp only [settle_ticket]
  exact ⟨fun ⟨_, inner', h, _⟩ => ⟨inner', h⟩, fun ⟨inner', h⟩ => ⟨_, inner', h, rfl⟩⟩

lemma takes_option : (option s inner present).Takes v ↔
    v = .data .none [] ∨ ∃ a, v = .data .some [a] ∧ inner.Takes a := by
  constructor
  · rintro ⟨⟨n', h⟩, rfl | ⟨a, rfl, ha⟩⟩
    · exact .inl rfl
    · obtain ⟨hnone, -⟩ | ⟨a', inner', hsome, hinner, -⟩ := settle_option.1 h
      · cases (data_applies.1 hnone).1
      · cases (data_applies.1 hsome).2
        exact .inr ⟨a, rfl, ⟨inner', hinner⟩, ha⟩
  · rintro (rfl | ⟨a, rfl, ⟨inner', hinner⟩, ha⟩)
    · exact ⟨⟨_, settle_option.2 (.inl ⟨⟨[], rfl⟩, rfl⟩)⟩, .inl rfl⟩
    · exact ⟨⟨_, settle_option.2 (.inr ⟨a, inner', ⟨[], rfl⟩, hinner, rfl⟩)⟩, .inr ⟨a, rfl, ha⟩⟩

lemma takes_pair : (pair s l r).Takes v ↔
    ∃ a b, v = .data .pair [a, b] ∧ l.Takes a ∧ r.Takes b := by
  constructor
  · rintro ⟨⟨n', h⟩, a, b, rfl, ha, hb⟩
    obtain ⟨first, second, rest, l', r', hcomponents, hl, hr, -⟩ := settle_pair.1 h
    cases hcomponents.unique (.inl ⟨[], rfl⟩)
    exact ⟨a, b, rfl, ⟨⟨l', hl⟩, ha⟩, ⟨r', hr⟩, hb⟩
  · rintro ⟨a, b, rfl, ⟨⟨l', hl⟩, ha⟩, ⟨r', hr⟩, hb⟩
    exact ⟨⟨_, settle_pair.2 ⟨a, b, [], l', r', .inl ⟨[], rfl⟩, hl, hr, rfl⟩⟩, a, b, rfl, ha, hb⟩

lemma takes_or : (or s l r side).Takes v ↔
    (∃ a, v = .data .left [a] ∧ l.Takes a) ∨ ∃ a, v = .data .right [a] ∧ r.Takes a := by
  constructor
  · rintro ⟨⟨n', h⟩, hwritten⟩
    obtain ⟨a, l', hleft, hl, -⟩ | ⟨a, r', hright, hr, -⟩ := settle_or.1 h <;>
      obtain ⟨a', rfl, ha⟩ | ⟨a', rfl, ha⟩ := hwritten
    · cases (data_applies.1 hleft).2
      exact .inl ⟨a, rfl, ⟨l', hl⟩, ha⟩
    · cases (data_applies.1 hleft).1
    · cases (data_applies.1 hright).1
    · cases (data_applies.1 hright).2
      exact .inr ⟨a, rfl, ⟨r', hr⟩, ha⟩
  · rintro (⟨a, rfl, ⟨l', hl⟩, ha⟩ | ⟨a, rfl, ⟨r', hr⟩, ha⟩)
    · exact ⟨⟨_, settle_or.2 (.inl ⟨a, l', ⟨[], rfl⟩, hl, rfl⟩)⟩, .inl ⟨a, rfl, ha⟩⟩
    · exact ⟨⟨_, settle_or.2 (.inr ⟨a, r', ⟨[], rfl⟩, hr, rfl⟩)⟩, .inr ⟨a, rfl, ha⟩⟩

lemma forall_exists_iff {α β : Type} {R : α → β → Prop} {xs : List α} :
    (∃ ys, List.Forall₂ R xs ys) ↔ ∀ x ∈ xs, ∃ y, R x y := by
  refine ⟨?_, exists_forall₂⟩
  rintro ⟨ys, h⟩
  induction h with
  | nil => exact nofun
  | cons hxy _ ih => exact List.forall_mem_cons.2 ⟨⟨_, hxy⟩, ih⟩

lemma takes_collection : (collection s kind elem items).Takes v ↔
    ∃ vs, v = .seq vs ∧ ∀ x ∈ vs, elem.Takes x := by
  constructor
  · rintro ⟨⟨n', h⟩, vs, rfl, hvs⟩
    obtain ⟨vs', items', hseq, hitems, -⟩ := settle_collection.1 h
    cases hseq
    exact ⟨vs, rfl, fun x hx => ⟨forall_exists_iff.1 ⟨items', hitems⟩ x hx, hvs x hx⟩⟩
  · rintro ⟨vs, rfl, hvs⟩
    obtain ⟨items', hitems⟩ := forall_exists_iff.2 fun x hx => (hvs x hx).1
    exact ⟨⟨_, settle_collection.2 ⟨vs, items', rfl, hitems, rfl⟩⟩, vs, rfl,
      fun x hx => (hvs x hx).2⟩

lemma takes_map : (map s key value entries).Takes v ↔
    ∃ vs, v = .seq vs ∧ ∀ x ∈ vs, PlainElt key.Takes value.Takes x := by
  constructor
  · rintro ⟨⟨n', h⟩, vs, rfl, hvs⟩
    obtain ⟨vs', entries', hseq, hentries, -⟩ := settle_map.1 h
    cases hseq
    refine ⟨vs, rfl, fun elt helt => ?_⟩
    obtain ⟨entry, k, x, happlies, hk, hx⟩ := forall_exists_iff.1 ⟨entries', hentries⟩ elt helt
    obtain ⟨k', x', rfl, hk', hx'⟩ := hvs elt helt
    cases (data_applies.1 happlies).2
    exact ⟨k, x, rfl, ⟨⟨_, hk⟩, hk'⟩, ⟨_, hx⟩, hx'⟩
  · rintro ⟨vs, rfl, hvs⟩
    have hsettles : ∀ elt ∈ vs, ∃ entry, SettlesElt key value elt entry := by
      intro elt helt
      obtain ⟨k, x, rfl, ⟨⟨key', hk⟩, -⟩, ⟨value', hx⟩, -⟩ := hvs elt helt
      exact ⟨(key', value'), k, x, ⟨[], rfl⟩, hk, hx⟩
    obtain ⟨entries', hentries⟩ := forall_exists_iff.2 hsettles
    refine ⟨⟨_, settle_map.2 ⟨vs, entries', rfl, hentries, rfl⟩⟩, vs, rfl, fun elt helt => ?_⟩
    obtain ⟨k, x, rfl, hk, hx⟩ := hvs elt helt
    exact ⟨k, x, rfl, hk.2, hx.2⟩

lemma takes_bigMap : (bigMap s key value pointer entries).Takes v ↔
    ∃ literal p, v = .int literal ∧ Decimal.parseInt64? literal = some p ∧ Numeral literal := by
  constructor
  · rintro ⟨⟨n', h⟩, literal, rfl, hnumeral⟩
    obtain ⟨literal', p, hint, hp, -⟩ | ⟨elts, entries', hseq, -⟩ := settle_bigMap.1 h
    · cases hint
      exact ⟨literal, p, rfl, hp, hnumeral⟩
    · cases hseq
  · rintro ⟨literal, p, rfl, hp, hnumeral⟩
    exact ⟨⟨_, settle_bigMap.2 (.inl ⟨literal, p, rfl, hp, rfl⟩)⟩, literal, rfl, hnumeral⟩

end Takes

/-! ### What is made of forms -/

open Form

variable {name : String} {values : Values}

lemma numeral_of_numeralOf {literal : String} (h : numeralOf name values = .ok literal) :
    Numeral literal := by
  obtain ⟨k, -, rfl⟩ | ⟨-, hliteral⟩ := numeralOf_ok.1 h
  · exact (Decimal.integer_toString k).1
  · exact hliteral

lemma written_of_scalarOf {type : Scalar} (h : scalarOf type name values = .ok w) :
    type.Written w := by
  cases type with
  | unit =>
    cases h
    rfl
  | bool =>
    obtain ⟨b, -, h⟩ := except_bind_ok.1 h
    cases h
    cases b
    · exact .inr rfl
    · exact .inl rfl
  | _ =>
    obtain ⟨text, -, h⟩ := except_bind_ok.1 h
    cases h
    exact ⟨text, rfl⟩

/-- **Forms make expressions of one kind**. -/
theorem written_of_ofForm (h : n.ofForm values = .ok w) : n.Written Numeral w := by
  induction n using typeInduction generalizing values w with
  | scalar s type typeArgs value => exact written_of_scalarOf h
  | contract s parameter value =>
    obtain ⟨text, -, rfl⟩ := ofForm_contract.1 h
    exact ⟨text, rfl⟩
  | ticket s inner ih => exact ih h
  | option s inner present ih =>
    obtain ⟨chosen, -, rfl⟩ | ⟨chosen, -, a, ha, rfl⟩ := ofForm_option.1 h
    · exact .inl rfl
    · exact .inr ⟨a, rfl, ih ha⟩
  | pair s l r ihl ihr =>
    obtain ⟨a, b, ha, hb, rfl⟩ := ofForm_pair.1 h
    exact ⟨a, b, rfl, ihl ha, ihr hb⟩
  | or s l r side ihl ihr =>
    obtain ⟨chosen, -, a, ha, rfl⟩ | ⟨chosen, -, a, ha, rfl⟩ := ofForm_or.1 h
    · exact .inl ⟨a, rfl, ihl ha⟩
    · exact .inr ⟨a, rfl, ihr ha⟩
  | collection s kind elem items ih =>
    obtain ⟨objects, ws, -, hread, rfl⟩ := ofForm_collection.1 h
    refine ⟨ws, rfl, forall_of_forall₂ hread fun object w hobject => ?_⟩
    obtain ⟨fields, -, hw⟩ := hobject
    exact ih hw
  | map s key value entries ihk ihv =>
    obtain ⟨objects, ws, -, hread, rfl⟩ := ofForm_map.1 h
    refine ⟨ws, rfl, forall_of_forall₂ hread fun object w hobject => ?_⟩
    obtain ⟨fields, k, v, a, b, -, -, -, ha, hb, rfl⟩ := hobject
    exact ⟨a, b, rfl, ihk ha, ihv hb⟩
  | bigMap s key value pointer entries =>
    obtain ⟨literal, hliteral, rfl⟩ := ofForm_bigMap.1 h
    exact ⟨literal, rfl, numeral_of_numeralOf hliteral⟩
  | lambda => trivial

/-! ### Objects for values -/

lemma exists_scalarOf_eq {type : Scalar} (htype : type ≠ .unit) (hcheck : type.check w = .ok ())
    (hwritten : type.Written w) :
    ∃ x, ∀ name values, Dictionary.find? name values = some x →
      scalarOf type name values = .ok w := by
  cases type with
  | unit => exact absurd rfl htype
  | int | nat | mutez =>
    obtain ⟨literal, rfl, hnumeral, -⟩ := Scalar.exists_numeral rfl hcheck
    refine ⟨.text literal, fun name values hx => ?_⟩
    rw [scalarOf, numeralOf_ok.2 (.inr ⟨hx, hnumeral⟩)]
    rfl
  | bool =>
    obtain rfl | rfl := hwritten
    · refine ⟨.bool true, fun name values hx => ?_⟩
      rw [scalarOf, boolOf_ok.2 hx]
      rfl
    · refine ⟨.bool false, fun name values hx => ?_⟩
      rw [scalarOf, boolOf_ok.2 hx]
      rfl
  | bytes | bls12381Fr | bls12381G1 | bls12381G2 =>
    obtain ⟨hex, rfl⟩ := hwritten
    refine ⟨.text hex, fun name values hx => ?_⟩
    rw [scalarOf, textOf_ok.2 hx]
    rfl
  | _ =>
    obtain ⟨text, rfl⟩ := hwritten
    refine ⟨.text text, fun name values hx => ?_⟩
    show (do return Micheline.string (← textOf name values)) = _
    rw [textOf_ok.2 hx]
    rfl

/-- Entries under the names of the fields from which a value is read. -/
def Enters (n : Node) (entries : List (String × Json)) (w : Micheline) : Prop :=
  entries.map Prod.fst = n.fieldNames ∧
    ∀ values, (∀ entry ∈ entries, Dictionary.find? entry.1 values = some entry.2) →
      n.ofForm values = .ok w

lemma exists_enters {x : Json} (hfields : n.fields = [n])
    (h : ∀ values, Dictionary.find? n.displayName values = some x → n.ofForm values = .ok w) :
    ∃ entries, n.Enters entries w := by
  refine ⟨[(n.displayName, x)], ?_, fun values hvalues => h values ?_⟩
  · rw [fieldNames, hfields]
    rfl
  · exact hvalues (n.displayName, x) (List.mem_singleton_self _)

lemma Enters.ofForm {entries : List (String × Json)} (h : n.Enters entries w) (hn : n.WellNamed) :
    n.ofForm (Dictionary.ofList entries) = .ok w := by
  obtain ⟨hkeys, hread⟩ := h
  refine hread _ fun entry hentry => Dictionary.find?_ofList ?_ hentry
  rw [hkeys]
  exact (wellNamed_iff.1 hn).1

/-- An alternative is entered with its constant, in an object of its own. -/
lemma Enters.exists_object {entries : List (String × Json)} (h : n.Enters entries w)
    (hkey : Schema.choiceKey ∉ n.fieldNames) (hn : n.WellNamed) (key : String) :
    ∃ x chosen, (∀ name values, Dictionary.find? name values = some x →
      Chooses name values key chosen) ∧ n.ofForm chosen = .ok w := by
  obtain ⟨hkeys, hread⟩ := h
  have hfind : ∀ entry ∈ (Schema.choiceKey, Json.text key) :: entries, Dictionary.find? entry.1
      (Dictionary.ofList ((Schema.choiceKey, .text key) :: entries)) = some entry.2 := by
    refine fun entry hentry => Dictionary.find?_ofList ?_ hentry
    rw [List.map_cons, hkeys]
    exact List.nodup_cons.2 ⟨hkey, (wellNamed_iff.1 hn).1⟩
  obtain ⟨hconst, hentries⟩ := List.forall_mem_cons.1 hfind
  exact ⟨.object _, _, fun name values hx => ⟨_, hx, rfl, hconst⟩, hread _ hentries⟩

section Entries

variable {a b : Micheline} {entries entries' : List (String × Json)} {vs : List Micheline}

lemma Enters.pair (ha : l.Enters entries a) (hb : r.Enters entries' b) :
    (pair s l r).Enters (entries ++ entries') (.data .pair [a, b]) := by
  obtain ⟨hkeysl, hreadl⟩ := ha
  obtain ⟨hkeysr, hreadr⟩ := hb
  refine ⟨?_, fun values hvalues => ?_⟩
  · rw [List.map_append, hkeysl, hkeysr, fieldNames_pair]
  · obtain ⟨hvaluesl, hvaluesr⟩ := List.forall_mem_append.1 hvalues
    exact ofForm_pair.2 ⟨a, b, hreadl values hvaluesl, hreadr values hvaluesr, rfl⟩

lemma exists_enters_none {present : Option Bool} :
    ∃ entries, (option s inner present).Enters entries (.data .none []) := by
  have hconst : (Json.object [(Schema.choiceKey, .text (presenceKey false))]).object? =
    some [(Schema.choiceKey, .text (presenceKey false))] := rfl
  exact exists_enters rfl fun values hx => ofForm_option.2 (.inl ⟨_, ⟨_, hx, hconst, rfl⟩, rfl⟩)

lemma Enters.exists_some {present : Option Bool} (h : inner.Enters entries a)
    (hkey : Schema.choiceKey ∉ inner.fieldNames) (hinner : inner.WellNamed) :
    ∃ entries, (option s inner present).Enters entries (.data .some [a]) := by
  obtain ⟨x, chosen, hx, hread⟩ := h.exists_object hkey hinner (presenceKey true)
  exact exists_enters rfl fun values hvalues =>
    ofForm_option.2 (.inr ⟨chosen, hx _ values hvalues, a, hread, rfl⟩)

lemma Enters.exists_left {side : Option Side} (h : l.Enters entries a)
    (hkey : Schema.choiceKey ∉ l.fieldNames) (hl : l.WellNamed) :
    ∃ entries, (or s l r side).Enters entries (.data .left [a]) := by
  obtain ⟨x, chosen, hx, hread⟩ := h.exists_object hkey hl (sideKey .left)
  exact exists_enters rfl fun values hvalues =>
    ofForm_or.2 (.inl ⟨chosen, hx _ values hvalues, a, hread, rfl⟩)

lemma Enters.exists_right {side : Option Side} (h : r.Enters entries a)
    (hkey : Schema.choiceKey ∉ r.fieldNames) (hr : r.WellNamed) :
    ∃ entries, (or s l r side).Enters entries (.data .right [a]) := by
  obtain ⟨x, chosen, hx, hread⟩ := h.exists_object hkey hr (sideKey .right)
  exact exists_enters rfl fun values hvalues =>
    ofForm_or.2 (.inr ⟨chosen, hx _ values hvalues, a, hread, rfl⟩)

lemma exists_enters_collection {kind : Collection} {items : Option (List Node)}
    (helem : elem.WellNamed) (h : ∀ x ∈ vs, ∃ entries, elem.Enters entries x) :
    ∃ entries, (collection s kind elem items).Enters entries (.seq vs) := by
  have hread : ∀ x ∈ vs, ∃ object, elem.ReadsItem object x := by
    intro x hx
    obtain ⟨entries, hentries⟩ := h x hx
    exact ⟨.object entries, _, rfl, hentries.ofForm helem⟩
  obtain ⟨objects, hobjects⟩ := exists_forall₂ hread
  exact exists_enters rfl fun values hx =>
    ofForm_collection.2 ⟨objects, vs, hx, hobjects.flip, rfl⟩

lemma exists_enters_map {old : Option (List (Node × Node))} (hkey : key.WellNamed)
    (hvalue : value.WellNamed)
    (h : ∀ x ∈ vs, PlainElt (fun a => ∃ entries, key.Enters entries a)
      (fun b => ∃ entries, value.Enters entries b) x) :
    ∃ entries, (map s key value old).Enters entries (.seq vs) := by
  have hread : ∀ x ∈ vs, ∃ object, key.ReadsEntry value object x := by
    intro x hx
    obtain ⟨a, b, rfl, ⟨entriesk, hentriesk⟩, entriesv, hentriesv⟩ := h x hx
    exact ⟨.object [("key", .object entriesk), ("value", .object entriesv)], _, _, _, a, b, rfl,
      objectOf_ok.2 ⟨_, rfl, rfl⟩, objectOf_ok.2 ⟨_, rfl, rfl⟩, hentriesk.ofForm hkey,
      hentriesv.ofForm hvalue, rfl⟩
  obtain ⟨objects, hobjects⟩ := exists_forall₂ hread
  exact exists_enters rfl fun values hx => ofForm_map.2 ⟨objects, vs, hx, hobjects.flip, rfl⟩

end Entries

/-- **Values are entered field by field**. -/
lemma exists_enters_of_takes (hn : n.WellNamed) (h : n.Takes w) :
    ∃ entries, n.Enters entries w := by
  induction n using typeInduction generalizing w with
  | scalar s type typeArgs value =>
    obtain ⟨hcheck, hwritten⟩ := takes_scalar.1 h
    by_cases htype : type = .unit
    · subst htype
      obtain rfl : w = .data .unit [] := hwritten
      exact ⟨[], rfl, fun _ _ => rfl⟩
    · obtain ⟨x, hx⟩ := exists_scalarOf_eq htype hcheck hwritten
      exact exists_enters (fields_scalar htype) fun values => hx _ values
  | contract s parameter value =>
    obtain ⟨text, rfl⟩ := takes_contract.1 h
    exact exists_enters rfl fun values hx => ofForm_contract.2 ⟨text, hx, rfl⟩
  | ticket s inner ih => exact ih hn (takes_ticket.1 h)
  | option s inner present ih =>
    obtain ⟨hkey, hinner⟩ := wellNamed_option.1 hn
    obtain rfl | ⟨a, rfl, ha⟩ := takes_option.1 h
    · exact exists_enters_none
    · obtain ⟨entries, hentries⟩ := ih hinner ha
      exact hentries.exists_some hkey hinner
  | pair s l r ihl ihr =>
    obtain ⟨hl, hr, -⟩ := wellNamed_pair.1 hn
    obtain ⟨a, b, rfl, ha, hb⟩ := takes_pair.1 h
    obtain ⟨entriesl, hentriesl⟩ := ihl hl ha
    obtain ⟨entriesr, hentriesr⟩ := ihr hr hb
    exact ⟨_, hentriesl.pair hentriesr⟩
  | or s l r side ihl ihr =>
    obtain ⟨⟨hkeyl, hl⟩, hkeyr, hr⟩ := wellNamed_or.1 hn
    obtain ⟨a, rfl, ha⟩ | ⟨a, rfl, ha⟩ := takes_or.1 h
    · obtain ⟨entries, hentries⟩ := ihl hl ha
      exact hentries.exists_left hkeyl hl
    · obtain ⟨entries, hentries⟩ := ihr hr ha
      exact hentries.exists_right hkeyr hr
  | collection s kind elem items ih =>
    have helem := wellNamed_collection.1 hn
    obtain ⟨vs, rfl, hvs⟩ := takes_collection.1 h
    exact exists_enters_collection helem fun x hx => ih helem (hvs x hx)
  | map s key value entries ihk ihv =>
    obtain ⟨hkey, hvalue⟩ := wellNamed_map.1 hn
    obtain ⟨vs, rfl, hvs⟩ := takes_map.1 h
    refine exists_enters_map hkey hvalue fun x hx => ?_
    obtain ⟨a, b, rfl, ha, hb⟩ := hvs x hx
    exact ⟨a, b, rfl, ihk hkey ha, ihv hvalue hb⟩
  | bigMap s key value pointer entries ihk ihv =>
    obtain ⟨literal, p, rfl, -, hnumeral⟩ := takes_bigMap.1 h
    exact exists_enters (x := .text literal) rfl fun values hx =>
      ofForm_bigMap.2 ⟨literal, numeralOf_ok.2 (.inr ⟨hx, hnumeral⟩), rfl⟩
  | lambda s parameter result value ihp ihr =>
    -- code is not written as a text, so it is read as it is
    have hcode : code? w.toJson = some w := by
      obtain ⟨vs, rfl⟩ | ⟨name, args, annots, rfl⟩ := takes_lambda.1 h <;>
        exact Micheline.node_ofJson_toJson _
    exact exists_enters rfl fun values hx => ofForm_lambda.2 ⟨_, hx, hcode⟩

/-- **Every value is made of some object**, if no object has two fields of one name. -/
theorem exists_ofForm (hn : n.WellNamed) (h : n.Takes w) :
    ∃ fields, n.ofForm (Dictionary.ofList fields) = .ok w := by
  obtain ⟨entries, hentries⟩ := exists_enters_of_takes hn h
  exact ⟨entries, hentries.ofForm hn⟩

end Node

end Lineage
