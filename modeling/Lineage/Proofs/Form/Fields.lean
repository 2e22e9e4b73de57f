import Mathlib.Data.List.Nodup
import Lineage.Form.Reader
import Lineage.Proofs.Text.Dictionary
import Lineage.Proofs.Typed.Binding

/-!
# Fields of forms

The object that a form is filled in with has a field for each of its parts, and so have the objects
within it. `Node.objects` lists the names of the fields, object by object, and a type is `WellNamed`
if none of these lists has a name twice.

The form of a node has fields under its names only, and leaves others alone (`find?_addFields`).
-/

namespace Lineage

open Form (Schema)

namespace Node

variable {n inner l r elem key value : Node} {s : Site} {name : String} {schema : Schema}
  {props : Dictionary String Schema}

/-! ### Names -/

/-- The nodes that are asked for in one object, each in a field of its own: pairs and tickets leave
this to their parts, and `unit` has no field. -/
def fields : Node → List Node
  | scalar _ .unit _ _ => []
  | ticket _ inner => inner.fields
  | pair _ l r => l.fields ++ r.fields
  | n => [n]

def fieldNames (n : Node) : List String := n.fields.map displayName

/-- The names of the fields of the objects within the object a node is asked for in. An object of a
choice has the field of its constant besides. -/
def innerObjects : Node → List (List String)
  | ticket _ inner => inner.innerObjects
  | pair _ l r => l.innerObjects ++ r.innerObjects
  | or _ l r _ =>
    (Schema.choiceKey :: l.fieldNames) :: l.innerObjects ++
      (Schema.choiceKey :: r.fieldNames) :: r.innerObjects
  | option _ inner _ => (Schema.choiceKey :: inner.fieldNames) :: inner.innerObjects
  | collection _ _ elem _ => elem.fieldNames :: elem.innerObjects
  | map _ key value _ =>
    key.fieldNames :: key.innerObjects ++ value.fieldNames :: value.innerObjects
  | _ => []

/-- The names of the fields of all objects in the form of a node. -/
def objects (n : Node) : List (List String) := n.fieldNames :: n.innerObjects

/-- **Fields are told apart by their names**: no object of the form has two fields of one name. -/
def WellNamed (n : Node) : Prop := ∀ names ∈ n.objects, names.Nodup

instance : Decidable n.WellNamed := inferInstanceAs (Decidable (∀ names ∈ n.objects, names.Nodup))

lemma fields_scalar {type : Scalar} {typeArgs : List Micheline} {value : Option Micheline}
    (h : type ≠ .unit) :
    (scalar s type typeArgs value).fields = [scalar s type typeArgs value] := by
  cases type <;> first | rfl | exact absurd rfl h

lemma fieldNames_pair : (pair s l r).fieldNames = l.fieldNames ++ r.fieldNames :=
  List.map_append

lemma wellNamed_iff :
    n.WellNamed ↔ n.fieldNames.Nodup ∧ ∀ names ∈ n.innerObjects, names.Nodup :=
  List.forall_mem_cons

lemma wellNamed_pair : (pair s l r).WellNamed ↔
    l.WellNamed ∧ r.WellNamed ∧ ∀ name ∈ l.fieldNames, name ∉ r.fieldNames := by
  simp only [wellNamed_iff, fieldNames_pair, innerObjects, List.nodup_append,
    List.forall_mem_append]
  constructor
  · rintro ⟨⟨hl, hr, hne⟩, hinner⟩
    exact ⟨⟨hl, hinner.1⟩, ⟨hr, hinner.2⟩, fun name hname hmem => hne name hname name hmem rfl⟩
  · rintro ⟨⟨hl, hl'⟩, ⟨hr, hr'⟩, hne⟩
    exact ⟨⟨hl, hr, fun name hname name' hname' h => hne name hname (h ▸ hname')⟩, hl', hr'⟩

lemma wellNamed_single (h : n.fields = [n]) :
    n.WellNamed ↔ ∀ names ∈ n.innerObjects, names.Nodup := by
  rw [wellNamed_iff, fieldNames, h]
  exact and_iff_right (List.nodup_singleton _)

lemma nodup_choice : (∀ names ∈ (Schema.choiceKey :: n.fieldNames) :: n.innerObjects, names.Nodup) ↔
    Schema.choiceKey ∉ n.fieldNames ∧ n.WellNamed := by
  rw [List.forall_mem_cons, List.nodup_cons, and_assoc, wellNamed_iff]

lemma wellNamed_option {present : Option Bool} : (option s inner present).WellNamed ↔
    Schema.choiceKey ∉ inner.fieldNames ∧ inner.WellNamed := by
  rw [wellNamed_single rfl, ← nodup_choice]
  rfl

lemma wellNamed_or {side : Option Side} : (or s l r side).WellNamed ↔
    (Schema.choiceKey ∉ l.fieldNames ∧ l.WellNamed) ∧
      Schema.choiceKey ∉ r.fieldNames ∧ r.WellNamed := by
  rw [wellNamed_single rfl, ← nodup_choice, ← nodup_choice, ← List.forall_mem_append]
  rfl

lemma wellNamed_collection {kind : Collection} {items : Option (List Node)} :
    (collection s kind elem items).WellNamed ↔ elem.WellNamed := wellNamed_single rfl

lemma wellNamed_map {entries : Option (List (Node × Node))} :
    (map s key value entries).WellNamed ↔ key.WellNamed ∧ value.WellNamed := by
  unfold WellNamed
  rw [← List.forall_mem_append]
  exact wellNamed_single rfl

/-! ### The form of a node -/

lemma find?_insert_eq_ite {key : String} :
    Dictionary.find? name (Dictionary.insert key schema props) =
      if name ∈ [key] then Dictionary.find? name (Dictionary.insert key schema [])
      else Dictionary.find? name props := by
  rw [Dictionary.find?_insert, Dictionary.find?_insert]
  simp only [List.mem_singleton]
  by_cases h : key = name
  · rw [if_pos h, if_pos h, if_pos h.symm]
  · rw [if_neg h, if_neg (Ne.symm h)]

/-- A form has fields under the names of the node, whatever was there before, and leaves all others
alone. -/
lemma find?_addFields (n : Node) (name : String) (props : Dictionary String Schema) :
    Dictionary.find? name (n.addFields props) =
      if name ∈ n.fieldNames then Dictionary.find? name (n.addFields [])
      else Dictionary.find? name props := by
  induction n using typeInduction generalizing props with
  | scalar s type typeArgs value =>
    cases type with
    | unit => rfl
    | _ => exact find?_insert_eq_ite
  | ticket s inner ih => exact ih props
  | pair s l r ihl ihr =>
    show Dictionary.find? name (r.addFields (l.addFields props)) =
      if name ∈ (pair s l r).fieldNames then Dictionary.find? name (r.addFields (l.addFields []))
      else Dictionary.find? name props
    rw [ihr (l.addFields props), ihr (l.addFields []), ihl props, fieldNames_pair]
    by_cases hr : name ∈ r.fieldNames
    · rw [if_pos hr, if_pos hr, if_pos (List.mem_append_right _ hr)]
    · by_cases hl : name ∈ l.fieldNames
      · rw [if_neg hr, if_pos hl, if_neg hr, if_pos (List.mem_append_left _ hl)]
      · rw [if_neg hr, if_neg hl, if_neg fun h => (List.mem_append.1 h).elim hl hr]
  | _ => exact find?_insert_eq_ite

end Node

end Lineage
