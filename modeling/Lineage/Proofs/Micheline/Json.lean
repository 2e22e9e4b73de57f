import Mathlib.Logic.Function.Defs
import Mathlib.Tactic.Common
import Lineage.Micheline.Json

/-!
# Expressions and their JSON form

Reading is by trial, so it has to be shown that no trial before the right one fits what was written.
Of arrays there are two kinds in a written form, the items of a sequence and the parts of an
application, and which one it is depends on the place: an array is read for all it may stand for at
once (`Reading`), and the place takes what it needs. An object is told by its key: each literal has
one of its own, and an application has none of these (`expression?_applicationFields`).

Hence what is written is read back (`readsBack`), and different expressions are written differently.
-/

namespace Lineage.Micheline

namespace Reading

/-! ### Fields -/

/-- The field of an application that holds a list, which is left out when the list is empty. -/
def listField {α : Type} (key : String) (list : List α) (value : Json) : List (String × Json) :=
  if list.isEmpty then [] else [(key, value)]

lemma ofFields_append (xs ys : List (String × Json)) :
    ofFields (xs ++ ys) = ofFields xs ++ ofFields ys := by
  induction xs with
  | nil => rfl
  | cons field xs ih => simp [ofFields, ih]

section ListField

variable {α β : Type} {key key' : String} {list : List α} {value : Json}
  {rest : List (String × Json)}

lemma valuesOf_listField_of_ne (h : key' ≠ key) :
    Json.valuesOf key (ofFields (listField key' list value ++ rest)) =
      Json.valuesOf key (ofFields rest) := by
  unfold listField
  split
  · rfl
  · simp [ofFields, Json.valuesOf, h]

/-- A list is read from its field, also when it is empty and there is no field. -/
lemma listOf?_listField {get : Reading → Option (List α)} (hget : get (ofJson value) = some list)
    (hrest : Json.valuesOf key (ofFields rest) = []) :
    listOf? get key (ofFields (listField key list value ++ rest)) = some list := by
  rw [listOf?, ofFields_append]
  unfold listField
  cases list with
  | nil => simp [ofFields, hrest]
  | cons a as =>
    unfold Json.valuesOf at hrest ⊢
    simp [ofFields, hrest, hget]

end ListField

/-! ### Applications -/

def applicationFields (name : String) (args : List Micheline) (annots : List String)
    (argsForm annotsForm : Json) : List (String × Json) :=
  listField "annots" annots annotsForm ++ (listField "args" args argsForm ++ [("prim", .text name)])

variable {name : String} {args : List Micheline} {annots : List String} {argsForm annotsForm : Json}

lemma textOf?_applicationFields {key : String} (hannots : "annots" ≠ key) (hargs : "args" ≠ key)
    (hprim : "prim" ≠ key) :
    textOf? key (ofFields (applicationFields name args annots argsForm annotsForm)) = none := by
  rw [textOf?, applicationFields, valuesOf_listField_of_ne hannots, valuesOf_listField_of_ne hargs]
  simp [ofFields, Json.valuesOf, hprim]

lemma applicationOf?_applicationFields (hargs : (ofJson argsForm).nodes = some args)
    (hannots : (ofJson annotsForm).texts = some annots) :
    applicationOf? (ofFields (applicationFields name args annots argsForm annotsForm)) =
      some (prim name args annots) := by
  have hname : textOf? "prim"
      (ofFields (applicationFields name args annots argsForm annotsForm)) = some name := by
    rw [textOf?, applicationFields, valuesOf_listField_of_ne (by decide),
      valuesOf_listField_of_ne (by decide)]
    rfl
  have hargs' : listOf? nodes "args"
      (ofFields (applicationFields name args annots argsForm annotsForm)) = some args := by
    rw [listOf?, applicationFields, valuesOf_listField_of_ne (by decide)]
    exact listOf?_listField hargs rfl
  have hannots' : listOf? texts "annots"
      (ofFields (applicationFields name args annots argsForm annotsForm)) = some annots := by
    refine listOf?_listField hannots ?_
    rw [valuesOf_listField_of_ne (by decide)]
    rfl
  simp [applicationOf?, hname, hargs', hannots']

/-- The fields of an application are read as the application, and as no literal. -/
lemma expression?_applicationFields (hargs : (ofJson argsForm).nodes = some args)
    (hannots : (ofJson annotsForm).texts = some annots) :
    expression? (ofFields (applicationFields name args annots argsForm annotsForm)) =
      some (prim name args annots) := by
  rw [expression?, textOf?_applicationFields (by decide) (by decide) (by decide),
    textOf?_applicationFields (by decide) (by decide) (by decide),
    textOf?_applicationFields (by decide) (by decide) (by decide)]
  simpa using applicationOf?_applicationFields hargs hannots

lemma texts_ofJson_array (annots : List String) :
    (ofJson (.array (annots.map .text))).texts = some annots := by
  show (ofItems (annots.map .text)).mapM (·.text) = some annots
  induction annots with
  | nil => rfl
  | cons annot annots ih => simp [ofItems, ofJson, ih]

end Reading

/-! ### What is written is read back -/

open Reading

lemma toJson_prim {name : String} {args : List Micheline} {annots : List String} :
    (prim name args annots).toJson =
      .object (applicationFields name args annots (.array (listToJson args))
        (.array (annots.map .text))) := by
  rw [toJson, List.append_assoc]
  rfl

mutual
lemma node_ofJson_toJson : ∀ m : Micheline, (ofJson m.toJson).node = some m
  | seq items => by
    have hitems := nodes_ofItems_listToJson items
    rw [toJson, ofJson]
    simp [hitems]
  | int literal => rfl
  | string s => rfl
  | bytes hex => rfl
  | prim name args annots => by
    rw [toJson_prim, ofJson]
    exact expression?_applicationFields (nodes_ofItems_listToJson args) (texts_ofJson_array annots)

lemma nodes_ofItems_listToJson : ∀ ms : List Micheline,
    (ofItems (listToJson ms)).mapM (·.node) = some ms
  | [] => rfl
  | m :: ms => by
    have hhead := node_ofJson_toJson m
    have htail := nodes_ofItems_listToJson ms
    simp [listToJson, ofItems, hhead, htail]
end

/-- **Writing loses nothing**: every expression is read back from its JSON form, whatever its texts
are and however it is nested, and so no two expressions have the same form. -/
theorem readsBack : (∀ m : Micheline, ofJson? m.toJson = some m) ∧ Function.Injective toJson := by
  refine ⟨node_ofJson_toJson, fun a b h => ?_⟩
  have ha := node_ofJson_toJson a
  rw [h, node_ofJson_toJson b] at ha
  exact (Option.some.inj ha).symm

end Lineage.Micheline
