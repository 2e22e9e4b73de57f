import Mathlib.Tactic.Common
import Lineage.Micheline.Annotations

/-!
# Annotations that are written and read

Reading keeps the first name of each kind and no empty ones. Such annotations are written as a list
from which the same annotations are read (`parse_toList_parse`).
-/

namespace Lineage.Annotations

/-- There are no empty names. -/
structure Named (a : Annotations) : Prop where
  field : a.field ≠ some ""
  typeName : a.typeName ≠ some ""
  var : a.var ≠ some ""

variable {a : Annotations}

lemma Named.add (h : a.Named) (annot : String) : (a.add annot).Named := by
  have hor : ∀ (name : Option String) (c : Char) (cs : List Char), name ≠ some "" →
      name.or (some (String.ofList (c :: cs))) ≠ some "" := by
    intro name c cs hname
    cases name with
    | none => simp
    | some _ => exact hname
  unfold Annotations.add
  split
  · next mark c cs _ =>
    split
    · exact { h with field := hor _ c cs h.field }
    · split
      · exact { h with typeName := hor _ c cs h.typeName }
      · split
        · exact { h with var := hor _ c cs h.var }
        · exact h
  · exact h

lemma named_parse (annots : List String) : (parse annots).Named := by
  have hfold : ∀ a : Annotations, a.Named → (annots.foldl Annotations.add a).Named := by
    induction annots with
    | nil => exact fun _ h => h
    | cons annot annots ih => exact fun a h => ih _ (h.add annot)
  exact hfold empty ⟨by simp [empty], by simp [empty], by simp [empty]⟩

/-! ### Writing and reading -/

lemma add_marked {mark : Char} {name : String} (hname : name ≠ "") :
    a.add (String.ofList (mark :: name.toList)) =
      if mark = '%' then { a with field := a.field.or (some name) }
      else if mark = ':' then { a with typeName := a.typeName.or (some name) }
      else if mark = '@' then { a with var := a.var.or (some name) }
      else a := by
  obtain ⟨c, cs, hcs⟩ : ∃ c cs, name.toList = c :: cs :=
    List.exists_cons_of_ne_nil (by simpa using hname)
  have hofList : String.ofList (c :: cs) = name := by rw [← hcs, String.ofList_toList]
  unfold Annotations.add
  rw [String.toList_ofList, hcs]
  dsimp only
  rw [hofList]

lemma parse_toList (h : a.Named) : parse a.toList = a := by
  obtain ⟨field, typeName, var⟩ := a
  obtain ⟨hfield, htypeName, hvar⟩ := h
  unfold parse toList
  rw [List.foldl_append, List.foldl_append]
  have hfield' : (marked '%' field).foldl Annotations.add empty = ⟨field, none, none⟩ := by
    cases field with
    | none => rfl
    | some name => exact add_marked fun h => hfield (congrArg some h)
  have htypeName' : (marked ':' typeName).foldl Annotations.add ⟨field, none, none⟩ =
      ⟨field, typeName, none⟩ := by
    cases typeName with
    | none => rfl
    | some name => exact add_marked fun h => htypeName (congrArg some h)
  have hvar' : (marked '@' var).foldl Annotations.add ⟨field, typeName, none⟩ =
      ⟨field, typeName, var⟩ := by
    cases var with
    | none => rfl
    | some name => exact add_marked fun h => hvar (congrArg some h)
  rw [hfield', htypeName', hvar']

/-- What was read is written and read again without a change. -/
theorem parse_toList_parse (annots : List String) : parse (parse annots).toList = parse annots :=
  parse_toList (named_parse annots)

end Lineage.Annotations
