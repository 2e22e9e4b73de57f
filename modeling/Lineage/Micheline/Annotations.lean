/-!
# Annotations

An annotation is a name behind a mark: `%` for a field, `:` for a type, `@` for a variable. Of each
kind the first one counts; empty names and other marks are ignored.
-/

namespace Lineage

/-- The names an expression is annotated with. -/
structure Annotations where
  field : Option String
  typeName : Option String
  var : Option String
  deriving DecidableEq, Repr, Inhabited

namespace Annotations

def empty : Annotations := ⟨none, none, none⟩

/-- Takes one annotation into account. -/
def add (a : Annotations) (annot : String) : Annotations :=
  match annot.toList with
  | mark :: c :: cs =>
    let name := String.ofList (c :: cs)
    if mark = '%' then { a with field := a.field.or (some name) }
    else if mark = ':' then { a with typeName := a.typeName.or (some name) }
    else if mark = '@' then { a with var := a.var.or (some name) }
    else a
  | _ => a

/-- The first name of each kind in a list of annotations. -/
def parse (annots : List String) : Annotations := annots.foldl add empty

def isEmpty (a : Annotations) : Bool := a.field.isNone && a.typeName.isNone && a.var.isNone

/-- An optional name behind its mark. -/
def marked (mark : Char) : Option String → List String
  | some name => [String.ofList (mark :: name.toList)]
  | none => []

/-- The annotations as a list: field, type, variable. -/
def toList (a : Annotations) : List String :=
  marked '%' a.field ++ marked ':' a.typeName ++ marked '@' a.var

end Annotations

end Lineage
