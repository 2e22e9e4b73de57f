import Lineage.Text.Dictionary
import Lineage.Typed.Shape

/-!
# Catalogs of types

A catalog describes every node of a skeleton under its path. A node without annotations takes the
name of the option it stands in, if it stands in one.
-/

namespace Lineage

structure Description where
  prim : String
  fieldName : Option String
  typeName : Option String
  /-- the name of the option around the node -/
  inherited : Option String
  shape : Option Shape
  /-- the paths of the parts: fields, alternatives or type arguments -/
  parts : List String
  name : String
  /-- the primitive of what a lambda or a contract takes -/
  parameter : Option String
  deriving DecidableEq, Repr

/-- The descriptions of nodes by path. -/
abbrev Catalog := Dictionary String Description

namespace Node

/-- The parts a node is described by. -/
def parts (n : Node) : List Node :=
  match n with
  | pair .. => n.pairFields
  | or .. => n.orAlternatives.map Prod.snd
  | _ => n.typeChildren

/-- The primitive of what a lambda or a contract takes. -/
def parameterPrim? : Node → Option String
  | contract _ parameter _ => some parameter.prim
  | lambda _ parameter _ _ => some parameter.prim
  | _ => none

/-- The name of a node that may inherit one. -/
def resolvedName (inherited : Option String) (n : Node) : String :=
  (n.name?.or inherited).getD n.displayName

def describe (inherited : Option String) (n : Node) : Description where
  prim := n.prim
  fieldName := n.annots.field
  typeName := n.annots.typeName
  inherited := inherited
  shape := n.shape?
  parts := n.parts.map path
  name := n.resolvedName inherited
  parameter := n.parameterPrim?

/-- The descriptions of the nodes of a skeleton with their paths, the node itself last. -/
def descriptions (inherited : Option String) : Node → List (String × Description)
  | n@(scalar ..) => [(n.path, n.describe inherited)]
  | n@(contract _ parameter _) =>
    parameter.descriptions none ++ [(n.path, n.describe inherited)]
  | n@(ticket _ inner) => inner.descriptions none ++ [(n.path, n.describe inherited)]
  | n@(option _ inner _) =>
    inner.descriptions (some (n.resolvedName inherited)) ++ [(n.path, n.describe inherited)]
  | n@(pair _ l r) | n@(or _ l r _) =>
    l.descriptions none ++ r.descriptions none ++ [(n.path, n.describe inherited)]
  | n@(collection _ _ elem _) => elem.descriptions none ++ [(n.path, n.describe inherited)]
  | n@(map _ key value _) | n@(bigMap _ key value _ _) =>
    key.descriptions none ++ value.descriptions none ++ [(n.path, n.describe inherited)]
  | n@(lambda _ parameter result _) =>
    parameter.descriptions none ++ result.descriptions none ++ [(n.path, n.describe inherited)]

def catalog (n : Node) : Catalog := .ofList (n.descriptions none)

end Node

namespace Catalog

/-- Adds the entries of another catalog, which replace those with the same paths. -/
def extend (c other : Catalog) : Catalog :=
  other.foldl (fun c (path, d) => Dictionary.insert path d c) c

/-- The first path, in order of the paths, whose node has a name. -/
def findName? (c : Catalog) (name : String) : Option (String × Description) :=
  List.find? (fun entry => entry.2.name == name) c

end Catalog

end Lineage
