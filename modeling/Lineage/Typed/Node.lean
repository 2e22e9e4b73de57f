import Lineage.Micheline.Annotations
import Lineage.Micheline.Basic
import Lineage.Typed.Scalar

/-!
# Typed nodes

A node is a type and, once a value has been bound to it, that value. The nodes of a type form its
skeleton; a collection keeps the node of its element type as a template and holds one bound copy of
it for each element. What has not been bound is `none`.

Names come from annotations: the field name, else the type name, else a fallback made of the
primitive and the number of the node.
-/

namespace Lineage

/-- Where a node stands in its tree, and what it is called there. -/
structure Site where
  /-- the number of the node in pre-order -/
  id : Nat
  /-- the segments from the root down to the node, with slashes between them -/
  path : String
  annots : Annotations
  depth : Nat
  deriving DecidableEq, Repr, Inhabited

/-- An arm of an `or`. -/
inductive Side where
  | left
  | right
  deriving DecidableEq, Repr

def Side.constructor : Side → Constructor
  | left => .left
  | right => .right

/-- The two kinds of collections of elements. -/
inductive Collection where
  | list
  | set
  deriving DecidableEq, Repr

def Collection.name : Collection → String
  | list => "list"
  | set => "set"

/-- A type with the value bound to it. The content of a ticket stands in a pair of the ticketer's
address and a pair of the content and the amount, which is the shape of its value. -/
inductive Node where
  | scalar (site : Site) (type : Scalar) (typeArgs : List Micheline) (value : Option Micheline)
  | contract (site : Site) (parameter : Node) (value : Option Micheline)
  | ticket (site : Site) (inner : Node)
  | option (site : Site) (inner : Node) (present : Option Bool)
  | pair (site : Site) (left right : Node)
  | or (site : Site) (left right : Node) (side : Option Side)
  | collection (site : Site) (kind : Collection) (elem : Node) (items : Option (List Node))
  | map (site : Site) (key value : Node) (entries : Option (List (Node × Node)))
  | bigMap (site : Site) (key value : Node) (pointer : Option Int)
      (entries : Option (List (Node × Node)))
  | lambda (site : Site) (parameter result : Node) (code : Option Micheline)

namespace Node

/-! ### Names -/

def site : Node → Site
  | scalar s .. | contract s .. | ticket s .. | option s .. | pair s .. | or s .. | collection s ..
  | map s .. | bigMap s .. | lambda s .. => s

def path (n : Node) : String := n.site.path

def annots (n : Node) : Annotations := n.site.annots

def prim : Node → String
  | scalar _ type .. => type.name
  | contract .. => "contract"
  | ticket .. => "ticket"
  | option .. => "option"
  | pair .. => "pair"
  | or .. => "or"
  | collection _ kind .. => kind.name
  | map .. => "map"
  | bigMap .. => "big_map"
  | lambda .. => "lambda"

def isScalar : Node → Bool
  | scalar .. => true
  | _ => false

def isOr : Node → Bool
  | or .. => true
  | _ => false

def isPair : Node → Bool
  | pair .. => true
  | _ => false

def isUnit : Node → Bool
  | scalar _ .unit .. => true
  | _ => false

/-- The name given by annotations: that of the field, else that of the type. -/
def name? (n : Node) : Option String := n.annots.field.or n.annots.typeName

/-- The name of a node without annotations. -/
def fallbackName (n : Node) : String := s!"@{n.prim}_{n.site.id}"

/-- The name given by annotations, or the fallback. -/
def displayName (n : Node) : String := n.name?.getD n.fallbackName

/-- The mark some compilers put before the names of entry points. -/
def entryMark : List Char := "_Liq_entry_".toList

/-- A field name without the mark of entry points. -/
def unmarked (field : String) : String :=
  let cs := field.toList
  if entryMark.isPrefixOf cs then String.ofList (cs.drop entryMark.length) else field

/-- The name of an alternative: its field name without the mark, unless that leaves nothing, else
its type name. -/
def entryName? (n : Node) : Option String :=
  match n.annots.field with
  | some field => if (unmarked field).isEmpty then n.annots.typeName else some (unmarked field)
  | none => n.annots.typeName

/-! ### The skeleton -/

/-- The nodes of the types this type is made of. -/
def typeChildren : Node → List Node
  | scalar .. => []
  | contract _ parameter _ => [parameter]
  | ticket _ inner => [inner]
  | option _ inner _ => [inner]
  | pair _ l r => [l, r]
  | or _ l r _ => [l, r]
  | collection _ _ elem _ => [elem]
  | map _ key value _ => [key, value]
  | bigMap _ key value _ _ => [key, value]
  | lambda _ parameter result _ => [parameter, result]

/-- The content of a ticket, found in the pair that holds it. -/
def ticketContent? : Node → Option Node
  | pair _ _ (pair _ content _) => some content
  | _ => none

/-- The nodes of a skeleton in pre-order, the node itself first. -/
def skeleton : Node → List Node
  | n@(scalar ..) => [n]
  | n@(contract _ parameter _) => n :: parameter.skeleton
  | n@(ticket _ inner) => n :: inner.skeleton
  | n@(option _ inner _) => n :: inner.skeleton
  | n@(pair _ l r) => n :: l.skeleton ++ r.skeleton
  | n@(or _ l r _) => n :: l.skeleton ++ r.skeleton
  | n@(collection _ _ elem _) => n :: elem.skeleton
  | n@(map _ key value _) => n :: key.skeleton ++ value.skeleton
  | n@(bigMap _ key value _ _) => n :: key.skeleton ++ value.skeleton
  | n@(lambda _ parameter result _) => n :: parameter.skeleton ++ result.skeleton

/-- Does the node answer to a name, be it its field, its type or its display name? -/
def answersTo (n : Node) (name : String) : Bool :=
  n.annots.field == some name || n.annots.typeName == some name || n.displayName == name

/-- The first node of the skeleton, in pre-order, that answers to a name. -/
def findByName? (n : Node) (name : String) : Option Node := n.skeleton.find? (·.answersTo name)

/-- Has a value been bound to the node? Collections and alternatives are not looked into. -/
def isSettled : Node → Bool
  | scalar _ _ _ value => value.isSome
  | contract _ _ value => value.isSome
  | ticket _ inner => inner.isSettled
  | option _ _ present => present.isSome
  | pair _ l r => l.isSettled && r.isSettled
  | or _ _ _ side => side.isSome
  | collection _ _ _ items => items.isSome
  | map _ _ _ entries => entries.isSome
  | bigMap _ _ _ pointer entries => pointer.isSome || entries.isSome
  | lambda _ _ _ code => code.isSome

/-! ### Flattening

A pair within a pair, and an `or` within an `or`, are part of the outer one unless they carry an
annotation. -/

/-- The fields a node contributes to a pair it stands in. -/
def asFields : Node → List Node
  | n@(pair s l r) => if s.annots.isEmpty then l.asFields ++ r.asFields else [n]
  | n => [n]

/-- The fields of a pair; any other node is its own only field. -/
def pairFields : Node → List Node
  | pair _ l r => l.asFields ++ r.asFields
  | n => [n]

/-- The alternatives a node contributes to an `or` it stands in, each with the sides to take from
the root, where `sides` lead to the node. -/
def asAlternatives (sides : List Side) : Node → List (List Side × Node)
  | n@(or s l r _) =>
    if s.annots.isEmpty then
      l.asAlternatives (sides ++ [.left]) ++ r.asAlternatives (sides ++ [.right])
    else [(sides, n)]
  | n => [(sides, n)]

/-- The alternatives of an `or`, each with the sides to take; any other node is its own only
alternative. -/
def orAlternatives : Node → List (List Side × Node)
  | or _ l r _ => l.asAlternatives [.left] ++ r.asAlternatives [.right]
  | n => [([], n)]

/-- The alternative chosen where a node stands as an arm of an `or`: further down when it is an `or`
without annotations. -/
def asChosen? : Node → Option Node
  | n@(or s l r side) =>
    if s.annots.isEmpty then
      match side with
      | some .left => l.asChosen?
      | some .right => r.asChosen?
      | none => none
    else some n
  | n => some n

/-- The alternative of an `or` that its value has chosen. -/
def chosenAlternative? : Node → Option Node
  | or _ l _ (some .left) => l.asChosen?
  | or _ _ r (some .right) => r.asChosen?
  | _ => none

end Node

end Lineage
