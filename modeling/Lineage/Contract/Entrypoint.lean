import Lineage.Contract.Tree
import Lineage.Typed.Signature

/-!
# Entry points

The alternatives of a parameter are the entry points of a contract. One is named by its annotations;
without any, a lone entry point is called `default` and another one by its position.
-/

namespace Lineage

/-- A way into a contract: a name, the sides to take in the parameter, and the type behind them. -/
structure Entrypoint where
  name : String
  sides : List Side
  node : Node

namespace Entrypoint

/-- The name of a lone entry point without annotations. -/
def defaultName : String := "default"

/-- The name of an entry point without annotations at a position. -/
def positionName (i : Nat) : String := s!"entrypoint_{i}"

/-- The alternatives a root offers, with the names that annotations give them. A root that is no
`or` is named by its field annotation only. -/
def ofRoot (root : Node) : List (Option String × List Side × Node) :=
  if root.isOr then root.orAlternatives.map fun (sides, node) => (node.entryName?, sides, node)
  else [(root.annots.field, [], root)]

/-- Names entry points by their positions, counted from `i`, where annotations do not. -/
def nameFrom (i : Nat) : List (Option String × List Side × Node) → List Entrypoint
  | [] => []
  | (name, sides, node) :: rest =>
    ⟨name.getD (positionName i), sides, node⟩ :: nameFrom (i + 1) rest

end Entrypoint

namespace Tree

/-- The entry points, root by root and from left to right. -/
def entrypoints (t : Tree) : List Entrypoint :=
  match t.roots.flatMap Entrypoint.ofRoot with
  | [(none, sides, node)] => [⟨Entrypoint.defaultName, sides, node⟩]
  | all => Entrypoint.nameFrom 0 all

def findEntrypoint? (t : Tree) (name : String) : Option Entrypoint :=
  t.entrypoints.find? (·.name == name)

/-- The node that a name stands for: an entry point, or else any node that answers to it. -/
def subtree? (t : Tree) (name : String) : Option Node :=
  ((t.findEntrypoint? name).map Entrypoint.node).or (t.findByName? name)

/-! ### Parameters -/

/-- Binds the arguments of a call to the entry point of a name, which then is the whole tree.
Without a name, or with an unknown one, they are bound to the tree itself. -/
def ofParameters (t : Tree) (name : String) (args : List Micheline) : Except NodeError Tree :=
  match if name.isEmpty then none else t.subtree? name with
  | some node =>
    match args with
    | value :: _ => return ⟨[← node.settle value], true⟩
    | [] => .error (.arity name 1 0)
  | none => t.settle args

/-- The encoding of the arguments of a call to the entry point of a name; of the whole tree without
a name. -/
def toParameters (t : Tree) (name : String) : Except NodeError (Option Micheline) :=
  if name.isEmpty then return some (← t.toWire false)
  else
    match t.subtree? name with
    | some node => return some (← node.toWire false)
    | none => return none

/-- The tree of the nodes that names stand for; unknown names are passed over. -/
def select (t : Tree) (names : List String) : Tree := .ofRoots (names.filterMap t.subtree?)

/-! ### Signatures -/

/-- The name that asks for the signature of the whole tree. -/
def wholeName : String := "*"

/-- The signature of the whole tree, or of what a name stands for. -/
def signature (t : Tree) (name : String) : List Definition :=
  if name = wholeName then t.roots.flatMap fun root => root.signature root.displayName
  else
    match t.findEntrypoint? name with
    | some e => e.node.signature e.name
    | none => ((t.findByName? name).map (·.signature name)).getD []

def entrypointSignatures (t : Tree) : List (String × List Definition) :=
  t.entrypoints.map fun e => (e.name, e.node.signature e.name)

end Tree

end Lineage
