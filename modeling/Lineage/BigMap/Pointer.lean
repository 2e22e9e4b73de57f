import Lineage.Contract.Tree
import Lineage.Text.Dictionary

/-!
# Pointers in storage

A storage value shows which pointers its big maps have, and its type where they stand.
`Tree.pointers` maps the pointers of a value to paths, and `Tree.at?` finds the type at a path.
-/

namespace Lineage

namespace Node

/-! ### Pointers -/

mutual
/-- The pointers of the big maps in a value with the paths of the big maps, in the order in which
they are encountered. Neither keys nor the entries of big maps are looked into. -/
def pointers : Node → List (Int × String)
  | bigMap s _ _ (some p) _ => [(p, s.path)]
  | pair _ l r => l.pointers ++ r.pointers
  | or _ l _ (some .left) => l.pointers
  | or _ _ r (some .right) => r.pointers
  | option _ inner (some true) => inner.pointers
  | ticket _ inner => inner.pointers
  | collection _ _ _ (some items) => itemPointers items
  | map _ _ _ (some entries) => valuePointers entries
  | _ => []

def itemPointers : List Node → List (Int × String)
  | [] => []
  | item :: items => item.pointers ++ itemPointers items

def valuePointers : List (Node × Node) → List (Int × String)
  | [] => []
  | (_, value) :: entries => value.pointers ++ valuePointers entries
end

/-! ### Paths -/

/-- Does the path of the node lead towards another path? -/
def leadsTo (path : String) (n : Node) : Bool := n.path.toList.isPrefixOf path.toList

/-- The node of the skeleton with a path. Only nodes that lead towards the path are looked into. -/
def at? (path : String) (n : Node) : Option Node :=
  if n.path = path then some n
  else if n.leadsTo path then
    match n with
    | scalar .. => none
    | contract _ inner _ | ticket _ inner | option _ inner _ | collection _ _ inner _ =>
      inner.at? path
    | pair _ a b | or _ a b _ | map _ a b _ | bigMap _ a b _ _ | lambda _ a b _ =>
      (b.at? path).or (a.at? path)
  else none

end Node

namespace Tree

/-- The pointers of the big maps in a storage value, with the paths of the big maps in the storage
type. Of a pointer that occurs twice the last path counts. -/
def pointers (storageType : Tree) (storage : Micheline) :
    Except NodeError (Dictionary Int String) :=
  return .ofList ((← storageType.settle [storage]).roots.flatMap Node.pointers)

/-- The node of the skeletons with a path. -/
def at? (t : Tree) (path : String) : Option Node := t.roots.reverse.findSome? (Node.at? path)

/-- The types of the keys and of the values of the big map at a path. -/
def bigMapTypes? (t : Tree) (path : String) : Option (Node × Node) :=
  match t.at? path with
  | some (.bigMap _ key value _ _) => some (key, value)
  | _ => none

end Tree

end Lineage
