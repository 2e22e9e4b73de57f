import Lineage.Contract.Standard

/-!
# Scripts

The types of a contract: what it takes and what it keeps.
-/

namespace Lineage

structure Script where
  parameter : Tree
  storage : Tree

namespace Script

def ofTypes (parameter storage : Micheline) : Except NodeError Script :=
  return ⟨← Tree.ofType parameter, ← Tree.ofType storage⟩

/-- The types that the lambdas in a tree take. -/
def lambdaParameters (t : Tree) : List Node :=
  (t.roots.flatMap Node.skeleton).filterMap fun
    | .lambda _ parameter _ _ => some parameter
    | _ => none

/-- Can the contract be given new code: is a lambda it takes of a type of those it keeps? -/
def isUpgradable (s : Script) : Bool :=
  (lambdaParameters s.parameter).any fun taken =>
    (lambdaParameters s.storage).any fun kept => taken.equalType kept

/-- The names of the registered interfaces that the contract implements. -/
def interfaces (registry : Registry) (s : Script) : List String :=
  registry.implementedBy s.parameter

end Script

end Lineage
