import Lineage.Contract.Interface

/-!
# Standard interfaces

The interfaces every registry knows: tokens of one kind, tokens of many kinds, and a view that takes
a number.
-/

namespace Lineage.Interface

/-- A type with arguments and at most one annotation. -/
def typed (prim : String) (annots : List String) (args : List Micheline) : Micheline :=
  .prim prim args annots

def named (type : Scalar) (annots : List String) : Micheline := .prim type.name [] annots

/-- The entry points of a token contract with one kind of tokens. -/
def singleAssetTypes : List (String × Micheline) := [
  ("transfer",
    typed "pair" [] [
      named .address [":from"],
      typed "pair" [] [named .address [":to"], named .nat [":value"]]]),
  ("approve", typed "pair" [] [named .address [":spender"], named .nat [":value"]]),
  ("getAllowance",
    typed "pair" [] [
      typed "pair" [] [named .address [":owner"], named .address [":spender"]],
      typed "contract" [] [named .nat []]]),
  ("getBalance",
    typed "pair" [] [named .address [":owner"], typed "contract" [] [named .nat []]]),
  ("getTotalSupply", typed "pair" [] [named .unit [], typed "contract" [] [named .nat []]])]

def operatorChange (annot : String) : Micheline :=
  typed "pair" [annot] [
    named .address ["%owner"],
    typed "pair" [] [named .address ["%operator"], named .nat ["%token_id"]]]

def balanceRequest (annots : List String) : Micheline :=
  typed "pair" annots [named .address ["%owner"], named .nat ["%token_id"]]

/-- The entry points of a token contract with many kinds of tokens. -/
def multiAssetTypes : List (String × Micheline) := [
  ("transfer",
    typed "list" [] [
      typed "pair" [] [
        named .address ["%from_"],
        typed "list" ["%txs"] [
          typed "pair" [] [
            named .address ["%to_"],
            typed "pair" [] [named .nat ["%token_id"], named .nat ["%amount"]]]]]]),
  ("balance_of",
    typed "pair" [] [
      typed "list" ["%requests"] [balanceRequest []],
      typed "contract" ["%callback"] [
        typed "list" [] [
          typed "pair" [] [balanceRequest ["%request"], named .nat ["%balance"]]]]]),
  ("update_operators",
    typed "list" [] [
      typed "or" [] [operatorChange "%add_operator", operatorChange "%remove_operator"]])]

/-- An interface that asks for types, of which those that cannot be read are left out. -/
def ofTypes (types : List (String × Micheline)) (isRoot : Bool) : Interface where
  entries := .ofList (types.filterMap fun (name, type) =>
    (Node.ofType type).toOption.map fun node => (name, node))
  isRoot := isRoot

end Lineage.Interface

namespace Lineage.Registry

def standard : Registry := [
  ("fa1-2", .ofTypes Interface.singleAssetTypes false),
  ("fa2", .ofTypes Interface.multiAssetTypes false),
  ("view_nat", .ofTypes [(Entrypoint.defaultName, Interface.named .nat [])] true)]

end Lineage.Registry
