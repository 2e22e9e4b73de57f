import Lineage.Typed.Error
import Lineage.Typed.Node

/-!
# Type expressions

`Node.ofType` reads a type expression as a skeleton of unbound nodes. Nodes are numbered in
pre-order, and the path of a child is that of its parent with one more segment. A pair of more than
two components is a pair of the first and a pair of the others. `Node.toType` writes a skeleton
back.
-/

namespace Lineage.Node

/-! ### Reading -/

/-- The site of a node with a number, below a root. -/
def siteAt (id : Nat) (path : String) (depth : Nat) (annots : List String) : Site :=
  { id, path, annots := .parse annots, depth }

def childPath (path segment : String) : String := path ++ "/" ++ segment

/-- A scalar node with a single annotation, as it stands in the shape of a ticket. -/
def ticketPart (type : Scalar) (id : Nat) (path : String) (depth : Nat) (annot : String) : Node :=
  .scalar (siteAt id path depth [annot]) type [] none

/-- A ticket around its content. The nodes between them take the three numbers behind that of the
ticket, and the amount takes the number `last`. -/
def ticketAround (content : Node) (id last : Nat) (path : String) (depth : Nat)
    (annots : List String) : Node :=
  let shape := childPath path "0"
  let rest := childPath shape "1"
  .ticket (siteAt id path depth annots) <|
    .pair (siteAt (id + 1) shape (depth + 1) [])
      (ticketPart .address (id + 2) (childPath shape "0") (depth + 2) "%ticketer") <|
      .pair (siteAt (id + 3) rest (depth + 2) [])
        content
        (ticketPart .nat last (childPath rest "1") (depth + 3) "%amount")

mutual
/-- Reads a type expression at a path. The nodes are numbered from `next` on, and the number behind
the last one is returned with the node. -/
def ofTypeFrom (next : Nat) (path : String) (depth : Nat) :
    Micheline → Except NodeError (Node × Nat)
  | .prim name args annots =>
    let site := siteAt next path depth annots
    let arity (expected : Nat) : Except NodeError (Node × Nat) :=
      .error (.arity path expected args.length)
    match Scalar.ofName? name with
    | some type => .ok (.scalar site type args none, next + 1)
    | none =>
      if name = "pair" then ofComb next path depth annots args
      else if name = "or" then
        match args with
        | [l, r] => do
          let (left, i) ← ofTypeFrom (next + 1) (childPath path "0") (depth + 1) l
          let (right, i) ← ofTypeFrom i (childPath path "1") (depth + 1) r
          return (.or site left right none, i)
        | _ => arity 2
      else if name = "option" then
        match args with
        | [t] => do
          let (inner, i) ← ofTypeFrom (next + 1) (childPath path "o") (depth + 1) t
          return (.option site inner none, i)
        | _ => arity 1
      else if name = "list" then
        match args with
        | [t] => do
          let (elem, i) ← ofTypeFrom (next + 1) (childPath path "l") (depth + 1) t
          return (.collection site .list elem none, i)
        | _ => arity 1
      else if name = "set" then
        match args with
        | [t] => do
          let (elem, i) ← ofTypeFrom (next + 1) (childPath path "s") (depth + 1) t
          return (.collection site .set elem none, i)
        | _ => arity 1
      else if name = "map" then
        match args with
        | [k, v] => do
          let (key, i) ← ofTypeFrom (next + 1) (childPath path "k") (depth + 1) k
          let (value, i) ← ofTypeFrom i (childPath path "v") (depth + 1) v
          return (.map site key value none, i)
        | _ => arity 2
      else if name = "big_map" then
        match args with
        | [k, v] => do
          let (key, i) ← ofTypeFrom (next + 1) (childPath path "k") (depth + 1) k
          let (value, i) ← ofTypeFrom i (childPath path "v") (depth + 1) v
          return (.bigMap site key value none none, i)
        | _ => arity 2
      else if name = "lambda" then
        match args with
        | [p, r] => do
          let (parameter, i) ← ofTypeFrom (next + 1) (childPath path "0") (depth + 1) p
          let (result, i) ← ofTypeFrom i (childPath path "1") (depth + 1) r
          return (.lambda site parameter result none, i)
        | _ => arity 2
      else if name = "contract" then
        match args with
        | [p] => do
          let (parameter, i) ← ofTypeFrom (next + 1) (childPath path "0") (depth + 1) p
          return (.contract site parameter none, i)
        | _ => arity 1
      else if name = "ticket" then
        match args with
        | [c] => do
          let at_ := childPath (childPath (childPath path "0") "1") "0"
          let (content, i) ← ofTypeFrom (next + 4) at_ (depth + 3) c
          return (ticketAround content next i path depth annots, i + 1)
        | _ => arity 1
      else .error (.unknownConstructor name)
  | m => .error (.unknownConstructor m.kindName)

/-- Reads the components of a pair as nested pairs of two. -/
def ofComb (next : Nat) (path : String) (depth : Nat) (annots : List String) :
    List Micheline → Except NodeError (Node × Nat)
  | [l, r] => do
    let (left, i) ← ofTypeFrom (next + 1) (childPath path "0") (depth + 1) l
    let (right, i) ← ofTypeFrom i (childPath path "1") (depth + 1) r
    return (.pair (siteAt next path depth annots) left right, i)
  | l :: m :: r :: rest => do
    let (left, i) ← ofTypeFrom (next + 1) (childPath path "0") (depth + 1) l
    let (right, i) ← ofComb i (childPath path "1") (depth + 1) [] (m :: r :: rest)
    return (.pair (siteAt next path depth annots) left right, i)
  | args => .error (.arity path 2 args.length)
end

/-- Reads a type expression rooted at a path. -/
def ofTypeAt (path : String) (type : Micheline) : Except NodeError Node :=
  (ofTypeFrom 0 path 0 type).map Prod.fst

def ofType (type : Micheline) : Except NodeError Node := ofTypeAt "0" type

/-! ### Writing -/

/-- The type expression of a skeleton. -/
def toType : Node → Micheline
  | scalar s type typeArgs _ => .prim type.name typeArgs s.annots.toList
  | contract s parameter _ => .prim "contract" [parameter.toType] s.annots.toList
  | ticket s (pair _ _ (pair _ content _)) => .prim "ticket" [content.toType] s.annots.toList
  | ticket s _ => .prim "ticket" [] s.annots.toList
  | option s inner _ => .prim "option" [inner.toType] s.annots.toList
  | pair s l r => .prim "pair" [l.toType, r.toType] s.annots.toList
  | or s l r _ => .prim "or" [l.toType, r.toType] s.annots.toList
  | collection s kind elem _ => .prim kind.name [elem.toType] s.annots.toList
  | map s key value _ => .prim "map" [key.toType, value.toType] s.annots.toList
  | bigMap s key value _ _ => .prim "big_map" [key.toType, value.toType] s.annots.toList
  | lambda s parameter result _ =>
    .prim "lambda" [parameter.toType, result.toType] s.annots.toList

end Lineage.Node
