import Lineage.Calendar.Timestamp
import Lineage.Text.Hex
import Lineage.Typed.Error
import Lineage.Typed.Node

/-!
# Binding values

`Node.bind` reads a value in the type of a node and stores it there. A value that does not fit is
refused, but what was stored on the way to the misfit stays: in a pair whose second component is
refused, the first one is bound. So binding ends in an `Attempt`, which has the node either way.
`Node.settle` is the view of it that forgets a node whose binding failed.

A new value replaces the old one, with two exceptions that keep their other half: a big map given as
a pointer keeps its entries, and one given as entries keeps its pointer.
-/

namespace Lineage

/-- What has become of something that was to be changed, and why the change stopped short. -/
structure Attempt (α : Type) where
  result : α
  failure : Option NodeError

namespace Attempt

variable {α β : Type}

/-- A change that was made in full. -/
def done (a : α) : Attempt α := ⟨a, none⟩

/-- A change that stopped short. -/
def stopped (a : α) (e : NodeError) : Attempt α := ⟨a, some e⟩

/-- Looks at the result as a part of something larger. -/
def map (f : α → β) (t : Attempt α) : Attempt β := ⟨f t.result, t.failure⟩

/-- The result of a change that was made in full. -/
def toExcept (t : Attempt α) : Except NodeError α :=
  match t.failure with
  | none => .ok t.result
  | some e => .error e

/-- Goes on with the result, unless the change stopped short; then `halted` is all there is. -/
def andThen (t : Attempt α) (halted : α → β) (next : α → Attempt β) : Attempt β :=
  match t.failure with
  | none => next t.result
  | some e => stopped (halted t.result) e

/-- Takes over a result, or leaves the thing as it was. -/
def ofExcept (old : β) (r : Except NodeError α) (f : α → β) : Attempt β :=
  match r with
  | .ok a => done (f a)
  | .error e => stopped old e

end Attempt

/-! ### Applications of constructors -/

namespace Micheline

/-- The constructor and the arguments of a value of type `type`, which must be one of the allowed
constructors. -/
def construct (type : String) (allowed : List Constructor) :
    Micheline → Except NodeError (Constructor × List Micheline)
  | prim name args _ =>
    match Constructor.ofName? name with
    | none => .error (.unknownConstructor name)
    | some c =>
      if allowed.contains c then .ok (c, args)
      else .error (.mismatch type (String.intercalate " or " (allowed.map Constructor.name)))
  | _ => .error (.mismatch type (String.intercalate " or " (allowed.map Constructor.name)))

/-- The two halves of a pair. A sequence counts as a pair of its items, and the components behind
the first of three or more are the second half. -/
def halves (path : String) (value : Micheline) : Except NodeError (Micheline × Micheline) := do
  let components ←
    match value with
    | seq items => .ok items
    | _ => (construct "pair" [.pair] value).map Prod.snd
  match components with
  | [a, b] => return (a, b)
  | a :: b :: c :: rest => return (a, data .pair (b :: c :: rest))
  | _ => .error (.arity path 2 components.length)

def entry (path : String) (value : Micheline) : Except NodeError (Micheline × Micheline) := do
  let (_, args) ← construct "map" [.elt] value
  match args with
  | [k, v] => return (k, v)
  | _ => .error (.arity path 2 args.length)

def isHex : Micheline → Bool
  | bytes hex => (Hex.decode? hex).isSome
  | _ => false

def isString : Micheline → Bool
  | string _ => true
  | _ => false

end Micheline

/-! ### Literals -/

namespace Scalar

/-- Does the value have the form that values of the type have? -/
def admits : Scalar → Micheline → Bool
  | int, .int n => Decimal.isNumeral true n
  | nat, .int n | mutez, .int n => Decimal.isNumeral false n
  | string, .string _ => true
  | timestamp, .int n => Decimal.isNumeral true n
  | timestamp, .string s => (Timestamp.parse? s).isSome
  | bls12381Fr, .int _ => true
  | address, .string _ | key, .string _ | keyHash, .string _ | signature, .string _
  | chainId, .string _ => true
  | bytes, v | address, v | key, v | keyHash, v | signature, v | chainId, v | bls12381Fr, v
  | bls12381G1, v | bls12381G2, v => v.isHex
  | operation, _ | never, _ | saplingState, _ | saplingTransaction, _ => true
  | _, _ => false

/-- The form that values of the type have. -/
def form : Scalar → String
  | int => "int literal"
  | nat | mutez => "non-negative int literal"
  | string => "string literal"
  | bool | unit => "nullary constructor"
  | timestamp => "int or RFC 3339 string literal"
  | bls12381Fr => "int or bytes literal"
  | bytes | bls12381G1 | bls12381G2 => "hex bytes literal"
  | _ => "string or hex bytes literal"

/-- Refuses a value that is not a constructor without arguments. -/
def checkConstant (type : Scalar) (allowed : List Constructor) (value : Micheline) :
    Except NodeError Unit := do
  let (_, args) ← value.construct type.name allowed
  if args.isEmpty then return () else .error (.mismatch type.name type.form)

def check (type : Scalar) (value : Micheline) : Except NodeError Unit :=
  match type with
  | bool => checkConstant bool [.true, .false] value
  | unit => checkConstant unit [.unit] value
  | _ => if type.admits value then .ok () else .error (.mismatch type.name type.form)

end Scalar

/-! ### Nodes -/

namespace Node

def settleEntries (key value : Micheline → Except NodeError Node) (path : String)
    (elts : List Micheline) : Except NodeError (List (Node × Node)) :=
  elts.mapM fun elt => do
    let (k, v) ← elt.entry path
    return (← key k, ← value v)

def bind : Node → Micheline → Attempt Node
  | n@(scalar s type typeArgs _), v =>
    .ofExcept n (type.check v) fun _ => scalar s type typeArgs (some v)
  | n@(contract s parameter _), v =>
    if v.isString || v.isHex then .done (contract s parameter (some v))
    else .stopped n (.mismatch "contract" "string or hex bytes")
  | ticket s inner, v => (inner.bind v).map (ticket s)
  | n@(option s inner present), v =>
    match v.construct "option" [.some, .none] with
    | .error e => .stopped n e
    | .ok (.none, []) => .done (option s inner (some false))
    | .ok (.none, args) => .stopped n (.arity s.path 0 args.length)
    | .ok (_, [a]) =>
      (inner.bind a).andThen (option s · present) fun b => .done (option s b (some true))
    | .ok (_, args) => .stopped n (.arity s.path 1 args.length)
  | n@(pair s l r), v =>
    match v.halves s.path with
    | .error e => .stopped n e
    | .ok (a, b) => (l.bind a).andThen (pair s · r) fun l' => (r.bind b).map (pair s l')
  | n@(or s l r side), v =>
    match v.construct "or" [.left, .right] with
    | .error e => .stopped n e
    | .ok (.left, [a]) =>
      (l.bind a).andThen (or s · r side) fun l' => .done (or s l' r (some .left))
    | .ok (_, [a]) =>
      (r.bind a).andThen (or s l · side) fun r' => .done (or s l r' (some .right))
    | .ok (_, args) => .stopped n (.arity s.path 1 args.length)
  | n@(collection s kind elem _), v =>
    match v with
    | .seq vs =>
      .ofExcept n (vs.mapM fun item => (elem.bind item).toExcept) fun items =>
        collection s kind elem (some items)
    | _ => .stopped n (.mismatch kind.name "sequence")
  | n@(map s key value _), v =>
    match v with
    | .seq elts =>
      .ofExcept n
        (settleEntries (fun k => (key.bind k).toExcept) (fun x => (value.bind x).toExcept) s.path
          elts)
        fun entries => map s key value (some entries)
    | _ => .stopped n (.mismatch "map" "sequence of Elt")
  | n@(bigMap s key value pointer entries), v =>
    match v with
    | .int literal =>
      match Decimal.parseInt64? literal with
      | some p => .done (bigMap s key value (some p) entries)
      | none => .stopped n (.mismatch "big_map" "64-bit pointer")
    | .seq elts =>
      .ofExcept n
        (settleEntries (fun k => (key.bind k).toExcept) (fun x => (value.bind x).toExcept) s.path
          elts)
        fun entries => bigMap s key value pointer (some entries)
    | _ => .stopped n (.mismatch "big_map" "pointer or sequence of Elt")
  | n@(lambda s parameter result _), v =>
    match v with
    | .seq _ | .prim .. => .done (lambda s parameter result (some v))
    | _ => .stopped n (.mismatch "lambda" "instruction sequence")

/-- A value is bound to a ticket as one of what it holds. -/
theorem bind_ticket (s : Site) (inner : Node) (v : Micheline) :
    (ticket s inner).bind v = (inner.bind v).map (ticket s) := by
  rw [bind.eq_def]

/-- The node with a value bound to it. -/
def settle (n : Node) (value : Micheline) : Except NodeError Node := (n.bind value).toExcept

end Node

end Lineage
