import Lineage.Typed.Binding
import Lineage.Typed.View

/-!
# Order of values and equality of types

`Node.compare` orders two values of one comparable type. `Node.equalType` says whether two nodes
have the same type, annotations apart.
-/

namespace Lineage

/-! ### Scalars -/

namespace Scalar

/-- The numeral of a value; a value that is no integer counts as zero. -/
def numeral (value : Micheline) : String := value.int?.getD "0"

/-- The instant of a timestamp in whole seconds, as a numeral. -/
def seconds (value : Micheline) : Except NodeError String :=
  match value with
  | .int n => .ok n
  | .string s =>
    match Timestamp.parse? s with
    | some t => .ok (toString t.toUnix)
    | none => .error (.mismatch timestamp.name timestamp.form)
  | _ => .error (.mismatch timestamp.name timestamp.form)

/-- Orders optional texts; a missing one comes first. -/
def compareOptional : Option String → Option String → Ordering
  | none, none => .eq
  | none, some _ => .lt
  | some _, none => .gt
  | some a, some b => Ord.compare a b

def compareBool : Bool → Bool → Ordering
  | false, true => .lt
  | true, false => .gt
  | _, _ => .eq

def compare (type : Scalar) (a b : Micheline) : Except NodeError Ordering :=
  match type with
  | unit => .ok .eq
  | bool => .ok (compareBool (a.isPrim Constructor.true.name) (b.isPrim Constructor.true.name))
  | int | nat | mutez => .ok (Decimal.order (numeral a) (numeral b))
  | timestamp => return Decimal.order (← seconds a) (← seconds b)
  | bytes => .ok (compareOptional (a.bytes?.map String.toLower) (b.bytes?.map String.toLower))
  | _ => return Ord.compare (← type.text a) (← type.text b)

end Scalar

namespace Node

/-! ### Values -/

/-- The complaint that two nodes have no common order or difference. -/
def incomparable {α : Type} (a b : Node) : Except NodeError α :=
  .error (.notComparable a.prim b.prim)

def compare : Node → Node → Except NodeError Ordering
  | a@(scalar s type _ x), b =>
    match b with
    | scalar s' type' _ y =>
      if type = type' ∧ type.isComparable then do
        type.compare (← required s.path x) (← required s'.path y)
      else incomparable a b
    | _ => incomparable a b
  | a@(pair _ l r), b =>
    match b with
    | pair _ l' r' => do
      match ← l.compare l' with
      | .eq => r.compare r'
      | order => return order
    | _ => incomparable a b
  | a@(or s l r side), b =>
    match b with
    | or s' l' r' side' => do
      match ← required s.path side, ← required s'.path side' with
      | .left, .left => l.compare l'
      | .right, .right => r.compare r'
      | .left, .right => return .lt
      | .right, .left => return .gt
    | _ => incomparable a b
  | a@(option s inner present), b =>
    match b with
    | option s' inner' present' => do
      match ← required s.path present, ← required s'.path present' with
      | true, true => inner.compare inner'
      | x, y => return Scalar.compareBool x y
    | _ => incomparable a b
  | a, b => incomparable a b

/-! ### Types -/

/-- Do two nodes have the same type? Annotations and the arguments of scalar types do not count. -/
def equalType : Node → Node → Bool
  | scalar _ type _ _, scalar _ type' _ _ => type = type'
  | contract _ p _, contract _ p' _ => p.equalType p'
  | ticket _ n, ticket _ n' => n.equalType n'
  | option _ n _, option _ n' _ => n.equalType n'
  | pair _ l r, pair _ l' r' => l.equalType l' && r.equalType r'
  | or _ l r _, or _ l' r' _ => l.equalType l' && r.equalType r'
  | collection _ kind n _, collection _ kind' n' _ => decide (kind = kind') && n.equalType n'
  | map _ k v _, map _ k' v' _ => k.equalType k' && v.equalType v'
  | bigMap _ k v _ _, bigMap _ k' v' _ _ => k.equalType k' && v.equalType v'
  | lambda _ p r _, lambda _ p' r' _ => p.equalType p' && r.equalType r'
  | _, _ => false

end Node

end Lineage
