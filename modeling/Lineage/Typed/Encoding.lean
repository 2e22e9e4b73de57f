import Lineage.Typed.Error
import Lineage.Typed.Node

/-!
# Encoding values

`Node.toWire` writes the value bound to a node as an expression, with pairs nested by two and
without annotations. A big map is written as its pointer when it has no entries, and also when it
has some and the encoding is `optimized`.
-/

namespace Lineage.Node

/-- What a node needs to have, or the complaint that it has no value. -/
def required {α : Type} (path : String) : Option α → Except NodeError α
  | some a => .ok a
  | none => .error (.unsettled path)

mutual
/-- The value bound to a node. -/
def toWire (optimized : Bool) : Node → Except NodeError Micheline
  | scalar s _ _ value => required s.path value
  | contract s _ value => required s.path value
  | ticket _ inner => inner.toWire optimized
  | option s inner present => do
    if ← required s.path present then return .data .some [← inner.toWire optimized]
    else return .data .none []
  | pair _ l r => return .data .pair [← l.toWire optimized, ← r.toWire optimized]
  | or _ l _ (some .left) => return .data .left [← l.toWire optimized]
  | or _ _ r (some .right) => return .data .right [← r.toWire optimized]
  | or s _ _ none => .error (.unsettled s.path)
  | collection _ _ _ (some items) => return .seq (← itemsToWire optimized items)
  | collection s _ _ none => .error (.unsettled s.path)
  | map _ _ _ (some entries) => return .seq (← entriesToWire optimized entries)
  | map s _ _ none => .error (.unsettled s.path)
  | bigMap _ _ _ (some p) none => return .int (toString p)
  | bigMap s _ _ none none => .error (.unsettled s.path)
  | bigMap _ _ _ pointer (some entries) =>
    match pointer, optimized with
    | some p, true => return .int (toString p)
    | _, _ => return .seq (← entriesToWire optimized entries)
  | lambda s _ _ code => required s.path code

def itemsToWire (optimized : Bool) : List Node → Except NodeError (List Micheline)
  | [] => return []
  | item :: items => return (← item.toWire optimized) :: (← itemsToWire optimized items)

def entriesToWire (optimized : Bool) : List (Node × Node) → Except NodeError (List Micheline)
  | [] => return []
  | (k, v) :: entries =>
    return .data .elt [← k.toWire optimized, ← v.toWire optimized] ::
      (← entriesToWire optimized entries)
end

end Lineage.Node
