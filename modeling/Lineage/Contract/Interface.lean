import Lineage.Contract.Entrypoint
import Lineage.Json.Selection
import Lineage.Micheline.Json

/-!
# Interfaces

An interface asks a contract for entry points of certain types, whatever their names. A contract
implements it when each type is found among the arms of its parameter; a root interface has one
type, which has to be that of the whole parameter.
-/

namespace Lineage

/-- The types of the entry points that an interface asks for, by name. -/
structure Interface where
  entries : Dictionary String Node
  isRoot : Bool

namespace Interface

/-! ### Reading -/

/-- Reads the types of entry points, in order of their names. -/
def readEntries : Dictionary String Json → Except NodeError (Dictionary String Node)
  | [] => return []
  | (name, json) :: rest =>
    match Micheline.ofJson? json.sorted with
    | some type => return (name, ← Node.ofType type) :: (← readEntries rest)
    | none => .error (.decode .invalidJson)

/-- The parts of an interface in JSON: an object with the fields `entrypoints` and, if it likes,
`is_root`, or an array of one or both. -/
def parts? : Json → Option (Dictionary String Json × Bool)
  | .object fields =>
    match Json.valuesOf "entrypoints" fields, Json.valuesOf "is_root" fields with
    | [entries], [] => return (← entries.object?, false)
    | [entries], [isRoot] => return (← entries.object?, ← isRoot.bool?)
    | _, _ => none
  | .array [entries] => return (← entries.object?, false)
  | .array [entries, isRoot] => return (← entries.object?, ← isRoot.bool?)
  | _ => none

/-- The fields that an interface has in JSON; others may stand beside them. -/
def isField (key : String) : Bool := key == "entrypoints" || key == "is_root"

def ofText (s : String) : Except NodeError Interface :=
  match (Json.parseSelected? isField s).bind parts? with
  | some (entries, isRoot) => return ⟨← readEntries entries, isRoot⟩
  | none => .error (.decode .invalidJson)

/-! ### Detection -/

/-- The entries that are still missing after the arms of a node have been looked at. -/
def missingAfter (missing : Dictionary String Node) : Node → Dictionary String Node
  | .or _ l r _ => missingAfter (missingAfter missing l) r
  | n => missing.filter fun entry => !n.equalType entry.2

/-- Does the parameter have all that the interface asks for? -/
def isImplementedBy (parameter : Tree) (i : Interface) : Bool :=
  if i.isRoot then
    match parameter.roots, i.entries with
    | [root], [(name, type)] => name == Entrypoint.defaultName && root.equalType type
    | _, _ => false
  else !parameter.roots.isEmpty && (parameter.roots.foldl missingAfter i.entries).isEmpty

end Interface

/-! ### Registries -/

abbrev Registry := Dictionary String Interface

namespace Registry

/-- Registers an interface given as JSON text, in place of any earlier one of the name. -/
def register (r : Registry) (name text : String) : Except NodeError Registry :=
  return Dictionary.insert name (← Interface.ofText text) r

def implementedBy (r : Registry) (parameter : Tree) : List String :=
  (r.filter fun entry => entry.2.isImplementedBy parameter).map Prod.fst

def implements (r : Registry) (parameter : Tree) (name : String) : Bool :=
  match Dictionary.find? name r with
  | some i => i.isImplementedBy parameter
  | none => false

end Registry

end Lineage
