import Lineage.Ledger.Repository
import Lineage.Typed.Error

/-!
# What may go wrong with operations
-/

namespace Lineage

/-- Why a node of the network gave no storage. -/
inductive RemoteError where
  | notFound (address : String) (level : Int)
  | unavailable (reason : String)
  deriving DecidableEq, Repr

def RemoteError.message : RemoteError → String
  | notFound address level => s!"no storage for {address} at level {level}"
  | unavailable reason => s!"node unavailable: {reason}"

/-- Why the big maps of an operation could not be resolved. -/
inductive ResolveError where
  /-- a temporary pointer with no origin, or with one that is too far away -/
  | unresolvedPointer (pointer : Int)
  /-- a path at which the storage type has no big map -/
  | unknownPath (path : String)
  /-- an operation or a log that cannot be read; what the JSON reader itself says is left out -/
  | invalidLog (reason : String)
  /-- settings that cannot be read; what the reader of the file itself says is left out -/
  | settings
  | node (error : NodeError)
  | ledger (error : LedgerError)
  | remote (error : RemoteError)
  deriving DecidableEq, Repr

/-- The wording of an error. Of logs and settings that cannot be read it ends where the words of the
reader would begin. -/
def ResolveError.message : ResolveError → String
  | unresolvedPointer pointer => s!"unresolved big map pointer {pointer}"
  | unknownPath path => s!"no big map type at storage path '{path}'"
  | invalidLog reason => s!"invalid operation content: {reason}"
  | settings => "invalid resolver config"
  | node error => error.message
  | ledger error => error.message
  | remote error => error.message

end Lineage
