import Lineage.BigMap.Error
import Lineage.Toml.Reader

/-!
# Settings

How operations are resolved can be set in a settings file; what the file does not set keeps its
default.
-/

namespace Lineage

/-- How operations are resolved. -/
structure Settings where
  /-- the greatest number of steps from a temporary pointer to its origin -/
  maxChainLength : Nat
  /-- are unknown actions in a log errors? -/
  strictActions : Bool
  /-- may the storage of a new contract be asked for when the operation shows no pointers? -/
  rpcFallback : Bool
  deriving DecidableEq, Repr

namespace Settings

/-- What holds without a settings file. -/
def default : Settings := ⟨64, false, true⟩

/-- A number that a settings file gives to a key, or the one that holds without it. -/
def number? (f : Toml.Fields) (key : String) (otherwise : Nat) : Option Nat := do
  match f.lookup key with
  | none => return otherwise
  | some (.value (.integer n)) => if 0 ≤ n then return n.toNat else none
  | some _ => none

/-- A truth value that a settings file gives to a key, or the one that holds without it. -/
def truth? (f : Toml.Fields) (key : String) (otherwise : Bool) : Option Bool := do
  match f.lookup key with
  | none => return otherwise
  | some (.value (.boolean b)) => return b
  | some _ => none

def ofFields? (f : Toml.Fields) : Option Settings :=
  return {
    maxChainLength := ← number? f "max_chain_length" default.maxChainLength
    strictActions := ← truth? f "strict_actions" default.strictActions
    rpcFallback := ← truth? f "rpc_fallback" default.rpcFallback }

/-- Reads the text of a settings file, which is none when there is no such file. -/
def read (text : Option String) : Except ResolveError Settings :=
  match (text.bind Toml.parse?).bind ofFields? with
  | some settings => .ok settings
  | none => .error .settings

end Settings

end Lineage
