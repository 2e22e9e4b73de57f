import Lineage.Ledger.Record

/-!
# Resolutions

What resolving a log comes to: the records to be kept.
-/

namespace Lineage

/-- The records that a log comes to. -/
structure Resolution where
  diffs : List Diff
  actions : List Action
  deriving DecidableEq, Repr

namespace Resolution

def empty : Resolution := ⟨[], []⟩

def isEmpty (r : Resolution) : Bool := r.diffs.isEmpty && r.actions.isEmpty

def append (r s : Resolution) : Resolution := ⟨r.diffs ++ s.diffs, r.actions ++ s.actions⟩

instance : Append Resolution := ⟨append⟩

@[simp] theorem diffs_append (r s : Resolution) : (r ++ s).diffs = r.diffs ++ s.diffs := rfl
@[simp] theorem actions_append (r s : Resolution) : (r ++ s).actions = r.actions ++ s.actions := rfl

theorem append_assoc (r s t : Resolution) : r ++ s ++ t = r ++ (s ++ t) := by
  show Resolution.mk _ _ = Resolution.mk _ _
  simp

theorem empty_append (r : Resolution) : empty ++ r = r := rfl

def ofDiff (d : Diff) : Resolution := ⟨[d], []⟩

def ofAction (a : Action) : Resolution := ⟨[], [a]⟩

end Resolution

end Lineage
