import Lineage.BigMap.Error
import Lineage.Contract.Tree
import Lineage.Ledger.Store

/-!
# Enrichment

A storage value together with the diffs of its big maps shows the big maps with their entries. Diffs
are taken in the order of their levels, so that the last one of a key counts.
-/

namespace Lineage

/-- The change to a big map that a diff records. -/
def Diff.change (d : Diff) : EntryChange := ⟨d.pointer, d.key, d.value⟩

namespace Tree

/-- A storage value with the entries of its big maps. -/
def enriched (storageType : Tree) (storage : Micheline) (diffs : List Diff) :
    Except NodeError Tree := do
  let t ← storageType.settle [storage]
  let ordered := Store.byLevel (·.provenance.level) diffs
  (t.overlay (ordered.map Diff.change)).toExcept

/-- The encoding of a storage value, with entries in the place of the pointers of big maps. -/
def enrichStorage (storageType : Tree) (storage : Micheline) (diffs : List Diff) :
    Except NodeError Micheline := do
  (← storageType.enriched storage diffs).toWire false

end Tree

end Lineage
