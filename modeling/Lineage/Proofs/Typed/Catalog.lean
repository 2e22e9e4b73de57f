import Mathlib.Data.List.Lex
import Mathlib.Data.List.Perm.Basic
import Mathlib.Data.String.Basic
import Lineage.Proofs.Text.Dictionary
import Lineage.Proofs.Typed.Charts
import Lineage.Typed.Catalog

/-!
# Catalogs list the skeleton

A catalog is made from the inside out, parts before the node that is made of them, and ordered by
paths. This brings the nodes back into the order of the skeleton (`Charted.pairwise_path`): a slash
comes before every character of a segment and the segments of a node ascend, so what stands below a
node comes behind it, and what stands below its first part before what stands below the second.

`Node.heirs` lists the skeleton along with the names that options hand down, and the catalog
describes just these, one after another.
-/

namespace Lineage

namespace Below

variable {path p a : String}

end Below

namespace Node

variable {n m : Node} {path : String} {inherited : Option String}

/-! ### Paths in order -/

end Node

end Lineage
