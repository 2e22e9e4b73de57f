import Lineage.Form.Reader
import Lineage.Typed.Catalog
import Lineage.Typed.Difference
import Lineage.Typed.Overlay
import Lineage.Typed.TypeExpression

/-!
# Trees

A tree is a list of typed nodes, its roots, with a flag that says whether values have been bound to
all of them. The type of a parameter or of a storage has one root; a sequence of types has one for
each type.
-/

namespace Lineage

/-- Typed nodes, and whether values have been bound to them. -/
structure Tree where
  roots : List Node
  settled : Bool

namespace Tree

/-! ### Types -/

/-- The tree of nodes to which no values have been bound as a whole. -/
def ofRoots (roots : List Node) : Tree := ⟨roots, false⟩

/-- Reads the types of a sequence; the path of each is its position, counted from `i`. -/
def rootsFrom (i : Nat) : List Micheline → Except NodeError (List Node)
  | [] => return []
  | type :: types => return (← Node.ofTypeAt (toString i) type) :: (← rootsFrom (i + 1) types)

/-- Reads a type expression, or one for each root. -/
def ofType : Micheline → Except NodeError Tree
  | .seq types => return ofRoots (← rootsFrom 0 types)
  | type => return ofRoots [← Node.ofType type]

def equalType (a b : Tree) : Bool :=
  a.roots.length == b.roots.length && (a.roots.zip b.roots).all fun (x, y) => x.equalType y

/-- The first node of the skeletons, root by root in pre-order, that answers to a name. -/
def findByName? (t : Tree) (name : String) : Option Node := t.roots.findSome? (·.findByName? name)

/-- The catalog of all roots. Of two descriptions of the same path the later one counts. -/
def catalog (t : Tree) : Catalog := t.roots.foldl (fun c root => c.extend root.catalog) []

/-! ### Binding -/

/-- Applies a change to the roots in turn, up to the first that it stops at. -/
def changeRoots (change : Node → Attempt Node) : List Node → Attempt (List Node)
  | [] => .done []
  | root :: roots =>
    (change root).andThen (· :: roots) fun root => (changeRoots change roots).map (root :: ·)

/-- Binds values to as many roots. -/
def bindEach : List Node → List Micheline → Attempt (List Node)
  | root :: roots, value :: values =>
    (root.bind value).andThen (· :: roots) fun root => (bindEach roots values).map (root :: ·)
  | roots, _ => .done roots

/-- The tree after a change of its roots: the flag is set when the change was made in full, and
never taken back. -/
def settledBy (t : Tree) (change : Attempt (List Node)) : Attempt Tree :=
  ⟨⟨change.result, t.settled || change.failure.isNone⟩, change.failure⟩

/-- Binds one value to each root. For a single pair, any other number of values than one is taken
for the components of the pair. -/
def bind (t : Tree) (values : List Micheline) : Attempt Tree :=
  match t.roots with
  | [root] =>
    if values.length ≠ 1 ∧ root.isPair then
      t.settledBy ((root.bind (.data .pair values)).map fun root => [root])
    else if values.length = 1 then t.settledBy (bindEach t.roots values)
    else .stopped t (.arity "root" 1 values.length)
  | roots =>
    if values.length = roots.length then t.settledBy (bindEach roots values)
    else .stopped t (.arity "root" roots.length values.length)

/-- Binds a value to a tree with one root. -/
def bindValue (t : Tree) (value : Micheline) : Attempt Tree := t.bind [value]

/-- The tree with a value bound to each root. -/
def settle (t : Tree) (values : List Micheline) : Except NodeError Tree := (t.bind values).toExcept

def bindForm (t : Tree) (values : Form.Values) : Attempt Tree :=
  t.settledBy (changeRoots (·.bindForm values) t.roots)

/-- Lays changes over the big maps of all roots. -/
def overlay (t : Tree) (changes : List EntryChange) : Attempt Tree :=
  (changeRoots (·.overlay changes) t.roots).map fun roots => { t with roots }

/-! ### Reading -/

/-- The encoding of the values: that of the only root, or else a sequence. -/
def toWire (optimized : Bool) (t : Tree) : Except NodeError Micheline :=
  match t.roots with
  | [root] => root.toWire optimized
  | roots => return .seq (← roots.mapM (Node.toWire optimized))

def render (t : Tree) : Except NodeError (List View) := t.roots.mapM Node.render

def strings (t : Tree) : Except NodeError (List String) :=
  return (← t.roots.mapM Node.strings).flatten

/-- Adds the fields of a root's form to those of the roots before it. -/
def mergeFields (fields : Option (Dictionary String Form.Schema)) (root : Node) :
    Option (Dictionary String Form.Schema) :=
  match fields, root.formFields? with
  | some fields, some more => some (more.foldl (fun d (k, v) => Dictionary.insert k v d) fields)
  | none, more => more
  | fields, none => fields

/-- The fields of the form for the values of all roots. -/
def formFields? (t : Tree) : Option (Dictionary String Form.Schema) :=
  t.roots.foldl mergeFields none

/-! ### Two trees -/

/-- Orders lists of values by the first that differ. -/
def compareEach : List Node → List Node → Except NodeError Ordering
  | a :: as, b :: bs => do
    match ← a.compare b with
    | .eq => compareEach as bs
    | order => return order
  | _, _ => return .eq

/-- Orders two trees with the same number of roots. -/
def compare (a b : Tree) : Except NodeError Ordering :=
  if a.roots.length = b.roots.length then compareEach a.roots b.roots
  else .error (.notComparable s!"{a.roots.length} roots" s!"{b.roots.length} roots")

/-- The difference of two trees with one root each; others have none. -/
def distinguish (before after : Tree) : Except NodeError (Option View) :=
  match before.roots, after.roots with
  | [a], [b] => return some (← a.distinguish b)
  | _, _ => return none

end Tree

end Lineage
