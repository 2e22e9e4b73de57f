import Lineage.Typed.Node

/-!
# Shapes

A pair or an `or` is shown by its parts, those of unannotated pairs and `or`s within it included.
Its shape says whether the parts can be told apart by their names and, for an `or`, whether they
carry any values at all.
-/

namespace Lineage

/-- How the parts of a pair or of an `or` are shown. -/
inductive Shape where
  /-- the fields of a pair -/
  | tuple (named : Bool)
  /-- alternatives without values -/
  | enumeration (named : Bool)
  /-- alternatives with values -/
  | union (named : Bool)
  deriving DecidableEq, Repr

namespace Shape

/-- Do the names of the parts tell them apart? -/
def isNamed : Shape → Bool
  | tuple named | enumeration named | union named => named

/-- Are the parts alternatives without values? -/
def isEnumeration : Shape → Bool
  | enumeration _ => true
  | _ => false

def name : Shape → String
  | tuple false => "tuple"
  | tuple true => "named_tuple"
  | enumeration false => "enum"
  | enumeration true => "named_enum"
  | union false => "union"
  | union true => "named_union"

end Shape

def allDistinct : List (Option String) → Bool
  | [] => true
  | none :: _ => false
  | some name :: rest => !rest.contains (some name) && allDistinct rest

namespace Node

def shape? (n : Node) : Option Shape :=
  match n with
  | pair .. => some (.tuple (allDistinct (n.pairFields.map name?)))
  | or .. =>
    let alternatives := n.orAlternatives.map Prod.snd
    let named := allDistinct (alternatives.map entryName?)
    some (if alternatives.all isUnit then .enumeration named else .union named)
  | _ => none

/-- The name an alternative goes by. -/
def alternativeName (n : Node) : String := n.entryName?.getD n.displayName

/-! ### Parts are smaller -/

theorem sizeOf_le_of_mem_asFields {f n : Node} (h : f ∈ n.asFields) : sizeOf f ≤ sizeOf n := by
  fun_induction asFields n with
  | case1 s l r _ ihl ihr =>
    rcases List.mem_append.1 h with h | h
    · have := ihl h; simp only [pair.sizeOf_spec]; omega
    · have := ihr h; simp only [pair.sizeOf_spec]; omega
  | case2 => simp_all
  | case3 => simp_all

theorem sizeOf_lt_of_mem_pairFields {s : Site} {f l r : Node} (h : f ∈ (pair s l r).pairFields) :
    sizeOf f < sizeOf (pair s l r) := by
  rcases List.mem_append.1 h with h | h
  · have := sizeOf_le_of_mem_asFields h; simp only [pair.sizeOf_spec]; omega
  · have := sizeOf_le_of_mem_asFields h; simp only [pair.sizeOf_spec]; omega

theorem sizeOf_le_of_mem_asAlternatives {sides : List Side} {a : List Side × Node} {n : Node}
    (h : a ∈ n.asAlternatives sides) : sizeOf a.2 ≤ sizeOf n := by
  fun_induction asAlternatives sides n with
  | case1 _ s l r _ _ ihl ihr =>
    rcases List.mem_append.1 h with h | h
    · have := ihl h; simp only [or.sizeOf_spec]; omega
    · have := ihr h; simp only [or.sizeOf_spec]; omega
  | case2 => simp_all
  | case3 => simp_all

theorem sizeOf_lt_of_mem_orAlternatives {s : Site} {l r : Node} {side : Option Side}
    {a : List Side × Node} (h : a ∈ (or s l r side).orAlternatives) :
    sizeOf a.2 < sizeOf (or s l r side) := by
  rcases List.mem_append.1 h with h | h
  · have := sizeOf_le_of_mem_asAlternatives h; simp only [or.sizeOf_spec]; omega
  · have := sizeOf_le_of_mem_asAlternatives h; simp only [or.sizeOf_spec]; omega

theorem sizeOf_le_of_ticketContent {c n : Node} (h : n.ticketContent? = some c) :
    sizeOf c ≤ sizeOf n := by
  match n, h with
  | pair _ _ (pair _ content _), h =>
    cases h
    simp only [pair.sizeOf_spec]
    omega

theorem sizeOf_le_of_asChosen {c n : Node} (h : n.asChosen? = some c) : sizeOf c ≤ sizeOf n := by
  fun_induction asChosen? n with
  | case1 s l r _ _ ih => have := ih h; simp only [or.sizeOf_spec]; omega
  | case2 s l r _ _ ih => have := ih h; simp only [or.sizeOf_spec]; omega
  | case3 => simp at h
  | case4 => simp_all
  | case5 => simp_all

theorem sizeOf_lt_of_chosenAlternative {s : Site} {c l r : Node} {side : Option Side}
    (h : (or s l r side).chosenAlternative? = some c) : sizeOf c < sizeOf (or s l r side) := by
  match side with
  | some .left => have := sizeOf_le_of_asChosen h; simp only [or.sizeOf_spec]; omega
  | some .right => have := sizeOf_le_of_asChosen h; simp only [or.sizeOf_spec]; omega
  | none => simp [chosenAlternative?] at h

end Node

end Lineage
