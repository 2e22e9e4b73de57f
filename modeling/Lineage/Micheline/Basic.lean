/-!
# Micheline expressions

Types, values and code of contracts share one grammar: literals, sequences and applications of a
named primitive to arguments, with annotations. Literals keep the text they were given as.
-/

namespace Lineage

/-- An expression of the wire grammar. -/
inductive Micheline where
  | seq (items : List Micheline)
  | int (literal : String)
  | string (s : String)
  | bytes (hex : String)
  | prim (name : String) (args : List Micheline) (annots : List String)
  deriving Repr, Inhabited

namespace Micheline

/-! ### Equality -/

mutual
def decEq : (a b : Micheline) → Decidable (a = b)
  | seq xs, seq ys =>
    match decEqList xs ys with
    | isTrue h => isTrue (by rw [h])
    | isFalse h => isFalse (by intro e; cases e; exact h rfl)
  | int x, int y => decidable_of_iff (x = y) (by simp)
  | string x, string y => decidable_of_iff (x = y) (by simp)
  | bytes x, bytes y => decidable_of_iff (x = y) (by simp)
  | prim p xs as, prim q ys bs =>
    match decEqList xs ys with
    | isTrue h => decidable_of_iff (p = q ∧ as = bs) (by simp [h])
    | isFalse h => isFalse (by intro e; cases e; exact h rfl)
  | seq _, int _ => isFalse nofun
  | seq _, string _ => isFalse nofun
  | seq _, bytes _ => isFalse nofun
  | seq _, prim .. => isFalse nofun
  | int _, seq _ => isFalse nofun
  | int _, string _ => isFalse nofun
  | int _, bytes _ => isFalse nofun
  | int _, prim .. => isFalse nofun
  | string _, seq _ => isFalse nofun
  | string _, int _ => isFalse nofun
  | string _, bytes _ => isFalse nofun
  | string _, prim .. => isFalse nofun
  | bytes _, seq _ => isFalse nofun
  | bytes _, int _ => isFalse nofun
  | bytes _, string _ => isFalse nofun
  | bytes _, prim .. => isFalse nofun
  | prim .., seq _ => isFalse nofun
  | prim .., int _ => isFalse nofun
  | prim .., string _ => isFalse nofun
  | prim .., bytes _ => isFalse nofun

def decEqList : (xs ys : List Micheline) → Decidable (xs = ys)
  | [], [] => isTrue rfl
  | [], _ :: _ => isFalse nofun
  | _ :: _, [] => isFalse nofun
  | x :: xs, y :: ys =>
    match decEq x y with
    | isFalse h => isFalse (by intro e; cases e; exact h rfl)
    | isTrue h =>
      match decEqList xs ys with
      | isTrue h' => isTrue (by rw [h, h'])
      | isFalse h' => isFalse (by intro e; cases e; exact h' rfl)
end

instance : DecidableEq Micheline := decEq

end Micheline

/-! ### Constructors of data -/

/-- The primitives that build values. -/
inductive Constructor where
  | pair
  | left
  | right
  | some
  | none
  | true
  | false
  | unit
  | elt
  deriving DecidableEq, Repr

namespace Constructor

def name : Constructor → String
  | pair => "Pair"
  | left => "Left"
  | right => "Right"
  | some => "Some"
  | none => "None"
  | true => "True"
  | false => "False"
  | unit => "Unit"
  | elt => "Elt"

def ofName? (s : String) : Option Constructor :=
  [pair, left, right, some, none, true, false, unit, elt].find? (·.name == s)

end Constructor

namespace Micheline

/-- A constructor applied to arguments, without annotations. -/
def data (c : Constructor) (args : List Micheline) : Micheline := prim c.name args []

def isPrim (name : String) : Micheline → Bool
  | prim p _ _ => p == name
  | _ => false

def int? : Micheline → Option String
  | int literal => some literal
  | _ => none

def string? : Micheline → Option String
  | string s => some s
  | _ => none

def bytes? : Micheline → Option String
  | bytes hex => some hex
  | _ => none

def seq? : Micheline → Option (List Micheline)
  | seq items => some items
  | _ => none

/-- What kind of expression this is: the name of the primitive for an application. -/
def kindName : Micheline → String
  | seq _ => "sequence"
  | int _ => "int"
  | string _ => "string"
  | bytes _ => "bytes"
  | prim name _ _ => name

/-- The arguments of a pair with all components but the first moved into a pair of their own, until
every pair has two. -/
def nestPair : List Micheline → List Micheline
  | a :: b :: c :: rest => [a, data .pair (nestPair (b :: c :: rest))]
  | args => args

/-- Turns a pair of many components into nested pairs of two. -/
def uncomb : Micheline → Micheline
  | prim name args annots =>
    if name = Constructor.pair.name then prim name (nestPair args) annots
    else prim name args annots
  | m => m

end Micheline

end Lineage
