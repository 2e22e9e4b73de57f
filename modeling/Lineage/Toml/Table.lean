import Lineage.Toml.Basic

/-!
# Tables of a settings file

A table holds values and further tables under keys. A file may add to a table only as far as its
origin allows, so that nothing is given twice: a table that has had its header gets no second one,
and dots reach into no table but those that dots or the headers of deeper tables have made. Of a
series of tables the last one can be added to.
-/

namespace Lineage.Toml

/-- How a table came about. -/
inductive Origin where
  /-- by a header of its own -/
  | declared
  /-- on the way of a header to a deeper table -/
  | implied
  /-- by the dots of a key -/
  | dotted
  deriving DecidableEq, Repr

/-- What a table holds under a key. -/
inductive Item where
  | value (v : Value)
  | table (origin : Origin) (fields : List (String × Item))
  | series (last : List (String × Item))
  deriving Repr, Inhabited

/-- The fields of a table, in the order in which they were given. -/
abbrev Fields := List (String × Item)

namespace Fields

/-- Puts an item under a key, in place of any earlier one. -/
def put (key : String) (item : Item) : Fields → Fields
  | [] => [(key, item)]
  | (k, i) :: rest => if k = key then (key, item) :: rest else (k, i) :: put key item rest

/-- Adds a value under a new key. -/
def add? (key : String) (v : Value) (fields : Fields) : Option Fields :=
  if (fields.lookup key).isSome then none else some (fields ++ [(key, .value v)])

/-- Changes the table at a path, by way of tables that are made where there are none. The dots of a
key do not lead into a declared table. -/
def change? (dots : Bool) (f : Origin → Fields → Option Fields) :
    List String → Origin → Fields → Option Fields
  | [], origin, fields => f origin fields
  | key :: path, _, fields =>
    match (fields.lookup key).getD (.table (if dots then .dotted else .implied) []) with
    | .value _ => none
    | .table origin sub =>
      if dots && origin == .declared then none
      else (change? dots f path origin sub).map fun sub => put key (.table origin sub) fields
    | .series last =>
      (change? dots f path .declared last).map fun last => put key (.series last) fields

/-- Adds a value at the path of an entry. Behind dots, only a table that dots have made takes a
value. -/
def enter? (path : List String) (v : Value) (fields : Fields) : Option Fields :=
  match path.getLast? with
  | none => none
  | some key =>
    let behindDots := !path.dropLast.isEmpty
    let put? (origin : Origin) (table : Fields) : Option Fields :=
      if behindDots && origin != .dotted then none else add? key v table
    change? true put? path.dropLast .declared fields

/-- Declares the table of a header. Only a table on the way of an earlier header may be there. -/
def declare? (path : List String) (fields : Fields) : Option Fields :=
  match path.getLast? with
  | none => none
  | some key =>
    let declareIn (_ : Origin) (table : Fields) : Option Fields :=
      match table.lookup key with
      | none => some (put key (.table .declared []) table)
      | some (.table .implied sub) => some (put key (.table .declared sub) table)
      | some _ => none
    change? false declareIn path.dropLast .declared fields

/-- Begins the next table of a series. -/
def append? (path : List String) (fields : Fields) : Option Fields :=
  match path.getLast? with
  | none => none
  | some key =>
    let appendIn (_ : Origin) (table : Fields) : Option Fields :=
      match table.lookup key with
      | none | some (.series _) => some (put key (.series []) table)
      | some _ => none
    change? false appendIn path.dropLast .declared fields

end Fields

end Lineage.Toml
