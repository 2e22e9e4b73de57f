import Lineage.Toml.Moment
import Lineage.Toml.Number
import Lineage.Toml.Table
import Lineage.Toml.Text

/-!
# Reading TOML text

`Toml.parse?` reads a settings file: entries, headers of tables and of series of tables, comments
and empty lines. It answers the fields of the outermost table, and refuses a file that gives
something twice. Every step of a reader takes at least one character, so fuel beyond the length of
the text never runs out.
-/

namespace Lineage.Toml

/-! ### Values -/

/-- A character of a number, a word or a moment. -/
def isTokenChar (c : Char) : Bool := isBare c || c == '+' || c == '.' || c == ':'

def valueOf? (token : List Char) : Option Value :=
  if token = "true".toList then some (.boolean true)
  else if token = "false".toList then some (.boolean false)
  else if isFraction token || isMoment token then some .other
  else (integer? token).map .integer

/-- Reads a value without marks. A blank may stand between a date and a time. -/
def readToken? (cs : List Char) : Option (Value × List Char) :=
  let token := cs.takeWhile isTokenChar
  match cs.dropWhile isTokenChar with
  | ' ' :: rest =>
    let moment := token ++ ' ' :: rest.takeWhile isTokenChar
    if isMoment moment then some (.other, rest.dropWhile isTokenChar)
    else (valueOf? token).map fun v => (v, ' ' :: rest)
  | rest => (valueOf? token).map fun v => (v, rest)

mutual
/-- Reads a value, with `depth` more arrays and inline tables allowed within each other; `fuel`
bounds the values. -/
def readValue? : Nat → Nat → List Char → Option (Value × List Char)
  | 0, _, _ => none
  | fuel + 1, depth, cs =>
    match cs with
    | '[' :: cs =>
      if depth = 0 then none else (readItems? fuel (depth - 1) cs).map fun cs => (.other, cs)
    | '\x7b' :: cs =>
      if depth = 0 then none
      else match skipBlank cs with
        | '\x7d' :: cs => some (.other, cs)
        | cs => do
          let (entries, cs) ← readEntries? fuel (depth - 1) cs
          let _ ← entries.foldlM (fun fields (path, v) => Fields.enter? path v fields) []
          return (.other, cs)
    | cs =>
      if cs.head?.any fun c => c == '"' || c == singleQuote then
        (readText? cs).map fun (text, cs) => (.text (String.ofList text), cs)
      else readToken? cs

/-- Reads the items of an array up to its closing bracket. A comma may follow the last one. -/
def readItems? : Nat → Nat → List Char → Option (List Char)
  | 0, _, _ => none
  | fuel + 1, depth, cs =>
    match skipFiller false cs with
    | ']' :: cs => some cs
    | cs => do
      let (_, cs) ← readValue? fuel depth cs
      match skipFiller false cs with
      | ']' :: cs => return cs
      | ',' :: cs => readItems? fuel depth cs
      | _ => none

/-- Reads the entries of an inline table up to its closing brace, which no comma may precede. -/
def readEntries? : Nat → Nat → List Char → Option (List (List String × Value) × List Char)
  | 0, _, _ => none
  | fuel + 1, depth, cs => do
    let (path, cs) ← readPath? maxDepth cs
    match cs with
    | '=' :: cs => do
      let (v, cs) ← readValue? fuel depth (skipBlank cs)
      match skipBlank cs with
      | '\x7d' :: cs => return ([(path, v)], cs)
      | ',' :: cs => do
        let (entries, cs) ← readEntries? fuel depth cs
        return ((path, v) :: entries, cs)
      | _ => none
    | _ => none
end

/-! ### Statements -/

inductive Statement where
  | entry (path : List String) (value : Value)
  | table (path : List String)
  | series (path : List String)
  deriving DecidableEq, Repr

/-- Reads a statement, without the end of its line. -/
def readStatement? : List Char → Option (Statement × List Char)
  | '[' :: '[' :: cs => do
    match ← readPath? maxDepth cs with
    | (path, ']' :: ']' :: cs) => return (.series path, cs)
    | _ => none
  | '[' :: cs => do
    match ← readPath? maxDepth cs with
    | (path, ']' :: cs) => return (.table path, cs)
    | _ => none
  | cs => do
    match ← readPath? maxDepth cs with
    | (path, '=' :: cs) => do
      let (v, cs) ← readValue? (cs.length + 1) maxDepth (skipBlank cs)
      return (.entry path v, cs)
    | _ => none

/-- Reads the statements of a file; `fuel` bounds their number. -/
def readStatements? : Nat → List Char → Option (List Statement)
  | 0, _ => none
  | fuel + 1, cs =>
    match skipFiller false cs with
    | [] => some []
    | cs => do
      let (statement, cs) ← readStatement? cs
      let statements ← readStatements? fuel (← readLineEnd? cs)
      return statement :: statements

/-! ### Files -/

/-- The fields that a list of statements makes, where `header` is the path of the table that the
next entries belong to. -/
def fieldsOf? (header : List String) (fields : Fields) : List Statement → Option Fields
  | [] => some fields
  | .entry path v :: rest => do
    let fields ← Fields.change? false (fun _ table => Fields.enter? path v table) header .declared
      fields
    fieldsOf? header fields rest
  | .table path :: rest => do fieldsOf? path (← fields.declare? path) rest
  | .series path :: rest => do fieldsOf? path (← fields.append? path) rest

/-- Drops the mark that some editors put at the beginning of a file. -/
def skipMark : List Char → List Char
  | c :: cs => if c.toNat = 0xFEFF then cs else c :: cs
  | [] => []

def parse? (s : String) : Option Fields := do
  let cs := skipMark s.toList
  fieldsOf? [] [] (← readStatements? (cs.length + 1) cs)

end Lineage.Toml
