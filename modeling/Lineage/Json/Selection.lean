import Lineage.Json.Reader

/-!
# Reading chosen fields of a JSON object

`Json.parseSelected?` reads JSON text of which only some fields of the outermost object matter. The
others are passed over: they have to be JSON, but their texts may hold lone surrogates, their
numbers may be beyond the doubles, and arrays and objects may be nested to any depth.
-/

namespace Lineage.Json

/-! ### Passing over -/

/-- Passes over an escape behind its backslash. -/
def skipEscape? : List Char → Option (List Char)
  | 'u' :: cs => (readUnit? cs).map Prod.snd
  | c :: cs => if ['"', '\\', '/', 'b', 'f', 'n', 'r', 't'].contains c then some cs else none
  | [] => none

/-- Passes over a text up to its closing quotation mark; `fuel` bounds the characters. -/
def skipText? : Nat → List Char → Option (List Char)
  | 0, _ => none
  | _ + 1, [] => none
  | fuel + 1, c :: cs =>
    if c = '"' then some cs
    else if c = '\\' then (skipEscape? cs).bind (skipText? fuel)
    else if c.toNat < 32 then none
    else skipText? fuel cs

/-- Passes over the key of a field and its colon. -/
def skipKey? (fuel : Nat) (cs : List Char) : Option (List Char) :=
  match skipSpace cs with
  | '"' :: cs => do
    match skipSpace (← skipText? fuel cs) with
    | ':' :: cs => return cs
    | _ => none
  | _ => none

/-- What a value may stand in. -/
inductive Enclosure where
  | array
  | object
  deriving DecidableEq, Repr

mutual
/-- Passes over a value and what closes the enclosures it stands in, the innermost first; `fuel`
bounds the tokens. -/
def skipValue? : Nat → List Enclosure → List Char → Option (List Char)
  | 0, _, _ => none
  | fuel + 1, enclosures, cs =>
    match skipSpace cs with
    | '"' :: cs => (skipText? fuel cs).bind (skipRest? fuel enclosures)
    | '[' :: cs =>
      match skipSpace cs with
      | ']' :: cs => skipRest? fuel enclosures cs
      | cs => skipValue? fuel (.array :: enclosures) cs
    | '\x7b' :: cs =>
      match skipSpace cs with
      | '\x7d' :: cs => skipRest? fuel enclosures cs
      | cs => (skipKey? fuel cs).bind (skipValue? fuel (.object :: enclosures))
    | 'n' :: cs => (readWord? ['u', 'l', 'l'] null cs).bind (skipRest? fuel enclosures ·.2)
    | 't' :: cs => (readWord? ['r', 'u', 'e'] null cs).bind (skipRest? fuel enclosures ·.2)
    | 'f' :: cs => (readWord? ['a', 'l', 's', 'e'] null cs).bind (skipRest? fuel enclosures ·.2)
    | cs => (readNumeral? cs).bind (skipRest? fuel enclosures ·.2)

/-- Passes over what follows a value in the enclosures it stands in. -/
def skipRest? : Nat → List Enclosure → List Char → Option (List Char)
  | _, [], cs => some cs
  | 0, _, _ => none
  | fuel + 1, .array :: enclosures, cs =>
    match skipSpace cs with
    | ']' :: cs => skipRest? fuel enclosures cs
    | ',' :: cs => skipValue? fuel (.array :: enclosures) cs
    | _ => none
  | fuel + 1, .object :: enclosures, cs =>
    match skipSpace cs with
    | '\x7d' :: cs => skipRest? fuel enclosures cs
    | ',' :: cs => (skipKey? fuel cs).bind (skipValue? fuel (.object :: enclosures))
    | _ => none
end

/-! ### Choosing -/

/-- Reads the fields of an object up to its closing brace, and keeps the wanted ones. -/
def readSelected? (wanted : String → Bool) :
    Nat → List Char → Option (List (String × Json) × List Char)
  | 0, _ => none
  | fuel + 1, cs =>
    match skipSpace cs with
    | '"' :: cs => do
      let (key, cs) ← readText? fuel cs
      let key := String.ofList key
      match skipSpace cs with
      | ':' :: cs => do
        let (found, cs) ←
          if wanted key then
            (readValue? fuel (maxDepth - 1) cs).map fun (value, cs) => ([(key, value)], cs)
          else (skipValue? fuel [] cs).map fun cs => ([], cs)
        match skipSpace cs with
        | '\x7d' :: cs => return (found, cs)
        | ',' :: cs => do
          let (fields, cs) ← readSelected? wanted fuel cs
          return (found ++ fields, cs)
        | _ => none
      | _ => none
    | _ => none

/-- Reads a text that holds one JSON value and nothing else but white space. Of an object only the
wanted fields are read. -/
def parseSelected? (wanted : String → Bool) (s : String) : Option Json :=
  match skipSpace s.toList with
  | '\x7b' :: cs => do
    let (fields, rest) ←
      match skipSpace cs with
      | '\x7d' :: cs => some ([], cs)
      | cs => readSelected? wanted (cs.length + 1) cs
    if (skipSpace rest).isEmpty then return object fields else none
  | _ => parse? s

end Lineage.Json
