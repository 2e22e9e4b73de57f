import Lineage.BigMap.Error
import Lineage.Micheline.Json

/-!
# Logs

The result of an operation logs what it did to big maps. Big maps are known by pointers; the
negative ones are temporary, and mean nothing outside the group of operations they occur in.

`LogEntry.readAll` reads the log of an operation. Entries of an unknown action are passed over, or
refused if reading is strict. A pointer may be given as a number or as its text.
-/

namespace Lineage

/-- Something an operation did to a big map. -/
inductive LogEntry where
  /-- a new big map -/
  | alloc (pointer : Int) (keyType valueType : Micheline)
  /-- a new value for a key, or its removal -/
  | update (pointer : Int) (key : Micheline) (keyHash : String) (value : Option Micheline)
  /-- a copy of a big map under another pointer -/
  | copy (source destination : Int)
  /-- the end of a big map -/
  | remove (pointer : Int)
  deriving DecidableEq, Repr

namespace LogEntry

/-- The pointer that a field holds, as a number or as text. -/
def pointer? (key : String) (item : Json) : Option Int := do
  match ← item.field? key with
  | .integer n => Decimal.int64? n
  | .text s => Decimal.parseInt64? s
  | _ => none

def expression? (key : String) (item : Json) : Option Micheline :=
  (item.field? key).bind Micheline.ofJson?

/-- The expression that a field holds; null stands for none. -/
def optional? (key : String) (item : Json) : Option (Option Micheline) :=
  match item.field? key with
  | none | some .null => some none
  | some value => (Micheline.ofJson? value).map some

def text? (key : String) (item : Json) : Option String := (item.field? key).bind Json.text?

/-- How the entries of an action are read; none for an unknown action. -/
def reader? (action : String) : Option (Json → Option LogEntry) :=
  match action with
  | "alloc" => some fun item => do
    return alloc (← pointer? "big_map" item) (← expression? "key_type" item)
      (← expression? "value_type" item)
  | "update" => some fun item => do
    return update (← pointer? "big_map" item) (← expression? "key" item) (← text? "key_hash" item)
      (← optional? "value" item)
  | "copy" => some fun item => do
    return copy (← pointer? "source_big_map" item) (← pointer? "destination_big_map" item)
  | "remove" => some fun item => do return remove (← pointer? "big_map" item)
  | _ => none

/-- The action of an item, which is empty when the item has none. -/
def actionOf (item : Json) : String := (text? "action" item).getD ""

/-- Reads the items of a log, which are counted from `i`. -/
def readFrom (strict : Bool) (i : Nat) : List Json → Except ResolveError (List LogEntry)
  | [] => return []
  | item :: items =>
    match reader? (actionOf item) with
    | none =>
      if strict then
        .error (.invalidLog s!"unknown big map action '{actionOf item}' at index {i}")
      else readFrom strict (i + 1) items
    | some read =>
      match read item with
      | some entry => return entry :: (← readFrom strict (i + 1) items)
      | none => .error (.invalidLog s!"big map action {i}")

def readAll (strict : Bool) (items : List Json) : Except ResolveError (List LogEntry) :=
  readFrom strict 0 items

end LogEntry

end Lineage
