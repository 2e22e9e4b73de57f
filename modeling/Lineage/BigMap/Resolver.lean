import Lineage.BigMap.Arena
import Lineage.BigMap.Log
import Lineage.BigMap.Pointer
import Lineage.BigMap.Resolution
import Lineage.BigMap.Settings
import Lineage.Digest.Sha256
import Lineage.Typed.TypeExpression
import Lineage.Typed.View

/-!
# Resolving logs

A log speaks of temporary pointers, records speak of final ones. `resolve` goes through the logs of
a group of operations, keeps the records of temporary pointers in an arena, and brings them out when
they are copied to a final pointer. An entry that fails ends its log, but what it and the entries
before it have done to the arena stays.
-/

namespace Lineage

/-- The contract and the operation that a log belongs to. -/
structure Context where
  storageType : Tree
  /-- the final pointers in the storage after the operation, with their paths -/
  pointers : Dictionary Int String
  address : String
  provenance : Provenance

/-- The big map of a final pointer of the contract. -/
def Context.place (ctx : Context) (pointer : Int) : Place :=
  ⟨ctx.address, ctx.provenance.network, pointer⟩

/-- What is remembered between the logs of a group. -/
structure Resolver where
  arena : Arena
  /-- the number of records made so far -/
  ordinal : Nat

def Resolver.start : Resolver := ⟨.empty, 0⟩

/-- The live records of big maps, as a repository gives them. -/
abbrev LiveRecords := Place → Except LedgerError (List Diff)

/-- A step in resolving logs. The resolver keeps its changes also when the step fails. -/
abbrev Resolve := ExceptT ResolveError (StateM Resolver)

/-! ### Records and their identifiers -/

def utf8 (s : String) : List UInt8 := s.toUTF8.data.toList

/-- The eight bytes of a 64-bit integer, the highest first, in two's complement. -/
def word (n : Int) : List UInt8 := Sha256.bigEndian 8 (n % Decimal.wordCount).toNat

/-- What the identifier of a record is made of. -/
structure Stamp where
  network : String
  operationId : String
  level : Int
  address : String
  kind : String
  pointer : Int
  keyHash : String
  ordinal : Nat
  deriving DecidableEq, Repr

namespace Stamp

/-- The bytes that are digested to make an identifier. -/
def bytes (s : Stamp) : List UInt8 :=
  utf8 s.network ++ utf8 s.operationId ++ word s.level ++ utf8 s.address ++ utf8 s.kind ++
    word s.pointer ++ utf8 s.keyHash ++ word s.ordinal

def id (s : Stamp) : String := Hex.encode (Sha256.digest s.bytes)

end Stamp

def Context.stamp (ctx : Context) (kind : String) (pointer : Int) (keyHash : String)
    (ordinal : Nat) : Stamp :=
  { network := ctx.provenance.network, operationId := ctx.provenance.operationId
    level := ctx.provenance.level, address := ctx.address, kind, pointer, keyHash, ordinal }

/-- A record as the operation of a context copies it to a pointer. -/
def Context.copied (ctx : Context) (destination : Int) (path : String) (record : Diff)
    (id : String) : Diff :=
  { record with id, pointer := destination, path, address := ctx.address
                provenance := ctx.provenance }

/-- The record that the key of a record is deleted by the operation of a context. -/
def Context.deleted (ctx : Context) (record : Diff) (id : String) : Diff :=
  { record with id, value := none, valueStrings := [], provenance := ctx.provenance }

namespace Resolver

def nextId (ctx : Context) (kind : String) (pointer : Int) (keyHash : String) : Resolve String := do
  modify fun r => { r with ordinal := r.ordinal + 1 }
  return (ctx.stamp kind pointer keyHash (← get).ordinal).id

def makeAction (ctx : Context) (kind : ActionKind) (source destination : Option Int) :
    Resolve Action := do
  let pointer := (destination.or source).getD 0
  let id ← nextId ctx kind.name pointer ""
  return ⟨id, kind, source, destination, ctx.address, ctx.provenance⟩

def modifyArena (f : Arena → Arena) : Resolve Unit := modify fun r => { r with arena := f r.arena }

/-! ### Looking things up -/

/-- Follows the links from a pointer for at most `steps` steps, to a final pointer or to one that
has no source. `start` is the pointer that is complained of when that does not suffice. -/
def followLinks (a : Arena) (start : Int) : Nat → Int → Except ResolveError Int
  | steps, pointer =>
    if 0 ≤ pointer then .ok pointer
    else
      match a.link? pointer with
      | none => .error (.unresolvedPointer pointer)
      | some link =>
        match link.source, steps with
        | none, _ => .ok pointer
        | some _, 0 => .error (.unresolvedPointer start)
        | some source, steps + 1 => followLinks a start steps source

/-- The final pointer that a pointer was copied from, or the new big map that its history begins
with. -/
def resolveSource (settings : Settings) (a : Arena) (pointer : Int) : Except ResolveError Int :=
  followLinks a pointer settings.maxChainLength pointer

/-- The pointer at whose path a big map is looked for. -/
def locate (settings : Settings) (a : Arena) (pointer : Int) : Except ResolveError Int :=
  if pointer < 0 then resolveSource settings a pointer else .ok pointer

/-- The path of the big map of a pointer: that in the storage, or else the remembered one. -/
def pathOf? (ctx : Context) (a : Arena) (pointer : Int) : Option String :=
  (Dictionary.find? pointer ctx.pointers).or ((a.link? pointer).bind Link.path)

/-- The types of the keys and of the values of a big map: those at its path in the storage type, or
those that are remembered of its pointer. -/
def typesOf (ctx : Context) (a : Arena) (pointer : Int) (path : Option String) :
    Except ResolveError (Node × Node) :=
  match path.bind ctx.storageType.bigMapTypes? with
  | some types => .ok types
  | none =>
    match (a.link? pointer).bind Link.types with
    | some types => .ok types
    | none => .error (.unknownPath (path.getD ""))

/-- Takes a record into account, in the place of an earlier one of the same key. -/
def overlay (rows : List Diff) (d : Diff) : List Diff :=
  if rows.any (·.keyHash == d.keyHash) then
    rows.map fun row => if row.keyHash == d.keyHash then d else row
  else rows ++ [d]

/-- The last record of each key, without deleted keys, in the order in which keys first occur. -/
def overlaid (rows : List Diff) : List Diff :=
  (rows.foldl overlay []).filter fun d => !d.isRemoved

/-- The live records of a pointer: of a final one those of the repository and what the group has
done to them, of a temporary one what the group has done. -/
def liveRecords (live : LiveRecords) (ctx : Context) (a : Arena) (pointer : Int) :
    Except ResolveError (List Diff) := do
  let pending := a.records? pointer
  let persisted ←
    if 0 ≤ pointer then (live (ctx.place pointer)).mapError ResolveError.ledger
    else if pending.isNone then .error (.unresolvedPointer pointer)
    else .ok []
  return overlaid (persisted ++ pending.getD [])

/-! ### Keys and values -/

/-- An expression in the form in which it is kept, and the texts in it. -/
def normalize (type : Node) (value : Micheline) : Except NodeError (Micheline × List String) := do
  let n ← type.settle value
  return (← n.toWire false, ← n.strings)

/-- A key and its value, in the form in which they are kept. -/
structure Normalized where
  key : Micheline
  keyStrings : List String
  value : Option Micheline
  valueStrings : List String

/-- Brings a key and its value into the form in which they are kept. -/
def normalizeEntry (types : Node × Node) (key : Micheline) (value : Option Micheline) :
    Except NodeError Normalized := do
  let (key, keyStrings) ← normalize types.1 key
  match value with
  | none => return ⟨key, keyStrings, none, []⟩
  | some value =>
    let (value, valueStrings) ← normalize types.2 value
    return ⟨key, keyStrings, some value, valueStrings⟩

/-! ### Entries -/

def final? (pointer : Int) : Option Int := if 0 ≤ pointer then some pointer else none

/-- A diff that is kept if its pointer is final. -/
def kept (d : Diff) : Resolution := if 0 ≤ d.pointer then .ofDiff d else .empty

def alloc (ctx : Context) (pointer : Int) (keyType valueType : Micheline) : Resolve Resolution := do
  let key ← ((Node.ofType keyType).mapError ResolveError.node : Except _ _)
  let value ← ((Node.ofType valueType).mapError ResolveError.node : Except _ _)
  modifyArena (·.openAt pointer ⟨none, none, some (key, value)⟩)
  if 0 ≤ pointer then return .ofAction (← makeAction ctx .alloc none (some pointer))
  else return .empty

def update (settings : Settings) (ctx : Context) (pointer : Int) (key : Micheline)
    (keyHash : String) (value : Option Micheline) : Resolve Resolution := do
  let located ← (locate settings (← get).arena pointer : Except _ _)
  let path := pathOf? ctx (← get).arena located
  modifyArena (·.keepPath pointer path)
  let types ← (typesOf ctx (← get).arena pointer path : Except _ _)
  let entry ← ((normalizeEntry types key value).mapError ResolveError.node : Except _ _)
  let record : Diff :=
    { id := ← nextId ctx "update" pointer keyHash, pointer, key := entry.key, keyHash
      keyStrings := entry.keyStrings, value := entry.value, valueStrings := entry.valueStrings
      path := path.getD "", address := ctx.address, provenance := ctx.provenance }
  modifyArena (·.push pointer record)
  return kept record

/-- Gives a copy of a record to a pointer. -/
def copyRecord (ctx : Context) (destination : Int) (path : String) (record : Diff) :
    Resolve Resolution := do
  let copied := ctx.copied destination path record (← nextId ctx "copy" destination record.keyHash)
  modifyArena (·.push destination copied)
  return kept copied

/-- Takes the steps for the items of a list in turn. -/
def forEach {α : Type} (step : α → Resolve Resolution) : List α → Resolve Resolution
  | [] => return .empty
  | item :: items => return (← step item) ++ (← forEach step items)

def recordCopy (settings : Settings) (ctx : Context) (source destination : Int) :
    Resolve Resolution := do
  if 0 ≤ destination then
    let origin ← (resolveSource settings (← get).arena source : Except _ _)
    return .ofAction (← makeAction ctx .copy (final? origin) (some destination))
  else return .empty

/-- What a copy remembers of its destination. -/
def copyLink (ctx : Context) (a : Arena) (source destination : Int) : Except ResolveError Link :=
  let path := (pathOf? ctx a source).or (pathOf? ctx a destination)
  let types := (typesOf ctx a source path).toOption
  if path.isNone && types.isNone then .error (.unresolvedPointer destination)
  else .ok ⟨some source, path, types⟩

def copy (live : LiveRecords) (settings : Settings) (ctx : Context) (source destination : Int) :
    Resolve Resolution := do
  let action ← recordCopy settings ctx source destination
  let records ← (liveRecords live ctx (← get).arena source : Except _ _)
  let link ← (copyLink ctx (← get).arena source destination : Except _ _)
  modifyArena (·.setLink destination link)
  modifyArena (·.touch destination)
  let path := (pathOf? ctx (← get).arena destination).getD ""
  return action ++ (← forEach (copyRecord ctx destination path) records)

/-- Gives a pointer the record that a key is deleted. -/
def deleteRecord (ctx : Context) (pointer : Int) (record : Diff) : Resolve Resolution := do
  let deleted := ctx.deleted record (← nextId ctx "remove" pointer record.keyHash)
  modifyArena (·.push pointer deleted)
  return .ofDiff deleted

def remove (live : LiveRecords) (ctx : Context) (pointer : Int) : Resolve Resolution :=
  if pointer < 0 then do
    modifyArena (·.discard pointer)
    return .empty
  else do
    let records ← (liveRecords live ctx (← get).arena pointer : Except _ _)
    let deleted ← forEach (deleteRecord ctx pointer) records
    return deleted ++ .ofAction (← makeAction ctx .remove (some pointer) none)

def entry (live : LiveRecords) (settings : Settings) (ctx : Context) :
    LogEntry → Resolve Resolution
  | .alloc pointer keyType valueType => alloc ctx pointer keyType valueType
  | .update pointer key keyHash value => update settings ctx pointer key keyHash value
  | .copy source destination => copy live settings ctx source destination
  | .remove pointer => remove live ctx pointer

def resolve (live : LiveRecords) (settings : Settings) (ctx : Context) (log : List LogEntry) :
    Resolve Resolution :=
  forEach (entry live settings ctx) log

end Resolver

end Lineage
