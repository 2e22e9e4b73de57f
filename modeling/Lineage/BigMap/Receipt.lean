import Lineage.BigMap.Resolver
import Lineage.Contract.Script

/-!
# Receipts

A receipt is what an operation leaves behind: the storage of the contract, and the records its log
comes to. It is read from the JSON content of a transaction or an origination. An applied operation
carries its result in its metadata, a simulated one is its own result.

A new contract whose script does not show the pointers of its big maps has its storage asked for at
a node of the network.
-/

namespace Lineage

/-- What is known of an operation besides its content. -/
structure Operation where
  provenance : Provenance
  source : String
  destination : String

/-- The storage after an operation, and the records of its big maps. -/
structure Receipt where
  records : Resolution
  storage : Option Micheline
  /-- was there no log? -/
  empty : Bool
  deriving DecidableEq, Repr

/-- The storage of a contract at a level, as a node of the network gives it. -/
abbrev NodeStorage := String → Int → Except RemoteError Micheline

/-- What receipts are read with. -/
structure ReceiptSources where
  live : LiveRecords
  node : NodeStorage
  settings : Settings
  /-- are the operations simulated? -/
  simulate : Bool

/-- What is remembered between the receipts of a group: what the resolver remembers, and the number
of times that a node has been asked. -/
structure ReceiptState where
  resolver : Resolver
  requests : Nat

def ReceiptState.start : ReceiptState := ⟨.start, 0⟩

/-- A step in reading receipts. What is remembered is kept also when the step fails. -/
abbrev ReadReceipt := ExceptT ResolveError (StateM ReceiptState)

namespace Receipt

/-! ### Contents -/

def malformed {α : Type} (reason : String) : Except ResolveError α := .error (.invalidLog reason)

/-- The result of an applied operation. -/
def resultOf (content : Json) : Except ResolveError Json :=
  match content.at? ["metadata", "operation_result"] with
  | some result => .ok result
  | none => malformed "operation without result"

def expression (value : Json) : Except ResolveError Micheline :=
  match Micheline.ofJson? value with
  | some m => .ok m
  | none => .error (.node (.decode .invalidJson))

/-- The storage in the result of an operation. -/
def storageOf (result : Json) : Except ResolveError Micheline :=
  match result.field? "storage" with
  | some value => expression value
  | none => malformed "missing 'storage'"

/-- The log in the result of an operation, which is empty when there is none. -/
def logOf (result : Json) : List Json := ((result.field? "big_map_diff").bind Json.array?).getD []

/-- The contract a transaction goes to, and its result. -/
def transactionTarget (simulate : Bool) (content : Json) (op : Operation) :
    Except ResolveError (String × Json) :=
  if simulate then .ok (op.destination, content)
  else
    match (content.field? "destination").bind Json.text? with
    | some address => return (address, ← resultOf content)
    | none => malformed "transaction without destination"

/-- The contract an origination makes, and its result. -/
def originationTarget (simulate : Bool) (content : Json) (op : Operation) :
    Except ResolveError (String × Json) :=
  if simulate then .ok (op.source, content)
  else do
    let result ← resultOf content
    match (result.at? ["originated_contracts", "0"]).bind Json.text? with
    | some address => return (address, result)
    | none => malformed "origination without originated contract"

def scriptStorage (content : Json) : Except ResolveError Micheline :=
  match content.at? ["script", "storage"] with
  | some value => expression value
  | none => malformed "origination without script storage"

/-! ### Storage -/

/-- A storage value in the form in which it is kept. -/
def normalizeStorage (storageType : Tree) (storage : Micheline) : Except ResolveError Micheline :=
  ((storageType.settle [storage]).bind (·.toWire false)).mapError .node

def pointersIn (storageType : Tree) (storage : Micheline) :
    Except ResolveError (Dictionary Int String) :=
  (storageType.pointers storage).mapError .node

/-! ### Reading -/

def resolveLog (sources : ReceiptSources) (ctx : Context) (items : List Json) :
    ReadReceipt Resolution := do
  let entries ← (LogEntry.readAll sources.settings.strictActions items : Except _ _)
  let (result, resolver) :=
    (Resolver.resolve sources.live sources.settings ctx entries).run (← get).resolver
  modify fun s => { s with resolver }
  (result : Except _ _)

def ofTransaction (sources : ReceiptSources) (script : Script) (op : Operation) (content : Json) :
    ReadReceipt Receipt := do
  let (address, result) ← (transactionTarget sources.simulate content op : Except _ _)
  let raw ← (storageOf result : Except _ _)
  let storage ←
    if sources.simulate then pure raw
    else (normalizeStorage script.storage raw : Except _ _)
  let log := logOf result
  if log.isEmpty then return ⟨.empty, some storage, true⟩
  let pointers ← (pointersIn script.storage storage : Except _ _)
  let ctx : Context := ⟨script.storage, pointers, address, op.provenance⟩
  return ⟨← resolveLog sources ctx log, some storage, false⟩

/-- The storage of a new contract and the pointers of its big maps. When the script does not show
them, the storage is asked for, if that is allowed and the operation is no simulation. -/
def originatedStorage (sources : ReceiptSources) (storageType : Tree) (address : String)
    (level : Int) (storage : Micheline) : ReadReceipt (Micheline × Dictionary Int String) := do
  let shown := pointersIn storageType storage
  match shown with
  | .ok (pointer :: pointers) => return (storage, pointer :: pointers)
  | _ =>
    if !sources.settings.rpcFallback || sources.simulate then
      return (storage, ← (shown : Except _ _))
    modify fun s => { s with requests := s.requests + 1 }
    let storage ← ((sources.node address level).mapError ResolveError.remote : Except _ _)
    return (storage, ← (pointersIn storageType storage : Except _ _))

def ofOrigination (sources : ReceiptSources) (script : Script) (op : Operation) (content : Json) :
    ReadReceipt Receipt := do
  let (address, result) ← (originationTarget sources.simulate content op : Except _ _)
  let storage ← (scriptStorage content : Except _ _)
  let log := logOf result
  if log.isEmpty then return ⟨.empty, some storage, true⟩
  let (storage, pointers) ←
    originatedStorage sources script.storage address op.provenance.level storage
  let ctx : Context := ⟨script.storage, pointers, address, op.provenance⟩
  return ⟨← resolveLog sources ctx log, some storage, false⟩

end Receipt

end Lineage
