import Lineage.Digest.Base58
import Lineage.Digest.Sha256
import Lineage.Text.Hex
import Lineage.Text.Utf8

/-!
# Identifiers

Addresses, keys, signatures and chain identifiers have a packed form, which is bytes, and a text
form: base 58 over a mark of the kind, the payload and a checksum. This module turns the packed
form, given in hexadecimal digits, into text.
-/

namespace Lineage

/-- What may be wrong with wire data. -/
inductive DecodeError where
  /-- no expression can be read from the JSON; what the JSON reader itself says is left out -/
  | invalidJson
  /-- no bytes can be read from the digits -/
  | invalidHex (value : String)
  /-- a packed identifier is too short -/
  | invalidLength (kind : String) (expected got : Nat)
  /-- a packed identifier begins with an unknown byte -/
  | unknownTag (kind : String) (tag : UInt8)
  deriving DecidableEq, Repr

/-- The wording of an error. Of JSON that cannot be read it ends where the words of the JSON reader
would begin. -/
def DecodeError.message : DecodeError → String
  | invalidJson => "invalid micheline"
  | invalidHex value => s!"invalid hex string '{value}'"
  | invalidLength kind expected got =>
    s!"invalid {kind} length: expected {expected} bytes, got {got}"
  | unknownTag kind tag => "unknown " ++ kind ++ " tag: 0x" ++ Hex.encode [tag]

namespace Identifier

/-! ### Checked base 58 -/

/-- The first four bytes of the double digest. -/
def checksum (data : List UInt8) : List UInt8 := (Sha256.digest (Sha256.digest data)).take 4

/-- The text of a mark and a payload, with their checksum. -/
def base58Check (mark payload : List UInt8) : String :=
  Base58.encode (mark ++ payload ++ checksum (mark ++ payload))

/-! ### Marks -/

/-- The marks of account hashes, one for each curve. -/
def curveMark? (tag : UInt8) : Option (List UInt8) :=
  [[6, 161, 159], [6, 161, 161], [6, 161, 164], [6, 161, 166]][tag.toNat]?

def contractMark : List UInt8 := [2, 90, 121]

/-- The marks and payload lengths of public keys, one for each curve. -/
def keyMark? (tag : UInt8) : Option (List UInt8 × Nat) :=
  [([13, 15, 37, 217], 32), ([3, 254, 226, 86], 33), ([3, 178, 139, 127], 33)][tag.toNat]?

def signatureMark : List UInt8 := [4, 130, 43]

def chainMark : List UInt8 := [87, 82, 0]

/-! ### Packed forms -/

inductive Kind where
  | address
  | keyHash
  | key
  | signature
  | chainId
  deriving DecidableEq, Repr

def Kind.name : Kind → String
  | address => "address"
  | keyHash => "key_hash"
  | key => "key"
  | signature => "signature"
  | chainId => "chain_id"

def readHex (hex : String) : Except DecodeError (List UInt8) :=
  match Hex.decode? hex with
  | some bytes => .ok bytes
  | none => .error (.invalidHex hex)

/-- Refuses a packed identifier that is shorter than it must be. -/
def requireLength (kind : Kind) (expected : Nat) (bytes : List UInt8) : Except DecodeError Unit :=
  if bytes.length < expected then .error (.invalidLength kind.name expected bytes.length)
  else .ok ()

/-- The text of an account hash with its curve. -/
def accountText (tag : UInt8) (hash : List UInt8) : Except DecodeError String :=
  match curveMark? tag with
  | some mark => .ok (base58Check mark hash)
  | none => .error (.unknownTag Kind.keyHash.name tag)

/-- The text of the account or contract of a packed address. -/
def accountOfAddress (bytes : List UInt8) : Except DecodeError String :=
  let tag := bytes.getD 0 0
  if tag = 0 then accountText (bytes.getD 1 0) ((bytes.drop 2).take 20)
  else if tag = 1 then .ok (base58Check contractMark ((bytes.drop 1).take 20))
  else .error (.unknownTag Kind.address.name tag)

/-- The text of a packed address: 22 bytes, and behind them the name of an entry point. -/
def decodeAddress (hex : String) : Except DecodeError String := do
  let bytes ← readHex hex
  requireLength .address 22 bytes
  let account ← accountOfAddress bytes
  if 22 < bytes.length then return account ++ "%" ++ Utf8.decodeLossy (bytes.drop 22)
  else return account

/-- The text of a packed key hash: the tag of the curve and 20 bytes. -/
def decodeKeyHash (hex : String) : Except DecodeError String := do
  let bytes ← readHex hex
  requireLength .keyHash 21 bytes
  accountText (bytes.getD 0 0) ((bytes.drop 1).take 20)

/-- The text of a packed public key: the tag of the curve and 32 or 33 bytes. -/
def decodeKey (hex : String) : Except DecodeError String := do
  let bytes ← readHex hex
  requireLength .key 1 bytes
  let tag := bytes.getD 0 0
  match keyMark? tag with
  | none => .error (.unknownTag Kind.key.name tag)
  | some (mark, length) =>
    requireLength .key (1 + length) bytes
    return base58Check mark ((bytes.drop 1).take length)

/-- The text of a packed signature: 64 bytes. -/
def decodeSignature (hex : String) : Except DecodeError String := do
  let bytes ← readHex hex
  requireLength .signature 64 bytes
  return base58Check signatureMark (bytes.take 64)

/-- The text of a packed chain identifier: four bytes. -/
def decodeChainId (hex : String) : Except DecodeError String := do
  let bytes ← readHex hex
  requireLength .chainId 4 bytes
  return base58Check chainMark (bytes.take 4)

/-- The text of a packed identifier of a given kind. -/
def decode : Kind → String → Except DecodeError String
  | .address => decodeAddress
  | .keyHash => decodeKeyHash
  | .key => decodeKey
  | .signature => decodeSignature
  | .chainId => decodeChainId

end Identifier

end Lineage
