/-!
# Scalar types

The types whose values have no parts that are values of types themselves.
-/

namespace Lineage

inductive Scalar where
  | int
  | nat
  | string
  | bytes
  | bool
  | unit
  | mutez
  | timestamp
  | address
  | key
  | keyHash
  | signature
  | chainId
  | operation
  | never
  | bls12381Fr
  | bls12381G1
  | bls12381G2
  | saplingState
  | saplingTransaction
  deriving DecidableEq, Repr

namespace Scalar

def all : List Scalar :=
  [int, nat, string, bytes, bool, unit, mutez, timestamp, address, key, keyHash, signature, chainId,
    operation, never, bls12381Fr, bls12381G1, bls12381G2, saplingState, saplingTransaction]

def name : Scalar → String
  | int => "int"
  | nat => "nat"
  | string => "string"
  | bytes => "bytes"
  | bool => "bool"
  | unit => "unit"
  | mutez => "mutez"
  | timestamp => "timestamp"
  | address => "address"
  | key => "key"
  | keyHash => "key_hash"
  | signature => "signature"
  | chainId => "chain_id"
  | operation => "operation"
  | never => "never"
  | bls12381Fr => "bls12_381_fr"
  | bls12381G1 => "bls12_381_g1"
  | bls12381G2 => "bls12_381_g2"
  | saplingState => "sapling_state"
  | saplingTransaction => "sapling_transaction"

def ofName? (s : String) : Option Scalar := all.find? (·.name == s)

def isNumeric (s : Scalar) : Bool := [int, nat, mutez].contains s

/-- Types whose values are searched for as text. -/
def isStringLike (s : Scalar) : Bool := [string, address, key, keyHash, signature].contains s

def isComparable (s : Scalar) : Bool :=
  !([operation, bls12381Fr, bls12381G1, bls12381G2, saplingState, saplingTransaction].contains s)

end Scalar

end Lineage
