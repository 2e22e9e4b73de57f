import Mathlib.Data.Fintype.Defs
import Mathlib.Data.Finset.Insert
import Lineage.Micheline.Identifier
import Lineage.Proofs.Digest.Base58
import Lineage.Proofs.Typed.TypeExpression

/-!
# Identifiers look like what they are

The text of an identifier begins with letters that tell its kind, and all texts of a kind have one
length: a mark and the number of bytes behind it fix an interval of numbers, and all of them have
these letters for their highest digits (`Label.looks_encode`). What a packed identifier is read
as is the text of its own label (`decode_ok_iff`), and no text begins with the letters of two.
-/

namespace Lineage.Identifier

/-- The kinds of texts, named for the letters with which they begin. -/
inductive Label where
  | tz1
  | tz2
  | tz3
  | tz4
  | kt1
  | edpk
  | sppk
  | p2pk
  | sig
  | net
  deriving DecidableEq

namespace Label

instance : Fintype Label where
  elems := {tz1, tz2, tz3, tz4, kt1, edpk, sppk, p2pk, sig, net}
  complete label := by cases label <;> decide

def letters : Label → String
  | tz1 => "tz1"
  | tz2 => "tz2"
  | tz3 => "tz3"
  | tz4 => "tz4"
  | kt1 => "KT1"
  | edpk => "edpk"
  | sppk => "sppk"
  | p2pk => "p2pk"
  | sig => "sig"
  | net => "Net"

def length : Label → Nat
  | tz1 | tz2 | tz3 | tz4 | kt1 => 36
  | edpk => 54
  | sppk | p2pk => 55
  | sig => 96
  | net => 15

def mark : Label → List UInt8
  | tz1 => [6, 161, 159]
  | tz2 => [6, 161, 161]
  | tz3 => [6, 161, 164]
  | tz4 => [6, 161, 166]
  | kt1 => contractMark
  | edpk => [13, 15, 37, 217]
  | sppk => [3, 254, 226, 86]
  | p2pk => [3, 178, 139, 127]
  | sig => signatureMark
  | net => chainMark

def payload : Label → Nat
  | tz1 | tz2 | tz3 | tz4 | kt1 => 20
  | edpk => 32
  | sppk | p2pk => 33
  | sig => 64
  | net => 4

/-- The label of account hashes, by their curve. -/
def ofCurve? (tag : UInt8) : Option Label := [tz1, tz2, tz3, tz4][tag.toNat]?

/-- The label of public keys, by their curve. -/
def ofKey? (tag : UInt8) : Option Label := [edpk, sppk, p2pk][tag.toNat]?

/-- The text begins with the letters of the label and has its length. -/
structure Looks (label : Label) (text : String) : Prop where
  letters : label.letters.toList <+: text.toList
  length : text.length = label.length

variable {label label' : Label} {tag : UInt8}

lemma curveMark?_eq : curveMark? tag = (ofCurve? tag).map mark := by
  unfold curveMark? ofCurve?
  rw [← List.getElem?_map]
  rfl

lemma keyMark?_eq : keyMark? tag = (ofKey? tag).map fun label => (label.mark, label.payload) := by
  unfold keyMark? ofKey?
  rw [← List.getElem?_map]
  rfl

/-! ### What texts look like -/

/-- The number of the characters behind the letters. -/
def behind (label : Label) : Nat := label.length - label.letters.length

lemma numeral_letters (label : Label) :
    Base58.numeral (Base58.valueOf label.letters.toList) = label.letters.toList := by
  have hall : ∀ label : Label, label.letters.toList ⊆ Base58.alphabet ∧
      label.letters.toList.head? ≠ some '1' := by
    decide +kernel
  obtain ⟨hsubset, hhead⟩ := hall label
  exact Base58.numeral_valueOf hsubset fun c hc hone => hhead (hone ▸ hc)

/-- The numbers of a mark with bytes behind it lie among those that begin with the letters. -/
lemma bounds (label : Label) :
    0 < Base58.valueOf label.letters.toList ∧
      Base58.valueOf label.letters.toList * 58 ^ label.behind ≤
        256 ^ (label.payload + 4) * Base58.number label.mark ∧
      256 ^ (label.payload + 4) * (Base58.number label.mark + 1) ≤
        (Base58.valueOf label.letters.toList + 1) * 58 ^ label.behind := by
  revert label
  decide +kernel

/-- **The looks of texts**, whatever the payload and the checksum are. -/
theorem looks_encode {payload check : List UInt8} (hpayload : payload.length = label.payload)
    (hcheck : check.length = 4) :
    label.Looks (Base58.encode (label.mark ++ payload ++ check)) := by
  have htail : (payload ++ check).length = label.payload + 4 := by
    rw [List.length_append, hpayload, hcheck]
  have hmark : ∀ label : Label, label.mark ≠ [] ∧ label.mark.head? ≠ some 0 := by decide
  have hlengths : ∀ label : Label, label.letters.toList.length + label.behind = label.length := by
    decide +kernel
  obtain ⟨hne, hzero⟩ := hmark label
  obtain ⟨hpos, hlow, hhigh⟩ := label.bounds
  rw [← htail] at hlow hhigh
  obtain ⟨hletters, hlength⟩ :=
    Base58.encode_of_bounds hne (fun b hb hb0 => hzero (hb0 ▸ hb)) hpos hlow hhigh
  rw [numeral_letters] at hletters hlength
  rw [List.append_assoc]
  exact ⟨hletters, hlength.trans (hlengths label)⟩

lemma length_checksum (data : List UInt8) : (checksum data).length = 4 := rfl

theorem looks_base58Check {payload : List UInt8} (hpayload : payload.length = label.payload) :
    label.Looks (base58Check label.mark payload) := looks_encode hpayload (length_checksum _)

lemma eq_of_prefix {text : List Char} (h : label.letters.toList <+: text)
    (h' : label'.letters.toList <+: text) : label' = label := by
  have hall : ∀ label label' : Label, label.letters.toList <+: label'.letters.toList →
      label' = label := by
    decide +kernel
  rcases List.prefix_or_prefix_of_prefix h h' with h | h
  · exact hall _ _ h
  · exact (hall _ _ h).symm

end Label

/-! ### Packed identifiers -/

namespace Kind

/-- The label of a packed identifier, which its first bytes tell. -/
def labelOf? (kind : Kind) (bytes : List UInt8) : Option Label :=
  match kind with
  | .address =>
    if bytes.getD 0 0 = 0 then Label.ofCurve? (bytes.getD 1 0)
    else if bytes.getD 0 0 = 1 then some .kt1
    else none
  | .keyHash => Label.ofCurve? (bytes.getD 0 0)
  | .key => Label.ofKey? (bytes.getD 0 0)
  | .signature => some .sig
  | .chainId => some .net

/-- The number of the bytes before the payload. -/
def tags (kind : Kind) (label : Label) : Nat :=
  match kind with
  | .address => if label = .kt1 then 1 else 2
  | .keyHash | .key => 1
  | .signature | .chainId => 0

/-- The number of bytes that a packed identifier has to have. An address has as many for a contract,
which has one byte more behind its hash, as for an account. -/
def needed (kind : Kind) (label : Label) : Nat :=
  match kind with
  | .address => 22
  | .keyHash | .key | .signature | .chainId => kind.tags label + label.payload

/-- The payload of a packed identifier. -/
def payloadOf (kind : Kind) (label : Label) (bytes : List UInt8) : List UInt8 :=
  (bytes.drop (kind.tags label)).take label.payload

/-- What is put behind the text: the name of an entry point, if an address has one. -/
def suffixOf (kind : Kind) (bytes : List UInt8) : String :=
  if kind = .address ∧ 22 < bytes.length then "%" ++ Utf8.decodeLossy (bytes.drop 22) else ""

end Kind

variable {kind : Kind} {label : Label} {hex text : String} {bytes hash : List UInt8} {tag : UInt8}

lemma readHex_ok : readHex hex = .ok bytes ↔ Hex.decode? hex = some bytes := by
  unfold readHex
  cases Hex.decode? hex <;> simp

lemma requireLength_ok {n : Nat} {u : Unit} :
    requireLength kind n bytes = .ok u ↔ n ≤ bytes.length := by
  unfold requireLength
  split
  · next h => simp; omega
  · next h => simp; omega

lemma accountText_ok : accountText tag hash = .ok text ↔
    ∃ label, Label.ofCurve? tag = some label ∧ text = base58Check label.mark hash := by
  unfold accountText
  rw [Label.curveMark?_eq]
  cases Label.ofCurve? tag with
  | none => simp
  | some label => simp [eq_comm]

lemma payload_of_ofCurve? (h : Label.ofCurve? tag = some label) :
    label.payload = 20 ∧ label ≠ .kt1 := by
  have hall : ∀ label ∈ [Label.tz1, .tz2, .tz3, .tz4], label.payload = 20 ∧ label ≠ .kt1 := by
    decide
  exact hall label (List.mem_of_getElem? h)

lemma accountOfAddress_ok : accountOfAddress bytes = .ok text ↔
    ∃ label, Kind.address.labelOf? bytes = some label ∧
      text = base58Check label.mark (Kind.address.payloadOf label bytes) := by
  unfold accountOfAddress Kind.labelOf?
  dsimp only
  by_cases hzero : bytes.getD 0 0 = 0
  · rw [if_pos hzero, if_pos hzero, accountText_ok]
    refine exists_congr fun label => and_congr_right fun hlabel => ?_
    obtain ⟨hpayload, hne⟩ := payload_of_ofCurve? hlabel
    rw [Kind.payloadOf, Kind.tags, if_neg hne, hpayload]
  · rw [if_neg hzero, if_neg hzero]
    by_cases hone : bytes.getD 0 0 = 1
    · rw [if_pos hone, if_pos hone]
      simp only [Except.ok.injEq, Option.some.injEq, exists_eq_left']
      exact eq_comm
    · rw [if_neg hone, if_neg hone]
      simp

/-- What a packed identifier with a label is read as. -/
def Kind.textOf (kind : Kind) (label : Label) (bytes : List UInt8) : String :=
  base58Check label.mark (kind.payloadOf label bytes) ++ kind.suffixOf bytes

/-- Bytes are a packed identifier with a label. -/
structure Kind.Packs (kind : Kind) (label : Label) (bytes : List UInt8) : Prop where
  labelOf? : kind.labelOf? bytes = some label
  needed_le : kind.needed label ≤ bytes.length

/-- The digits of a packed identifier, and the text that it is read as. -/
def Kind.ReadsAs (kind : Kind) (hex text : String) : Prop :=
  ∃ bytes, Hex.decode? hex = some bytes ∧
    ∃ label, kind.Packs label bytes ∧ text = kind.textOf label bytes

lemma needed_of_ne (h : kind ≠ .address) : kind.needed label = kind.tags label + label.payload := by
  cases kind with
  | address => exact absurd rfl h
  | _ => rfl

lemma textOf_of_ne (h : kind ≠ .address) :
    kind.textOf label bytes = base58Check label.mark (kind.payloadOf label bytes) := by
  unfold Kind.textOf Kind.suffixOf
  rw [if_neg fun h' => h h'.1, String.append_empty]

lemma decodeAddress_ok : decodeAddress hex = .ok text ↔ Kind.address.ReadsAs hex text := by
  have hsuffix : ∀ {account : String} {bytes : List UInt8},
      (if 22 < bytes.length then return account ++ "%" ++ Utf8.decodeLossy (bytes.drop 22)
        else return account) = Except.ok (ε := DecodeError) text ↔
      text = account ++ Kind.address.suffixOf bytes := by
    intro account bytes
    unfold Kind.suffixOf
    by_cases h : 22 < bytes.length
    · rw [if_pos h, if_pos ⟨rfl, h⟩, ← String.append_assoc]
      exact (Except.ok.injEq _ _).to_iff.trans eq_comm
    · rw [if_neg h, if_neg fun h' => h h'.2, String.append_empty]
      exact (Except.ok.injEq _ _).to_iff.trans eq_comm
  unfold decodeAddress Kind.ReadsAs
  simp only [except_bind_ok, readHex_ok, requireLength_ok, accountOfAddress_ok]
  constructor
  · rintro ⟨bytes, hhex, -, hlength, account, ⟨label, hlabel, rfl⟩, htext⟩
    exact ⟨bytes, hhex, label, ⟨hlabel, hlength⟩, hsuffix.1 htext⟩
  · rintro ⟨bytes, hhex, label, ⟨hlabel, hlength⟩, htext⟩
    exact ⟨bytes, hhex, (), hlength, _, ⟨label, hlabel, rfl⟩, hsuffix.2 htext⟩

lemma decodeKeyHash_ok : decodeKeyHash hex = .ok text ↔ Kind.keyHash.ReadsAs hex text := by
  have hpayload : ∀ {label bytes}, Kind.keyHash.labelOf? bytes = some label → label.payload = 20 :=
    fun h => (payload_of_ofCurve? h).1
  unfold decodeKeyHash Kind.ReadsAs
  simp only [except_bind_ok, readHex_ok, requireLength_ok, accountText_ok,
    textOf_of_ne (show Kind.keyHash ≠ .address by decide)]
  constructor
  · rintro ⟨bytes, hhex, -, hlength, label, hlabel, rfl⟩
    refine ⟨bytes, hhex, label, ⟨hlabel, ?_⟩, ?_⟩
    · rwa [Kind.needed, Kind.tags, hpayload hlabel]
    · rw [Kind.payloadOf, Kind.tags, hpayload hlabel]
  · rintro ⟨bytes, hhex, label, ⟨hlabel, hlength⟩, rfl⟩
    rw [Kind.needed, Kind.tags, hpayload hlabel] at hlength
    refine ⟨bytes, hhex, (), hlength, label, hlabel, ?_⟩
    rw [Kind.payloadOf, Kind.tags, hpayload hlabel]

lemma decodeKey_ok : decodeKey hex = .ok text ↔ Kind.key.ReadsAs hex text := by
  unfold decodeKey Kind.ReadsAs
  simp only [except_bind_ok, readHex_ok, requireLength_ok, Label.keyMark?_eq,
    textOf_of_ne (show Kind.key ≠ .address by decide)]
  constructor
  · rintro ⟨bytes, hhex, -, -, htext⟩
    cases hlabel : Label.ofKey? (bytes.getD 0 0) with
    | none =>
      rw [hlabel] at htext
      cases htext
    | some label =>
      rw [hlabel] at htext
      obtain ⟨u, hlength, htext⟩ := except_bind_ok.1 htext
      exact ⟨bytes, hhex, label, ⟨hlabel, requireLength_ok.1 hlength⟩, (Except.ok.inj htext).symm⟩
  · rintro ⟨bytes, hhex, label, ⟨hlabel, hlength⟩, rfl⟩
    rw [Kind.needed, Kind.tags] at hlength
    refine ⟨bytes, hhex, (), by omega, ?_⟩
    rw [show Label.ofKey? (bytes.getD 0 0) = some label from hlabel]
    exact except_bind_ok.2 ⟨(), requireLength_ok.2 hlength, rfl⟩

/-- A kind with one label needs no bytes that tell it. -/
lemma untagged_ok (kind : Kind) (label : Label) (hne : kind ≠ .address)
    (hlabel : ∀ bytes, kind.labelOf? bytes = some label) (htags : kind.tags label = 0) :
    (do
      let bytes ← readHex hex
      requireLength kind label.payload bytes
      return base58Check label.mark (bytes.take label.payload)) = Except.ok text ↔
      kind.ReadsAs hex text := by
  have hneeded : kind.needed label = label.payload := by
    rw [needed_of_ne hne, htags, Nat.zero_add]
  have htext : ∀ bytes, kind.textOf label bytes =
      base58Check label.mark (bytes.take label.payload) := by
    intro bytes
    rw [textOf_of_ne hne, Kind.payloadOf, htags, List.drop_zero]
  unfold Kind.ReadsAs
  simp only [except_bind_ok, readHex_ok, requireLength_ok]
  constructor
  · rintro ⟨bytes, hhex, -, hlength, hread⟩
    have heq := (Except.ok.inj hread).symm
    exact ⟨bytes, hhex, label, ⟨hlabel bytes, hneeded ▸ hlength⟩, heq.trans (htext bytes).symm⟩
  · rintro ⟨bytes, hhex, label', ⟨hlabel', hlength⟩, rfl⟩
    obtain rfl := Option.some.inj ((hlabel bytes).symm.trans hlabel')
    rw [hneeded] at hlength
    exact ⟨bytes, hhex, (), hlength, congrArg Except.ok (htext bytes).symm⟩

lemma decodeSignature_ok : decodeSignature hex = .ok text ↔ Kind.signature.ReadsAs hex text :=
  untagged_ok .signature .sig (by decide) (fun _ => rfl) rfl

lemma decodeChainId_ok : decodeChainId hex = .ok text ↔ Kind.chainId.ReadsAs hex text :=
  untagged_ok .chainId .net (by decide) (fun _ => rfl) rfl

/-- **What packed identifiers are read as**: they are read when they have a label and enough bytes
for it, as the text of the label. -/
theorem decode_ok_iff : decode kind hex = .ok text ↔ kind.ReadsAs hex text := by
  cases kind with
  | address => exact decodeAddress_ok
  | keyHash => exact decodeKeyHash_ok
  | key => exact decodeKey_ok
  | signature => exact decodeSignature_ok
  | chainId => exact decodeChainId_ok

/-! ### Texts tell what they are -/

lemma tags_add_payload_le (h : kind.labelOf? bytes = some label) :
    kind.tags label + label.payload ≤ kind.needed label := by
  cases kind with
  | address =>
    rw [Kind.labelOf?] at h
    split at h
    · obtain ⟨hpayload, hne⟩ := payload_of_ofCurve? h
      rw [Kind.tags, if_neg hne, hpayload]
      exact Nat.le_refl 22
    · obtain ⟨-, h⟩ := Option.ite_none_right_eq_some.1 h
      obtain rfl := Option.some.inj h
      decide
  | _ => exact Nat.le_refl _

lemma Kind.Packs.length_payloadOf (h : kind.Packs label bytes) :
    (kind.payloadOf label bytes).length = label.payload := by
  have hle := tags_add_payload_le h.labelOf?
  have hlength := h.needed_le
  unfold Kind.payloadOf
  rw [List.length_take, List.length_drop]
  omega

/-- **Identifiers look like what they are.** Whatever its payload and its checksum are, the text of
a label begins with the letters of the label and has its length. A packed identifier is read as a
text of its own label, to which an address may add the name of an entry point, and this text begins
with the letters of no other label. -/
theorem looks_decode :
    (∀ (label : Label) (payload check : List UInt8), payload.length = label.payload →
      check.length = 4 → label.Looks (Base58.encode (label.mark ++ payload ++ check))) ∧
    (∀ (label : Label) (payload : List UInt8), payload.length = label.payload →
      label.Looks (base58Check label.mark payload)) ∧
    ∀ (kind : Kind) (hex text : String), decode kind hex = .ok text →
      ∃ bytes label, Hex.decode? hex = some bytes ∧ kind.labelOf? bytes = some label ∧
        (∃ base, text = base ++ kind.suffixOf bytes ∧ label.Looks base) ∧
        ∀ label' : Label, label'.letters.toList <+: text.toList ↔ label' = label := by
  refine ⟨fun _ _ _ => Label.looks_encode, fun _ _ => Label.looks_base58Check, ?_⟩
  intro kind hex text h
  obtain ⟨bytes, hhex, label, hpacks, rfl⟩ := decode_ok_iff.1 h
  have hlooks := Label.looks_base58Check hpacks.length_payloadOf
  have hletters : label.letters.toList <+: (kind.textOf label bytes).toList := by
    unfold Kind.textOf
    rw [String.toList_append]
    exact hlooks.letters.trans (List.prefix_append _ _)
  refine ⟨bytes, label, hhex, hpacks.labelOf?, ⟨_, rfl, hlooks⟩, fun label' => ⟨?_, ?_⟩⟩
  · exact Label.eq_of_prefix hletters
  · rintro rfl
    exact hletters

/-- The packed address of a contract with the name of an entry point behind it. -/
def packedMint : String := "0100000000000000000000000000000000000000ff006d696e74"

/-- A payload and a checksum, a payload without checksum, and a packed identifier. -/
theorem looks_decode_mint :
    Label.net.Looks (Base58.encode (Label.net.mark ++ [122, 6, 167, 112] ++ [0, 0, 0, 255])) ∧
    Label.net.Looks (base58Check Label.net.mark [122, 6, 167, 112]) ∧
    decode .address packedMint = .ok "KT18amZmM5W7qDWVt2pH6uj7sCEd4FKv6KoK%mint" ∧
    ∀ label : Label, label.letters.toList <+:
      "KT18amZmM5W7qDWVt2pH6uj7sCEd4FKv6KoK%mint".toList ↔ label = .kt1 := by
  have hdecode : decode .address packedMint =
      .ok "KT18amZmM5W7qDWVt2pH6uj7sCEd4FKv6KoK%mint" :=
    except_ok_of_toOption (by decide +kernel)
  obtain ⟨hencode, hcheck, hpacked⟩ := looks_decode
  obtain ⟨bytes, label, -, -, -, hletters⟩ := hpacked .address packedMint _ hdecode
  refine ⟨hencode .net [122, 6, 167, 112] [0, 0, 0, 255] rfl rfl,
    hcheck .net [122, 6, 167, 112] rfl, hdecode, ?_⟩
  obtain rfl := (hletters .kt1).1 (by decide +kernel)
  exact hletters

end Lineage.Identifier
