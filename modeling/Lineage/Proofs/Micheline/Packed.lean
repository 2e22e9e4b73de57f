import Lineage.Proofs.Micheline.Identifier
import Lineage.Proofs.Text.Utf8

/-!
# What texts tell of packed identifiers

Two packed identifiers are read as one text exactly when the bytes that are read are the same and the
names behind addresses are the same text (`decode_eq_iff`). Not all bytes are read: a packed
identifier may be longer than it has to be, the byte behind the hash of a contract does not count,
and the bytes of a name need not be text. Of identifiers without such freedom, which are `Exact`, the
text tells all bytes.
-/

namespace Lineage.Identifier

variable {kind : Kind} {label label' : Label} {hex hex' text text' : String}
  {bytes bytes' : List UInt8}

namespace Kind

/-- The number of the bytes of a packed identifier that are read: those that tell its label and those
of its payload. -/
def counted (kind : Kind) (bytes : List UInt8) : Nat :=
  match kind.labelOf? bytes with
  | some label => kind.tags label + label.payload
  | none => 0

/-- The bytes of a packed identifier that are read, apart from the name of an entry point. -/
def readPart (kind : Kind) (bytes : List UInt8) : List UInt8 := bytes.take (kind.counted bytes)

/-- **Packed identifiers without freedom**: they have the length of their kind, but an address may be
followed by a name, which is text; the byte behind the hash of a contract is zero. -/
structure Exact (kind : Kind) (bytes : List UInt8) : Prop where
  length (h : kind ≠ .address) : bytes.length = kind.counted bytes
  padding (h : kind = .address) (htag : bytes.getD 0 0 = 1) : bytes.getD 21 0 = 0
  name (h : kind = .address) : ∃ s : String, bytes.drop 22 = s.toUTF8.data.toList

/-! ### Labels and first bytes -/

lemma counted_of_label (h : kind.labelOf? bytes = some label) :
    kind.counted bytes = kind.tags label + label.payload := by
  unfold counted
  rw [h]

lemma labelOf?_take {n : Nat} (hn : 2 ≤ n) :
    kind.labelOf? (bytes.take n) = kind.labelOf? bytes := by
  have hget : ∀ i < 2, (bytes.take n).getD i 0 = bytes.getD i 0 := by
    intro i hi
    rw [List.getD_eq_getElem?_getD, List.getD_eq_getElem?_getD, List.getElem?_take_of_lt (by omega)]
  unfold labelOf?
  rw [hget 0 (by decide), hget 1 (by decide)]

lemma labelOf?_readPart (h : kind.labelOf? bytes = some label) :
    kind.labelOf? (kind.readPart bytes) = some label := by
  have hpayload : ∀ label : Label, 2 ≤ label.payload := by decide
  have hlabel := hpayload label
  unfold readPart
  rw [counted_of_label h, labelOf?_take (by omega), h]

lemma tag_of_getElem? {labels : List Label} {tag tag' : UInt8} (hnodup : labels.Nodup)
    (h : labels[tag.toNat]? = some label) (h' : labels[tag'.toNat]? = some label) : tag' = tag := by
  obtain ⟨hlt, -⟩ := List.getElem?_eq_some_iff.1 h
  exact (UInt8.toNat_inj.1 ((List.getElem?_inj hlt hnodup).1 (h.trans h'.symm))).symm

/-- **The label tells the bytes before the payload.** -/
lemma take_tags (h : kind.labelOf? bytes = some label) (h' : kind.labelOf? bytes' = some label)
    (hlength : kind.tags label ≤ bytes.length) (hlength' : kind.tags label ≤ bytes'.length) :
    bytes'.take (kind.tags label) = bytes.take (kind.tags label) := by
  have hone : ∀ {l : List UInt8}, 1 ≤ l.length → l.take 1 = [l.getD 0 0] := by
    intro l hl
    match l, hl with
    | b :: l, _ => rfl
  have htwo : ∀ {l : List UInt8}, 2 ≤ l.length → l.take 2 = [l.getD 0 0, l.getD 1 0] := by
    intro l hl
    match l, hl with
    | b :: c :: l, _ => rfl
  cases kind with
  | signature | chainId => rfl
  | keyHash =>
    have htag := tag_of_getElem? (by decide) h h'
    unfold tags at *
    rw [hone hlength, hone hlength', htag]
  | key =>
    have htag := tag_of_getElem? (by decide) h h'
    unfold tags at *
    rw [hone hlength, hone hlength', htag]
  | address =>
    unfold labelOf? at h h'
    dsimp only at h h'
    -- the first byte tells whether a contract is meant, and of accounts the second one the curve
    by_cases hzero : bytes.getD 0 0 = 0
    · rw [if_pos hzero] at h
      have hne := (payload_of_ofCurve? h).2
      split at h'
      · next hzero' =>
        have htag := tag_of_getElem? (by decide) h h'
        unfold tags at *
        rw [if_neg hne] at *
        rw [htwo hlength, htwo hlength', htag, hzero, hzero']
      · obtain rfl := Option.some.inj (Option.ite_none_right_eq_some.1 h').2
        exact absurd rfl hne
    · rw [if_neg hzero] at h
      obtain ⟨hcontract, h⟩ := Option.ite_none_right_eq_some.1 h
      obtain rfl := Option.some.inj h
      split at h'
      · exact absurd rfl (payload_of_ofCurve? h').2
      · have hcontract' := (Option.ite_none_right_eq_some.1 h').1
        unfold tags at *
        rw [if_pos rfl] at *
        rw [hone hlength, hone hlength', hcontract, hcontract']

/-! ### Texts and the bytes that are read -/

lemma Packs.counted_le (h : kind.Packs label bytes) : kind.counted bytes ≤ bytes.length := by
  rw [counted_of_label h.labelOf?]
  exact (tags_add_payload_le h.labelOf?).trans h.needed_le

lemma readPart_eq (h : kind.labelOf? bytes = some label) :
    kind.readPart bytes = bytes.take (kind.tags label) ++ kind.payloadOf label bytes := by
  unfold readPart payloadOf
  rw [counted_of_label h, List.take_add]

lemma readPart_eq_iff (h : kind.Packs label bytes) (h' : kind.Packs label' bytes') :
    kind.readPart bytes' = kind.readPart bytes ↔
      label' = label ∧ kind.payloadOf label' bytes' = kind.payloadOf label bytes := by
  have hle := h.counted_le
  have hle' := h'.counted_le
  rw [counted_of_label h.labelOf?] at hle
  rw [counted_of_label h'.labelOf?] at hle'
  constructor
  · intro heq
    have hlabel := labelOf?_readPart h'.labelOf?
    rw [heq, labelOf?_readPart h.labelOf?] at hlabel
    obtain rfl := Option.some.inj hlabel
    rw [readPart_eq h.labelOf?, readPart_eq h'.labelOf?] at heq
    refine ⟨rfl, (List.append_inj heq ?_).2⟩
    rw [List.length_take_of_le (by omega), List.length_take_of_le (by omega)]
  · rintro ⟨rfl, hpayload⟩
    rw [readPart_eq h.labelOf?, readPart_eq h'.labelOf?, hpayload,
      take_tags h.labelOf? h'.labelOf? (by omega) (by omega)]

end Kind

lemma base58Check_inj {mark payload payload' : List UInt8}
    (h : base58Check mark payload' = base58Check mark payload) : payload' = payload := by
  unfold base58Check at h
  have hbytes := Option.some.inj
    ((Base58.decode?_eq_some_iff.2 h).symm.trans (Base58.decode?_encode _))
  have hdata := (List.append_inj' hbytes
    ((Label.length_checksum _).trans (Label.length_checksum _).symm)).1
  exact List.append_cancel_left hdata

/-- **What texts tell**: texts are the same exactly when the bytes that are read are, and the names of
entry points. -/
theorem textOf_eq_iff (h : kind.Packs label bytes) (h' : kind.Packs label' bytes') :
    kind.textOf label' bytes' = kind.textOf label bytes ↔
      kind.readPart bytes' = kind.readPart bytes ∧ kind.suffixOf bytes' = kind.suffixOf bytes := by
  have hlooks := Label.looks_base58Check h.length_payloadOf
  have hlooks' := Label.looks_base58Check h'.length_payloadOf
  rw [Kind.readPart_eq_iff h h']
  unfold Kind.textOf
  constructor
  · intro heq
    have hletters := hlooks.letters.trans (List.prefix_append _ (kind.suffixOf bytes).toList)
    have hletters' := hlooks'.letters.trans (List.prefix_append _ (kind.suffixOf bytes').toList)
    rw [← String.toList_append] at hletters hletters'
    rw [heq] at hletters'
    obtain rfl := Label.eq_of_prefix hletters hletters'
    have hlist := congrArg String.toList heq
    rw [String.toList_append, String.toList_append] at hlist
    obtain ⟨hbase, hsuffix⟩ := List.append_inj hlist
      ((String.length_toList.trans hlooks'.length).trans
        (String.length_toList.trans hlooks.length).symm)
    exact ⟨⟨rfl, base58Check_inj (String.toList_inj.1 hbase)⟩, String.toList_inj.1 hsuffix⟩
  · rintro ⟨⟨rfl, hpayload⟩, hsuffix⟩
    rw [hpayload, hsuffix]

/-! ### Identifiers without freedom -/

/-- The name behind an address is known from the text, if it is text itself. -/
lemma drop_of_suffixOf {s s' : String} (hlength : 22 ≤ bytes.length) (hlength' : 22 ≤ bytes'.length)
    (hs : bytes.drop 22 = s.toUTF8.data.toList) (hs' : bytes'.drop 22 = s'.toUTF8.data.toList)
    (h : Kind.address.suffixOf bytes' = Kind.address.suffixOf bytes) :
    bytes'.drop 22 = bytes.drop 22 := by
  have hnil : ∀ {l : List UInt8}, 22 ≤ l.length → ¬ 22 < l.length → l.drop 22 = [] :=
    fun hle hlt => List.drop_eq_nil_of_le (by omega)
  have hmark : ∀ t : String, ("%" ++ t).toList = '%' :: t.toList := fun t => String.toList_append
  have hchars := congrArg String.toList h
  unfold Kind.suffixOf at hchars
  simp only [true_and] at hchars
  split at hchars <;> split at hchars
  · rw [hmark, hmark, hs, hs', Utf8.decodeLossy_toUTF8, Utf8.decodeLossy_toUTF8] at hchars
    rw [hs, hs', String.toList_inj.1 (List.cons.inj hchars).2]
  · rw [hmark] at hchars
    cases hchars
  · rw [hmark] at hchars
    cases hchars
  · next hlt' hlt => rw [hnil hlength hlt, hnil hlength' hlt']

/-- Of an address 22 bytes are read, or all of them but the last one. -/
lemma counted_address (h : Kind.address.labelOf? bytes = some label) :
    Kind.address.counted bytes = 22 ∨
      Kind.address.counted bytes = 21 ∧ bytes.getD 0 0 = 1 := by
  have hcounted := Kind.counted_of_label h
  unfold Kind.labelOf? at h
  dsimp only at h
  split at h
  · obtain ⟨hpayload, hne⟩ := payload_of_ofCurve? h
    rw [hcounted, Kind.tags, if_neg hne, hpayload]
    exact .inl rfl
  · obtain ⟨htag, h⟩ := Option.ite_none_right_eq_some.1 h
    obtain rfl := Option.some.inj h
    rw [hcounted]
    exact .inr ⟨rfl, htag⟩

/-- Of two identifiers without freedom the bytes are known from what is read of them and from the
names. -/
lemma Kind.Exact.eq (he : kind.Exact bytes) (he' : kind.Exact bytes') (h : kind.Packs label bytes)
    (h' : kind.Packs label bytes') (hread : kind.readPart bytes' = kind.readPart bytes)
    (hsuffix : kind.suffixOf bytes' = kind.suffixOf bytes) : bytes' = bytes := by
  have hcounted : kind.counted bytes' = kind.counted bytes := by
    rw [Kind.counted_of_label h.labelOf?, Kind.counted_of_label h'.labelOf?]
  have hrest : bytes'.drop (kind.counted bytes) = bytes.drop (kind.counted bytes) := by
    by_cases haddress : kind = .address
    · subst haddress
      obtain ⟨s, hs⟩ := he.name rfl
      obtain ⟨s', hs'⟩ := he'.name rfl
      have hname := drop_of_suffixOf h.needed_le h'.needed_le hs hs' hsuffix
      obtain hall | ⟨hbut, htag⟩ := counted_address h.labelOf?
      · rw [hall, hname]
      · have hsplit : ∀ {l : List UInt8}, 22 ≤ l.length → l.getD 21 0 = 0 →
            l.drop 21 = 0 :: l.drop 22 := by
          intro l hl hzero
          rw [List.drop_eq_getElem_cons (by omega), ← hzero, List.getD_eq_getElem _ _ (by omega)]
        have htag' : bytes'.getD 0 0 = 1 :=
          ((counted_address h'.labelOf?).resolve_left (by omega)).2
        rw [hbut, hsplit h.needed_le (he.padding rfl htag),
          hsplit h'.needed_le (he'.padding rfl htag'), hname]
    · have hlength := he.length haddress
      have hlength' := he'.length haddress
      rw [List.drop_eq_nil_of_le (by omega), List.drop_eq_nil_of_le (by omega)]
  unfold Kind.readPart at hread
  rw [hcounted] at hread
  rw [← List.take_append_drop (kind.counted bytes) bytes', hread, hrest, List.take_append_drop]

/-- **What texts tell of packed identifiers.** Two packed identifiers of a kind are read as one text
exactly when the bytes that are read of them are the same and so are the names of entry points behind
them, as texts. If both have the length of their kind, zero behind the hash of a contract and names
that are text, then they have one text only when all their bytes are the same. -/
theorem decode_eq_iff (hbytes : Hex.decode? hex = some bytes)
    (hbytes' : Hex.decode? hex' = some bytes') (h : decode kind hex = .ok text)
    (h' : decode kind hex' = .ok text') :
    (text' = text ↔
      kind.readPart bytes' = kind.readPart bytes ∧ kind.suffixOf bytes' = kind.suffixOf bytes) ∧
    (kind.Exact bytes → kind.Exact bytes' → text' = text → bytes' = bytes) := by
  obtain ⟨b, hb, label, hpacks, rfl⟩ := decode_ok_iff.1 h
  obtain ⟨b', hb', label', hpacks', rfl⟩ := decode_ok_iff.1 h'
  obtain rfl := Option.some.inj (hbytes.symm.trans hb)
  obtain rfl := Option.some.inj (hbytes'.symm.trans hb')
  have hiff := textOf_eq_iff hpacks hpacks'
  refine ⟨hiff, fun he he' heq => ?_⟩
  obtain ⟨hread, hsuffix⟩ := hiff.1 heq
  obtain ⟨rfl, -⟩ := (Kind.readPart_eq_iff hpacks hpacks').1 hread
  exact he.eq he' hpacks hpacks' hread hsuffix

/-- The bytes of a packed address with a name, by the byte between hash and name. -/
def mintBytes (padding : UInt8) : List UInt8 :=
  1 :: List.replicate 19 0 ++ [255, padding, 109, 105, 110, 116]

/-- Two addresses that differ in this byte are read as one text, so they are not both exact. -/
theorem decode_eq_iff_mint :
    decode .address packedMint = .ok "KT18amZmM5W7qDWVt2pH6uj7sCEd4FKv6KoK%mint" ∧
      decode .address "0100000000000000000000000000000000000000ff076d696e74" =
        .ok "KT18amZmM5W7qDWVt2pH6uj7sCEd4FKv6KoK%mint" ∧
      Kind.address.readPart (mintBytes 7) = Kind.address.readPart (mintBytes 0) ∧
      Kind.address.suffixOf (mintBytes 7) = Kind.address.suffixOf (mintBytes 0) ∧
      mintBytes 7 ≠ mintBytes 0 ∧ Kind.address.Exact (mintBytes 0) ∧
      ¬ Kind.address.Exact (mintBytes 7) := by
  have hbytes : Hex.decode? packedMint = some (mintBytes 0) := by decide +kernel
  have hbytes' : Hex.decode? "0100000000000000000000000000000000000000ff076d696e74" =
      some (mintBytes 7) := by decide +kernel
  have h : decode .address packedMint = .ok "KT18amZmM5W7qDWVt2pH6uj7sCEd4FKv6KoK%mint" :=
    except_ok_of_toOption (by decide +kernel)
  have h' : decode .address "0100000000000000000000000000000000000000ff076d696e74" =
      .ok "KT18amZmM5W7qDWVt2pH6uj7sCEd4FKv6KoK%mint" := except_ok_of_toOption (by decide +kernel)
  have hexact : Kind.address.Exact (mintBytes 0) :=
    ⟨fun hne => absurd rfl hne, fun _ _ => rfl, fun _ => ⟨"mint", by decide +kernel⟩⟩
  have hne : mintBytes 7 ≠ mintBytes 0 := by decide
  obtain ⟨hiff, hunique⟩ := decode_eq_iff hbytes hbytes' h h'
  obtain ⟨hread, hsuffix⟩ := hiff.1 rfl
  exact ⟨h, h', hread, hsuffix, hne, hexact, fun hexact' => hne (hunique hexact hexact' rfl)⟩

/-- Not all packed identifiers are told apart by their texts: of a chain identifier only the first
four bytes are read. -/
theorem not_decode_injective_chainId :
    ¬ ∀ (kind : Kind) (hex hex' text : String), decode kind hex = .ok text →
      decode kind hex' = .ok text → Hex.decode? hex' = Hex.decode? hex := by
  intro hinjective
  have h : decode .chainId "7a06a770" = .ok "NetXdQprcVkpaWU" :=
    except_ok_of_toOption (by decide +kernel)
  have h' : decode .chainId "7a06a77000" = .ok "NetXdQprcVkpaWU" :=
    except_ok_of_toOption (by decide +kernel)
  have hbytes := hinjective .chainId _ _ _ h h'
  exact absurd hbytes (by decide +kernel)

end Lineage.Identifier
