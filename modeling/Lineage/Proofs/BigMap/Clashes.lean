import Lineage.Proofs.BigMap.Rerun

/-!
# Stamps that clash

The bytes of a stamp are its parts one behind the other, without anything between them. Numbers have
eight bytes each, and the kinds of records begin with different letters, but nothing says where the
texts of the network, of the operation and of the address end. So different stamps have the same
bytes exactly when these are cut in two ways: in the first of the three texts that is not the same,
one stamp goes on with bytes that in the other belong to what follows (`bytes_eq_iff`). They never
clash if none of these texts is the beginning of the other stamp's (`eq_of_bytes_eq`).
-/

namespace Lineage

/-! ### Cuts -/

/-- `a ++ b` and `c ++ d` are the same bytes, and the second ones are cut later. -/
def CutLater (a b c d : List UInt8) : Prop := ∃ moved ≠ [], c = a ++ moved ∧ b = moved ++ d

/-- The same bytes are cut at the same place, or in one of two ways later than in the other. -/
lemma append_eq_append_iff_cut {a b c d : List UInt8} :
    a ++ b = c ++ d ↔ a = c ∧ b = d ∨ CutLater a b c d ∨ CutLater c d a b := by
  constructor
  · intro h
    rcases List.append_eq_append_iff.1 h with ⟨moved, rfl, rfl⟩ | ⟨moved, rfl, rfl⟩
    · by_cases hm : moved = []
      · subst hm
        exact .inl ⟨(List.append_nil a).symm, rfl⟩
      · exact .inr (.inl ⟨moved, hm, rfl, rfl⟩)
    · by_cases hm : moved = []
      · subst hm
        exact .inl ⟨List.append_nil c, rfl⟩
      · exact .inr (.inr ⟨moved, hm, rfl, rfl⟩)
  · rintro (⟨rfl, rfl⟩ | ⟨moved, -, rfl, rfl⟩ | ⟨moved, -, rfl, rfl⟩) <;> simp

namespace Stamp

/-- What the parts of a stamp can be: 64-bit numbers, and one of the kinds of records. -/
structure InRange (x : Stamp) : Prop where
  level : Decimal.FitsInt64 x.level
  kind : x.kind ∈ recordKinds
  pointer : Decimal.FitsInt64 x.pointer
  ordinal : x.ordinal < Decimal.wordCount

variable {x y : Stamp}

/-! ### The parts of the bytes -/

def afterOperation (x : Stamp) : List UInt8 := word x.level ++ (utf8 x.address ++ x.afterAddress)

def afterNetwork (x : Stamp) : List UInt8 := utf8 x.operationId ++ x.afterOperation

lemma bytes_eq (x : Stamp) : x.bytes = utf8 x.network ++ x.afterNetwork := by
  unfold bytes afterNetwork afterOperation afterAddress
  simp only [List.append_assoc]

lemma afterOperation_inj (hx : Decimal.FitsInt64 x.level) (hy : Decimal.FitsInt64 y.level)
    (h : x.afterOperation = y.afterOperation) :
    x.level = y.level ∧ utf8 x.address ++ x.afterAddress = utf8 y.address ++ y.afterAddress := by
  obtain ⟨hlevel, h⟩ := List.append_inj h ((length_word _).trans (length_word _).symm)
  exact ⟨word_inj_of_fits hx hy hlevel, h⟩

/-! ### Clashes -/

/-- **A stamp that goes on where another one ends a text**: of the network, of the operation or of
the address, whichever is the first that is not the same. -/
inductive GoesOn (x y : Stamp) : Prop
  | network (h : CutLater (utf8 x.network) x.afterNetwork (utf8 y.network) y.afterNetwork)
  | operation (hnetwork : x.network = y.network)
    (h : CutLater (utf8 x.operationId) x.afterOperation (utf8 y.operationId) y.afterOperation)
  | address (hnetwork : x.network = y.network) (hoperation : x.operationId = y.operationId)
    (hlevel : x.level = y.level)
    (h : CutLater (utf8 x.address) x.afterAddress (utf8 y.address) y.afterAddress)

lemma GoesOn.bytes_eq (h : GoesOn x y) : x.bytes = y.bytes := by
  rw [Stamp.bytes_eq, Stamp.bytes_eq]
  cases h with
  | network h => exact append_eq_append_iff_cut.2 (.inr (.inl h))
  | operation hnetwork h =>
    have hafter : x.afterNetwork = y.afterNetwork := append_eq_append_iff_cut.2 (.inr (.inl h))
    rw [hnetwork, hafter]
  | address hnetwork hoperation hlevel h =>
    have hafter := append_eq_append_iff_cut.2 (.inr (.inl h))
    unfold afterNetwork afterOperation
    rw [hnetwork, hoperation, hlevel, hafter]

/-- Stamps with the same bytes that are not the same part at one of the three texts. -/
lemma eq_or_goesOn (hx : x.InRange) (hy : y.InRange) (h : x.bytes = y.bytes) :
    x = y ∨ GoesOn x y ∨ GoesOn y x := by
  rw [bytes_eq, bytes_eq] at h
  obtain ⟨hnetwork, h⟩ | h | h := append_eq_append_iff_cut.1 h
  · have hnetwork := utf8_inj hnetwork
    obtain ⟨hoperation, h⟩ | h | h := append_eq_append_iff_cut.1 h
    · have hoperation := utf8_inj hoperation
      obtain ⟨hlevel, h⟩ := afterOperation_inj hx.level hy.level h
      obtain ⟨haddress, h⟩ | h | h := append_eq_append_iff_cut.1 h
      · have haddress := utf8_inj haddress
        obtain ⟨hkind, hpointer, hkey, hordinal⟩ := afterAddress_inj hx.kind hy.kind hx.pointer
          hy.pointer hx.ordinal hy.ordinal h
        exact .inl (by cases x; cases y; simp_all)
      · exact .inr (.inl (.address hnetwork hoperation hlevel h))
      · exact .inr (.inr (.address hnetwork.symm hoperation.symm hlevel.symm h))
    · exact .inr (.inl (.operation hnetwork h))
    · exact .inr (.inr (.operation hnetwork.symm h))
  · exact .inr (.inl (.network h))
  · exact .inr (.inr (.network h))

/-- Neither text is the beginning of the other one, unless they are the same. -/
def Apart (s t : String) : Prop := (utf8 s <+: utf8 t → s = t) ∧ (utf8 t <+: utf8 s → s = t)

lemma not_cutLater {s t : String} {b d : List UInt8} (h : utf8 s <+: utf8 t → s = t) :
    ¬ CutLater (utf8 s) b (utf8 t) d := by
  rintro ⟨moved, hmoved, ht, -⟩
  obtain rfl := h ⟨moved, ht.symm⟩
  exact hmoved (List.self_eq_append_right.1 ht)

/-- **Stamps do not clash** if each of the three texts ends the same way: none of them is the
beginning of the other stamp's. -/
theorem eq_of_bytes_eq (hx : x.InRange) (hy : y.InRange) (hnetwork : Apart x.network y.network)
    (hoperation : Apart x.operationId y.operationId) (haddress : Apart x.address y.address)
    (h : x.bytes = y.bytes) : x = y := by
  obtain h | h | h := eq_or_goesOn hx hy h
  · exact h
  · cases h with
    | network h => exact absurd h (not_cutLater hnetwork.1)
    | operation _ h => exact absurd h (not_cutLater hoperation.1)
    | address _ _ _ h => exact absurd h (not_cutLater haddress.1)
  · cases h with
    | network h => exact absurd h (not_cutLater fun hp => (hnetwork.2 hp).symm)
    | operation _ h => exact absurd h (not_cutLater fun hp => (hoperation.2 hp).symm)
    | address _ _ _ h => exact absurd h (not_cutLater fun hp => (haddress.2 hp).symm)

/-- **When stamps have the same bytes**: if they are the same, or one goes on where the other one
ends a text. -/
theorem bytes_eq_iff (hx : x.InRange) (hy : y.InRange) :
    x.bytes = y.bytes ↔ x = y ∨ GoesOn x y ∨ GoesOn y x := by
  refine ⟨eq_or_goesOn hx hy, ?_⟩
  rintro (rfl | h | h)
  · rfl
  · exact h.bytes_eq
  · exact h.bytes_eq.symm

/-- A new key of the big map 7, as an operation of a network adds it. -/
def newKeyOf (network operationId : String) : Context :=
  { contextOfSeven with provenance := { Conformance.provenance 11 with network, operationId } }

def ofNewKey (network operationId : String) : Stamp :=
  (newKeyOf network operationId).stamp "update" 7 "exprA" 1

lemma inRange_ofNewKey (network operationId : String) : (ofNewKey network operationId).InRange where
  level := (by decide : Decimal.FitsInt64 11)
  kind := (by decide : "update" ∈ recordKinds)
  pointer := (by decide : Decimal.FitsInt64 7)
  ordinal := (by decide : 1 < Decimal.wordCount)

theorem bytes_eq_iff_ofNewKey :
    (ofNewKey "ghostnet" "1").InRange ∧ (ofNewKey "ghost" "net1").InRange ∧
      ((ofNewKey "ghostnet" "1").bytes = (ofNewKey "ghost" "net1").bytes ↔
        ofNewKey "ghostnet" "1" = ofNewKey "ghost" "net1" ∨
          GoesOn (ofNewKey "ghostnet" "1") (ofNewKey "ghost" "net1") ∨
          GoesOn (ofNewKey "ghost" "net1") (ofNewKey "ghostnet" "1")) :=
  ⟨inRange_ofNewKey _ _, inRange_ofNewKey _ _,
    bytes_eq_iff (inRange_ofNewKey _ _) (inRange_ofNewKey _ _)⟩

open Resolver in
/-- Different records may have the same bytes: the operation `1` of the network `ghostnet` and the
operation `net1` of the network `ghost` cannot both add a key. -/
theorem not_bytes_injective :
    ¬ ∀ (live live' : LiveRecords) (settings : Settings) (ctx ctx' : Context)
        (log log' : List LogEntry), ∀ x ∈ keptStamps live settings ctx log .start,
        ∀ y ∈ keptStamps live' settings ctx' log' .start, x ≠ y → x.bytes ≠ y.bytes := by
  intro hclaim
  let live := Store.repository.live .empty
  have hmem : ∀ network operationId, ofNewKey network operationId ∈
      keptStamps live .default (newKeyOf network operationId) newKey .start :=
    fun _ _ => List.mem_append_left _ (List.mem_singleton_self _)
  exact hclaim live live .default _ _ newKey newKey _ (hmem "ghostnet" "1") _ (hmem "ghost" "net1")
    (by decide) (by decide +kernel)

end Stamp

end Lineage
