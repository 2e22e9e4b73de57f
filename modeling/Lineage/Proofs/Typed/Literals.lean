import Lineage.Proofs.Text.Comparison
import Lineage.Proofs.Typed.Ordering

/-!
# Scalars compared for what they mean

Numbers, timestamps and bytes are compared as texts, and the same value may be spelled in several
ways. Values that were bound to a node are literals of its type, and of these the comparison tells
what their meanings tell: the order of integers, of instants in whole seconds or of lists of bytes
(`compare_literals`).
-/

namespace Lineage

namespace Scalar

/-- The integer that a value of a type of numbers means; of a timestamp, its instant in whole
seconds since the epoch. -/
def integer? : Scalar → Micheline → Option Int
  | int, .int x | nat, .int x | mutez, .int x | timestamp, .int x => some (Decimal.integer x)
  | timestamp, .string s => (Timestamp.parse? s).map Timestamp.toUnix
  | _, _ => none

variable {type : Scalar} {v w : Micheline}

/-! ### Literals -/

lemma isNumeral_of_unsigned {s : String} (h : Decimal.isNumeral false s = true) :
    Decimal.isNumeral true s = true := by
  unfold Decimal.isNumeral at h ⊢
  split at h
  · cases h
  · exact h

lemma admits_of_check (hbool : type ≠ bool) (hunit : type ≠ unit) (h : type.check v = .ok ()) :
    type.admits v = true := by
  unfold check at h
  split at h
  · exact absurd rfl hbool
  · exact absurd rfl hunit
  · split at h
    · next hadmits => exact hadmits
    · cases h

lemma exists_numeral (htype : type.isNumeric = true) (h : type.check v = .ok ()) :
    ∃ x, v = .int x ∧ Decimal.isNumeral true x = true ∧
      type.integer? v = some (Decimal.integer x) := by
  have hcases : type = int ∨ type = nat ∨ type = mutez := by simpa [isNumeric] using htype
  have hadmits : type.admits v = true :=
    admits_of_check (fun hb => by cases hb; cases htype) (fun hu => by cases hu; cases htype) h
  cases v with
  | int x =>
    have hnumeral : Decimal.isNumeral true x = true := by
      rcases hcases with rfl | rfl | rfl
      · exact hadmits
      · exact isNumeral_of_unsigned hadmits
      · exact isNumeral_of_unsigned hadmits
    refine ⟨x, rfl, hnumeral, ?_⟩
    rcases hcases with rfl | rfl | rfl <;> rfl
  | _ => rcases hcases with rfl | rfl | rfl <;> cases hadmits

/-- The numeral that stands for a timestamp is one of its instant. -/
lemma exists_seconds (h : timestamp.check v = .ok ()) :
    ∃ x, seconds v = .ok x ∧ Decimal.isNumeral true x = true ∧
      timestamp.integer? v = some (Decimal.integer x) := by
  have hadmits := admits_of_check (by decide) (by decide) h
  cases v with
  | int x => exact ⟨x, rfl, hadmits, rfl⟩
  | string s =>
    obtain ⟨t, ht⟩ := Option.isSome_iff_exists.1 hadmits
    obtain ⟨hnumeral, hinteger⟩ := Decimal.integer_toString t.toUnix
    refine ⟨toString t.toUnix, ?_, hnumeral, ?_⟩
    · unfold seconds
      dsimp only
      rw [ht]
    · show (Timestamp.parse? s).map Timestamp.toUnix = _
      rw [ht, hinteger]
      rfl
  | _ => cases hadmits

lemma exists_bytes (h : bytes.check v = .ok ()) :
    ∃ x xs, v = .bytes x ∧ Hex.decode? x = some xs := by
  have hadmits := admits_of_check (by decide) (by decide) h
  cases v with
  | bytes x =>
    obtain ⟨xs, hxs⟩ := Option.isSome_iff_exists.1 hadmits
    exact ⟨x, xs, rfl, hxs⟩
  | _ => cases hadmits

/-! ### Comparing -/

lemma compare_integers (htype : type.isNumeric = true ∨ type = timestamp)
    (hv : type.check v = .ok ()) (hw : type.check w = .ok ()) :
    ∃ m n, type.integer? v = some m ∧ type.integer? w = some n ∧
      type.compare v w = .ok (Ord.compare m n) := by
  rcases htype with htype | rfl
  · obtain ⟨x, rfl, hx, hxm⟩ := exists_numeral htype hv
    obtain ⟨y, rfl, hy, hyn⟩ := exists_numeral htype hw
    refine ⟨_, _, hxm, hyn, ?_⟩
    rw [← Decimal.order_eq_compare hx hy]
    have hcases : type = int ∨ type = nat ∨ type = mutez := by simpa [isNumeric] using htype
    rcases hcases with rfl | rfl | rfl <;> rfl
  · obtain ⟨x, hvx, hx, hxm⟩ := exists_seconds hv
    obtain ⟨y, hwy, hy, hyn⟩ := exists_seconds hw
    refine ⟨_, _, hxm, hyn, ?_⟩
    rw [← Decimal.order_eq_compare hx hy]
    dsimp only [compare]
    rw [hvx, hwy]
    rfl

/-- Bytes are compared as lists of bytes, in whatever case their digits are. -/
lemma compare_bytes {x y : String} {xs ys : List UInt8} (hx : Hex.decode? x = some xs)
    (hy : Hex.decode? y = some ys) :
    bytes.compare (.bytes x) (.bytes y) = .ok (Ord.compare xs ys) := by
  show Except.ok (Ord.compare (x.map Char.toLower) (y.map Char.toLower)) = _
  rw [compare_eq_compareLex, String.toList_map, String.toList_map, Hex.compareLex_toLower hx hy]

end Scalar

namespace Node

/-- **Comparing scalars compares what they mean.** Of two nodes of one scalar type to which values
have been bound, numbers are in the order of the integers that their numerals denote, timestamps in
the order of their instants in whole seconds, be they given as numerals or as dates with any offset,
and bytes in the lexicographic order of what their digits are decoded to. -/
theorem compare_literals {s s' : Site} {type : Scalar} {args args' : List Micheline}
    {old old' : Option Micheline} {v w : Micheline} {a b : Node}
    (ha : (scalar s type args old).settle v = .ok a)
    (hb : (scalar s' type args' old').settle w = .ok b) :
    (type.isNumeric = true ∨ type = .timestamp →
      ∃ m n, type.integer? v = some m ∧ type.integer? w = some n ∧
        a.compare b = .ok (Ord.compare m n)) ∧
    (type = .bytes →
      ∃ x y xs ys, v = .bytes x ∧ w = .bytes y ∧ Hex.decode? x = some xs ∧
        Hex.decode? y = some ys ∧ a.compare b = .ok (Ord.compare xs ys)) := by
  obtain ⟨hv, rfl⟩ := settle_scalar.1 ha
  obtain ⟨hw, rfl⟩ := settle_scalar.1 hb
  have hcompare : type.isComparable = true →
      (scalar s type args (some v)).compare (scalar s' type args' (some w)) =
        type.compare v w := by
    intro hc
    rw [compare]
    exact if_pos ⟨rfl, hc⟩
  constructor
  · intro htype
    have hc : type.isComparable = true := by
      rcases htype with htype | rfl
      · cases type <;> first | rfl | cases htype
      · rfl
    rw [hcompare hc]
    exact Scalar.compare_integers htype hv hw
  · rintro rfl
    obtain ⟨x, xs, rfl, hx⟩ := Scalar.exists_bytes hv
    obtain ⟨y, ys, rfl, hy⟩ := Scalar.exists_bytes hw
    exact ⟨x, y, xs, ys, rfl, rfl, hx, hy, (hcompare rfl).trans (Scalar.compare_bytes hx hy)⟩

def moment (v : Option Micheline) : Node := scalar ⟨0, "0", .empty, 0⟩ .timestamp [] v

theorem compare_literals_moments :
    ∃ a b m n, (moment none).settle (.string "1970-01-01T01:29:58.5+01:30") = .ok a ∧
      (moment none).settle (.int "-001") = .ok b ∧
      Scalar.timestamp.integer? (.string "1970-01-01T01:29:58.5+01:30") = some m ∧
      Scalar.timestamp.integer? (.int "-001") = some n ∧ m = -2 ∧ n = -1 ∧
      a.compare b = .ok .lt := by
  have ha : (moment none).settle (.string "1970-01-01T01:29:58.5+01:30") =
      .ok (moment (some (.string "1970-01-01T01:29:58.5+01:30"))) := rfl
  have hb : (moment none).settle (.int "-001") = .ok (moment (some (.int "-001"))) := rfl
  obtain ⟨m, n, hm, hn, hcompare⟩ := (compare_literals ha hb).1 (.inr rfl)
  have hm' : Scalar.timestamp.integer? (.string "1970-01-01T01:29:58.5+01:30") = some (-2) := by
    decide +kernel
  have hn' : Scalar.timestamp.integer? (.int "-001") = some (-1) := by decide +kernel
  obtain rfl := Option.some.inj (hm.symm.trans hm')
  obtain rfl := Option.some.inj (hn.symm.trans hn')
  exact ⟨_, _, _, _, ha, hb, hm, hn, rfl, rfl, hcompare⟩

end Node

end Lineage
