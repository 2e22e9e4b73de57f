import Mathlib.Data.List.Forall2
import Mathlib.Data.Option.Defs
import Lineage.BigMap.Log
import Lineage.Proofs.Text.Decimal

/-!
# Reading logs

Strict reading refuses what lenient reading passes over, and that is all the difference: what is
read leniently from a log is what is read strictly from its items of known actions
(`readFrom_lenient_ok_iff`). Nor does it matter in which of the two ways the pointers of the items
are written, as numbers or as texts (`readFrom_respelled`).
-/

namespace Lineage.LogEntry

def knownActions : List String := ["alloc", "update", "copy", "remove"]

def isKnown (item : Json) : Bool := knownActions.contains (actionOf item)

/-! ### The two ways to write a pointer -/

def pointerKeys : List String := ["big_map", "source_big_map", "destination_big_map"]

/-- **Two ways to write a pointer**: as a number, and as the decimal text of the number. -/
inductive SamePointer : Json → Json → Prop
  | toText (n : Int) : SamePointer (.integer n) (.text (toString n))
  | toNumber (n : Int) : SamePointer (.text (toString n)) (.integer n)

/-- Two values of a field: the same one, or a pointer that is written in both ways. -/
def SameValue (key : String) (v w : Json) : Prop := v = w ∨ key ∈ pointerKeys ∧ SamePointer v w

/-- A field with one of these values, and with the other. -/
def SameField (f g : String × Json) : Prop := f.1 = g.1 ∧ SameValue f.1 f.2 g.2

/-- **Items that differ in how pointers are written**, in any of their fields that hold one. -/
inductive Respelled : Json → Json → Prop
  | same (item : Json) : Respelled item item
  | fields {fs gs : List (String × Json)} (h : List.Forall₂ SameField fs gs) :
    Respelled (.object fs) (.object gs)

variable {item item' : Json} {items items' : List Json} {entries : List LogEntry} {key : String}
  {action : String}

/-! ### Known actions -/

lemma isSome_reader?_iff : (reader? action).isSome = true ↔ action ∈ knownActions := by
  unfold reader? knownActions
  split <;> simp_all

lemma isKnown_iff : isKnown item = true ↔ (reader? (actionOf item)).isSome = true := by
  unfold isKnown
  rw [List.contains_iff_mem, isSome_reader?_iff]

lemma readFrom_cons_ok_iff {strict : Bool} {i : Nat} {read : Json → Option LogEntry}
    (hread : reader? (actionOf item) = some read) :
    readFrom strict i (item :: items) = .ok entries ↔
      ∃ entry rest, read item = some entry ∧ readFrom strict (i + 1) items = .ok rest ∧
        entries = entry :: rest := by
  rw [readFrom, hread]
  dsimp only
  cases read item with
  | none => simp
  | some entry =>
    cases readFrom strict (i + 1) items <;> simp [bind, Except.bind, pure, Except.pure, eq_comm]

/-- **Lenient reading** comes to what strict reading of the known items comes to, from wherever the
items are counted. -/
theorem readFrom_lenient_ok_iff {i j : Nat} :
    readFrom false i items = .ok entries ↔
      readFrom true j (items.filter isKnown) = .ok entries := by
  induction items generalizing i j entries with
  | nil => rfl
  | cons item items ih =>
    rw [List.filter_cons]
    cases hread : reader? (actionOf item) with
    | none =>
      have hknown : ¬ isKnown item = true := by simp [isKnown_iff, hread]
      rw [if_neg hknown, readFrom, hread]
      exact ih
    | some read =>
      have hknown : isKnown item = true := by simp [isKnown_iff, hread]
      rw [if_pos hknown, readFrom_cons_ok_iff hread, readFrom_cons_ok_iff hread]
      simp only [ih (i := i + 1) (j := j + 1)]

/-! ### Written in the other way -/

lemma rel_find?_field {fs gs : List (String × Json)} (h : List.Forall₂ SameField fs gs)
    (key : String) :
    Option.Rel (SameValue key) ((fs.find? (·.1 == key)).map Prod.snd)
      ((gs.find? (·.1 == key)).map Prod.snd) := by
  induction h with
  | nil => exact .none
  | @cons f g fs gs hfg _ ih =>
    obtain ⟨hkey, hvalue⟩ := hfg
    rw [List.find?_cons, List.find?_cons, ← hkey]
    cases hk : f.1 == key with
    | true => exact .some (beq_iff_eq.1 hk ▸ hvalue)
    | false => exact ih

/-- Items that differ in how pointers are written have the same fields with the same values, but for
pointers that are written in both ways. -/
lemma Respelled.rel_field? (h : Respelled item item') (key : String) :
    Option.Rel (SameValue key) (item.field? key) (item'.field? key) := by
  cases h with
  | same =>
    cases item.field? key with
    | none => exact .none
    | some v => exact .some (.inl rfl)
  | fields h => exact rel_find?_field (List.rel_reverse h) key

lemma Respelled.field?_eq (h : Respelled item item') (key : String) (hkey : key ∉ pointerKeys) :
    item'.field? key = item.field? key := by
  have hrel := h.rel_field? key
  generalize item.field? key = v, item'.field? key = w at hrel ⊢
  cases hrel with
  | none => rfl
  | some hvalue => rw [hvalue.resolve_right fun hp => hkey hp.1]

lemma Respelled.pointer?_eq (h : Respelled item item') (key : String) :
    pointer? key item' = pointer? key item := by
  have hrel := h.rel_field? key
  unfold pointer?
  generalize item.field? key = v, item'.field? key = w at hrel ⊢
  cases hrel with
  | none => rfl
  | some hvalue =>
    obtain rfl | ⟨-, n | n⟩ := hvalue
    · rfl
    · exact Decimal.parseInt64?_toString n
    · exact (Decimal.parseInt64?_toString n).symm

lemma Respelled.actionOf_eq (h : Respelled item item') : actionOf item' = actionOf item := by
  unfold actionOf text?
  rw [h.field?_eq "action" (by decide)]

lemma Respelled.read_eq (h : Respelled item item') {read : Json → Option LogEntry}
    (hread : reader? action = some read) : read item' = read item := by
  unfold reader? at hread
  split at hread <;> cases hread <;> dsimp only <;>
    simp only [expression?, text?, optional?, h.pointer?_eq,
      h.field?_eq "key_type" (by decide), h.field?_eq "value_type" (by decide),
      h.field?_eq "key" (by decide), h.field?_eq "key_hash" (by decide),
      h.field?_eq "value" (by decide)]

/-- **The way pointers are written does not matter**: logs are read alike, or refused alike. -/
theorem readFrom_respelled {strict : Bool} {i : Nat} (h : List.Forall₂ Respelled items items') :
    readFrom strict i items' = readFrom strict i items := by
  induction h generalizing i with
  | nil => rfl
  | @cons item item' items items' hitem _ ih =>
    rw [readFrom, readFrom, hitem.actionOf_eq, ih]
    cases hread : reader? (actionOf item) with
    | none => rfl
    | some read =>
      dsimp only
      rw [hitem.read_eq hread]

/-! ### Whole logs -/

/-- **The ways to read a log agree**: leniently a log is read if and only if the items of known
actions are read strictly, as the same entries in the same order; and neither strictly nor leniently
does it matter which of the pointers are written as numbers and which as texts. -/
theorem readAll_agree (items : List Json) :
    (∀ entries, readAll false items = .ok entries ↔
      readAll true (items.filter isKnown) = .ok entries) ∧
    ∀ items', List.Forall₂ Respelled items items' → ∀ strict entries,
      (readAll strict items' = .ok entries ↔ readAll strict items = .ok entries) := by
  refine ⟨fun entries => readFrom_lenient_ok_iff, fun items' h strict entries => ?_⟩
  unfold readAll
  rw [readFrom_respelled h]

def copyItem (source destination : Json) : Json :=
  .object [("action", .text "copy"), ("source_big_map", source),
    ("destination_big_map", destination)]

def unknownItem (pointer : Json) : Json :=
  .object [("action", .text "squash"), ("big_map", pointer)]

theorem readAll_agree_copyItem :
    let items := [unknownItem (.integer 1), copyItem (.text (toString (-1 : Int))) (.integer 5)]
    let items' := [unknownItem (.integer 1), copyItem (.integer (-1)) (.text (toString (5 : Int)))]
    List.Forall₂ Respelled items items' ∧ readAll false items = .ok [.copy (-1) 5] ∧
      (∀ entries, readAll false items = .ok entries ↔
        readAll true (items.filter isKnown) = .ok entries) ∧
      ∀ strict entries,
        (readAll strict items' = .ok entries ↔ readAll strict items = .ok entries) := by
  intro items items'
  have hcopy : Respelled (copyItem (.text (toString (-1 : Int))) (.integer 5))
      (copyItem (.integer (-1)) (.text (toString (5 : Int)))) :=
    .fields <| .cons ⟨rfl, .inl rfl⟩ <| .cons ⟨rfl, .inr ⟨by decide, .toNumber _⟩⟩ <|
      .cons ⟨rfl, .inr ⟨by decide, .toText _⟩⟩ .nil
  have hitems : List.Forall₂ Respelled items items' := .cons (.same _) (.cons hcopy .nil)
  have hread : readAll false items = .ok [.copy (-1) 5] := by decide +kernel
  obtain ⟨hlenient, hrespelled⟩ := readAll_agree items
  exact ⟨hitems, hread, hlenient, hrespelled items' hitems⟩

end Lineage.LogEntry
