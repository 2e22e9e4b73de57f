import Lineage.Form.Reader
import Lineage.Proofs.Typed.Binding

/-!
# What is read of forms

One lemma for each reader of a field, and then one for each kind of node, says of which values what
is read (`ofForm_pair` and its companions).
-/

namespace Lineage

open Form (Schema Values)

namespace Form

variable {name key text literal : String} {x : Json} {b : Bool} {items : List Json}
  {code : Micheline} {values chosen : Values}

lemma pure_ok {ε α : Type} {a b : α} : (pure a : Except ε α) = .ok b ↔ b = a := by
  constructor
  · rintro ⟨⟩
    rfl
  · rintro rfl
    rfl

/-! ### Fields -/

lemma valueOf_ok : valueOf name values = .ok x ↔ Dictionary.find? name values = some x := by
  unfold valueOf
  cases Dictionary.find? name values <;> simp [refuse]

lemma readField_ok {α : Type} {read : Json → Except NodeError α} {a : α}
    (hread : ∀ y, read y = .ok a ↔ y = x) :
    (do read (← valueOf name values)) = .ok a ↔ Dictionary.find? name values = some x := by
  simp only [except_bind_ok, hread, exists_eq_right, valueOf_ok]

lemma textOf_ok : textOf name values = .ok text ↔
    Dictionary.find? name values = some (.text text) :=
  readField_ok fun y => by cases y <;> simp [refuse, pure, Except.pure]

lemma boolOf_ok : boolOf name values = .ok b ↔ Dictionary.find? name values = some (.bool b) :=
  readField_ok fun y => by cases y <;> simp [refuse, pure, Except.pure]

lemma itemsOf_ok : itemsOf name values = .ok items ↔
    Dictionary.find? name values = some (.array items) :=
  readField_ok fun y => by cases y <;> simp [refuse, pure, Except.pure]

lemma numeralOf_ok : numeralOf name values = .ok literal ↔
    (∃ k : Int, Dictionary.find? name values = some (.integer k) ∧ literal = toString k) ∨
      Dictionary.find? name values = some (.text literal) ∧
        Decimal.isNumeral true literal = true := by
  simp only [← valueOf_ok]
  rw [numeralOf, except_bind_ok]
  constructor
  · rintro ⟨x, hx, h⟩
    split at h
    · next k =>
      cases h
      exact .inl ⟨k, hx, rfl⟩
    · split at h
      · next hliteral =>
        cases h
        exact .inr ⟨hx, hliteral⟩
      · cases h
    · cases h
  · rintro (⟨k, hk, rfl⟩ | ⟨hx, hliteral⟩)
    · exact ⟨_, hk, rfl⟩
    · exact ⟨_, hx, if_pos hliteral⟩

lemma objectOf_ok : objectOf name values = .ok chosen ↔
    ∃ x, Dictionary.find? name values = some x ∧ x.object? = some chosen := by
  rw [objectOf, except_bind_ok]
  refine exists_congr fun x => and_congr valueOf_ok ?_
  cases x.object? <;> simp [refuse, pure, Except.pure]

lemma choiceOf_ok : choiceOf name chosen = .ok key ↔
    Dictionary.find? Schema.choiceKey chosen = some (.text key) := by
  unfold choiceOf
  cases Dictionary.find? Schema.choiceKey chosen with
  | none => simp [refuse]
  | some x => cases x <;> simp [Json.text?, refuse]

/-- The code that a value stands for, be it text or not. -/
def code? : Json → Option Micheline
  | .text s => Micheline.ofText? s
  | x => Micheline.ofJson? x

lemma codeOf_eq (hx : Dictionary.find? name values = some x) : codeOf name values =
    (code? x).elim (refuse name DecodeError.invalidJson.message) .ok := by
  rw [codeOf, valueOf_ok.2 hx]
  cases x with
  | text s =>
    cases h : Micheline.ofText? s <;> simp [code?, h, bind, Except.bind, pure, Except.pure]
  | _ =>
    simp only [code?, bind, Except.bind, pure, Except.pure]
    split <;> simp_all

lemma codeOf_ok : codeOf name values = .ok code ↔
    ∃ x, Dictionary.find? name values = some x ∧ code? x = some code := by
  constructor
  · intro h
    obtain ⟨x, hx, -⟩ := except_bind_ok.1 h
    have hx := valueOf_ok.1 hx
    rw [codeOf_eq hx] at h
    cases hcode : code? x with
    | none =>
      rw [hcode] at h
      cases h
    | some code' =>
      rw [hcode] at h
      cases h
      exact ⟨x, hx, hcode⟩
  · rintro ⟨x, hx, hcode⟩
    rw [codeOf_eq hx, hcode]
    rfl

lemma choice_eq {α : Type} {next : String → Values → Except NodeError α}
    (hx : Dictionary.find? name values = some x) (hobject : x.object? = some chosen)
    (hkey : Dictionary.find? Schema.choiceKey chosen = some (.text key)) :
    (do
      let chosen ← objectOf name values
      let key ← choiceOf name chosen
      next key chosen) = next key chosen := by
  rw [objectOf_ok.2 ⟨x, hx, hobject⟩]
  show (do
    let key ← choiceOf name chosen
    next key chosen) = next key chosen
  rw [choiceOf_ok.2 hkey]
  rfl

end Form

open Form

namespace Node

variable {inner l r elem key value parameter result : Node} {s : Site} {v w : Micheline}
  {values : Values} {old : Option Micheline}

/-! ### Nodes -/

/-- A field holds an object with a constant. -/
def Chooses (name : String) (values : Values) (key : String) (chosen : Values) : Prop :=
  ∃ x, Dictionary.find? name values = some x ∧ x.object? = some chosen ∧
    Dictionary.find? Schema.choiceKey chosen = some (.text key)

/-- A value is an object from which something is read. -/
def ReadsItem (elem : Node) (item : Json) (w : Micheline) : Prop :=
  ∃ fields, item.object? = some fields ∧ elem.ofForm fields = .ok w

/-- A value is an object with two objects, from which a key and a value are read. -/
def ReadsEntry (key value : Node) (entry : Json) (w : Micheline) : Prop :=
  ∃ fields k v a b, entry.object? = some fields ∧ objectOf "key" fields = .ok k ∧
    objectOf "value" fields = .ok v ∧ key.ofForm k = .ok a ∧ value.ofForm v = .ok b ∧
    w = .data .elt [a, b]

lemma ofForm_contract : (contract s parameter old).ofForm values = .ok w ↔
    ∃ text, Dictionary.find? (contract s parameter old).displayName values = some (.text text) ∧
      w = .string text := by
  simp only [ofForm, except_bind_ok, textOf_ok, pure_ok]

lemma ofForm_lambda : (lambda s parameter result old).ofForm values = .ok w ↔
    ∃ x, Dictionary.find? (lambda s parameter result old).displayName values = some x ∧
      code? x = some w := codeOf_ok

lemma ofForm_pair : (pair s l r).ofForm values = .ok w ↔
    ∃ a b, l.ofForm values = .ok a ∧ r.ofForm values = .ok b ∧ w = .data .pair [a, b] := by
  simp only [ofForm, except_bind_ok, pure_ok, exists_and_left]

lemma choice_ok {name key₁ key₂ : String} {next₁ next₂ : Values → Except NodeError Micheline}
    (hkey : key₁ ≠ key₂) :
    (do
      let chosen ← objectOf name values
      let key ← choiceOf name chosen
      if key = key₁ then next₁ chosen
      else if key = key₂ then next₂ chosen
      else refuse name s!"unknown alternative '{key}'") = .ok w ↔
    (∃ chosen, Chooses name values key₁ chosen ∧ next₁ chosen = .ok w) ∨
      ∃ chosen, Chooses name values key₂ chosen ∧ next₂ chosen = .ok w := by
  simp only [except_bind_ok, objectOf_ok, choiceOf_ok]
  constructor
  · rintro ⟨chosen, ⟨x, hx, hobject⟩, key, hconst, h⟩
    split at h
    · next hkey =>
      subst hkey
      exact .inl ⟨chosen, ⟨x, hx, hobject, hconst⟩, h⟩
    · split at h
      · next hkey =>
        subst hkey
        exact .inr ⟨chosen, ⟨x, hx, hobject, hconst⟩, h⟩
      · cases h
  · rintro (⟨chosen, ⟨x, hx, hobject, hconst⟩, h⟩ | ⟨chosen, ⟨x, hx, hobject, hconst⟩, h⟩)
    · exact ⟨chosen, ⟨x, hx, hobject⟩, key₁, hconst, by rwa [if_pos rfl]⟩
    · exact ⟨chosen, ⟨x, hx, hobject⟩, key₂, hconst, by rwa [if_neg hkey.symm, if_pos rfl]⟩

lemma ofForm_option {present : Option Bool} : (option s inner present).ofForm values = .ok w ↔
    (∃ chosen, Chooses (option s inner present).displayName values (presenceKey false) chosen ∧
      w = .data .none []) ∨
    ∃ chosen, Chooses (option s inner present).displayName values (presenceKey true) chosen ∧
      ∃ a, inner.ofForm chosen = .ok a ∧ w = .data .some [a] := by
  rw [ofForm, choice_ok (by decide)]
  simp only [except_bind_ok, pure_ok]

lemma ofForm_or {side : Option Side} : (or s l r side).ofForm values = .ok w ↔
    (∃ chosen, Chooses (or s l r side).displayName values (sideKey .left) chosen ∧
      ∃ a, l.ofForm chosen = .ok a ∧ w = .data .left [a]) ∨
    ∃ chosen, Chooses (or s l r side).displayName values (sideKey .right) chosen ∧
      ∃ a, r.ofForm chosen = .ok a ∧ w = .data .right [a] := by
  rw [ofForm, choice_ok (by decide)]
  simp only [except_bind_ok, pure_ok]

lemma items_ok {name : String} {read : Json → Except NodeError Micheline}
    {R : Json → Micheline → Prop} (hread : ∀ item a, read item = .ok a ↔ R item a) :
    (do
      let items ← itemsOf name values
      return Micheline.seq (← items.mapM read)) = .ok w ↔
    ∃ items ws, Dictionary.find? name values = some (.array items) ∧ List.Forall₂ R items ws ∧
      w = .seq ws := by
  simp only [except_bind_ok, itemsOf_ok, mapM_ok, hread, pure_ok, exists_and_left]

lemma ofForm_collection {kind : Collection} {items : Option (List Node)} :
    (collection s kind elem items).ofForm values = .ok w ↔
      ∃ objects ws, Dictionary.find? (collection s kind elem items).displayName values =
        some (.array objects) ∧ List.Forall₂ elem.ReadsItem objects ws ∧ w = .seq ws := by
  refine items_ok fun item a => ?_
  unfold ReadsItem
  cases item.object? <;> simp [refuse]

lemma ofForm_map {entries : Option (List (Node × Node))} :
    (map s key value entries).ofForm values = .ok w ↔
      ∃ objects ws, Dictionary.find? (map s key value entries).displayName values =
        some (.array objects) ∧ List.Forall₂ (key.ReadsEntry value) objects ws ∧ w = .seq ws := by
  refine items_ok fun entry a => ?_
  unfold ReadsEntry
  cases entry.object? with
  | none => simp [refuse]
  | some fields =>
    simp only [except_bind_ok, Option.some.injEq, pure_ok, exists_and_left, exists_eq_left']

lemma ofForm_bigMap {pointer : Option Int} {entries : Option (List (Node × Node))} :
    (bigMap s key value pointer entries).ofForm values = .ok w ↔
      ∃ literal, numeralOf (bigMap s key value pointer entries).displayName values = .ok literal ∧
        w = .int literal := by
  simp only [ofForm, except_bind_ok, pure_ok]

end Node

end Lineage
