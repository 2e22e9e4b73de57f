import Lineage.Proofs.Form.Fields
import Lineage.Proofs.Form.Reader
import Lineage.Proofs.Typed.Skeleton

/-!
# Forms that are filled in as asked

`Schema.Fits` says when a value is one that a part of a form asks for, and `Form.Conforms` when an
object has all that is asked for. Such an object is read, unless a text in it that should be code is
not Micheline (`ofForm_of_conforms`): the form and its reader agree on the names of the fields, on
what is within what, and on the constants of choices.
-/

namespace Lineage

namespace Form

/-- **The rules of conformance**: a value is one that a part of a form asks for. What a text of code
has to be besides is left open. -/
inductive Schema.Fits (readable : String → Prop) : Schema → Json → Prop
  | constant (key : String) : Fits readable (.constant key) (.text key)
  | text {title s : String} {format : Option String}
      (hcode : format = some "micheline" → readable s) :
    Fits readable (.text title format) (.text s)
  | integer {title : String} {nonNegative : Bool} {k : Int} :
    Fits readable (.integer title nonNegative) (.integer k)
  | numeral {title s : String} {nonNegative : Bool} (hs : Decimal.isNumeral true s = true) :
    Fits readable (.integer title nonNegative) (.text s)
  | boolean {title : String} {b : Bool} : Fits readable (.boolean title) (.bool b)
  | object {title : Option String} {props : Dictionary String Schema} {v : Json} {values : Values}
      (value : String → Json) (hv : v.object? = some values)
      (hfound : ∀ name schema, Dictionary.find? name props = some schema →
        Dictionary.find? name values = some (value name))
      (hfits : ∀ name schema, Dictionary.find? name props = some schema →
        Fits readable schema (value name)) :
    Fits readable (.object title props) v
  | choice {title : String} {alternatives : List Schema} {alternative : Schema} {v : Json}
      (halternative : alternative ∈ alternatives)
      (h : Fits readable alternative v) : Fits readable (.choice title alternatives) v
  | array {title : String} {schema : Schema} {items : List Json}
      (hitems : ∀ item ∈ items, Fits readable schema item) :
    Fits readable (.array title schema) (.array items)

/-- An object has all the fields that a form asks for, each with a value that fits. -/
def Conforms (readable : String → Prop) (props : Dictionary String Schema) (values : Values) :
    Prop :=
  ∀ name schema, Dictionary.find? name props = some schema →
    ∃ x, Dictionary.find? name values = some x ∧ schema.Fits readable x

/-- A text is Micheline in JSON. -/
def Readable (text : String) : Prop := ∃ code, Micheline.ofText? text = some code

/-! ### Parts of forms -/

variable {readable : String → Prop} {key name : String} {x : Json} {schema : Schema}
  {props : Dictionary String Schema} {values : Values}

lemma fits_object {title : Option String} :
    (Schema.object title props).Fits readable x ↔
      ∃ values, x.object? = some values ∧ Conforms readable props values := by
  constructor
  · rintro (_ | _ | _ | _ | _ | ⟨value, hv, hfound, hfits⟩)
    exact ⟨_, hv, fun name schema h => ⟨value name, hfound name schema h, hfits name schema h⟩⟩
  · rintro ⟨values, hv, h⟩
    refine .object (fun name => (Dictionary.find? name values).getD .null) hv ?_ ?_ <;>
      intro name schema hname <;> obtain ⟨x, hx, hfits⟩ := h name schema hname <;> rw [hx]
    · rfl
    · exact hfits

lemma conforms_singleton :
    Conforms readable [(key, schema)] values ↔
      ∃ x, Dictionary.find? key values = some x ∧ schema.Fits readable x := by
  constructor
  · intro h
    refine h key schema ?_
    rw [Dictionary.find?_cons, if_pos rfl]
  · rintro ⟨x, hx, hfits⟩ name schema' h
    rw [Dictionary.find?_cons] at h
    split at h
    · next hname =>
      cases h
      exact ⟨x, hname ▸ hx, hfits⟩
    · cases h

lemma fits_object_iff {title : Option String} (hobject : x.object? = some values) :
    (Schema.object title props).Fits readable x ↔ Conforms readable props values := by
  rw [fits_object]
  constructor
  · rintro ⟨values', hobject', h⟩
    obtain rfl : values = values' := Option.some.inj (hobject.symm.trans hobject')
    exact h
  · exact fun h => ⟨values, hobject, h⟩

lemma conforms_singleton_iff (hx : Dictionary.find? key values = some x) :
    Conforms readable [(key, schema)] values ↔ schema.Fits readable x := by
  rw [conforms_singleton]
  constructor
  · rintro ⟨x', hx', h⟩
    obtain rfl : x = x' := Option.some.inj (hx.symm.trans hx')
    exact h
  · exact fun h => ⟨x, hx, h⟩

lemma exists_numeralOf {title : String} {nonNegative : Bool}
    (hx : Dictionary.find? name values = some x)
    (h : (Schema.integer title nonNegative).Fits (fun _ => True) x) :
    (∃ literal, numeralOf name values = .ok literal) ∧
      (Schema.integer title nonNegative).Fits readable x := by
  rw [numeralOf, valueOf_ok.2 hx]
  cases h with
  | @integer _ _ k => exact ⟨⟨toString k, rfl⟩, .integer⟩
  | @numeral _ s _ hs => exact ⟨⟨s, if_pos hs⟩, .numeral hs⟩

lemma exists_textOf {title : String} {format : Option String}
    (hx : Dictionary.find? name values = some x)
    (h : (Schema.text title format).Fits (fun _ => True) x) (hformat : format ≠ some "micheline") :
    (∃ s, textOf name values = .ok s) ∧ (Schema.text title format).Fits readable x := by
  rw [textOf, valueOf_ok.2 hx]
  cases h with
  | @text _ s _ _ => exact ⟨⟨s, rfl⟩, .text fun h => absurd h hformat⟩

lemma exists_boolOf {title : String} (hx : Dictionary.find? name values = some x)
    (h : (Schema.boolean title).Fits (fun _ => True) x) :
    (∃ b, boolOf name values = .ok b) ∧ (Schema.boolean title).Fits readable x := by
  rw [boolOf, valueOf_ok.2 hx]
  cases h with
  | @boolean _ b => exact ⟨⟨b, rfl⟩, .boolean⟩

lemma exists_scalarOf {type : Scalar} {title : String}
    (hschema : Schema.ofScalar? type title = some schema)
    (hx : Dictionary.find? name values = some x) (h : schema.Fits (fun _ => True) x) :
    (∃ w, scalarOf type name values = .ok w) ∧ schema.Fits readable x := by
  cases type with
  | unit => cases hschema
  | int | nat | mutez =>
    cases hschema
    obtain ⟨⟨literal, hliteral⟩, hfits⟩ := exists_numeralOf hx h
    refine ⟨⟨.int literal, ?_⟩, hfits⟩
    rw [scalarOf, hliteral]
    rfl
  | bool =>
    cases hschema
    obtain ⟨⟨b, hb⟩, hfits⟩ := exists_boolOf hx h
    refine ⟨⟨.data (if b then .true else .false) [], ?_⟩, hfits⟩
    rw [scalarOf, hb]
    rfl
  | bytes | bls12381Fr | bls12381G1 | bls12381G2 =>
    cases hschema
    obtain ⟨⟨s, hs⟩, hfits⟩ := exists_textOf hx h nofun
    refine ⟨⟨.bytes s, ?_⟩, hfits⟩
    rw [scalarOf, hs]
    rfl
  | timestamp =>
    cases hschema
    obtain ⟨⟨s, hs⟩, hfits⟩ := exists_textOf hx h (by decide)
    refine ⟨⟨.string s, ?_⟩, hfits⟩
    show (do return Micheline.string (← textOf name values)) = _
    rw [hs]
    rfl
  | _ =>
    cases hschema
    obtain ⟨⟨s, hs⟩, hfits⟩ := exists_textOf hx h nofun
    refine ⟨⟨.string s, ?_⟩, hfits⟩
    show (do return Micheline.string (← textOf name values)) = _
    rw [hs]
    rfl

/-! ### Reading -/

/-- A reading succeeds if what it reads is good, and else it complains about a field for code: what
is there is not Micheline. -/
def Decides {α : Type} (code : String → Prop) (good : Prop) (r : Except NodeError α) : Prop :=
  (good ∧ ∃ a, r = .ok a) ∨
    ¬ good ∧ ∃ name, code name ∧ r = .error (.invalidForm name DecodeError.invalidJson.message)

section Decides

variable {α β γ : Type} {code code' : String → Prop} {P Q : Prop} {r : Except NodeError α}
  {r' : Except NodeError β}

lemma Decides.congr (h : Decides code P r) (hiff : P ↔ Q) : Decides code Q r := by
  rwa [Decides, ← hiff]

lemma Decides.mono (h : Decides code P r) (hcode : ∀ name, code name → code' name) :
    Decides code' P r := by
  obtain hok | ⟨hP, name, hname, hr⟩ := h
  · exact .inl hok
  · exact .inr ⟨hP, name, hcode name hname, hr⟩

lemma Decides.map {f : α → β} (h : Decides code P r) : Decides code P (do return f (← r)) := by
  obtain ⟨hP, a, rfl⟩ | ⟨hP, name, hname, rfl⟩ := h
  · exact .inl ⟨hP, f a, rfl⟩
  · exact .inr ⟨hP, name, hname, rfl⟩

lemma Decides.both {f : α → β → γ} (h : Decides code P r) (h' : Decides code Q r') :
    Decides code (P ∧ Q) (do return f (← r) (← r')) := by
  obtain ⟨hP, a, rfl⟩ | ⟨hP, name, hname, rfl⟩ := h
  · obtain ⟨hQ, b, rfl⟩ | ⟨hQ, name, hname, rfl⟩ := h'
    · exact .inl ⟨⟨hP, hQ⟩, f a b, rfl⟩
    · exact .inr ⟨fun h => hQ h.2, name, hname, rfl⟩
  · exact .inr ⟨fun h => hP h.1, name, hname, rfl⟩

lemma decides_mapM {good : α → Prop} {f : α → Except NodeError β} {xs : List α}
    (h : ∀ x ∈ xs, Decides code (good x) (f x)) :
    Decides code (∀ x ∈ xs, good x) (xs.mapM f) := by
  induction xs with
  | nil => exact .inl ⟨nofun, [], rfl⟩
  | cons x xs ih =>
    obtain ⟨hx, hxs⟩ := List.forall_mem_cons.1 h
    rw [List.mapM_cons]
    exact (hx.both (ih hxs)).congr List.forall_mem_cons.symm

end Decides

end Form

open Form

namespace Node

variable {readable code : String → Prop} {n child l r : Node} {s : Site} {key name : String}
  {schema : Schema} {props : Dictionary String Schema} {values : Values}

/-- An object has the fields of a node. -/
def Meets (readable : String → Prop) (n : Node) (values : Values) : Prop :=
  Conforms readable (n.addFields []) values

lemma mem_fieldNames (h : Dictionary.find? key (n.addFields []) = some schema) :
    key ∈ n.fieldNames := by
  by_contra hkey
  rw [find?_addFields, if_neg hkey] at h
  cases h

/-- Fields that were there before stay, but for those under the names of the node. -/
lemma conforms_addFields : Conforms readable (n.addFields props) values ↔
    n.Meets readable values ∧ ∀ name schema, name ∉ n.fieldNames →
      Dictionary.find? name props = some schema →
        ∃ x, Dictionary.find? name values = some x ∧ schema.Fits readable x := by
  constructor
  · intro h
    refine ⟨fun name schema hname => h name schema ?_, fun name schema hmem hname =>
      h name schema ?_⟩ <;> rw [find?_addFields]
    · rw [if_pos (mem_fieldNames hname), hname]
    · rw [if_neg hmem, hname]
  · rintro ⟨hn, hprops⟩ name schema hname
    rw [find?_addFields] at hname
    split at hname
    · exact hn name schema hname
    · next hmem => exact hprops name schema hmem hname

lemma meets_pair (hne : ∀ name ∈ l.fieldNames, name ∉ r.fieldNames) :
    (pair s l r).Meets readable values ↔ l.Meets readable values ∧ r.Meets readable values := by
  show Conforms readable (r.addFields (l.addFields [])) values ↔ _
  rw [conforms_addFields, and_comm]
  refine and_congr_left fun _ => ⟨fun h name schema hname => ?_, fun h name schema _ hname => ?_⟩
  · exact h name schema (hne name (mem_fieldNames hname)) hname
  · exact h name schema hname

lemma conforms_alternative (hkey : Schema.choiceKey ∉ n.fieldNames) :
    Conforms readable (n.addFields (Schema.constantFor key)) values ↔
      Dictionary.find? Schema.choiceKey values = some (.text key) ∧ n.Meets readable values := by
  rw [conforms_addFields, and_comm]
  refine and_congr_left fun _ => ⟨fun h => ?_, fun h name schema _ hname => ?_⟩
  · obtain ⟨x, hx, hfits⟩ := h Schema.choiceKey (.constant key) hkey rfl
    cases hfits
    exact hx
  · exact (conforms_singleton.2 ⟨.text key, h, .constant key⟩) name schema hname

/-! ### What is read of conforming objects -/

/-- Code is asked for under the name: a lambda within the type goes by it. -/
def AsksForCode (n : Node) (name : String) : Prop :=
  ∃ s parameter result code, lambda s parameter result code ∈ n.skeleton ∧
    (lambda s parameter result code).displayName = name

/-- The fields for code of a part are among those of the whole. -/
lemma decides_of_child {P : Prop} {r : Except NodeError Micheline} (hchild : child ∈ n.typeChildren)
    (h : Decides child.AsksForCode P r) : Decides n.AsksForCode P r := by
  refine h.mono fun name hname => ?_
  obtain ⟨s, parameter, result, code, hmem, hname⟩ := hname
  exact ⟨s, parameter, result, code, mem_skeleton.2 (.inr ⟨child, hchild, hmem⟩), hname⟩

section Choice

variable {x : Json} {name title : String} {title₁ title₂ : Option String} {key₁ key₂ : String}
  {props₁ props₂ : Dictionary String Schema} {good₁ good₂ : (String → Prop) → Values → Prop}
  {chosen : Values}

lemma fits_choice {a b : Schema} :
    (Schema.choice title [a, b]).Fits readable x ↔ a.Fits readable x ∨ b.Fits readable x := by
  constructor
  · rintro (_ | _ | _ | _ | _ | _ | ⟨halternative, h⟩)
    obtain rfl | rfl := List.mem_pair.1 halternative
    · exact .inl h
    · exact .inr h
  · rintro (h | h)
    · exact .choice List.mem_cons_self h
    · exact .choice (List.mem_cons_of_mem _ List.mem_cons_self) h

lemma conforms_absent : Conforms readable (Schema.constantFor key) values ↔
    Dictionary.find? Schema.choiceKey values = some (.text key) ∧ True := by
  rw [Schema.constantFor, conforms_singleton, and_true]
  constructor
  · rintro ⟨x, hx, ⟨⟩⟩
    exact hx
  · exact fun h => ⟨_, h, .constant key⟩

/-- An object of a choice is read by the reader of the alternative that its constant tells. -/
lemma decides_choice {f₁ f₂ : Values → Except NodeError Micheline} (hkey : key₁ ≠ key₂)
    (h₁ : ∀ readable chosen, Conforms readable props₁ chosen ↔
      Dictionary.find? Schema.choiceKey chosen = some (.text key₁) ∧ good₁ readable chosen)
    (h₂ : ∀ readable chosen, Conforms readable props₂ chosen ↔
      Dictionary.find? Schema.choiceKey chosen = some (.text key₂) ∧ good₂ readable chosen)
    (hf₁ : ∀ chosen, good₁ (fun _ => True) chosen →
      Decides code (good₁ Readable chosen) (f₁ chosen))
    (hf₂ : ∀ chosen, good₂ (fun _ => True) chosen →
      Decides code (good₂ Readable chosen) (f₂ chosen))
    (hx : Dictionary.find? name values = some x)
    (h : (Schema.choice title [.object title₁ props₁, .object title₂ props₂]).Fits
      (fun _ => True) x) :
    Decides code
      ((Schema.choice title [.object title₁ props₁, .object title₂ props₂]).Fits Readable x)
      (do
        let chosen ← objectOf name values
        let key ← choiceOf name chosen
        if key = key₁ then f₁ chosen
        else if key = key₂ then f₂ chosen
        else refuse name s!"unknown alternative '{key}'") := by
  have hconst : ∀ {chosen : Values} {key : String},
      Dictionary.find? Schema.choiceKey chosen = some (.text key) → ∀ key',
        Dictionary.find? Schema.choiceKey chosen = some (.text key') → key = key' :=
    fun h key' h' => Json.text.inj (Option.some.inj (h.symm.trans h'))
  obtain h | h := fits_choice.1 h <;> obtain ⟨chosen, hobject, hconforms⟩ := fits_object.1 h <;>
    rw [fits_choice, fits_object_iff hobject, fits_object_iff hobject, h₁, h₂]
  · obtain ⟨hchosen, hgood⟩ := (h₁ _ _).1 hconforms
    rw [choice_eq hx hobject hchosen, if_pos rfl]
    refine (hf₁ chosen hgood).congr ⟨fun h => .inl ⟨hchosen, h⟩, ?_⟩
    rintro (⟨-, h⟩ | ⟨h, -⟩)
    · exact h
    · exact absurd (hconst hchosen _ h) hkey
  · obtain ⟨hchosen, hgood⟩ := (h₂ _ _).1 hconforms
    rw [choice_eq hx hobject hchosen, if_neg hkey.symm, if_pos rfl]
    refine (hf₂ chosen hgood).congr ⟨fun h => .inr ⟨hchosen, h⟩, ?_⟩
    rintro (⟨h, -⟩ | ⟨-, h⟩)
    · exact absurd (hconst hchosen _ h) hkey.symm
    · exact h

end Choice

lemma decides_codeOf {x : Json} {name title : String} (hname : code name)
    (hx : Dictionary.find? name values = some x)
    (h : (Schema.text title (some "micheline")).Fits (fun _ => True) x) :
    Decides code ((Schema.text title (some "micheline")).Fits Readable x) (codeOf name values) := by
  cases h with
  | @text _ text _ _ =>
    rw [codeOf_eq hx, code?]
    cases hm : Micheline.ofText? text with
    | some m => exact .inl ⟨.text fun _ => ⟨m, hm⟩, m, rfl⟩
    | none =>
      refine .inr ⟨?_, name, hname, rfl⟩
      rintro (_ | hreadable)
      obtain ⟨m, hm'⟩ := hreadable rfl
      rw [hm] at hm'
      cases hm'

lemma decides_object {x : Json} {name reason : String} {title : Option String}
    (ih : ∀ values, n.Meets (fun _ => True) values →
      Decides code (n.Meets Readable values) (n.ofForm values))
    (h : (Schema.object title (n.addFields [])).Fits (fun _ => True) x) :
    Decides code ((Schema.object title (n.addFields [])).Fits Readable x)
      (match x.object? with
      | some values => n.ofForm values
      | none => refuse name reason) := by
  obtain ⟨values, hobject, hmeets⟩ := fits_object.1 h
  rw [hobject]
  exact (ih values hmeets).congr (fits_object_iff hobject).symm

lemma conforms_entry {a b : Schema} :
    Conforms readable [("key", a), ("value", b)] values ↔
      Conforms readable [("key", a)] values ∧ Conforms readable [("value", b)] values := by
  have hkeys : ∀ name schema, Dictionary.find? name [("key", a), ("value", b)] = some schema ↔
      Dictionary.find? name [("key", a)] = some schema ∨
        Dictionary.find? name [("value", b)] = some schema := by
    intro name schema
    simp only [Dictionary.find?_cons]
    by_cases hkey : "key" = name
    · subst hkey
      simp [Dictionary.find?]
    · simp [hkey, Dictionary.find?]
  unfold Conforms
  simp only [hkeys, or_imp, forall_and]

lemma decides_items {x : Json} {name title : String} {f : Json → Except NodeError Micheline}
    (hf : ∀ item, schema.Fits (fun _ => True) item →
      Decides code (schema.Fits Readable item) (f item))
    (hx : Dictionary.find? name values = some x)
    (h : (Schema.array title schema).Fits (fun _ => True) x) :
    Decides code ((Schema.array title schema).Fits Readable x) (do
      let items ← itemsOf name values
      return Micheline.seq (← items.mapM f)) := by
  cases h with
  | @array _ _ items hitems =>
    have hread := (decides_mapM fun item hitem => hf item (hitems item hitem)).map
      (f := Micheline.seq)
    rw [itemsOf, valueOf_ok.2 hx]
    refine hread.congr ⟨.array, ?_⟩
    rintro (_ | _ | _ | _ | _ | _ | _ | h)
    exact h

lemma decides_entry {key value : Node} {entry : Json} {name reason : String}
    (ihk : ∀ values, key.Meets (fun _ => True) values →
      Decides code (key.Meets Readable values) (key.ofForm values))
    (ihv : ∀ values, value.Meets (fun _ => True) values →
      Decides code (value.Meets Readable values) (value.ofForm values))
    (h : (Schema.object none [("key", .object (some "key") (key.addFields [])),
      ("value", .object (some "value") (value.addFields []))]).Fits (fun _ => True) entry) :
    Decides code ((Schema.object none [("key", .object (some "key") (key.addFields [])),
        ("value", .object (some "value") (value.addFields []))]).Fits Readable entry)
      (match entry.object? with
      | some fields => do
        let k ← objectOf "key" fields
        let v ← objectOf "value" fields
        return Micheline.data .elt [← key.ofForm k, ← value.ofForm v]
      | none => refuse name reason) := by
  obtain ⟨fields, hobject, hfields⟩ := fits_object.1 h
  obtain ⟨hkey, hvalue⟩ := conforms_entry.1 hfields
  obtain ⟨x, hx, hfitsx⟩ := conforms_singleton.1 hkey
  obtain ⟨y, hy, hfitsy⟩ := conforms_singleton.1 hvalue
  obtain ⟨k, hk, hmeetsk⟩ := fits_object.1 hfitsx
  obtain ⟨v, hv, hmeetsv⟩ := fits_object.1 hfitsy
  have hread := (ihk k hmeetsk).both (f := fun a b => Micheline.data .elt [a, b]) (ihv v hmeetsv)
  rw [hobject]
  dsimp only
  rw [objectOf_ok.2 ⟨_, hx, hk⟩, objectOf_ok.2 ⟨_, hy, hv⟩, fits_object_iff hobject, conforms_entry,
    conforms_singleton_iff hx, conforms_singleton_iff hy, fits_object_iff hk, fits_object_iff hv]
  exact hread

lemma decides_single (hsingle : n.addFields [] = [(key, schema)])
    (h : n.Meets (fun _ => True) values)
    (hread : ∀ x, Dictionary.find? key values = some x → schema.Fits (fun _ => True) x →
      Decides code (schema.Fits Readable x) (n.ofForm values)) :
    Decides code (n.Meets Readable values) (n.ofForm values) := by
  rw [Meets, hsingle] at h ⊢
  obtain ⟨x, hx, hfits⟩ := conforms_singleton.1 h
  exact (hread x hx hfits).congr (conforms_singleton_iff hx).symm

lemma decides_ofForm (hn : n.WellNamed) (h : n.Meets (fun _ => True) values) :
    Decides n.AsksForCode (n.Meets Readable values) (n.ofForm values) := by
  induction n using typeInduction generalizing values with
  | scalar s type typeArgs value =>
    cases hschema : Schema.ofScalar? type (scalar s type typeArgs value).displayName with
    | none =>
      -- only `unit` is not asked for
      obtain rfl : type = .unit := by cases type <;> first | rfl | cases hschema
      exact .inl ⟨nofun, _, rfl⟩
    | some schema =>
      have hsingle : (scalar s type typeArgs value).addFields [] =
          [((scalar s type typeArgs value).displayName, schema)] := by
        rw [addFields, hschema]
        rfl
      refine decides_single hsingle h fun x hx hfits => ?_
      exact .inl (exists_scalarOf hschema hx hfits).symm
  | contract s parameter value =>
    refine decides_single rfl h fun x hx hfits => ?_
    obtain ⟨⟨text, htext⟩, hfits⟩ := exists_textOf hx hfits nofun
    exact Decides.map (f := Micheline.string) (.inl ⟨hfits, text, htext⟩)
  | ticket s inner ih => exact decides_of_child List.mem_cons_self (ih hn h)
  | option s inner present ih =>
    obtain ⟨hkey, hinner⟩ := wellNamed_option.1 hn
    refine decides_single rfl h fun x hx hfits => ?_
    have hread := fun chosen (h : inner.Meets (fun _ => True) chosen) =>
      (decides_of_child (n := option s inner present) List.mem_cons_self (ih hinner h)).map
        (f := fun a => Micheline.data .some [a])
    exact decides_choice (by decide) (fun _ _ => conforms_absent)
      (fun _ _ => conforms_alternative hkey) (fun _ _ => .inl ⟨trivial, _, rfl⟩) hread hx hfits
  | pair s l r ihl ihr =>
    obtain ⟨hl, hr, hne⟩ := wellNamed_pair.1 hn
    obtain ⟨hmeetsl, hmeetsr⟩ := (meets_pair hne).1 h
    have hreadl := decides_of_child (n := pair s l r) List.mem_cons_self (ihl hl hmeetsl)
    have hreadr := decides_of_child (n := pair s l r) (List.mem_cons_of_mem _ List.mem_cons_self)
      (ihr hr hmeetsr)
    exact (hreadl.both hreadr).congr (meets_pair hne).symm
  | or s l r side ihl ihr =>
    obtain ⟨⟨hkeyl, hl⟩, hkeyr, hr⟩ := wellNamed_or.1 hn
    refine decides_single rfl h fun x hx hfits => ?_
    have hreadl := fun chosen (h : l.Meets (fun _ => True) chosen) =>
      (decides_of_child (n := or s l r side) List.mem_cons_self (ihl hl h)).map
        (f := fun a => Micheline.data .left [a])
    have hreadr := fun chosen (h : r.Meets (fun _ => True) chosen) =>
      (decides_of_child (n := or s l r side) (List.mem_cons_of_mem _ List.mem_cons_self)
        (ihr hr h)).map (f := fun a => Micheline.data .right [a])
    exact decides_choice (by decide) (fun _ _ => conforms_alternative hkeyl)
      (fun _ _ => conforms_alternative hkeyr) hreadl hreadr hx hfits
  | collection s kind elem items ih =>
    refine decides_single rfl h fun x hx hfits => ?_
    have hread := fun values (h : elem.Meets (fun _ => True) values) =>
      decides_of_child (n := collection s kind elem items) List.mem_cons_self
        (ih (wellNamed_collection.1 hn) h)
    exact decides_items (fun item => decides_object hread) hx hfits
  | map s key value entries ihk ihv =>
    obtain ⟨hkey, hvalue⟩ := wellNamed_map.1 hn
    refine decides_single rfl h fun x hx hfits => ?_
    have hreadk := fun values (h : key.Meets (fun _ => True) values) =>
      decides_of_child (n := map s key value entries) List.mem_cons_self (ihk hkey h)
    have hreadv := fun values (h : value.Meets (fun _ => True) values) =>
      decides_of_child (n := map s key value entries)
        (List.mem_cons_of_mem _ List.mem_cons_self) (ihv hvalue h)
    exact decides_items (fun entry => decides_entry hreadk hreadv) hx hfits
  | bigMap s key value pointer entries ihk ihv =>
    refine decides_single rfl h fun x hx hfits => ?_
    obtain ⟨⟨literal, hliteral⟩, hfits⟩ := exists_numeralOf hx hfits
    exact Decides.map (f := Micheline.int) (.inl ⟨hfits, literal, hliteral⟩)
  | lambda s parameter result value ihp ihr =>
    exact decides_single rfl h fun x hx hfits =>
      decides_codeOf ⟨s, parameter, result, value, mem_skeleton_self, rfl⟩ hx hfits

/-- **Forms are read as they ask**: where a type has no form, every object is read, and else every
object that has what the form asks for, if its texts of code are Micheline. One of them that is not
is what the reading complains about. -/
theorem ofForm_of_conforms (hn : n.WellNamed) :
    (n.formFields? = none → ∀ values, ∃ w, n.ofForm values = .ok w) ∧
      ∀ fields values, n.formFields? = some fields → Conforms (fun _ => True) fields values →
        (Conforms Readable fields values → ∃ w, n.ofForm values = .ok w) ∧
          (¬ Conforms Readable fields values → ∃ name, n.AsksForCode name ∧
            n.ofForm values = .error (.invalidForm name DecodeError.invalidJson.message)) := by
  unfold formFields?
  split
  · next hunit =>
    obtain ⟨s, typeArgs, value, rfl⟩ : ∃ s typeArgs value, n = scalar s .unit typeArgs value := by
      unfold isUnit at hunit
      split at hunit
      · exact ⟨_, _, _, rfl⟩
      · cases hunit
    exact ⟨fun _ _ => ⟨_, rfl⟩, nofun⟩
  · refine ⟨nofun, ?_⟩
    rintro _ values ⟨⟩ h
    obtain ⟨hgood, hok⟩ | ⟨hbad, herror⟩ := decides_ofForm hn h
    · exact ⟨fun _ => hok, fun hbad => absurd hgood hbad⟩
    · exact ⟨fun hgood => absurd hgood hbad, fun _ => herror⟩

def errand : Node :=
  .pair (siteAt 0 "0" 0 [])
    (.or (siteAt 1 "0/0" 1 ["%action"])
      (.scalar (siteAt 2 "0/0/0" 2 ["%deposit"]) .nat [] none)
      (.lambda (siteAt 3 "0/0/1" 2 ["%run"]) (.scalar (siteAt 4 "0/0/1/0" 3 []) .unit [] none)
        (.scalar (siteAt 5 "0/0/1/1" 3 []) .unit [] none) none) none)
    (.collection (siteAt 6 "0/1" 1 ["%tags"]) .list
      (.scalar (siteAt 7 "0/1/l" 2 ["%tag"]) .string [] none) none)

def errandValues (code : String) : Values :=
  [("action", .object [("schemaKey", .text "1"), ("run", .text code)]),
    ("tags", .array [.object [("tag", .text "early")], .object [("tag", .text "")]])]

lemma meets_errandValues {text : String} :
    errand.Meets readable (errandValues text) ↔ readable text := by
  have htag : ∀ tag : String, (Schema.object none [("tag", .text "tag" none)]).Fits readable
      (.object [("tag", .text tag)]) := fun tag =>
    (fits_object_iff rfl).2 ((conforms_singleton_iff rfl).2 (.text nofun))
  rw [errand, meets_pair (by decide), Meets, Meets]
  refine ((conforms_singleton_iff rfl).and (conforms_singleton_iff rfl)).trans ?_
  rw [fits_choice, fits_object_iff rfl, fits_object_iff rfl, conforms_alternative (by decide),
    conforms_alternative (by decide)]
  constructor
  · rintro ⟨⟨hother, -⟩ | ⟨-, hrun⟩, -⟩
    · exact absurd (Json.text.inj (Option.some.inj hother) : "1" = "0") (by decide)
    · obtain _ | hcode := (conforms_singleton_iff rfl).1 hrun
      exact hcode rfl
  · intro htext
    refine ⟨.inr ⟨rfl, (conforms_singleton_iff rfl).2 (.text fun _ => htext)⟩,
      .array fun item h => ?_⟩
    obtain rfl | rfl := List.mem_pair.1 h
    · exact htag "early"
    · exact htag ""

theorem ofForm_of_conforms_errand :
    errand.WellNamed ∧ (∃ w, errand.ofForm (errandValues "[]") = .ok w) ∧
      ∃ name, errand.AsksForCode name ∧ errand.ofForm (errandValues "?") =
        .error (.invalidForm name DecodeError.invalidJson.message) := by
  have hnamed : errand.WellNamed := by decide
  have hread := fun text => (ofForm_of_conforms hnamed).2 _ (errandValues text) rfl
    (meets_errandValues.2 trivial)
  refine ⟨hnamed, (hread "[]").1 (meets_errandValues.2 ⟨.seq [], rfl⟩), (hread "?").2 fun h => ?_⟩
  obtain ⟨code, hcode⟩ := meets_errandValues.1 h
  cases hcode

end Node

end Lineage
