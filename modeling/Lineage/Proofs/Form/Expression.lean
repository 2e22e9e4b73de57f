import Mathlib.Data.Option.Basic
import Lineage.Proofs.Form.Values

/-!
# Types with a form for every value

A form that has a field for every value of a type tells its fields apart (`wellNamed_of_expresses`),
so these are the types that are named well (`expresses_iff`). The reason is that each field has two
values that are entered in different ways (`tells_of_mem_fields`). Of two fields of one name, the
first could hold some value, and then the second would be left with what is entered for it.

What is entered can be of several forms, and what a field reads of it depends on the field. What all
fields agree on is its gist (`Form.gist`).
-/

namespace Lineage

open Form (Schema Values)

namespace Form

/-- What can be told of a value without knowing the field in which it is entered. -/
inductive Gist where
  | word (text : String)
  | truth (b : Bool)
  | items (count : Nat)
  | choice (key : Option String)
  | other
  deriving DecidableEq

/-- **The gist of what is entered**: a numeral may be a text or not, and a text of code that is a
sequence may stand for its items. -/
def gist : Json → Gist
  | .text s =>
    match Micheline.ofText? s with
    | some (.seq code) => .items code.length
    | _ => .word s
  | .integer k => .word (toString k)
  | .bool b => .truth b
  | .array items => .items items.length
  | .object fields => .choice
      ((Dictionary.find? Schema.choiceKey (Dictionary.ofList fields)).bind Json.text?)
  | .null | .decimal _ => .other

/-- A field holds a value of this gist. -/
def HasGist (name : String) (values : Values) (g : Gist) : Prop :=
  ∃ x, Dictionary.find? name values = some x ∧ gist x = g

variable {name key text literal : String} {x : Json} {values chosen : Values}

lemma HasGist.unique {g g' : Gist} (h : HasGist name values g) (h' : HasGist name values g') :
    g = g' := by
  obtain ⟨x, hx, rfl⟩ := h
  obtain ⟨x', hx', rfl⟩ := h'
  rw [Option.some.inj (hx.symm.trans hx')]

lemma hasGist_text (hword : (Micheline.ofText? text).isNone = true)
    (h : Dictionary.find? name values = some (.text text)) : HasGist name values (.word text) := by
  refine ⟨_, h, ?_⟩
  rw [gist, Option.isNone_iff_eq_none.1 hword]

lemma hasGist_numeral (hword : (Micheline.ofText? literal).isNone = true)
    (h : numeralOf name values = .ok literal) : HasGist name values (.word literal) := by
  obtain ⟨k, hk, rfl⟩ | ⟨hx, -⟩ := numeralOf_ok.1 h
  · exact ⟨_, hk, rfl⟩
  · exact hasGist_text hword hx

lemma hasGist_choice (h : Node.Chooses name values key chosen) :
    HasGist name values (.choice (some key)) := by
  obtain ⟨x, hx, hobject, hconst⟩ := h
  refine ⟨x, hx, ?_⟩
  cases x with
  | object fields =>
    cases hobject
    rw [gist, hconst]
    rfl
  | _ => cases hobject

open Micheline.Reading (ofItems application? applicationOf? expression? textOf?)

lemma hasGist_items {items : List Json} {ws : List Micheline}
    (h : Dictionary.find? name values = some (.array items)) (hlength : items.length = ws.length) :
    HasGist name values (.items ws.length) := by
  refine ⟨_, h, ?_⟩
  rw [gist, hlength]

lemma expression?_ne_seq {fields : List (String × Micheline.Reading)} {code : List Micheline} :
    expression? fields ≠ some (.seq code) := by
  unfold expression? applicationOf?
  cases textOf? "int" fields <;> cases textOf? "string" fields <;> cases textOf? "bytes" fields <;>
    simp [Option.bind_eq_some_iff]

lemma application?_ne_seq {readings : List Micheline.Reading} {code : List Micheline} :
    application? readings ≠ some (.seq code) := by
  unfold application?
  split <;> simp [Option.bind_eq_some_iff]

lemma length_of_mapM_ofItems {items : List Json} {code : List Micheline}
    (h : (ofItems items).mapM (·.node) = some code) : items.length = code.length := by
  induction items generalizing code with
  | nil =>
    cases h
    rfl
  | cons item items ih =>
    rw [ofItems, List.mapM_cons] at h
    obtain ⟨m, -, h⟩ := Option.bind_eq_some_iff.1 h
    obtain ⟨ms, hms, h⟩ := Option.bind_eq_some_iff.1 h
    cases h
    rw [List.length_cons, List.length_cons, ih hms]

lemma exists_items {code : List Micheline} (h : Micheline.ofJson? x = some (.seq code)) :
    ∃ items, x = .array items ∧ items.length = code.length := by
  cases x with
  | array items =>
    obtain h | ⟨-, h⟩ := (Option.orElse_eq_some _ _ _).1 h
    · obtain ⟨code', hcode, h⟩ := Option.map_eq_some_iff.1 h
      cases h
      exact ⟨items, rfl, length_of_mapM_ofItems hcode⟩
    · exact absurd h application?_ne_seq
  | object fields => exact absurd h expression?_ne_seq
  | _ => cases h

lemma gist_of_code? {code : List Micheline} (h : code? x = some (.seq code)) :
    gist x = .items code.length := by
  cases x with
  | text s => rw [gist, show Micheline.ofText? s = some (.seq code) from h]
  | array items =>
    obtain ⟨_, ⟨⟩, hlength⟩ := exists_items h
    rw [gist, hlength]
  | null | bool | integer | decimal | object =>
    obtain ⟨_, hx, -⟩ := exists_items h
    cases hx

end Form

open Form

namespace Node

variable {n f l r : Node} {s : Site} {v w x : Micheline} {g g' : Gist}

lemma data_inj {c c' : Constructor} {args args' : List Micheline}
    (h : Micheline.data c args = .data c' args') : c' = c ∧ args' = args :=
  Micheline.data_applies.1 ⟨[], h⟩

/-! ### Two values of a field -/

/-- In all objects from which a value is read, its field has this gist. -/
def Shows (n : Node) (w : Micheline) (g : Gist) : Prop :=
  n.Takes w ∧ ∀ values, n.ofForm values = .ok w → HasGist n.displayName values g

/-- A field has two values that are entered in different ways. -/
def Tells (n : Node) : Prop := ∃ w w' g g', n.Shows w g ∧ n.Shows w' g' ∧ g ≠ g'

section Scalars

variable {name text literal : String} {values : Values} {type : Scalar}
  {typeArgs : List Micheline} {old : Option Micheline}

lemma shows_scalar (hcheck : type.check w = .ok ()) (hwritten : type.Written w)
    (h : ∀ name values, scalarOf type name values = .ok w → HasGist name values g) :
    (scalar s type typeArgs old).Shows w g :=
  ⟨takes_scalar.2 ⟨hcheck, hwritten⟩, h _⟩

lemma hasGist_of_int (hword : (Micheline.ofText? literal).isNone = true)
    (h : (do return Micheline.int (← numeralOf name values)) = Except.ok (.int literal)) :
    HasGist name values (.word literal) := by
  obtain ⟨literal', hliteral, h⟩ := except_bind_ok.1 h
  cases h
  exact hasGist_numeral hword hliteral

lemma hasGist_of_string (hword : (Micheline.ofText? text).isNone = true)
    (h : (do return Micheline.string (← textOf name values)) = Except.ok (.string text)) :
    HasGist name values (.word text) := by
  obtain ⟨text', htext, h⟩ := except_bind_ok.1 h
  cases h
  exact hasGist_text hword (textOf_ok.1 htext)

lemma hasGist_of_bytes (hword : (Micheline.ofText? text).isNone = true)
    (h : (do return Micheline.bytes (← textOf name values)) = Except.ok (.bytes text)) :
    HasGist name values (.word text) := by
  obtain ⟨text', htext, h⟩ := except_bind_ok.1 h
  cases h
  exact hasGist_text hword (textOf_ok.1 htext)

lemma tells_scalar (htype : type ≠ .unit) : (scalar s type typeArgs old).Tells := by
  cases type with
  | unit => exact absurd rfl htype
  | int | nat | mutez =>
    exact ⟨.int "1", .int "2", .word "1", .word "2",
      shows_scalar rfl ⟨_, rfl⟩ fun _ _ => hasGist_of_int (by decide +kernel),
      shows_scalar rfl ⟨_, rfl⟩ fun _ _ => hasGist_of_int (by decide +kernel), by decide⟩
  | bool =>
    have hgist : ∀ b name values, scalarOf .bool name values =
        .ok (.data (if b then .true else .false) []) → HasGist name values (.truth b) := by
      intro b name values h
      obtain ⟨b', hb', h⟩ := except_bind_ok.1 h
      have hb : b' = b := by
        have hname := (Micheline.prim.inj (pure_ok.1 h)).1
        revert hname
        cases b <;> cases b' <;> decide
      exact ⟨_, boolOf_ok.1 hb', by rw [hb, gist]⟩
    exact ⟨.data .true [], .data .false [], .truth true, .truth false,
      shows_scalar rfl (.inl rfl) (hgist true), shows_scalar rfl (.inr rfl) (hgist false),
      by decide⟩
  | bytes | bls12381Fr | bls12381G1 | bls12381G2 =>
    exact ⟨.bytes "aa", .bytes "bb", .word "aa", .word "bb",
      shows_scalar rfl ⟨_, rfl⟩ fun _ _ => hasGist_of_bytes (by decide),
      shows_scalar rfl ⟨_, rfl⟩ fun _ _ => hasGist_of_bytes (by decide), by decide⟩
  | timestamp =>
    exact ⟨.string "2021-01-01T00:00:00Z", .string "2022-01-01T00:00:00Z",
      .word "2021-01-01T00:00:00Z", .word "2022-01-01T00:00:00Z",
      shows_scalar rfl ⟨_, rfl⟩ fun _ _ => hasGist_of_string (by decide +kernel),
      shows_scalar rfl ⟨_, rfl⟩ fun _ _ => hasGist_of_string (by decide +kernel), by decide⟩
  | _ =>
    exact ⟨.string "x", .string "y", .word "x", .word "y",
      shows_scalar rfl ⟨_, rfl⟩ fun _ _ => hasGist_of_string (by decide),
      shows_scalar rfl ⟨_, rfl⟩ fun _ _ => hasGist_of_string (by decide), by decide⟩

end Scalars

lemma exists_takes (n : Node) : ∃ w, n.Takes w := by
  induction n using typeInduction with
  | scalar s type typeArgs value =>
    by_cases htype : type = .unit
    · subst htype
      exact ⟨.data .unit [], takes_scalar.2 ⟨rfl, rfl⟩⟩
    · obtain ⟨w, _, _, _, hw, -⟩ := tells_scalar htype
      exact ⟨w, hw.1⟩
  | contract s parameter value => exact ⟨.string "", takes_contract.2 ⟨_, rfl⟩⟩
  | ticket s inner ih => exact ih.imp fun _ => takes_ticket.2
  | option s inner present ih => exact ⟨.data .none [], takes_option.2 (.inl rfl)⟩
  | pair s l r ihl ihr =>
    obtain ⟨a, ha⟩ := ihl
    obtain ⟨b, hb⟩ := ihr
    exact ⟨.data .pair [a, b], takes_pair.2 ⟨a, b, rfl, ha, hb⟩⟩
  | or s l r side ihl ihr =>
    obtain ⟨a, ha⟩ := ihl
    exact ⟨.data .left [a], takes_or.2 (.inl ⟨a, rfl, ha⟩)⟩
  | collection s kind elem items ih => exact ⟨.seq [], takes_collection.2 ⟨[], rfl, nofun⟩⟩
  | map s key value entries ihk ihv => exact ⟨.seq [], takes_map.2 ⟨[], rfl, nofun⟩⟩
  | bigMap s key value pointer entries =>
    exact ⟨.int "1", takes_bigMap.2 ⟨"1", 1, rfl, by decide, rfl⟩⟩
  | lambda s parameter result value => exact ⟨.seq [], takes_lambda.2 (.inl ⟨[], rfl⟩)⟩

section Fields

variable {inner elem key value parameter result : Node} {old : Option Micheline}
  {present : Option Bool} {side : Option Side} {kind : Collection} {items : Option (List Node)}
  {entries : Option (List (Node × Node))} {pointer : Option Int}

lemma tells_contract : (contract s parameter old).Tells := by
  have hshows : ∀ text, (Micheline.ofText? text).isNone = true →
      (contract s parameter old).Shows (.string text) (.word text) := by
    refine fun text hword => ⟨takes_contract.2 ⟨text, rfl⟩, fun values h => ?_⟩
    obtain ⟨_, htext, ⟨⟩⟩ := ofForm_contract.1 h
    exact hasGist_text hword htext
  exact ⟨_, _, _, _, hshows "x" (by decide), hshows "y" (by decide), by decide⟩

lemma tells_option : (option s inner present).Tells := by
  obtain ⟨a, ha⟩ := exists_takes inner
  have hnone : (option s inner present).Shows (.data .none [])
      (.choice (some (presenceKey false))) := by
    refine ⟨takes_option.2 (.inl rfl), fun values h => ?_⟩
    obtain ⟨chosen, hchosen, -⟩ | ⟨chosen, -, b, -, hb⟩ := ofForm_option.1 h
    · exact hasGist_choice hchosen
    · cases (data_inj hb).1
  have hsome : (option s inner present).Shows (.data .some [a])
      (.choice (some (presenceKey true))) := by
    refine ⟨takes_option.2 (.inr ⟨a, rfl, ha⟩), fun values h => ?_⟩
    obtain ⟨chosen, -, hb⟩ | ⟨chosen, hchosen, -⟩ := ofForm_option.1 h
    · cases (data_inj hb).1
    · exact hasGist_choice hchosen
  exact ⟨_, _, _, _, hnone, hsome, by decide⟩

lemma tells_or : (or s l r side).Tells := by
  obtain ⟨a, ha⟩ := exists_takes l
  obtain ⟨b, hb⟩ := exists_takes r
  have hleft : (or s l r side).Shows (.data .left [a]) (.choice (some (sideKey .left))) := by
    refine ⟨takes_or.2 (.inl ⟨a, rfl, ha⟩), fun values h => ?_⟩
    obtain ⟨chosen, hchosen, -⟩ | ⟨chosen, -, x, -, hx⟩ := ofForm_or.1 h
    · exact hasGist_choice hchosen
    · cases (data_inj hx).1
  have hright : (or s l r side).Shows (.data .right [b]) (.choice (some (sideKey .right))) := by
    refine ⟨takes_or.2 (.inr ⟨b, rfl, hb⟩), fun values h => ?_⟩
    obtain ⟨chosen, -, x, -, hx⟩ | ⟨chosen, hchosen, -⟩ := ofForm_or.1 h
    · cases (data_inj hx).1
    · exact hasGist_choice hchosen
  exact ⟨_, _, _, _, hleft, hright, by decide⟩

lemma tells_collection : (collection s kind elem items).Tells := by
  obtain ⟨a, ha⟩ := exists_takes elem
  have hshows : ∀ vs : List Micheline, (∀ v ∈ vs, elem.Takes v) →
      (collection s kind elem items).Shows (.seq vs) (.items vs.length) := by
    refine fun vs hvs => ⟨takes_collection.2 ⟨vs, rfl, hvs⟩, fun values h => ?_⟩
    obtain ⟨objects, _, hx, hread, ⟨⟩⟩ := ofForm_collection.1 h
    exact hasGist_items hx hread.length_eq
  exact ⟨_, _, _, _, hshows [] nofun, hshows [a] (List.forall_mem_singleton.2 ha), by simp⟩

lemma tells_map : (map s key value entries).Tells := by
  obtain ⟨a, ha⟩ := exists_takes key
  obtain ⟨b, hb⟩ := exists_takes value
  have hshows : ∀ vs : List Micheline, (∀ v ∈ vs, PlainElt key.Takes value.Takes v) →
      (map s key value entries).Shows (.seq vs) (.items vs.length) := by
    refine fun vs hvs => ⟨takes_map.2 ⟨vs, rfl, hvs⟩, fun values h => ?_⟩
    obtain ⟨objects, _, hx, hread, ⟨⟩⟩ := ofForm_map.1 h
    exact hasGist_items hx hread.length_eq
  exact ⟨_, _, _, _, hshows [] nofun,
    hshows [.data .elt [a, b]] (List.forall_mem_singleton.2 ⟨a, b, rfl, ha, hb⟩), by simp⟩

lemma tells_bigMap : (bigMap s key value pointer entries).Tells := by
  have hshows : ∀ literal p, Decimal.parseInt64? literal = some p → Numeral literal →
      (Micheline.ofText? literal).isNone = true →
      (bigMap s key value pointer entries).Shows (.int literal) (.word literal) := by
    refine fun literal p hp hnumeral hword =>
      ⟨takes_bigMap.2 ⟨literal, p, rfl, hp, hnumeral⟩, fun values h => ?_⟩
    obtain ⟨_, hliteral, ⟨⟩⟩ := ofForm_bigMap.1 h
    exact hasGist_numeral hword hliteral
  exact ⟨_, _, _, _, hshows "1" 1 (by decide) rfl (by decide +kernel),
    hshows "2" 2 (by decide) rfl (by decide +kernel), by decide⟩

lemma tells_lambda : (lambda s parameter result old).Tells := by
  have hshows : ∀ code, (lambda s parameter result old).Shows (.seq code) (.items code.length) := by
    refine fun code => ⟨takes_lambda.2 (.inl ⟨code, rfl⟩), fun values h => ?_⟩
    obtain ⟨x, hx, hcode⟩ := ofForm_lambda.1 h
    exact ⟨x, hx, gist_of_code? hcode⟩
  exact ⟨_, _, _, _, hshows [], hshows [.seq []], by decide⟩

end Fields

/-- **Each field has two values that are entered in different ways**. -/
lemma tells_of_mem_fields (hf : f ∈ n.fields) : f.Tells := by
  induction n using typeInduction with
  | scalar s type typeArgs value =>
    by_cases htype : type = .unit
    · subst htype
      cases hf
    · rw [fields_scalar htype] at hf
      exact List.mem_singleton.1 hf ▸ tells_scalar htype
  | ticket s inner ih => exact ih hf
  | pair s l r ihl ihr => exact (List.mem_append.1 hf).elim ihl ihr
  | contract => exact List.mem_singleton.1 hf ▸ tells_contract
  | option => exact List.mem_singleton.1 hf ▸ tells_option
  | or => exact List.mem_singleton.1 hf ▸ tells_or
  | collection => exact List.mem_singleton.1 hf ▸ tells_collection
  | map => exact List.mem_singleton.1 hf ▸ tells_map
  | bigMap => exact List.mem_singleton.1 hf ▸ tells_bigMap
  | lambda => exact List.mem_singleton.1 hf ▸ tells_lambda

/-! ### Fields of one name -/

lemma exists_takes_of_mem_fields (hf : f ∈ n.fields) (hx : f.Takes x) :
    ∃ w, n.Takes w ∧ ∀ values, n.ofForm values = .ok w → f.ofForm values = .ok x := by
  induction n using typeInduction with
  | scalar s type typeArgs value =>
    by_cases htype : type = .unit
    · subst htype
      cases hf
    · rw [fields_scalar htype] at hf
      rw [List.mem_singleton.1 hf] at hx ⊢
      exact ⟨x, hx, fun _ => id⟩
  | ticket s inner ih =>
    obtain ⟨w, hw, hread⟩ := ih hf
    exact ⟨w, takes_ticket.2 hw, hread⟩
  | pair s l r ihl ihr =>
    obtain hf | hf := List.mem_append.1 hf
    · obtain ⟨a, ha, hread⟩ := ihl hf
      obtain ⟨b, hb⟩ := exists_takes r
      refine ⟨.data .pair [a, b], takes_pair.2 ⟨a, b, rfl, ha, hb⟩, fun values h => ?_⟩
      obtain ⟨_, _, hvalues, -, ⟨⟩⟩ := ofForm_pair.1 h
      exact hread values hvalues
    · obtain ⟨a, ha⟩ := exists_takes l
      obtain ⟨b, hb, hread⟩ := ihr hf
      refine ⟨.data .pair [a, b], takes_pair.2 ⟨a, b, rfl, ha, hb⟩, fun values h => ?_⟩
      obtain ⟨_, _, -, hvalues, ⟨⟩⟩ := ofForm_pair.1 h
      exact hread values hvalues
  | contract | option | or | collection | map | bigMap | lambda =>
    rw [List.mem_singleton.1 hf] at hx ⊢
    exact ⟨x, hx, fun _ => id⟩

/-- Every value of the type, as it is made of forms, is made of some object. -/
def Expresses (n : Node) : Prop := ∀ w, n.Takes w → ∃ values, n.ofForm values = .ok w

/-- If there is a gist that the field of a name has whatever the value of the node is, the node has
no such field. -/
lemma not_mem_fieldNames {name : String}
    (h : ∀ w, n.Takes w → ∃ values, HasGist name values g ∧ n.ofForm values = .ok w) :
    name ∉ n.fieldNames := by
  intro hname
  obtain ⟨f, hf, rfl⟩ := List.mem_map.1 hname
  obtain ⟨x, x', gx, gx', hx, hx', hne⟩ := tells_of_mem_fields hf
  have hgist : ∀ {x gx}, f.Shows x gx → gx = g := by
    rintro x gx ⟨hx, hshows⟩
    obtain ⟨w, hw, hread⟩ := exists_takes_of_mem_fields hf hx
    obtain ⟨values, hfield, hvalues⟩ := h w hw
    exact (hshows values (hread values hvalues)).unique hfield
  exact hne ((hgist hx).trans (hgist hx').symm)

/-- An alternative for all values of which there is an object with the constant. -/
lemma expresses_of_choice (key : String)
    (h : ∀ w, n.Takes w → ∃ name values chosen, Chooses name values key chosen ∧
      n.ofForm chosen = .ok w) :
    Schema.choiceKey ∉ n.fieldNames ∧ n.Expresses := by
  refine ⟨not_mem_fieldNames (g := gist (.text key)) fun w hw => ?_, fun w hw => ?_⟩ <;>
    obtain ⟨name, values, chosen, ⟨x, -, -, hconst⟩, hread⟩ := h w hw
  · exact ⟨chosen, ⟨_, hconst, rfl⟩, hread⟩
  · exact ⟨chosen, hread⟩

lemma Expresses.disjoint (h : (pair s l r).Expresses) :
    ∀ name ∈ l.fieldNames, name ∉ r.fieldNames := by
  intro name hname
  obtain ⟨f, hf, rfl⟩ := List.mem_map.1 hname
  obtain ⟨x, -, g, -, ⟨hx, hshows⟩, -⟩ := tells_of_mem_fields hf
  obtain ⟨a, ha, hread⟩ := exists_takes_of_mem_fields hf hx
  refine not_mem_fieldNames (g := g) fun b hb => ?_
  obtain ⟨values, hvalues⟩ := h _ (takes_pair.2 ⟨a, b, rfl, ha, hb⟩)
  obtain ⟨_, _, ha', hb', ⟨⟩⟩ := ofForm_pair.1 hvalues
  exact ⟨values, hshows values (hread values ha'), hb'⟩

section Parts

variable {inner elem key value : Node}

lemma Expresses.of_option {present : Option Bool} (h : (option s inner present).Expresses) :
    Schema.choiceKey ∉ inner.fieldNames ∧ inner.Expresses := by
  refine expresses_of_choice (presenceKey true) fun a ha => ?_
  obtain ⟨values, hvalues⟩ := h _ (takes_option.2 (.inr ⟨a, rfl, ha⟩))
  obtain ⟨_, -, hnone⟩ | ⟨chosen, hchosen, _, hread, ⟨⟩⟩ := ofForm_option.1 hvalues
  · cases (data_inj hnone).1
  · exact ⟨_, values, chosen, hchosen, hread⟩

lemma Expresses.of_or_left {side : Option Side} (h : (or s l r side).Expresses) :
    Schema.choiceKey ∉ l.fieldNames ∧ l.Expresses := by
  refine expresses_of_choice (sideKey .left) fun a ha => ?_
  obtain ⟨values, hvalues⟩ := h _ (takes_or.2 (.inl ⟨a, rfl, ha⟩))
  obtain ⟨chosen, hchosen, _, hread, ⟨⟩⟩ | ⟨_, -, _, -, hright⟩ := ofForm_or.1 hvalues
  · exact ⟨_, values, chosen, hchosen, hread⟩
  · cases (data_inj hright).1

lemma Expresses.of_or_right {side : Option Side} (h : (or s l r side).Expresses) :
    Schema.choiceKey ∉ r.fieldNames ∧ r.Expresses := by
  refine expresses_of_choice (sideKey .right) fun b hb => ?_
  obtain ⟨values, hvalues⟩ := h _ (takes_or.2 (.inr ⟨b, rfl, hb⟩))
  obtain ⟨_, -, _, -, hleft⟩ | ⟨chosen, hchosen, _, hread, ⟨⟩⟩ := ofForm_or.1 hvalues
  · cases (data_inj hleft).1
  · exact ⟨_, values, chosen, hchosen, hread⟩

lemma Expresses.of_pair (h : (pair s l r).Expresses) : l.Expresses ∧ r.Expresses := by
  have hread : ∀ a b, l.Takes a → r.Takes b →
      ∃ values, l.ofForm values = .ok a ∧ r.ofForm values = .ok b := by
    intro a b ha hb
    obtain ⟨values, hvalues⟩ := h _ (takes_pair.2 ⟨a, b, rfl, ha, hb⟩)
    obtain ⟨_, _, ha', hb', ⟨⟩⟩ := ofForm_pair.1 hvalues
    exact ⟨values, ha', hb'⟩
  refine ⟨fun a ha => ?_, fun b hb => ?_⟩
  · obtain ⟨b, hb⟩ := exists_takes r
    exact (hread a b ha hb).imp fun _ h => h.1
  · obtain ⟨a, ha⟩ := exists_takes l
    exact (hread a b ha hb).imp fun _ h => h.2

lemma Expresses.of_collection {kind : Collection} {items : Option (List Node)}
    (h : (collection s kind elem items).Expresses) : elem.Expresses := by
  intro a ha
  obtain ⟨values, hvalues⟩ :=
    h (.seq [a]) (takes_collection.2 ⟨[a], rfl, List.forall_mem_singleton.2 ha⟩)
  obtain ⟨_, _, -, hitems, ⟨⟩⟩ := ofForm_collection.1 hvalues
  obtain ⟨_, _, ⟨fields, -, hread⟩, -⟩ := List.forall₂_cons_right_iff.1 hitems
  exact ⟨fields, hread⟩

lemma Expresses.of_map {entries : Option (List (Node × Node))}
    (h : (map s key value entries).Expresses) : key.Expresses ∧ value.Expresses := by
  have hread : ∀ a b, key.Takes a → value.Takes b →
      (∃ k, key.ofForm k = .ok a) ∧ ∃ v, value.ofForm v = .ok b := by
    intro a b ha hb
    obtain ⟨values, hvalues⟩ := h (.seq [.data .elt [a, b]]) (takes_map.2
      ⟨_, rfl, List.forall_mem_singleton.2 ⟨a, b, rfl, ha, hb⟩⟩)
    obtain ⟨_, _, -, hentries, ⟨⟩⟩ := ofForm_map.1 hvalues
    obtain ⟨_, _, ⟨_, k, v, _, _, -, -, -, hk, hv, ⟨⟩⟩, -⟩ :=
      List.forall₂_cons_right_iff.1 hentries
    exact ⟨⟨k, hk⟩, v, hv⟩
  refine ⟨fun a ha => ?_, fun b hb => ?_⟩
  · obtain ⟨b, hb⟩ := exists_takes value
    exact (hread a b ha hb).1
  · obtain ⟨a, ha⟩ := exists_takes key
    exact (hread a b ha hb).2

end Parts

/-- **A form for every value tells its fields apart**. -/
theorem wellNamed_of_expresses (h : n.Expresses) : n.WellNamed := by
  induction n using typeInduction with
  | scalar s type typeArgs value =>
    by_cases htype : type = .unit
    · subst htype
      exact wellNamed_iff.2 ⟨List.nodup_nil, nofun⟩
    · exact (wellNamed_single (fields_scalar htype)).2 nofun
  | contract | lambda | bigMap => exact (wellNamed_single rfl).2 nofun
  | ticket s inner ih => exact ih fun w hw => h w (takes_ticket.2 hw)
  | option s inner present ih => exact wellNamed_option.2 (h.of_option.imp_right ih)
  | pair s l r ihl ihr =>
    exact wellNamed_pair.2 ⟨ihl h.of_pair.1, ihr h.of_pair.2, h.disjoint⟩
  | or s l r side ihl ihr =>
    exact wellNamed_or.2 ⟨h.of_or_left.imp_right ihl, h.of_or_right.imp_right ihr⟩
  | collection s kind elem items ih => exact wellNamed_collection.2 (ih h.of_collection)
  | map s key value entries ihk ihv =>
    exact wellNamed_map.2 ⟨ihk h.of_map.1, ihv h.of_map.2⟩

/-- **What forms express**: they make expressions of one kind, and all of this kind that can be
bound exactly if no object has two fields of one name. -/
theorem exists_ofForm_iff :
    ((∀ w, (∃ n', n.settle w = .ok n') → n.Written Numeral w →
        ∃ fields, n.ofForm (Dictionary.ofList fields) = .ok w) ↔ n.WellNamed) ∧
      ∀ values w, n.ofForm values = .ok w → n.Written Numeral w := by
  refine ⟨⟨fun h => ?_, fun hn w hsettle hwritten => exists_ofForm hn ⟨hsettle, hwritten⟩⟩,
    fun _ _ => written_of_ofForm⟩
  refine wellNamed_of_expresses fun w hw => ?_
  obtain ⟨fields, hfields⟩ := h w hw.1 hw.2
  exact ⟨_, hfields⟩

/-- A value can be bound, is made of such expressions but for its pointers, and no object makes
it. -/
def Inexpressible (type w : Micheline) : Prop :=
  ∃ n, ofType type = .ok n ∧ (∃ n', n.settle w = .ok n') ∧ n.Written (fun _ => True) w ∧
    ∀ values, n.ofForm values ≠ .ok w

/-- Two fields of one name hold the same, a field under the name of the constant holds the constant,
and no numeral has a plus sign. -/
theorem inexpressible_twins :
    Inexpressible (.prim "pair" [.prim "nat" [] ["%a"], .prim "nat" [] ["%a"]] [])
      (.data .pair [.int "1", .int "2"]) ∧
    Inexpressible (.prim "option" [.prim "string" [] ["%schemaKey"]] ["%x"])
      (.data .some [.string "hi"]) ∧
    Inexpressible (.prim "big_map" [.prim "nat" [] [], .prim "nat" [] []] ["%m"]) (.int "+5") := by
  refine ⟨⟨_, rfl, ⟨_, rfl⟩, ⟨_, _, rfl, ⟨_, rfl⟩, _, rfl⟩, fun values h => ?_⟩,
    ⟨_, rfl, ⟨_, rfl⟩, .inr ⟨_, rfl, _, rfl⟩, fun values h => ?_⟩,
    ⟨_, rfl, ⟨_, rfl⟩, ⟨_, rfl, trivial⟩, fun values h => ?_⟩⟩
  · obtain ⟨a, b, ha, hb, hw⟩ := ofForm_pair.1 h
    cases (data_inj hw).2
    have hone : HasGist "a" values (.word "1") := hasGist_of_int (by decide +kernel) ha
    have htwo : HasGist "a" values (.word "2") := hasGist_of_int (by decide +kernel) hb
    exact absurd (hone.unique htwo) (by decide)
  · obtain ⟨_, -, hw⟩ | ⟨chosen, ⟨x, -, -, hconst⟩, a, ha, hw⟩ := ofForm_option.1 h
    · cases (data_inj hw).1
    · cases (data_inj hw).2
      have hhi : HasGist Schema.choiceKey chosen (.word "hi") := hasGist_of_string (by decide) ha
      have hsome : HasGist Schema.choiceKey chosen (.word "some") := hasGist_text (by decide) hconst
      exact absurd (hhi.unique hsome) (by decide)
  · obtain ⟨literal, hliteral, hnumeral⟩ := written_of_ofForm h
    cases hliteral
    exact absurd hnumeral (by decide)

end Node

end Lineage
