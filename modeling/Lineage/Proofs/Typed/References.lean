import Mathlib.Data.List.Nodup
import Lineage.Proofs.Typed.Skeleton
import Lineage.Typed.Signature

/-!
# References in signatures

A reference in a signature stands for a composite, a type that gets a definition of its own. Between
the place where it is written and the composite there may be constructors with one argument, which
are written out and pass on a name (`Node.core`). Every reference has its definition
(`definition_mem_signature`), and every definition but the first is referred to, so references are
unambiguous exactly if no two definitions have one name (`resolves_iff`).
-/

namespace Lineage

namespace TypeTerm

mutual
/-- The names in the references of a type. -/
def references : TypeTerm → List String
  | plain _ => []
  | applied _ args => referencesOf args
  | reference name => [name]

def referencesOf : List TypeTerm → List String
  | [] => []
  | t :: ts => t.references ++ referencesOf ts
end

lemma referencesOf_eq (ts : List TypeTerm) : referencesOf ts = ts.flatMap references := by
  induction ts with
  | nil => rfl
  | cons t ts ih => rw [referencesOf, ih, List.flatMap_cons]

lemma references_applied_plain {prim : String} (prims : List String) :
    (applied prim (prims.map plain)).references = [] := by
  rw [references, referencesOf_eq, List.flatMap_map]
  exact List.flatMap_eq_nil_iff.2 fun _ _ => rfl

end TypeTerm

/-- The names in the references of a definition, in its type and in the types of its parts. -/
def Definition.references (d : Definition) : List String :=
  d.type.references ++ d.parts.flatMap (·.2.references)

namespace Node

variable {n c inner l r elem key value parameter result : Node} {s : Site}
  {inferred name x y : String} {d : Definition}

/-! ### Composites -/

/-- Does the type get a definition of its own? -/
def isDefined : Node → Bool
  | n@(pair ..) => !n.isSmall n.pairFields
  | n@(or ..) => !n.isSmall (n.orAlternatives.map Prod.snd)
  | map _ key value _ | bigMap _ key value _ _ => !(key.isScalar && value.isScalar)
  | lambda _ parameter result _ => !(parameter.isScalar && result.isScalar)
  | _ => false

/-- The parts of a composite with a name, each with the name it goes by. -/
def members (name : String) : Node → List (String × Node)
  | n@(pair ..) => n.pairFields.map fun f => (f.displayName, f)
  | n@(or ..) => n.orAlternatives.map fun a => (a.2.alternativeName, a.2)
  | map _ key value _ | bigMap _ key value _ _ => [(name ++ "_key", key), (name ++ "_value", value)]
  | lambda _ parameter result _ => [(name ++ "_param", parameter), (name ++ "_return", result)]
  | _ => []

/-- The types of these parts. -/
def memberTypes (name : String) (n : Node) : List (String × TypeTerm) :=
  (n.members name).map fun m => (m.1, (m.2.mention m.1).type)

/-- The type in the definition of a composite: those with two parts are written with them. -/
def definedType (name : String) : Node → TypeTerm
  | n@(pair ..) | n@(or ..) => .plain n.prim
  | n => .applied n.prim ((n.memberTypes name).map Prod.snd)

/-- **The definition of a composite** under a name: its constructor and its parts. -/
def definition (name : String) (n : Node) : Definition :=
  ⟨name, n.definedType name, n.memberTypes name⟩

/-- **What a reference stands for** where a node that goes by `inferred` is written: the composite,
and the name of the reference. There is none for a type that is written out. -/
def core : Node → String → Option (String × Node)
  | n@(option _ inner _), inferred => inner.core (n.name?.getD inferred)
  | n@(collection _ _ elem _), inferred => elem.core (n.name?.getD inferred ++ "_item")
  | n@(contract _ parameter _), inferred => parameter.core (n.name?.getD inferred ++ "_param")
  | n@(ticket _ (pair _ _ (pair _ content _))), inferred =>
    content.core (n.name?.getD inferred ++ "_value")
  | n, inferred => if n.isDefined then some (n.name?.getD inferred, n) else none

/-- What the references in the definition of a composite stand for. -/
def uses (name : String) (n : Node) : List (String × Node) :=
  (n.members name).filterMap fun m => m.2.core m.1

def memberDefinitions (name : String) (n : Node) : List Definition :=
  (n.members name).flatMap fun m => (m.2.mention m.1).definitions

def definitions (name : String) (n : Node) : List Definition :=
  n.definition name :: n.memberDefinitions name

/-! ### How nodes are written -/

lemma define_members {type : TypeTerm} :
    Mention.define name type ((n.members name).map fun m => (m.1, m.2.mention m.1)) =
      ⟨.reference name, ⟨name, type, n.memberTypes name⟩ :: n.memberDefinitions name⟩ := by
  rw [Mention.define, List.map_map, List.flatMap_map]
  rfl

lemma mention_pair : (pair s l r).mention inferred =
    if (pair s l r).isDefined then
      .define ((pair s l r).name?.getD inferred) (.plain (pair s l r).prim)
        (((pair s l r).members ((pair s l r).name?.getD inferred)).map fun m =>
          (m.1, m.2.mention m.1))
    else ⟨.applied (pair s l r).prim (((pair s l r).pairFields.map prim).map .plain), []⟩ := by
  rw [mention]
  simp only [isDefined, members, List.map_map]
  cases (pair s l r).isSmall (pair s l r).pairFields
  · exact congrArg (Mention.define _ _)
      (@List.attach_map_val _ _ _ fun f : Node => (f.displayName, f.mention f.displayName))
  · rfl

lemma mention_or {side : Option Side} : (or s l r side).mention inferred =
    if (or s l r side).isDefined then
      .define ((or s l r side).name?.getD inferred) (.plain (or s l r side).prim)
        (((or s l r side).members ((or s l r side).name?.getD inferred)).map fun m =>
          (m.1, m.2.mention m.1))
    else
      ⟨.applied (or s l r side).prim (((or s l r side).orAlternatives.map (·.2.prim)).map .plain),
        []⟩ := by
  rw [mention]
  simp only [isDefined, members, List.map_map]
  cases (or s l r side).isSmall ((or s l r side).orAlternatives.map Prod.snd)
  · exact congrArg (Mention.define _ _) (@List.attach_map_val _ _ _ fun a : List Side × Node =>
      (a.2.alternativeName, a.2.mention a.2.alternativeName))
  · rfl

lemma mention_scalar (h : n.isScalar = true) : n.mention inferred = .plain n.prim := by
  cases n with
  | scalar =>
    rw [mention]
    rfl
  | _ => cases h

lemma binary_members {prim key₁ key₂ : String} :
    Mention.binary prim name (l.isScalar && r.isScalar) (key₁, l.mention key₁)
        (key₂, r.mention key₂) =
      if !(l.isScalar && r.isScalar) then
        .define name (.applied prim [(l.mention key₁).type, (r.mention key₂).type])
          [(key₁, l.mention key₁), (key₂, r.mention key₂)]
      else ⟨.applied prim ([l.prim, r.prim].map .plain), []⟩ := by
  cases hsmall : l.isScalar && r.isScalar with
  | false => rfl
  | true =>
    obtain ⟨hl, hr⟩ := Bool.and_eq_true_iff.1 hsmall
    rw [mention_scalar hl, mention_scalar hr]
    rfl

def isComposite : Node → Bool
  | pair .. | or .. | map .. | bigMap .. | lambda .. => true
  | _ => false

/-- **Composites are defined or written out**: if they are written out, they refer to nothing. -/
lemma exists_mention_eq (h : n.isComposite = true) : ∃ prims : List String, n.mention inferred =
    if n.isDefined then
      ⟨.reference (n.name?.getD inferred), n.definitions (n.name?.getD inferred)⟩
    else ⟨.applied n.prim (prims.map .plain), []⟩ := by
  cases n with
  | pair s l r => exact ⟨_, mention_pair.trans (by rw [define_members]; rfl)⟩
  | or s l r side => exact ⟨_, mention_or.trans (by rw [define_members]; rfl)⟩
  | map s key value entries =>
    refine ⟨[key.prim, value.prim], ?_⟩
    rw [mention, binary_members]
    rfl
  | bigMap s key value pointer entries =>
    refine ⟨[key.prim, value.prim], ?_⟩
    rw [mention, binary_members]
    rfl
  | lambda s parameter result value =>
    refine ⟨[parameter.prim, result.prim], ?_⟩
    rw [mention, binary_members]
    rfl
  | _ => cases h

lemma mention_of_isDefined (h : n.isDefined = true) : n.mention inferred =
    ⟨.reference (n.name?.getD inferred), n.definitions (n.name?.getD inferred)⟩ := by
  have hcomposite : n.isComposite = true := by cases n <;> first | rfl | cases h
  obtain ⟨prims, hmention⟩ := exists_mention_eq hcomposite
  rw [hmention, if_pos h]

lemma mention_option {present : Option Bool} : (option s inner present).mention inferred =
    (inner.mention ((option s inner present).name?.getD inferred)).wrap
      (option s inner present).prim := by
  rw [mention]

lemma mention_collection {kind : Collection} {items : Option (List Node)} :
    (collection s kind elem items).mention inferred =
      (elem.mention ((collection s kind elem items).name?.getD inferred ++ "_item")).wrap
        (collection s kind elem items).prim := by
  rw [mention]

lemma mention_contract {value : Option Micheline} :
    (contract s parameter value).mention inferred =
      (parameter.mention ((contract s parameter value).name?.getD inferred ++ "_param")).wrap
        (contract s parameter value).prim := by
  rw [mention]

lemma mention_ticket : (ticket s inner).mention inferred =
    match inner.ticketContent? with
    | some content => (content.mention ((ticket s inner).name?.getD inferred ++ "_value")).wrap
        (ticket s inner).prim
    | none => .plain (ticket s inner).prim := by
  rw [mention]
  split <;> simp_all

lemma references_wrap {m : Mention} {prim : String} :
    (m.wrap prim).type.references = m.type.references :=
  List.append_nil _

/-- **What is written of a node** refers to its core, if there is one, and brings the definitions of
the core with it. -/
lemma mention_core (n : Node) (inferred : String) :
    (n.mention inferred).type.references = (n.core inferred).toList.map Prod.fst ∧
      (n.mention inferred).definitions =
        (n.core inferred).toList.flatMap fun u => u.2.definitions u.1 := by
  fun_induction core n inferred with
  | case1 s inner present inferred ih =>
    rw [mention_option, references_wrap]
    exact ih
  | case2 s kind elem items inferred ih =>
    rw [mention_collection, references_wrap]
    exact ih
  | case3 s parameter value inferred ih =>
    rw [mention_contract, references_wrap]
    exact ih
  | case4 s s' l s'' content r inferred ih =>
    rw [mention_ticket, ticketContent?]
    dsimp only
    rw [references_wrap]
    exact ih
  | case5 n inferred _ _ _ _ hdefined =>
    rw [mention_of_isDefined hdefined]
    exact ⟨rfl, (List.append_nil _).symm⟩
  | case6 n inferred hoption hcollection hcontract hticket hdefined =>
    cases hcomposite : n.isComposite with
    | true =>
      obtain ⟨prims, h⟩ := exists_mention_eq hcomposite
      rw [h, if_neg hdefined]
      exact ⟨TypeTerm.references_applied_plain prims, rfl⟩
    | false =>
      -- a scalar, or a ticket with nothing in it
      have hplain : n.mention inferred = .plain n.prim := by
        cases n with
        | scalar => exact mention_scalar rfl
        | ticket s inner =>
          rw [mention_ticket]
          split
          · next content hcontent =>
            unfold ticketContent? at hcontent
            split at hcontent
            · exact absurd rfl (hticket _ _ _ _ _ _)
            · cases hcontent
          · rfl
        | option => exact (hoption _ _ _ rfl).elim
        | collection => exact (hcollection _ _ _ _ rfl).elim
        | contract => exact (hcontract _ _ _ rfl).elim
        | pair | or | map | bigMap | lambda => cases hcomposite
      rw [hplain]
      exact ⟨rfl, rfl⟩

lemma memberDefinitions_eq :
    n.memberDefinitions name = (n.uses name).flatMap fun u => u.2.definitions u.1 := by
  unfold memberDefinitions uses
  rw [List.filterMap_eq_flatMap_toList, List.flatMap_assoc]
  exact List.flatMap_congr fun m _ => (mention_core m.2 m.1).2

/-! ### What is referred to -/

lemma references_memberTypes :
    (n.memberTypes name).flatMap (·.2.references) = (n.uses name).map Prod.fst := by
  unfold memberTypes uses
  rw [List.flatMap_map, List.filterMap_eq_flatMap_toList, List.map_flatMap]
  exact List.flatMap_congr fun m _ => (mention_core m.2 m.1).1

lemma mem_references_definition :
    x ∈ (n.definition name).references ↔ ∃ c, (x, c) ∈ n.uses name := by
  have hparts : x ∈ (n.memberTypes name).flatMap (·.2.references) ↔ ∃ c, (x, c) ∈ n.uses name := by
    rw [references_memberTypes, List.mem_map]
    exact ⟨fun ⟨u, hu, hx⟩ => ⟨u.2, hx ▸ hu⟩, fun ⟨c, hc⟩ => ⟨_, hc, rfl⟩⟩
  have htype : x ∈ (n.definedType name).references →
      x ∈ (n.memberTypes name).flatMap (·.2.references) := by
    intro h
    unfold definedType at h
    split at h
    · cases h
    · cases h
    · rw [TypeTerm.references, TypeTerm.referencesOf_eq, List.flatMap_map] at h
      exact h
  rw [← hparts, Definition.references, List.mem_append]
  exact ⟨fun h => h.elim htype id, .inr⟩

/-- The first definition of a signature, which is that of the node. -/
def root (n : Node) (name : String) : Definition :=
  if n.isDefined then n.definition (n.name?.getD name) else ⟨name, (n.mention name).type, []⟩

/-- What the references in the first definition stand for. -/
def rootUses (n : Node) (name : String) : List (String × Node) :=
  if n.isDefined then n.uses (n.name?.getD name) else (n.core name).toList

lemma mem_references_root : x ∈ (n.root name).references ↔ ∃ c, (x, c) ∈ n.rootUses name := by
  unfold root rootUses
  split
  · exact mem_references_definition
  · rw [Definition.references, (mention_core n name).1, List.flatMap_nil, List.append_nil,
      List.mem_map]
    exact ⟨fun ⟨u, hu, hx⟩ => ⟨u.2, hx ▸ hu⟩, fun ⟨c, hc⟩ => ⟨_, hc, rfl⟩⟩

lemma type_mention_ne_reference (h : n.isDefined = false) :
    (n.mention inferred).type ≠ .reference x := by
  cases hcomposite : n.isComposite with
  | true =>
    obtain ⟨prims, hmention⟩ := exists_mention_eq hcomposite
    rw [hmention, h]
    exact nofun
  | false =>
    cases n with
    | scalar =>
      rw [mention_scalar rfl]
      exact nofun
    | option =>
      rw [mention_option]
      exact nofun
    | collection =>
      rw [mention_collection]
      exact nofun
    | contract =>
      rw [mention_contract]
      exact nofun
    | ticket =>
      rw [mention_ticket]
      split <;> exact nofun
    | pair | or | map | bigMap | lambda => cases hcomposite

/-- A signature has the definition of the node, and those that its references bring with them. -/
lemma signature_eq : n.signature name =
    n.root name :: (n.rootUses name).flatMap fun u => u.2.definitions u.1 := by
  unfold signature root rootUses
  cases h : n.isDefined with
  | true =>
    rw [mention_of_isDefined h]
    exact congrArg _ memberDefinitions_eq
  | false =>
    dsimp only
    split
    · next htype => exact absurd htype (type_mention_ne_reference h)
    · exact congrArg _ (mention_core n name).2

/-- **References of a signature**: one of its definitions refers to a composite by a name. -/
inductive Refers (n : Node) (name : String) : Definition → String → Node → Prop
  | root {x : String} {c : Node} (h : (x, c) ∈ n.rootUses name) : Refers n name (n.root name) x c
  | member {d : Definition} {x y : String} {c c' : Node} (h : Refers n name d x c)
    (hmem : (y, c') ∈ c.uses x) : Refers n name (c.definition x) y c'

/-! ### Definitions and references -/

lemma sizeOf_le_of_core (h : n.core inferred = some (x, c)) : sizeOf c ≤ sizeOf n := by
  fun_induction core n inferred with
  | case1 s inner present inferred ih =>
    have := ih h
    simp only [option.sizeOf_spec]
    omega
  | case2 s kind elem items inferred ih =>
    have := ih h
    simp only [collection.sizeOf_spec]
    omega
  | case3 s parameter value inferred ih =>
    have := ih h
    simp only [contract.sizeOf_spec]
    omega
  | case4 s s' l s'' content r inferred ih =>
    have := ih h
    simp only [ticket.sizeOf_spec, pair.sizeOf_spec]
    omega
  | case5 =>
    cases h
    exact Nat.le_refl _
  | case6 => cases h

lemma sizeOf_lt_of_mem_members {m : String × Node} (h : m ∈ n.members name) :
    sizeOf m.2 < sizeOf n := by
  cases n with
  | pair s l r =>
    obtain ⟨f, hf, rfl⟩ := List.mem_map.1 h
    exact sizeOf_lt_of_mem_pairFields hf
  | or s l r side =>
    obtain ⟨a, ha, rfl⟩ := List.mem_map.1 h
    exact sizeOf_lt_of_mem_orAlternatives ha
  | map | bigMap | lambda =>
    obtain rfl | rfl := List.mem_pair.1 h <;>
      simp only [map.sizeOf_spec, bigMap.sizeOf_spec, lambda.sizeOf_spec] <;> omega
  | _ => cases h

lemma sizeOf_lt_of_mem_uses (h : (y, c) ∈ n.uses name) : sizeOf c < sizeOf n := by
  obtain ⟨m, hm, hcore⟩ := List.mem_filterMap.1 h
  exact Nat.lt_of_le_of_lt (sizeOf_le_of_core hcore) (sizeOf_lt_of_mem_members hm)

/-- Each definition that a reference brings with it is one that some reference stands for. -/
lemma Refers.exists_of_mem {d' : Definition} (h : Refers n name d x c)
    (hd' : d' ∈ c.definitions x) :
    ∃ d'' y c', Refers n name d'' y c' ∧ d' = c'.definition y := by
  induction c using sizeInduction generalizing d x with
  | step c ih =>
    obtain rfl | hd' := List.mem_cons.1 hd'
    · exact ⟨d, x, c, h, rfl⟩
    · rw [memberDefinitions_eq] at hd'
      obtain ⟨⟨y, c'⟩, huse, hd'⟩ := List.mem_flatMap.1 hd'
      exact ih c' (sizeOf_lt_of_mem_uses huse) (.member h huse) hd'

lemma Refers.mem_flatMap {d' : Definition} (h : Refers n name d x c)
    (hd' : d' ∈ c.definitions x) :
    d' ∈ (n.rootUses name).flatMap fun u => u.2.definitions u.1 := by
  induction h generalizing d' with
  | root h => exact List.mem_flatMap.2 ⟨_, h, hd'⟩
  | @member d x c y c' h hmem ih =>
    refine ih (List.mem_cons_of_mem _ ?_)
    rw [memberDefinitions_eq]
    exact List.mem_flatMap.2 ⟨_, hmem, hd'⟩

/-- **Every reference has its definition**. -/
lemma Refers.definition_mem (h : Refers n name d x c) : c.definition x ∈ n.signature name := by
  rw [signature_eq]
  exact List.mem_cons_of_mem _ (h.mem_flatMap List.mem_cons_self)

lemma exists_refers_of_mem_flatMap
    (hd : d ∈ (n.rootUses name).flatMap fun u => u.2.definitions u.1) :
    ∃ d' x c, Refers n name d' x c ∧ d = c.definition x := by
  obtain ⟨⟨x, c⟩, huse, hd⟩ := List.mem_flatMap.1 hd
  exact (Refers.root huse).exists_of_mem hd

lemma mem_signature : d ∈ n.signature name ↔
    d = n.root name ∨ ∃ d' x c, Refers n name d' x c ∧ d = c.definition x := by
  rw [signature_eq, List.mem_cons]
  refine or_congr_right ⟨exists_refers_of_mem_flatMap, ?_⟩
  rintro ⟨d', x, c, h, rfl⟩
  exact h.mem_flatMap List.mem_cons_self

lemma exists_refers_of_mem (h : d ∈ n.signature name) (hx : x ∈ d.references) :
    ∃ c, Refers n name d x c := by
  obtain rfl | ⟨d', y, c, hrefers, rfl⟩ := mem_signature.1 h
  · exact (mem_references_root.1 hx).imp fun _ => .root
  · exact (mem_references_definition.1 hx).imp fun _ => hrefers.member

lemma Refers.mem (h : Refers n name d x c) : d ∈ n.signature name ∧ x ∈ d.references := by
  cases h with
  | root h =>
    refine ⟨mem_signature.2 (.inl rfl), mem_references_root.2 ⟨c, h⟩⟩
  | member h hmem => exact ⟨h.definition_mem, mem_references_definition.2 ⟨c, hmem⟩⟩

/-! ### Unambiguous references -/

lemma filter_eq_singleton {α : Type} {f : α → String} {xs : List α} {a : α}
    (hnames : (xs.map f).Nodup) (ha : a ∈ xs) : xs.filter (f · == f a) = [a] := by
  have hcount : (xs.map f).count (f a) = 1 :=
    List.nodup_iff_count_eq_one.1 hnames _ (List.mem_map_of_mem ha)
  rw [List.count, List.countP_map, List.countP_eq_length_filter] at hcount
  obtain ⟨b, hb⟩ := List.length_eq_one_iff.1 hcount
  have hmem : a ∈ xs.filter (f · == f a) := List.mem_filter.2 ⟨ha, beq_self_eq_true _⟩
  rw [show xs.filter (f · == f a) = [b] from hb] at hmem ⊢
  rw [List.mem_singleton.1 hmem]

/-- **References are unambiguous**: each is the name of exactly one definition, which is that of the
composite it stands for. -/
def Resolves (n : Node) (name : String) : Prop :=
  ∀ d ∈ n.signature name, ∀ x ∈ d.references,
    ∃ d', (n.signature name).filter (·.name == x) = [d'] ∧
      ∀ c, Refers n name d x c → d' = c.definition x

/-- A name that is a reference is not the name of two definitions. -/
lemma Resolves.count_le_one (h : n.Resolves name) (hrefers : Refers n name d x c) :
    ((n.signature name).map Definition.name).count x ≤ 1 := by
  obtain ⟨hd, hx⟩ := hrefers.mem
  obtain ⟨d', hfilter, -⟩ := h d hd x hx
  rw [List.count, List.countP_map, List.countP_eq_length_filter]
  exact Nat.le_of_eq (congrArg List.length hfilter)

/-- **Where references resolve**: every reference stands for a composite that has a definition under
its name, and there is no other definition of this name exactly if the definitions have distinct
names. -/
theorem resolves_iff :
    (∀ d ∈ n.signature name, ∀ x ∈ d.references,
        ∃ c, Refers n name d x c ∧ c.definition x ∈ n.signature name) ∧
      (n.Resolves name ↔ ((n.signature name).map Definition.name).Nodup) := by
  refine ⟨fun d hd x hx => ?_, fun h => ?_, fun hnames d hd x hx => ?_⟩
  · obtain ⟨c, hrefers⟩ := exists_refers_of_mem hd hx
    exact ⟨c, hrefers, hrefers.definition_mem⟩
  · refine List.nodup_iff_count_le_one.2 fun x => ?_
    by_cases hx : x ∈ ((n.rootUses name).flatMap fun u => u.2.definitions u.1).map Definition.name
    · -- the definition is not the first one, so its name is a reference
      obtain ⟨d, hd, rfl⟩ := List.mem_map.1 hx
      obtain ⟨d', x, c, hrefers, rfl⟩ := exists_refers_of_mem_flatMap hd
      exact h.count_le_one hrefers
    · rw [signature_eq, List.map_cons, List.count_cons, List.count_eq_zero_of_not_mem hx]
      split <;> decide
  · obtain ⟨c, hrefers⟩ := exists_refers_of_mem hd hx
    have hfilter := filter_eq_singleton hnames hrefers.definition_mem
    refine ⟨c.definition x, hfilter, fun c' hrefers' => ?_⟩
    have hfilter' := filter_eq_singleton hnames hrefers'.definition_mem
    exact List.singleton_injective (hfilter.symm.trans hfilter')

def offer : Micheline :=
  .prim "option" [.prim "pair" [.prim "nat" [] ["%price"], .prim "string" [] ["%item"]] []] []

/-- An option hands its own name on to what is in it, so that both are defined under one name. -/
theorem not_resolves_offer :
    ¬ ∀ (type : Micheline) (n : Node) (name : String), ofType type = .ok n → n.Resolves name := by
  intro hclaim
  have hrun : (do
      let n ← ofType offer
      let signature := n.signature n.displayName
      return (signature.map Definition.references,
        (signature.filter fun d => d.name == "@option_0").length) : Except NodeError _).toOption =
      some ([["@option_0"], []], 2) := by
    decide +kernel
  obtain ⟨n, htype, hrun⟩ := except_bind_ok.1 (except_ok_of_toOption hrun)
  obtain ⟨hreferences, hlength⟩ := Prod.mk.inj (Except.ok.inj hrun)
  obtain ⟨d, rest, hsignature, hd, -⟩ := List.map_eq_cons_iff.1 hreferences
  have hmem : d ∈ n.signature n.displayName := by
    rw [hsignature]
    exact List.mem_cons_self
  have hx : "@option_0" ∈ d.references := by
    rw [hd]
    exact List.mem_singleton_self _
  obtain ⟨d', hfilter, -⟩ := hclaim offer n n.displayName htype d hmem "@option_0" hx
  rw [hfilter] at hlength
  cases hlength

end Node

end Lineage
