import Lineage.Typed.Shape

/-!
# Signatures

A signature documents a type as a list of named definitions. Scalars, wrappers and small shapes are
written out where they are used; every other type gets a definition of its own, and is referred to
by its name behind a dollar sign.
-/

namespace Lineage

/-- A type as a signature writes it. -/
inductive TypeTerm where
  | plain (prim : String)
  | applied (prim : String) (args : List TypeTerm)
  /-- the type of another definition -/
  | reference (name : String)
  deriving Repr

namespace TypeTerm

mutual
def text : TypeTerm → String
  | plain prim => prim
  | applied prim args => prim ++ "(" ++ String.intercalate ", " (texts args) ++ ")"
  | reference name => "$" ++ name

def texts : List TypeTerm → List String
  | [] => []
  | t :: ts => t.text :: texts ts
end

end TypeTerm

/-- A definition of a signature: a name for a type, and the names and types of its parts. -/
structure Definition where
  name : String
  type : TypeTerm
  parts : List (String × TypeTerm)
  deriving Repr

/-- How a type is written where it is used, and the definitions it brings with it. -/
structure Mention where
  type : TypeTerm
  definitions : List Definition

namespace Mention

/-- A type that is written out without arguments. -/
def plain (prim : String) : Mention := ⟨.plain prim, []⟩

/-- The type of a constructor with one argument. -/
def wrap (prim : String) (inner : Mention) : Mention :=
  { inner with type := .applied prim [inner.type] }

/-- A type with a definition of its own, which stands before those of its parts. -/
def define (name : String) (type : TypeTerm) (parts : List (String × Mention)) : Mention where
  type := .reference name
  definitions :=
    ⟨name, type, parts.map fun (key, m) => (key, m.type)⟩ ::
      parts.flatMap fun (_, m) => m.definitions

/-- The type of a constructor with two arguments: written out if it is `small`, and else defined. -/
def binary (prim name : String) (small : Bool) (first second : String × Mention) : Mention :=
  let type := .applied prim [first.2.type, second.2.type]
  if small then ⟨type, []⟩ else define name type [first, second]

end Mention

namespace Node

/-- Are these the parts of a type that is written out: two scalars, not told apart by names? -/
def isSmall (n : Node) (parts : List Node) : Bool :=
  parts.length == 2 && !(n.shape?.map Shape.isNamed).getD false && parts.all isScalar

/-- How a node that goes by `inferred`, unless annotations name it, is written. -/
def mention (n : Node) (inferred : String) : Mention :=
  let name := n.name?.getD inferred
  match n with
  | scalar _ type _ _ => .plain type.name
  | option _ inner _ => (inner.mention name).wrap n.prim
  | collection _ _ elem _ => (elem.mention (name ++ "_item")).wrap n.prim
  | contract _ parameter _ => (parameter.mention (name ++ "_param")).wrap n.prim
  | ticket _ inner =>
    match _h : inner.ticketContent? with
    | some content => (content.mention (name ++ "_value")).wrap n.prim
    | none => .plain n.prim
  | pair s l r =>
    let fields := (pair s l r).pairFields
    if n.isSmall fields then
      ⟨.applied n.prim (fields.map fun f => .plain f.prim), []⟩
    else
      .define name (.plain n.prim) <|
        fields.attach.map fun ⟨f, _⟩ => (f.displayName, f.mention f.displayName)
  | or s l r side =>
    let alternatives := (or s l r side).orAlternatives
    if n.isSmall (alternatives.map Prod.snd) then
      ⟨.applied n.prim (alternatives.map fun a => .plain a.2.prim), []⟩
    else
      .define name (.plain n.prim) <|
        alternatives.attach.map fun ⟨a, _⟩ => (a.2.alternativeName, a.2.mention a.2.alternativeName)
  | map _ key value _ | bigMap _ key value _ _ =>
    .binary n.prim name (key.isScalar && value.isScalar)
      (name ++ "_key", key.mention (name ++ "_key"))
      (name ++ "_value", value.mention (name ++ "_value"))
  | lambda _ parameter result _ =>
    .binary n.prim name (parameter.isScalar && result.isScalar)
      (name ++ "_param", parameter.mention (name ++ "_param"))
      (name ++ "_return", result.mention (name ++ "_return"))
termination_by sizeOf n
decreasing_by
  all_goals first
    | (simp only [contract.sizeOf_spec, ticket.sizeOf_spec, option.sizeOf_spec,
        collection.sizeOf_spec, map.sizeOf_spec, bigMap.sizeOf_spec, lambda.sizeOf_spec]; omega)
    | exact sizeOf_lt_of_mem_pairFields ‹_›
    | exact sizeOf_lt_of_mem_orAlternatives ‹_›
    | (have h := sizeOf_le_of_ticketContent ‹_›; simp only [ticket.sizeOf_spec]; omega)

/-- The signature of a node under a name. A type that is written out is defined all the same. -/
def signature (n : Node) (name : String) : List Definition :=
  let m := n.mention name
  match m.type with
  | .reference _ => m.definitions
  | type => ⟨name, type, []⟩ :: m.definitions

end Node

end Lineage
