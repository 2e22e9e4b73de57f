import Lineage.Typed.Ordering

/-!
# Differences of values

`Node.distinguish` shows the value after a change, with marks on what was created, updated or
deleted. Fields are compared in place, elements of a list by position, elements of a set and entries
of a map by their encoded keys.
-/

namespace Lineage.Node

/-! ### Single parts -/

/-- The shown value of a node, or its encoding when nothing is shown. -/
def summary (n : Node) : Except NodeError Json := do
  match (← n.render).value with
  | some value => return value
  | none => return (← n.toWire false).toJson

/-- The view of a part that has changed, with its value before the change. -/
def updated (before after : Node) : Except NodeError View := do
  let view ← after.render
  return { view with change := some .updated, previous := some (← before.summary) }

/-- The view of a part that is only there after a change. -/
def created (n : Node) : Except NodeError View := return (← n.render).tag .created

/-- The view of a part that is only there before a change. -/
def deleted (n : Node) : Except NodeError View := return (← n.render).tag .deleted

/-! ### Search by encoding -/

/-- Is a value, given in its encoding, among the items? -/
def occursIn (wanted : Micheline) : List Node → Except NodeError Bool
  | [] => return false
  | item :: items => do
    if (← item.toWire false) = wanted then return true else occursIn wanted items

/-- The value of a key, given in its encoding, among entries. -/
def findEntry (wanted : Micheline) : List (Node × Node) → Except NodeError (Option Node)
  | [] => return none
  | (key, value) :: entries => do
    if (← key.toWire false) = wanted then return some value else findEntry wanted entries

/-! ### Sets and maps -/

/-- The elements of two sets: those before a change, and then those that are new. -/
def distinguishElements (before after : List Node) : Except NodeError (List View) := do
  let old ← before.mapM fun x => do
    let view ← x.render
    if ← occursIn (← x.toWire false) after then return view else return view.tag .deleted
  let new ← after.mapM fun y => do
    if ← occursIn (← y.toWire false) before then return [] else return [← y.created]
  return old ++ new.flatten

/-- The entries that are new after a change. -/
def newEntries (before after : List (Node × Node)) : Except NodeError (List View) := do
  let new ← after.mapM fun (key, value) => do
    if (← findEntry (← key.toWire false) before).isSome then return []
    else return [(← value.created).named (← key.label)]
  return new.flatten

def mapShell (n : Node) (pointer : Option Int) : View :=
  { n.blank n.prim with value := pointer.map .integer }

/-- Marks the view of a big map whose pointer has changed. -/
def markPointers (before after : Option Int) (view : View) : View :=
  if before = after then view
  else { view with change := some .updated, previous := before.map .integer }

/-! ### Nodes -/

mutual
/-- The view of a value after a change, with marks on what has changed. -/
def distinguish (before after : Node) : Except NodeError View :=
  if before.equalType after then
    match before, after with
    | pair s l r, pair .. => do
      let view ← after.render
      let pairs := (pair s l r).pairFields.attach.zip after.pairFields
      return { view with children := ← pairs.mapM fun (⟨a, _⟩, b) => a.distinguish b }
    | ticket _ a, ticket _ b => do
      let view ← after.render
      return { view with children := (← a.distinguish b).children }
    | or s l r side, or .. =>
      match _h : (or s l r side).chosenAlternative?, after.chosenAlternative? with
      | some a, some b =>
        if a.path = b.path then do
          let view ← after.render
          if view.children.isEmpty then return view
          let child ← a.distinguish b
          return { view with children := [{ child with name := b.entryName?.or child.name }] }
        else before.updated after
      | _, _ => before.updated after
    | option _ a present, option _ b present' =>
      match present, present' with
      | some true, some true => return (← a.distinguish b).named after.displayName
      | some false, some false => after.render
      | _, some true => after.created
      | _, _ => before.deleted
    | collection _ .list _ items, collection _ .list _ items' => do
      let view ← after.render
      match items with
      | some items =>
        return { view with children := ← distinguishItems items (items'.getD []) }
      | none => return { view with children := ← (items'.getD []).mapM created }
    | collection _ .set _ items, collection _ .set _ items' => do
      let view ← after.render
      return { view with children := ← distinguishElements (items.getD []) (items'.getD []) }
    | map _ _ _ entries, map _ _ _ entries' => do
      let old ←
        match entries with
        | some entries => oldEntries entries (entries'.getD [])
        | none => pure []
      let new ← newEntries (entries.getD []) (entries'.getD [])
      return { after.mapShell none with children := old ++ new }
    | bigMap _ _ _ pointer entries, bigMap _ _ _ pointer' entries' => do
      let old ←
        match entries with
        | some entries => oldEntries entries (entries'.getD [])
        | none => pure []
      let new ← newEntries (entries.getD []) (entries'.getD [])
      return markPointers pointer pointer' { after.mapShell pointer' with children := old ++ new }
    | _, _ => do
      if (← before.toWire false) = (← after.toWire false) then after.render
      else before.updated after
  else incomparable before after
termination_by sizeOf before
decreasing_by
  all_goals first
    | (simp only [ticket.sizeOf_spec, option.sizeOf_spec, collection.sizeOf_spec, map.sizeOf_spec,
        bigMap.sizeOf_spec, Option.some.sizeOf_spec]; omega)
    | exact sizeOf_lt_of_mem_pairFields ‹_›
    | exact sizeOf_lt_of_chosenAlternative ‹_›

def distinguishItems (before after : List Node) : Except NodeError (List View) :=
  match before, after with
  | [], after => after.mapM created
  | x :: before, [] => return (← x.deleted) :: (← distinguishItems before [])
  | x :: before, y :: after => return (← x.distinguish y) :: (← distinguishItems before after)
termination_by sizeOf before

/-- The entries before a change, each compared with what is bound to its key after it. -/
def oldEntries (before after : List (Node × Node)) : Except NodeError (List View) :=
  match before with
  | [] => return []
  | (key, value) :: before => do
    let view ←
      match ← findEntry (← key.toWire false) after with
      | some value' => value.distinguish value'
      | none => value.deleted
    return view.named (← key.label) :: (← oldEntries before after)
termination_by sizeOf before
end

end Lineage.Node
