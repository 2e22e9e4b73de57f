import Lineage.Proofs.Typed.RoundTrip
import Lineage.Proofs.Typed.Skeleton
import Lineage.Proofs.Typed.View
import Lineage.Typed.Overlay

/-!
# Nodes that are bound in full

A node is `Bound` when there is a value at all that it is written from. What a flag says of a node
need not be so: an option may be there without content. It never comes to this, because all flags
are `Sound`: an option that is there has its content, a chosen arm is bound, and so are all items
and entries. Binding a value keeps both, and so does laying changes over big maps, also where they
stop half way (`Sound.bind`, `Sound.overlay`); a value that was bound in full leaves a bound node.

A bound node is written, and shown unless wire data cannot be read (`Bound.exists_toWire`,
`Bound.onlyDecodes_render`).
-/

namespace Lineage.Node

/-- All that the value of the node consists of is bound. -/
inductive Bound : Node → Prop
  | scalar {s : Site} {type : Scalar} {typeArgs : List Micheline} {v : Micheline} :
    Bound (.scalar s type typeArgs (some v))
  | contract {s : Site} {parameter : Node} {v : Micheline} : Bound (.contract s parameter (some v))
  | ticket {s : Site} {inner : Node} (h : Bound inner) : Bound (.ticket s inner)
  | absent {s : Site} {inner : Node} : Bound (.option s inner (some false))
  | present {s : Site} {inner : Node} (h : Bound inner) : Bound (.option s inner (some true))
  | pair {s : Site} {l r : Node} (hl : Bound l) (hr : Bound r) : Bound (.pair s l r)
  | left {s : Site} {l r : Node} (h : Bound l) : Bound (.or s l r (some .left))
  | right {s : Site} {l r : Node} (h : Bound r) : Bound (.or s l r (some .right))
  | collection {s : Site} {kind : Collection} {elem : Node} {items : List Node}
      (h : ∀ item ∈ items, Bound item) : Bound (.collection s kind elem (some items))
  | map {s : Site} {key value : Node} {entries : List (Node × Node)}
      (hk : ∀ entry ∈ entries, Bound entry.1) (hv : ∀ entry ∈ entries, Bound entry.2) :
    Bound (.map s key value (some entries))
  | pointer {s : Site} {key value : Node} {p : Int} : Bound (.bigMap s key value (some p) none)
  | entries {s : Site} {key value : Node} {pointer : Option Int} {entries : List (Node × Node)}
      (hk : ∀ entry ∈ entries, Bound entry.1) (hv : ∀ entry ∈ entries, Bound entry.2) :
    Bound (.bigMap s key value pointer (some entries))
  | lambda {s : Site} {parameter result : Node} {code : Micheline} :
    Bound (.lambda s parameter result (some code))

/-- The flags of the node and of all it is made of are right. -/
inductive Sound : Node → Prop
  | scalar {s : Site} {type : Scalar} {typeArgs : List Micheline} {value : Option Micheline} :
    Sound (.scalar s type typeArgs value)
  | contract {s : Site} {parameter : Node} {value : Option Micheline} (h : Sound parameter) :
    Sound (.contract s parameter value)
  | ticket {s : Site} {inner : Node} (h : Sound inner) : Sound (.ticket s inner)
  | option {s : Site} {inner : Node} {present : Option Bool} (h : Sound inner)
      (hpresent : present = some true → inner.Bound) : Sound (.option s inner present)
  | pair {s : Site} {l r : Node} (hl : Sound l) (hr : Sound r) : Sound (.pair s l r)
  | or {s : Site} {l r : Node} {side : Option Side} (hl : Sound l) (hr : Sound r)
      (hleft : side = some .left → l.Bound) (hright : side = some .right → r.Bound) :
    Sound (.or s l r side)
  | collection {s : Site} {kind : Collection} {elem : Node} {items : Option (List Node)}
      (helem : Sound elem)
      (hitems : ∀ item ∈ items.getD [], Sound item)
      (hbound : ∀ item ∈ items.getD [], item.Bound) : Sound (.collection s kind elem items)
  | map {s : Site} {key value : Node} {entries : Option (List (Node × Node))}
      (hkey : Sound key) (hvalue : Sound value)
      (hvalues : ∀ entry ∈ entries.getD [], Sound entry.2)
      (hbound : ∀ entry ∈ entries.getD [], entry.1.Bound ∧ entry.2.Bound) :
    Sound (.map s key value entries)
  | bigMap {s : Site} {key value : Node} {pointer : Option Int}
      {entries : Option (List (Node × Node))} (hkey : Sound key) (hvalue : Sound value)
      (hbound : ∀ entry ∈ entries.getD [], entry.1.Bound ∧ entry.2.Bound) :
    Sound (.bigMap s key value pointer entries)
  | lambda {s : Site} {parameter result : Node} {code : Option Micheline}
      (hparameter : Sound parameter) (hresult : Sound result) :
    Sound (.lambda s parameter result code)

variable {n n' l r : Node} {s : Site} {v : Micheline}

theorem Unbound.sound (h : n.Unbound) : n.Sound := by
  induction n using typeInduction with
  | scalar => exact .scalar
  | contract s parameter value ih => exact .contract (ih h.1)
  | ticket s inner ih => exact .ticket (ih h)
  | option s inner present ih =>
    obtain ⟨hinner, rfl⟩ := h
    exact .option (ih hinner) nofun
  | pair s l r ihl ihr => exact .pair (ihl h.1) (ihr h.2)
  | or s l r side ihl ihr =>
    obtain ⟨hl, hr, rfl⟩ := h
    exact .or (ihl hl) (ihr hr) nofun nofun
  | collection s kind elem items ih =>
    obtain ⟨helem, rfl⟩ := h
    exact .collection (ih helem) nofun nofun
  | map s key value entries ihk ihv =>
    obtain ⟨hkey, hvalue, rfl⟩ := h
    exact .map (ihk hkey) (ihv hvalue) nofun nofun
  | bigMap s key value pointer entries ihk ihv =>
    obtain ⟨hkey, hvalue, rfl, rfl⟩ := h
    exact .bigMap (ihk hkey) (ihv hvalue) nofun
  | lambda s parameter result code ihp ihr => exact .lambda (ihp h.1) (ihr h.2.1)

/-- What stands in the skeleton of a node has the right flags as well. -/
theorem Sound.of_mem_skeleton {m : Node} (h : n.Sound) (hm : m ∈ n.skeleton) : m.Sound := by
  refine Node.of_mem_skeleton (fun n hn => ?_) h hm
  cases hn with
  | scalar => simp [typeChildren]
  | contract h | ticket h | option h | collection h => simpa [typeChildren] using h
  | pair hl hr | or hl hr | map hl hr | bigMap hl hr | lambda hl hr =>
    simpa [typeChildren] using ⟨hl, hr⟩

/-! ### Binding -/

/-- A change leaves all flags right, and what was bound in full stays so. -/
structure Keeps (n : Node) (t : Attempt Node) : Prop where
  sound : t.result.Sound
  bound : n.Bound → t.result.Bound

/-- A change that, if it is made in full, leaves all bound. -/
structure Binds (n : Node) (t : Attempt Node) : Prop extends Keeps n t where
  settles : t.failure = none → t.result.Bound

lemma Keeps.binds {m : Node} {e : NodeError} (h : Keeps n (.stopped m e)) :
    Binds n (.stopped m e) where
  toKeeps := h
  settles hdone := by cases hdone

/-- A change of a part makes a change of the whole, if both ends of it fit into the whole. -/
lemma Binds.fit {m : Node} {t : Attempt Node} {halted make : Node → Node} (h : Binds m t)
    (hmake : ∀ m', m'.Sound → m'.Bound → (make m').Sound ∧ (make m').Bound)
    (hhalted : ∀ m', m'.Sound → (m.Bound → m'.Bound) →
      (halted m').Sound ∧ (n.Bound → (halted m').Bound)) :
    Binds n (t.andThen halted fun m' => .done (make m')) := by
  obtain ⟨hdone, heq⟩ | ⟨e, -, heq⟩ := Attempt.andThen_eq (t := t) <;> rw [heq]
  · obtain ⟨hsound, hbound⟩ := hmake t.result h.sound (h.settles hdone)
    exact { sound := hsound, bound := fun _ => hbound, settles := fun _ => hbound }
  · obtain ⟨hsound, hbound⟩ := hhalted t.result h.sound h.bound
    exact Keeps.binds ⟨hsound, hbound⟩

lemma binds_of_isWhole (hwhole : n.isWhole = true) (h : n.Sound)
    (hok : ∀ n', n.settle v = .ok n' → n'.Sound ∧ n'.Bound) : Binds n (n.bind v) := by
  obtain ⟨n', hn', hbind⟩ | ⟨e, -, hbind⟩ := bind_of_isWhole (v := v) hwhole <;> rw [hbind]
  · obtain ⟨hsound, hbound⟩ := hok n' hn'
    exact { sound := hsound, bound := fun _ => hbound, settles := fun _ => hbound }
  · exact Keeps.binds ⟨h, id⟩

lemma Binds.of_settle (h : Binds n (n.bind v)) (hn : n.settle v = .ok n') :
    n'.Sound ∧ n'.Bound := by
  obtain ⟨hdone, rfl⟩ := Attempt.toExcept_eq_ok.1 hn
  exact ⟨h.sound, h.settles hdone⟩

lemma bound_of_settlesElt {key value : Node} {elts : List Micheline}
    {entries : List (Node × Node)} (hkey : ∀ v, Binds key (key.bind v))
    (hvalue : ∀ v, Binds value (value.bind v))
    (h : List.Forall₂ (SettlesElt key value) elts entries) :
    ∀ entry ∈ entries, entry.1.Bound ∧ entry.2.Bound ∧ entry.2.Sound := by
  refine forall_of_forall₂ h fun elt entry helt => ?_
  obtain ⟨k, x, -, hk, hx⟩ := helt
  exact ⟨((hkey k).of_settle hk).2, ((hvalue x).of_settle hx).symm⟩

/-- **Binding keeps the flags right**, and a value that is bound in full leaves a bound node. -/
theorem Sound.bind (h : n.Sound) (v : Micheline) : Binds n (n.bind v) := by
  induction n using typeInduction generalizing v with
  | scalar s type typeArgs value =>
    refine binds_of_isWhole rfl h fun n' hn' => ?_
    obtain ⟨-, rfl⟩ := settle_scalar.1 hn'
    exact ⟨.scalar, .scalar⟩
  | contract s parameter value =>
    refine binds_of_isWhole rfl h fun n' hn' => ?_
    obtain ⟨-, rfl⟩ := settle_contract.1 hn'
    cases h with
    | contract hparameter => exact ⟨.contract hparameter, .contract⟩
  | lambda s parameter result code =>
    refine binds_of_isWhole rfl h fun n' hn' => ?_
    obtain ⟨-, rfl⟩ := settle_lambda.1 hn'
    cases h with
    | lambda hparameter hresult => exact ⟨.lambda hparameter hresult, .lambda⟩
  | collection s kind elem items ih =>
    refine binds_of_isWhole rfl h fun n' hn' => ?_
    obtain ⟨vs, items', rfl, hitems, rfl⟩ := settle_collection.1 hn'
    cases h with
    | collection helem =>
      have hbinds : ∀ item ∈ items', item.Sound ∧ item.Bound :=
        forall_of_forall₂ hitems fun x item hx => (ih helem x).of_settle hx
      have hbound : ∀ item ∈ items', item.Bound := fun item hitem => (hbinds item hitem).2
      exact ⟨.collection helem (fun item hitem => (hbinds item hitem).1) hbound, .collection hbound⟩
  | map s key value entries ihk ihv =>
    refine binds_of_isWhole rfl h fun n' hn' => ?_
    obtain ⟨elts, entries', rfl, hentries, rfl⟩ := settle_map.1 hn'
    cases h with
    | map hkey hvalue =>
      have hbound := bound_of_settlesElt (ihk hkey) (ihv hvalue) hentries
      exact ⟨.map hkey hvalue (fun entry he => (hbound entry he).2.2)
          fun entry he => ⟨(hbound entry he).1, (hbound entry he).2.1⟩,
        .map (fun entry he => (hbound entry he).1) fun entry he => (hbound entry he).2.1⟩
  | bigMap s key value pointer entries ihk ihv =>
    refine binds_of_isWhole rfl h fun n' hn' => ?_
    cases h with
    | bigMap hkey hvalue hold =>
      obtain ⟨literal, p, rfl, -, rfl⟩ | ⟨elts, entries', rfl, hentries, rfl⟩ :=
        settle_bigMap.1 hn'
      · refine ⟨.bigMap hkey hvalue hold, ?_⟩
        cases entries with
        | none => exact .pointer
        | some entries => exact .entries (fun e he => (hold e he).1) fun e he => (hold e he).2
      · have hbound := bound_of_settlesElt (ihk hkey) (ihv hvalue) hentries
        exact ⟨.bigMap hkey hvalue fun entry he => ⟨(hbound entry he).1, (hbound entry he).2.1⟩,
          .entries (fun entry he => (hbound entry he).1) fun entry he => (hbound entry he).2.1⟩
  | ticket s inner ih =>
    rw [bind.eq_def]
    cases h with
    | ticket hinner =>
      obtain ⟨⟨hsound, hbound⟩, hsettles⟩ := ih hinner v
      exact { sound := .ticket hsound
              bound := fun hn => by cases hn with | ticket hi => exact .ticket (hbound hi)
              settles := fun hdone => .ticket (hsettles hdone) }
  | option s inner present ih =>
    cases h with
    | option hinner hpresent =>
      obtain ⟨a, -, hbind⟩ | ⟨-, hbind | ⟨e, hbind⟩⟩ := bind_option (s := s) (v := v) <;> rw [hbind]
      · refine (ih hinner a).fit (fun _ hs hb => ⟨.option hs fun _ => hb, .present hb⟩)
          fun _ hs hb => ⟨.option hs fun hp => hb (hpresent hp), fun hn => ?_⟩
        -- the flag still tells of the content before
        cases hn with
        | absent => exact .absent
        | present hi => exact .present (hb hi)
      · exact { sound := .option hinner fun hp => by cases hp
                bound := fun _ => .absent
                settles := fun _ => .absent }
      · exact Keeps.binds ⟨.option hinner hpresent, id⟩
  | pair s l r ihl ihr =>
    cases h with
    | pair hl hr =>
      obtain ⟨first, second, rest, -, hbind⟩ | ⟨-, e, hbind⟩ := bind_pair (s := s) (v := v) <;>
        rw [hbind]
      · obtain ⟨⟨hsoundl, hboundl⟩, hsettlesl⟩ := ihl hl first
        obtain ⟨hdone, h⟩ | ⟨e, -, h⟩ := Attempt.andThen_eq <;> rw [h]
        · obtain ⟨⟨hsoundr, hboundr⟩, hsettlesr⟩ :=
            ihr hr (.behind Constructor.pair.name second rest)
          exact { sound := .pair hsoundl hsoundr
                  bound := fun hn => by
                    cases hn with | pair _ hr => exact .pair (hsettlesl hdone) (hboundr hr)
                  settles := fun hdone' => .pair (hsettlesl hdone) (hsettlesr hdone') }
        · exact Keeps.binds
            { sound := .pair hsoundl hr
              bound := fun hn => by cases hn with | pair hl hr => exact .pair (hboundl hl) hr }
      · exact Keeps.binds ⟨.pair hl hr, id⟩
  | or s l r side ihl ihr =>
    cases h with
    | or hl hr hleft hright =>
      obtain ⟨a, -, hbind⟩ | ⟨a, -, hbind⟩ | ⟨-, e, hbind⟩ := bind_or (s := s) (v := v) <;>
        rw [hbind]
      · refine (ihl hl a).fit
          (fun _ hs hb => ⟨.or hs hr (fun _ => hb) (fun hside => by cases hside), .left hb⟩)
          fun _ hs hb => ⟨.or hs hr (fun hside => hb (hleft hside)) hright, fun hn => ?_⟩
        cases hn with
        | left hl => exact .left (hb hl)
        | right hr => exact .right hr
      · refine (ihr hr a).fit
          (fun _ hs hb => ⟨.or hl hs (fun hside => by cases hside) fun _ => hb, .right hb⟩)
          fun _ hs hb => ⟨.or hl hs hleft fun hside => hb (hright hside), fun hn => ?_⟩
        cases hn with
        | left hl => exact .left hl
        | right hr => exact .right (hb hr)
      · exact Keeps.binds ⟨.or hl hr hleft hright, id⟩

/-! ### Changes to big maps -/

section Overlay

variable {key value : Node} {entries : List (Node × Node)}

lemma bound_putEntry {wanted : Micheline} (hentries : ∀ e ∈ entries, e.1.Bound ∧ e.2.Bound)
    (hkey : key.Bound) (hvalue : value.Bound) :
    ∀ e ∈ putEntry key value wanted entries, e.1.Bound ∧ e.2.Bound := by
  induction entries with
  | nil => simpa [putEntry] using ⟨hkey, hvalue⟩
  | cons entry entries ih =>
    obtain ⟨hentry, hentries⟩ := List.forall_mem_cons.1 hentries
    rw [putEntry]
    split
    · exact List.forall_mem_cons.2 ⟨⟨hentry.1, hvalue⟩, hentries⟩
    · exact List.forall_mem_cons.2 ⟨hentry, ih hentries⟩

lemma bound_applyChange {change : EntryChange} {entries' : List (Node × Node)}
    (hkey : key.Sound) (hvalue : value.Sound) (hentries : ∀ e ∈ entries, e.1.Bound ∧ e.2.Bound)
    (h : applyChange key value entries change = .ok entries') :
    ∀ e ∈ entries', e.1.Bound ∧ e.2.Bound := by
  obtain ⟨k, hk, h⟩ := except_bind_ok.1 h
  obtain ⟨wanted, -, h⟩ := except_bind_ok.1 h
  cases hchange : change.value with
  | some x =>
    rw [hchange] at h
    obtain ⟨x', hx', h⟩ := except_bind_ok.1 h
    cases h
    exact bound_putEntry hentries ((hkey.bind _).of_settle hk).2 ((hvalue.bind _).of_settle hx').2
  | none =>
    rw [hchange] at h
    cases h
    exact fun e he => hentries e (List.mem_of_mem_eraseP he)

lemma bound_applyChanges {changes : List EntryChange} (hkey : key.Sound) (hvalue : value.Sound)
    (hentries : ∀ e ∈ entries, e.1.Bound ∧ e.2.Bound) :
    ∀ e ∈ (applyChanges key value entries changes).result, e.1.Bound ∧ e.2.Bound := by
  induction changes generalizing entries with
  | nil => exact hentries
  | cons change changes ih =>
    rw [applyChanges]
    split
    · next h => exact ih (bound_applyChange hkey hvalue hentries h)
    · exact hentries

lemma keeps_overlayItems {changes : List EntryChange} {items : List Node}
    (h : ∀ item ∈ items, Keeps item (item.overlay changes))
    (hitems : ∀ item ∈ items, item.Sound ∧ item.Bound) :
    ∀ item ∈ (overlayItems changes items).result, item.Sound ∧ item.Bound := by
  induction items with
  | nil => exact nofun
  | cons item items ih =>
    obtain ⟨hkeeps, hrest⟩ := List.forall_mem_cons.1 h
    obtain ⟨hitem, hitems⟩ := List.forall_mem_cons.1 hitems
    have hhead := And.intro hkeeps.sound (hkeeps.bound hitem.2)
    rw [overlayItems]
    obtain ⟨-, h⟩ | ⟨e, -, h⟩ := Attempt.andThen_eq <;> rw [h]
    · exact List.forall_mem_cons.2 ⟨hhead, ih hrest hitems⟩
    · exact List.forall_mem_cons.2 ⟨hhead, hitems⟩

lemma keeps_overlayValues {changes : List EntryChange}
    (h : ∀ entry ∈ entries, Keeps entry.2 (entry.2.overlay changes))
    (hentries : ∀ entry ∈ entries, entry.1.Bound ∧ entry.2.Bound ∧ entry.2.Sound) :
    ∀ entry ∈ (overlayValues changes entries).result,
      entry.1.Bound ∧ entry.2.Bound ∧ entry.2.Sound := by
  induction entries with
  | nil => exact nofun
  | cons entry entries ih =>
    obtain ⟨k, x⟩ := entry
    obtain ⟨hkeeps, hrest⟩ := List.forall_mem_cons.1 h
    obtain ⟨hentry, hentries⟩ := List.forall_mem_cons.1 hentries
    have hhead := And.intro hentry.1 (And.intro (hkeeps.bound hentry.2.1) hkeeps.sound)
    rw [overlayValues]
    obtain ⟨-, h⟩ | ⟨e, -, h⟩ := Attempt.andThen_eq <;> rw [h]
    · exact List.forall_mem_cons.2 ⟨hhead, ih hrest hentries⟩
    · exact List.forall_mem_cons.2 ⟨hhead, hentries⟩

end Overlay

/-- **Laying changes over big maps keeps the flags right.** -/
theorem Sound.overlay (h : n.Sound) (changes : List EntryChange) :
    Keeps n (n.overlay changes) := by
  induction h with
  | scalar => exact ⟨.scalar, id⟩
  | contract h => exact ⟨.contract h, id⟩
  | lambda hp hr => exact ⟨.lambda hp hr, id⟩
  | ticket h ih =>
    exact ⟨.ticket ih.sound, fun hn => by cases hn with | ticket hi => exact .ticket (ih.bound hi)⟩
  | @option s inner present h hpresent ih =>
    cases present with
    | none => exact ⟨.option h hpresent, id⟩
    | some there =>
      cases there with
      | false => exact ⟨.option h hpresent, id⟩
      | true =>
        have hinner := ih.bound (hpresent rfl)
        exact ⟨.option ih.sound fun _ => hinner, fun _ => .present hinner⟩
  | @pair s l r hl hr ihl ihr =>
    rw [Node.overlay]
    obtain ⟨-, h⟩ | ⟨e, -, h⟩ := Attempt.andThen_eq <;> rw [h]
    · exact ⟨.pair ihl.sound ihr.sound, fun hn => by
        cases hn with | pair hl hr => exact .pair (ihl.bound hl) (ihr.bound hr)⟩
    · exact ⟨.pair ihl.sound hr, fun hn => by
        cases hn with | pair hl hr => exact .pair (ihl.bound hl) hr⟩
  | @or s l r side hl hr hleft hright ihl ihr =>
    cases side with
    | none => exact ⟨.or hl hr hleft hright, id⟩
    | some side =>
      cases side with
      | left =>
        have hl' := ihl.bound (hleft rfl)
        exact ⟨.or ihl.sound hr (fun _ => hl') nofun, fun _ => .left hl'⟩
      | right =>
        have hr' := ihr.bound (hright rfl)
        exact ⟨.or hl ihr.sound nofun fun _ => hr', fun _ => .right hr'⟩
  | @collection s kind elem items helem hitems hbound ihe ih =>
    cases items with
    | none => exact ⟨.collection helem hitems hbound, id⟩
    | some items =>
      have hall := keeps_overlayItems ih fun item h => ⟨hitems item h, hbound item h⟩
      exact ⟨.collection helem (fun item h => (hall item h).1) fun item h => (hall item h).2,
        fun _ => .collection fun item h => (hall item h).2⟩
  | @map s key value entries hkey hvalue hvalues hbound ihk ihv ih =>
    cases entries with
    | none => exact ⟨.map hkey hvalue hvalues hbound, id⟩
    | some entries =>
      have hall := keeps_overlayValues ih fun e h =>
        ⟨(hbound e h).1, (hbound e h).2, hvalues e h⟩
      exact ⟨.map hkey hvalue (fun e h => (hall e h).2.2) fun e h =>
          ⟨(hall e h).1, (hall e h).2.1⟩,
        fun _ => .map (fun e h => (hall e h).1) fun e h => (hall e h).2.1⟩
  | @bigMap s key value pointer entries hkey hvalue hbound ihk ihv =>
    cases pointer with
    | none =>
      cases entries <;> exact ⟨.bigMap hkey hvalue hbound, id⟩
    | some p =>
      have hall : ∀ e ∈ (applyChanges key value (entries.getD [])
          (changes.filter (·.pointer == p))).result, e.1.Bound ∧ e.2.Bound :=
        bound_applyChanges hkey hvalue hbound
      exact ⟨.bigMap hkey hvalue hall,
        fun _ => .entries (fun e h => (hall e h).1) fun e h => (hall e h).2⟩

/-! ### Writing and showing -/

lemma exists_forall₂ {α β : Type} {R : α → β → Prop} {xs : List α}
    (h : ∀ x ∈ xs, ∃ y, R x y) : ∃ ys, List.Forall₂ R xs ys := by
  induction xs with
  | nil => exact ⟨[], .nil⟩
  | cons x xs ih =>
    obtain ⟨⟨y, hy⟩, hxs⟩ := List.forall_mem_cons.1 h
    obtain ⟨ys, hys⟩ := ih hxs
    exact ⟨y :: ys, .cons hy hys⟩

lemma exists_entriesToWire {optimized : Bool} {entries : List (Node × Node)}
    (hk : ∀ entry ∈ entries, ∃ w, entry.1.toWire optimized = .ok w)
    (hv : ∀ entry ∈ entries, ∃ w, entry.2.toWire optimized = .ok w) :
    ∃ ws, entriesToWire optimized entries = .ok ws := by
  have helt : ∀ entry ∈ entries, ∃ w : Micheline, ∃ k x, entry.1.toWire optimized = .ok k ∧
      entry.2.toWire optimized = .ok x ∧ w = .data .elt [k, x] := by
    intro entry he
    obtain ⟨k, hk⟩ := hk entry he
    obtain ⟨x, hx⟩ := hv entry he
    exact ⟨_, k, x, hk, hx, rfl⟩
  exact (exists_forall₂ helt).imp fun _ => entriesToWire_ok.2

theorem Bound.exists_toWire (h : n.Bound) (optimized : Bool) :
    ∃ w, n.toWire optimized = .ok w := by
  induction h with
  | scalar | contract | lambda | pointer | absent => exact ⟨_, rfl⟩
  | ticket h ih => exact ih
  | present h ih =>
    obtain ⟨w, hw⟩ := ih
    exact ⟨.data .some [w], by rw [toWire, hw]; rfl⟩
  | pair hl hr ihl ihr =>
    obtain ⟨x, hx⟩ := ihl
    obtain ⟨y, hy⟩ := ihr
    exact ⟨.data .pair [x, y], by rw [toWire, hx, hy]; rfl⟩
  | left h ih =>
    obtain ⟨w, hw⟩ := ih
    exact ⟨.data .left [w], by rw [toWire, hw]; rfl⟩
  | right h ih =>
    obtain ⟨w, hw⟩ := ih
    exact ⟨.data .right [w], by rw [toWire, hw]; rfl⟩
  | collection h ih =>
    obtain ⟨ws, hws⟩ := exists_forall₂ ih
    exact ⟨.seq ws, by rw [toWire, itemsToWire_ok.2 hws]; rfl⟩
  | map hk hv ihk ihv =>
    obtain ⟨ws, hws⟩ := exists_entriesToWire ihk ihv
    exact ⟨.seq ws, by rw [toWire, hws]; rfl⟩
  | @entries s key value pointer entries hk hv ihk ihv =>
    obtain ⟨ws, hws⟩ := exists_entriesToWire ihk ihv
    cases pointer <;> cases optimized <;>
      simp [toWire, hws, pure, Except.pure, Bind.bind, Except.bind]

lemma Bound.asFields (h : n.Bound) : ∀ field ∈ n.asFields, field.Bound := by
  induction n using typeInduction with
  | pair s l r ihl ihr =>
    rw [Node.asFields]
    split
    · cases h with
      | pair hl hr => exact List.forall_mem_append.2 ⟨ihl hl, ihr hr⟩
    · simpa using h
  | _ => simpa [Node.asFields] using h

lemma Bound.pairFields (h : (Node.pair s l r).Bound) :
    ∀ field ∈ (Node.pair s l r).pairFields, field.Bound := by
  cases h with
  | pair hl hr => exact List.forall_mem_append.2 ⟨hl.asFields, hr.asFields⟩

lemma Bound.asChosen? (h : n.Bound) : ∃ chosen, n.asChosen? = some chosen ∧ chosen.Bound := by
  induction h with
  | @left s l r h ih =>
    rw [Node.asChosen?]
    split
    · exact ih
    · exact ⟨_, rfl, .left h⟩
  | @right s l r h ih =>
    rw [Node.asChosen?]
    split
    · exact ih
    · exact ⟨_, rfl, .right h⟩
  | _ => exact ⟨_, rfl, by constructor <;> assumption⟩

lemma Bound.chosenAlternative? (h : n.Bound) (hor : n.isOr = true) :
    ∃ chosen, n.chosenAlternative? = some chosen ∧ chosen.Bound := by
  cases h with
  | left h => exact h.asChosen?
  | right h => exact h.asChosen?
  | _ => cases hor

lemma Bound.onlyDecodes_labelOf (h : n.Bound) (view : View) : OnlyDecodes (n.labelOf view) := by
  obtain ⟨w, hw⟩ := h.exists_toWire false
  unfold labelOf
  rw [hw]
  split <;> exact onlyDecodes_ok _

lemma onlyDecodes_renderItems {items : List Node} (h : ∀ item ∈ items, OnlyDecodes item.render) :
    OnlyDecodes (renderItems items) := by
  induction items with
  | nil => rw [renderItems]; exact onlyDecodes_ok _
  | cons item items ih =>
    obtain ⟨hitem, hitems⟩ := List.forall_mem_cons.1 h
    rw [renderItems]
    exact onlyDecodes_bind hitem fun _ _ => onlyDecodes_bind (ih hitems) fun _ _ => onlyDecodes_ok _

lemma onlyDecodes_renderEntries {entries : List (Node × Node)}
    (hbound : ∀ entry ∈ entries, entry.1.Bound)
    (h : ∀ entry ∈ entries, OnlyDecodes entry.1.render ∧ OnlyDecodes entry.2.render) :
    OnlyDecodes (renderEntries entries) := by
  induction entries with
  | nil => rw [renderEntries]; exact onlyDecodes_ok _
  | cons entry entries ih =>
    obtain ⟨key, value⟩ := entry
    obtain ⟨⟨hkey, hvalue⟩, hentries⟩ := List.forall_mem_cons.1 h
    obtain ⟨hb, hbs⟩ := List.forall_mem_cons.1 hbound
    rw [renderEntries]
    refine onlyDecodes_bind hvalue fun _ _ => onlyDecodes_bind hkey fun view _ => ?_
    exact onlyDecodes_bind (hb.onlyDecodes_labelOf view) fun _ _ =>
      onlyDecodes_bind (ih hbs hentries) fun _ _ => onlyDecodes_ok _

lemma onlyDecodes_render_or {side : Option Side}
    (h : (or s l r side).Bound) (hchosen : ∀ chosen,
      (or s l r side).chosenAlternative? = some chosen → chosen.Bound → OnlyDecodes chosen.render) :
    OnlyDecodes (or s l r side).render := by
  obtain ⟨chosen, hsome, hbound⟩ := h.chosenAlternative? rfl
  rw [render_of_isOr rfl, hsome]
  dsimp only
  split
  · exact onlyDecodes_ok _
  · exact onlyDecodes_bind (hchosen chosen hsome hbound) fun _ _ => onlyDecodes_ok _

/-- A bound node is shown, unless wire data in it cannot be read. -/
theorem Bound.onlyDecodes_render (h : n.Bound) : OnlyDecodes n.render := by
  induction n using sizeInduction with
  | step n ih =>
    cases h with
    | scalar =>
      rw [render]
      exact onlyDecodes_required <|
        onlyDecodes_bind (onlyDecodes_shown _ _) fun _ _ => onlyDecodes_ok _
    | contract =>
      rw [render]
      exact onlyDecodes_required <|
        onlyDecodes_bind (onlyDecodes_text _ _) fun _ _ => onlyDecodes_ok _
    | lambda =>
      rw [render]
      exact onlyDecodes_required (onlyDecodes_ok _)
    | ticket h =>
      have hinner := ih _ (sizeOf_lt_of_mem_typeChildren List.mem_cons_self) h
      rw [render]
      exact onlyDecodes_bind hinner fun _ _ => onlyDecodes_ok _
    | absent =>
      rw [render]
      exact onlyDecodes_required (onlyDecodes_ok _)
    | present h =>
      have hinner := ih _ (sizeOf_lt_of_mem_typeChildren List.mem_cons_self) h
      rw [render]
      exact onlyDecodes_required (onlyDecodes_bind hinner fun _ _ => onlyDecodes_ok _)
    | @pair s l r hl hr =>
      rw [render_of_isPair rfl]
      refine onlyDecodes_bind (onlyDecodes_mapM fun field hfield => ?_) fun _ _ => onlyDecodes_ok _
      exact ih _ (sizeOf_lt_of_mem_pairFields hfield)
        ((Bound.pair (s := s) hl hr).pairFields field hfield)
    | left h =>
      exact onlyDecodes_render_or (.left h) fun chosen hchosen =>
        ih chosen (sizeOf_lt_of_chosenAlternative hchosen)
    | right h =>
      exact onlyDecodes_render_or (.right h) fun chosen hchosen =>
        ih chosen (sizeOf_lt_of_chosenAlternative hchosen)
    | collection h =>
      rw [render]
      exact onlyDecodes_bind (onlyDecodes_renderItems fun item hitem =>
        ih item (sizeOf_lt_collection hitem) (h item hitem)) fun _ _ => onlyDecodes_ok _
    | map hk hv =>
      rw [render]
      exact onlyDecodes_bind (onlyDecodes_renderEntries hk fun entry he =>
        ⟨ih _ (sizeOf_lt_map he).1 (hk entry he), ih _ (sizeOf_lt_map he).2 (hv entry he)⟩)
        fun _ _ => onlyDecodes_ok _
    | pointer =>
      rw [render]
      exact onlyDecodes_ok _
    | @entries s key value pointer entries hk hv =>
      have hall := onlyDecodes_renderEntries hk fun entry he =>
        ⟨ih _ (sizeOf_lt_bigMap he).1 (hk entry he), ih _ (sizeOf_lt_bigMap he).2 (hv entry he)⟩
      rw [render]
      cases pointer <;> exact onlyDecodes_bind hall fun _ _ => onlyDecodes_ok _

end Lineage.Node
