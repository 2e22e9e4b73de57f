import Lineage.Proofs.Text.Decimal
import Lineage.Proofs.Typed.Binding
import Lineage.Typed.Encoding

/-!
# Wire values and back

A value that is bound to the node of a type and written again need not come out as it was: pairs are
nested by two, constructors lose their annotations, and the pointers of big maps are written without
signs and zeros that say nothing (`Rewritten`). What comes out is bound to the same node, and
nothing more happens to it (`roundTrip`).

The proofs go along the type. A big map is the one place where the node has to be a new one: an old
one could hold a pointer and entries, and only one of them is written.
-/

namespace Lineage.Node

/-! ### What is rewritten -/

/-- The key and the value of an entry are rewritten. -/
def RewrittenElt (key value : Micheline → Micheline → Prop) (elt wire : Micheline) : Prop :=
  ∃ k x k' x', elt.Applies .elt [k, x] ∧ wire = .data .elt [k', x'] ∧ key k k' ∧ value x x'

/-- **What may differ** between a value of a type and what is written of it: the form of pairs, the
annotations of constructors, and the numerals of pointers. -/
def Rewritten : Node → Micheline → Micheline → Prop
  | scalar .., v, w => w = v
  | contract .., v, w => w = v
  | lambda .., v, w => w = v
  | ticket _ inner, v, w => inner.Rewritten v w
  | option _ inner _, v, w =>
    (v.Applies .none [] ∧ w = .data .none []) ∨
      ∃ a a', v.Applies .some [a] ∧ w = .data .some [a'] ∧ inner.Rewritten a a'
  | pair _ l r, v, w =>
    ∃ first second rest first' second', v.Components (first :: second :: rest) ∧
      w = .data .pair [first', second'] ∧ l.Rewritten first first' ∧
      r.Rewritten (.behind Constructor.pair.name second rest) second'
  | or _ l r _, v, w =>
    (∃ a a', v.Applies .left [a] ∧ w = .data .left [a'] ∧ l.Rewritten a a') ∨
      ∃ a a', v.Applies .right [a] ∧ w = .data .right [a'] ∧ r.Rewritten a a'
  | collection _ _ elem _, v, w =>
    ∃ vs ws, v = .seq vs ∧ w = .seq ws ∧ List.Forall₂ elem.Rewritten vs ws
  | map _ key value _, v, w =>
    ∃ vs ws, v = .seq vs ∧ w = .seq ws ∧
      List.Forall₂ (RewrittenElt key.Rewritten value.Rewritten) vs ws
  | bigMap _ key value _ _, v, w =>
    (∃ literal p, Decimal.parseInt64? literal = some p ∧ v = .int literal ∧
      w = .int (toString p)) ∨
    ∃ vs ws, v = .seq vs ∧ w = .seq ws ∧
      List.Forall₂ (RewrittenElt key.Rewritten value.Rewritten) vs ws

/-- The key and the value of an entry need no rewriting, nor does the entry. -/
def PlainElt (key value : Micheline → Prop) (elt : Micheline) : Prop :=
  ∃ k x, elt = .data .elt [k, x] ∧ key k ∧ value x

/-- **Values that need no rewriting**: pairs are made of two components, constructors have no
annotations, and pointers are the numerals of integers. -/
def Plain : Node → Micheline → Prop
  | scalar .., _ => True
  | contract .., _ => True
  | lambda .., _ => True
  | ticket _ inner, v => inner.Plain v
  | option _ inner _, v => v = .data .none [] ∨ ∃ a, v = .data .some [a] ∧ inner.Plain a
  | pair _ l r, v => ∃ a b, v = .data .pair [a, b] ∧ l.Plain a ∧ r.Plain b
  | or _ l r _, v =>
    (∃ a, v = .data .left [a] ∧ l.Plain a) ∨ ∃ a, v = .data .right [a] ∧ r.Plain a
  | collection _ _ elem _, v => ∃ vs, v = .seq vs ∧ ∀ x ∈ vs, elem.Plain x
  | map _ key value _, v => ∃ vs, v = .seq vs ∧ ∀ x ∈ vs, PlainElt key.Plain value.Plain x
  | bigMap _ key value _ _, v =>
    (∃ p : Int, v = .int (toString p)) ∨
      ∃ vs, v = .seq vs ∧ ∀ x ∈ vs, PlainElt key.Plain value.Plain x

variable {n n' : Node} {v w : Micheline}

/-! ### Lists of values -/

section Forall₂

variable {α β γ : Type} {xs : List α} {ys : List β} {R : α → β → Prop}

lemma forall₂_exists {S : β → γ → Prop} {T : γ → β → Prop} {U : α → γ → Prop}
    (h : List.Forall₂ R xs ys) (hR : ∀ x y, R x y → ∃ z, S y z ∧ T z y ∧ U x z) :
    ∃ zs, List.Forall₂ S ys zs ∧ List.Forall₂ T zs ys ∧ List.Forall₂ U xs zs := by
  induction h with
  | nil => exact ⟨[], .nil, .nil, .nil⟩
  | cons hxy _ ih =>
    obtain ⟨z, hS, hT, hU⟩ := hR _ _ hxy
    obtain ⟨zs, hSs, hTs, hUs⟩ := ih
    exact ⟨z :: zs, .cons hS hSs, .cons hT hTs, .cons hU hUs⟩

lemma forall_of_forall₂ {P : β → Prop} (h : List.Forall₂ R xs ys) (hR : ∀ x y, R x y → P y) :
    ∀ y ∈ ys, P y := by
  induction h with
  | nil => simp
  | cons hxy _ ih => exact List.forall_mem_cons.2 ⟨hR _ _ hxy, ih⟩

lemma exists_mem_of_forall₂ {y : β} (h : List.Forall₂ R xs ys) (hy : y ∈ ys) :
    ∃ x ∈ xs, R x y := by
  induction h with
  | nil => cases hy
  | cons hxy _ ih =>
    obtain rfl | hy := List.mem_cons.1 hy
    · exact ⟨_, List.mem_cons_self, hxy⟩
    · obtain ⟨x, hx, hxy⟩ := ih hy
      exact ⟨x, List.mem_cons_of_mem _ hx, hxy⟩

lemma eq_of_forall₂ {zs : List α} {R : α → α → Prop} (h : List.Forall₂ R xs zs)
    (hR : ∀ x ∈ xs, ∀ z, R x z → z = x) : zs = xs := by
  induction h with
  | nil => rfl
  | cons hxz _ ih =>
    obtain ⟨hx, hxs⟩ := List.forall_mem_cons.1 hR
    rw [hx _ hxz, ih hxs]

end Forall₂

lemma itemsToWire_ok {optimized : Bool} {items : List Node} {ws : List Micheline} :
    itemsToWire optimized items = .ok ws ↔
      List.Forall₂ (fun item w => item.toWire optimized = .ok w) items ws := by
  induction items generalizing ws with
  | nil => cases ws <;> simp [itemsToWire, pure, Except.pure]
  | cons item items ih =>
    simp only [itemsToWire, except_bind_ok, pure, Except.pure, Except.ok.injEq, ih]
    constructor
    · rintro ⟨w, hw, ws', hws, rfl⟩
      exact .cons hw hws
    · rintro (_ | ⟨hw, hws⟩)
      exact ⟨_, hw, _, hws, rfl⟩

lemma entriesToWire_ok {optimized : Bool} {entries : List (Node × Node)} {ws : List Micheline} :
    entriesToWire optimized entries = .ok ws ↔
      List.Forall₂ (fun entry w => ∃ k x, entry.1.toWire optimized = .ok k ∧
        entry.2.toWire optimized = .ok x ∧ w = .data .elt [k, x]) entries ws := by
  induction entries generalizing ws with
  | nil => cases ws <;> simp [entriesToWire, pure, Except.pure]
  | cons entry entries ih =>
    obtain ⟨key, value⟩ := entry
    simp only [entriesToWire, except_bind_ok, pure, Except.pure, Except.ok.injEq, ih]
    constructor
    · rintro ⟨k, hk, x, hx, ws', hws, rfl⟩
      exact .cons ⟨k, x, hk, hx, rfl⟩ hws
    · rintro (_ | ⟨⟨k, x, hk, hx, rfl⟩, hws⟩)
      exact ⟨k, hk, x, hx, _, hws, rfl⟩

/-! ### Writing and binding again -/

/-- A value is bound to a node, and what is written of the result is bound to the node as well, with
the same result. -/
structure Returns (n : Node) (v : Micheline) (n' : Node) (w : Micheline) : Prop where
  wire (optimized : Bool) : n'.toWire optimized = .ok w
  settle : n.settle w = .ok n'
  rewritten : n.Rewritten v w

section Entries

variable {s : Site} {key value : Node} {vs : List Micheline} {entries : List (Node × Node)}

lemma exists_wires (hkey : ∀ {v n'}, key.settle v = .ok n' → ∃ w, Returns key v n' w)
    (hvalue : ∀ {v n'}, value.settle v = .ok n' → ∃ w, Returns value v n' w)
    (h : List.Forall₂ (SettlesElt key value) vs entries) :
    ∃ ws, (∀ optimized, entriesToWire optimized entries = .ok ws) ∧
      List.Forall₂ (SettlesElt key value) ws entries ∧
      List.Forall₂ (RewrittenElt key.Rewritten value.Rewritten) vs ws := by
  have helt : ∀ elt entry, SettlesElt key value elt entry → ∃ w,
      (∀ optimized, ∃ k x, entry.1.toWire optimized = .ok k ∧ entry.2.toWire optimized = .ok x ∧
        w = .data .elt [k, x]) ∧
      SettlesElt key value w entry ∧ RewrittenElt key.Rewritten value.Rewritten elt w := by
    rintro elt entry ⟨k, x, helt, hk, hx⟩
    obtain ⟨k', hk'⟩ := hkey hk
    obtain ⟨x', hx'⟩ := hvalue hx
    exact ⟨.data .elt [k', x'], fun o => ⟨k', x', hk'.wire o, hx'.wire o, rfl⟩,
      ⟨k', x', ⟨[], rfl⟩, hk'.settle, hx'.settle⟩,
      ⟨k, x, k', x', helt, rfl, hk'.rewritten, hx'.rewritten⟩⟩
  obtain ⟨ws, hwire, hsettle, hrewritten⟩ := forall₂_exists h helt
  exact ⟨ws, fun o => entriesToWire_ok.2 (hwire.imp fun _ _ hw => hw o), hsettle, hrewritten⟩

end Entries

/-- What is written of a value bound to a new node. -/
theorem exists_returns (hn : n.Unbound) (h : n.settle v = .ok n') : ∃ w, Returns n v n' w := by
  induction n using typeInduction generalizing v n' with
  | scalar s type typeArgs value =>
    obtain ⟨-, rfl⟩ := settle_scalar.1 h
    exact ⟨v, fun _ => rfl, h, rfl⟩
  | contract s parameter value =>
    obtain ⟨-, rfl⟩ := settle_contract.1 h
    exact ⟨v, fun _ => rfl, h, rfl⟩
  | ticket s inner ih =>
    obtain ⟨inner', hi, rfl⟩ := settle_ticket.1 h
    obtain ⟨w, hw⟩ := ih hn hi
    exact ⟨w, hw.wire, settle_ticket.2 ⟨inner', hw.settle, rfl⟩, hw.rewritten⟩
  | option s inner present ih =>
    obtain ⟨hv, rfl⟩ | ⟨a, inner', hv, ha, rfl⟩ := settle_option.1 h
    · exact ⟨.data .none [], fun _ => rfl, settle_option.2 (.inl ⟨⟨[], rfl⟩, rfl⟩), .inl ⟨hv, rfl⟩⟩
    · obtain ⟨a', ha'⟩ := ih hn.1 ha
      refine ⟨.data .some [a'], fun o => ?_,
        settle_option.2 (.inr ⟨a', inner', ⟨[], rfl⟩, ha'.settle, rfl⟩),
        .inr ⟨a, a', hv, rfl, ha'.rewritten⟩⟩
      rw [toWire, ha'.wire]
      rfl
  | pair s l r ihl ihr =>
    obtain ⟨first, second, rest, l', r', hv, hl, hr, rfl⟩ := settle_pair.1 h
    obtain ⟨first', hl'⟩ := ihl hn.1 hl
    obtain ⟨second', hr'⟩ := ihr hn.2 hr
    refine ⟨.data .pair [first', second'], fun o => ?_,
      settle_pair.2 ⟨first', second', [], l', r', .inl ⟨[], rfl⟩, hl'.settle, hr'.settle, rfl⟩,
      first, second, rest, first', second', hv, rfl, hl'.rewritten, hr'.rewritten⟩
    rw [toWire, hl'.wire, hr'.wire]
    rfl
  | or s l r side ihl ihr =>
    obtain ⟨a, l', hv, ha, rfl⟩ | ⟨a, r', hv, ha, rfl⟩ := settle_or.1 h
    · obtain ⟨a', ha'⟩ := ihl hn.1 ha
      refine ⟨.data .left [a'], fun o => ?_,
        settle_or.2 (.inl ⟨a', l', ⟨[], rfl⟩, ha'.settle, rfl⟩),
        .inl ⟨a, a', hv, rfl, ha'.rewritten⟩⟩
      rw [toWire, ha'.wire]
      rfl
    · obtain ⟨a', ha'⟩ := ihr hn.2.1 ha
      refine ⟨.data .right [a'], fun o => ?_,
        settle_or.2 (.inr ⟨a', r', ⟨[], rfl⟩, ha'.settle, rfl⟩),
        .inr ⟨a, a', hv, rfl, ha'.rewritten⟩⟩
      rw [toWire, ha'.wire]
      rfl
  | collection s kind elem items ih =>
    obtain ⟨vs, items', rfl, hitems, rfl⟩ := settle_collection.1 h
    have hitem : ∀ x item, elem.settle x = .ok item → ∃ w,
        (∀ optimized, item.toWire optimized = .ok w) ∧ elem.settle w = .ok item ∧
          elem.Rewritten x w := by
      intro x item hx
      obtain ⟨w, hw⟩ := ih hn.1 hx
      exact ⟨w, hw.wire, hw.settle, hw.rewritten⟩
    obtain ⟨ws, hwire, hsettle, hrewritten⟩ := forall₂_exists hitems hitem
    refine ⟨.seq ws, fun o => ?_, settle_collection.2 ⟨ws, items', rfl, hsettle, rfl⟩,
      vs, ws, rfl, rfl, hrewritten⟩
    rw [toWire, itemsToWire_ok.2 (hwire.imp fun _ _ hw => hw o)]
    rfl
  | map s key value entries ihk ihv =>
    obtain ⟨vs, entries', rfl, hentries, rfl⟩ := settle_map.1 h
    obtain ⟨ws, hwire, hsettle, hrewritten⟩ := exists_wires (ihk hn.1) (ihv hn.2.1) hentries
    refine ⟨.seq ws, fun o => ?_, settle_map.2 ⟨ws, entries', rfl, hsettle, rfl⟩,
      vs, ws, rfl, rfl, hrewritten⟩
    rw [toWire, hwire]
    rfl
  | bigMap s key value pointer entries ihk ihv =>
    -- the node is new, so that it has the pointer or the entries but not both
    obtain ⟨hkey, hvalue, rfl, rfl⟩ := hn
    obtain ⟨literal, p, rfl, hp, rfl⟩ | ⟨vs, entries', rfl, hentries, rfl⟩ := settle_bigMap.1 h
    · have hparse : Decimal.parseInt64? (toString p) = some p := by
        rw [Decimal.parseInt64?_toString]
        exact Decimal.int64?_eq_some_iff.2 ⟨Decimal.fits_of_parseInt64? hp, rfl⟩
      exact ⟨.int (toString p), fun _ => rfl,
        settle_bigMap.2 (.inl ⟨toString p, p, rfl, hparse, rfl⟩),
        .inl ⟨literal, p, hp, rfl, rfl⟩⟩
    · obtain ⟨ws, hwire, hsettle, hrewritten⟩ := exists_wires (ihk hkey) (ihv hvalue) hentries
      refine ⟨.seq ws, fun o => ?_, settle_bigMap.2 (.inr ⟨ws, entries', rfl, hsettle, rfl⟩),
        .inr ⟨vs, ws, rfl, rfl, hrewritten⟩⟩
      simp [toWire, hwire]
  | lambda s parameter result code =>
    obtain ⟨-, rfl⟩ := settle_lambda.1 h
    exact ⟨v, fun _ => rfl, h, rfl⟩

/-! ### Values that stay as they are -/

lemma RewrittenElt.plain {key value : Micheline → Micheline → Prop} {P Q : Micheline → Prop}
    (hkey : ∀ k k', key k k' → P k') (hvalue : ∀ x x', value x x' → Q x')
    (h : RewrittenElt key value v w) : PlainElt P Q w := by
  obtain ⟨k, x, k', x', -, rfl, hk, hx⟩ := h
  exact ⟨k', x', rfl, hkey k k' hk, hvalue x x' hx⟩

lemma RewrittenElt.eq_of_plain {key value : Micheline → Micheline → Prop}
    {P Q : Micheline → Prop} (hkey : ∀ k k', key k k' → P k → k' = k)
    (hvalue : ∀ x x', value x x' → Q x → x' = x) (h : RewrittenElt key value v w)
    (hv : PlainElt P Q v) : w = v := by
  obtain ⟨k, x, k', x', helt, rfl, hk, hx⟩ := h
  obtain ⟨k₁, x₁, rfl, hk₁, hx₁⟩ := hv
  obtain ⟨annots, helt⟩ := helt
  cases helt
  rw [hkey k k' hk hk₁, hvalue x x' hx hx₁]

theorem Rewritten.plain (h : n.Rewritten v w) : n.Plain w := by
  induction n using typeInduction generalizing v w with
  | scalar s type typeArgs value => trivial
  | contract s parameter value => trivial
  | lambda s parameter result code => trivial
  | ticket s inner ih => exact ih h
  | option s inner present ih =>
    obtain ⟨-, rfl⟩ | ⟨a, a', -, rfl, ha⟩ := h
    · exact .inl rfl
    · exact .inr ⟨a', rfl, ih ha⟩
  | pair s l r ihl ihr =>
    obtain ⟨first, second, rest, first', second', -, rfl, hl, hr⟩ := h
    exact ⟨first', second', rfl, ihl hl, ihr hr⟩
  | or s l r side ihl ihr =>
    obtain ⟨a, a', -, rfl, ha⟩ | ⟨a, a', -, rfl, ha⟩ := h
    · exact .inl ⟨a', rfl, ihl ha⟩
    · exact .inr ⟨a', rfl, ihr ha⟩
  | collection s kind elem items ih =>
    obtain ⟨vs, ws, rfl, rfl, hws⟩ := h
    exact ⟨ws, rfl, forall_of_forall₂ hws fun _ _ => ih⟩
  | map s key value entries ihk ihv =>
    obtain ⟨vs, ws, rfl, rfl, hws⟩ := h
    exact ⟨ws, rfl, forall_of_forall₂ hws fun _ _ hw => hw.plain (fun _ _ => ihk) fun _ _ => ihv⟩
  | bigMap s key value pointer entries ihk ihv =>
    obtain ⟨literal, p, -, rfl, rfl⟩ | ⟨vs, ws, rfl, rfl, hws⟩ := h
    · exact .inl ⟨p, rfl⟩
    · exact .inr ⟨ws, rfl,
        forall_of_forall₂ hws fun _ _ hw => hw.plain (fun _ _ => ihk) fun _ _ => ihv⟩

theorem Rewritten.eq_of_plain (h : n.Rewritten v w) (hv : n.Plain v) : w = v := by
  induction n using typeInduction generalizing v w with
  | scalar s type typeArgs value => exact h
  | contract s parameter value => exact h
  | lambda s parameter result code => exact h
  | ticket s inner ih => exact ih h hv
  | option s inner present ih =>
    obtain ⟨happlies, rfl⟩ | ⟨a, a', happlies, rfl, ha⟩ := h <;>
      obtain rfl | ⟨b, rfl, hb⟩ := hv <;> obtain ⟨hc, harg⟩ := Micheline.data_applies.1 happlies
    · rfl
    · cases hc
    · cases hc
    · cases harg
      rw [ih ha hb]
  | pair s l r ihl ihr =>
    obtain ⟨first, second, rest, first', second', hcomponents, rfl, hl, hr⟩ := h
    obtain ⟨a, b, rfl, ha, hb⟩ := hv
    obtain happlies | hseq := hcomponents
    · cases (Micheline.data_applies.1 happlies).2
      rw [ihl hl ha, ihr hr hb]
      rfl
    · cases hseq
  | or s l r side ihl ihr =>
    obtain ⟨a, a', happlies, rfl, ha⟩ | ⟨a, a', happlies, rfl, ha⟩ := h <;>
      obtain ⟨b, rfl, hb⟩ | ⟨b, rfl, hb⟩ := hv <;>
      obtain ⟨hc, harg⟩ := Micheline.data_applies.1 happlies
    · cases harg
      rw [ihl ha hb]
    · cases hc
    · cases hc
    · cases harg
      rw [ihr ha hb]
  | collection s kind elem items ih =>
    obtain ⟨vs, ws, rfl, rfl, hws⟩ := h
    obtain ⟨vs', hvs, hplain⟩ := hv
    cases hvs
    rw [eq_of_forall₂ hws fun x hx w hw => ih hw (hplain x hx)]
  | map s key value entries ihk ihv =>
    obtain ⟨vs, ws, rfl, rfl, hws⟩ := h
    obtain ⟨vs', hvs, hplain⟩ := hv
    cases hvs
    rw [eq_of_forall₂ hws fun x hx w hw =>
      hw.eq_of_plain (fun _ _ => ihk) (fun _ _ => ihv) (hplain x hx)]
  | bigMap s key value pointer entries ihk ihv =>
    obtain ⟨literal, p, hp, rfl, rfl⟩ | ⟨vs, ws, rfl, rfl, hws⟩ := h <;>
      obtain ⟨q, hq⟩ | ⟨vs', hvs, hplain⟩ := hv
    · cases hq
      rw [Decimal.parseInt64?_toString] at hp
      rw [(Decimal.int64?_eq_some_iff.1 hp).2]
    · cases hvs
    · cases hq
    · cases hvs
      rw [eq_of_forall₂ hws fun x hx w hw =>
        hw.eq_of_plain (fun _ _ => ihk) (fun _ _ => ihv) (hplain x hx)]

/-- **There and back**: whatever value is bound to the new node of a type, both ways to write the
result come to one and the same value. This value is bound to the node with the same result, it
differs from the given one only as values may, and not at all just if the given one needs no
rewriting. -/
theorem roundTrip {type : Micheline} (htype : ofType type = .ok n) (h : n.settle v = .ok n') :
    ∃ w, (∀ optimized, n'.toWire optimized = .ok w) ∧ n.settle w = .ok n' ∧ n.Rewritten v w ∧
      (w = v ↔ n.Plain v) := by
  obtain ⟨w, hw⟩ := exists_returns (unbound_ofType htype) h
  refine ⟨w, hw.wire, hw.settle, hw.rewritten, ?_, hw.rewritten.eq_of_plain⟩
  rintro rfl
  exact hw.rewritten.plain

/-- A pair of four components: a number, a ticket, a big map and an option. -/
def parcel : Micheline :=
  .prim "pair" [.prim "nat" [] ["%count"], .prim "ticket" [.prim "string" [] []] [],
    .prim "big_map" [.prim "nat" [] [], .prim "unit" [] []] [],
    .prim "option" [.prim "unit" [] []] []] []

def parcelValue : Micheline :=
  .seq [.int "1", .prim "Pair" [.string "KT1", .string "t", .int "10"] [], .int "+007",
    .prim "Some" [.prim "Unit" [] []] ["%here"]]

def parcelWire : Micheline :=
  .data .pair [.int "1", .data .pair [.data .pair [.string "KT1",
    .data .pair [.string "t", .int "10"]], .data .pair [.int "7", .data .some [.data .unit []]]]]

theorem roundTrip_parcel :
    ∃ n n', ofType parcel = .ok n ∧ n.settle parcelValue = .ok n' ∧
      (∀ optimized, n'.toWire optimized = .ok parcelWire) ∧ n.settle parcelWire = .ok n' ∧
      n.Rewritten parcelValue parcelWire ∧ (parcelWire = parcelValue ↔ n.Plain parcelValue) := by
  have hrun : (do
      let n ← ofType parcel
      let n' ← n.settle parcelValue
      n'.toWire true).toOption = some parcelWire := by decide +kernel
  obtain ⟨n, htype, hrun⟩ := except_bind_ok.1 (except_ok_of_toOption hrun)
  obtain ⟨n', hsettle, hrun⟩ := except_bind_ok.1 hrun
  obtain ⟨w, hwire, hagain, hrewritten, hplain⟩ := roundTrip htype hsettle
  obtain rfl : w = parcelWire := Except.ok.inj ((hwire true).symm.trans hrun)
  exact ⟨n, n', htype, hsettle, hwire, hagain, hrewritten, hplain⟩

end Lineage.Node
