import Lineage.Proofs.Typed.Encoding
import Lineage.Proofs.Typed.View

/-!
# Binding a value to a used node

Values bound before leave traces where the new one does not reach: in the content of an option that
is empty now, and in the arm of an `or` that is no longer chosen. None of this is ever seen
(`clean`). But a big map is bound by halves: a pointer leaves the old entries there, and entries
leave the old pointer. So a used node looks like a new one with the same value exactly when no big
map that the value reaches was given its other half before (`looksLike_iff`).
-/

namespace Lineage.Node

variable {n n' used : Node} {s : Site} {v : Micheline} {optimized : Bool}

/-! ### What is not seen -/

/-- The node without the values that its own value does not reach. -/
def clean : Node → Node
  | ticket s inner => ticket s inner.clean
  | option s inner (some true) => option s inner.clean (some true)
  | option s inner present => option s inner.erase present
  | pair s l r => pair s l.clean r.clean
  | or s l r (some .left) => or s l.clean r.erase (some .left)
  | or s l r (some .right) => or s l.erase r.clean (some .right)
  | or s l r none => or s l.erase r.erase none
  | n => n

attribute [local simp] clean

lemma erase_clean : n.clean.erase = n.erase := by
  induction n using typeInduction with
  | ticket s inner ih => simp only [clean, erase, ih]
  | option s inner present ih =>
    obtain _ | _ | _ := present <;> simp only [clean, erase, ih, erase_erase]
  | pair s l r ihl ihr => simp only [clean, erase, ihl, ihr]
  | or s l r side ihl ihr =>
    obtain _ | _ | _ := side <;> simp only [clean, erase, ihl, ihr, erase_erase]
  | _ => rfl

@[simp] lemma site_clean : n.clean.site = n.site := site_of_erase erase_clean

@[simp] lemma prim_clean : n.clean.prim = n.prim := by
  rw [← prim_erase, erase_clean, prim_erase]

@[simp] lemma displayName_clean : n.clean.displayName = n.displayName := by
  rw [← displayName_erase, erase_clean, displayName_erase]

@[simp] lemma entryName?_clean : n.clean.entryName? = n.entryName? := by
  rw [← entryName?_erase, erase_clean, entryName?_erase]

@[simp] lemma shape?_clean : n.clean.shape? = n.shape? := by
  rw [← shape?_erase, erase_clean, shape?_erase]

@[simp] lemma blank_clean {kind : String} : n.clean.blank kind = n.blank kind := by simp [blank]

theorem toWire_clean : n.clean.toWire optimized = n.toWire optimized := by
  induction n using typeInduction with
  | ticket s inner ih => simp only [clean, toWire, ih]
  | option s inner present ih =>
    obtain _ | _ | _ := present
    · rfl
    · rfl
    · simp only [clean, toWire, ih]
  | pair s l r ihl ihr => simp only [clean, toWire, ihl, ihr]
  | or s l r side ihl ihr =>
    obtain _ | _ | _ := side
    · rfl
    · simp only [clean, toWire, ihl]
    · simp only [clean, toWire, ihr]
  | _ => rfl

theorem strings_clean : n.clean.strings = n.strings := by
  induction n using typeInduction with
  | ticket s inner ih => simp only [clean, strings, ih]
  | option s inner present ih =>
    obtain _ | _ | _ := present
    · rfl
    · rfl
    · simp only [clean, strings, ih]
  | pair s l r ihl ihr => simp only [clean, strings, ihl, ihr]
  | or s l r side ihl ihr =>
    obtain _ | _ | _ := side
    · rfl
    · simp only [clean, strings, ihl]
    · simp only [clean, strings, ihr]
  | _ => rfl

lemma asFields_clean : n.clean.asFields = n.asFields.map clean := by
  induction n using typeInduction with
  | pair s l r ihl ihr =>
    simp only [clean, asFields, ihl, ihr]
    split <;> simp
  | option s inner present ih => obtain _ | _ | _ := present <;> rfl
  | or s l r side ihl ihr => obtain _ | _ | _ := side <;> rfl
  | _ => rfl

lemma asChosen?_clean : n.clean.asChosen? = n.asChosen?.map clean := by
  induction n using typeInduction with
  | or s l r side ihl ihr =>
    obtain _ | _ | _ := side <;> simp only [clean, asChosen?, ihl, ihr] <;> split <;> rfl
  | option s inner present ih => obtain _ | _ | _ := present <;> rfl
  | _ => rfl

lemma pairFields_clean (h : n.isPair = true) : n.clean.pairFields = n.pairFields.map clean := by
  cases n with
  | pair s l r => simp [pairFields, asFields_clean]
  | _ => cases h

lemma chosenAlternative?_clean (h : n.isOr = true) :
    n.clean.chosenAlternative? = n.chosenAlternative?.map clean := by
  cases n with
  | or s l r side =>
    obtain _ | _ | _ := side
    · rfl
    · exact asChosen?_clean
    · exact asChosen?_clean
  | _ => cases h

/-- A view is made of what the value reaches. -/
theorem render_clean : n.clean.render = n.render := by
  induction n using sizeInduction with
  | step n ih =>
    cases n with
    | scalar | contract | collection | map | bigMap | lambda => rfl
    | ticket s inner =>
      rw [clean, render, render, ih inner (sizeOf_lt_of_mem_typeChildren List.mem_cons_self)]
      rfl
    | option s inner present =>
      obtain _ | _ | _ := present
      · show (option s inner.erase none).render = _
        rw [render, render]
        rfl
      · show (option s inner.erase (some false)).render = _
        rw [render, render]
        rfl
      · rw [clean, render, render, ih inner (sizeOf_lt_of_mem_typeChildren List.mem_cons_self)]
        rfl
    | pair s l r =>
      have hfields : ∀ field ∈ (pair s l r).pairFields,
          (render ∘ clean) field = field.render :=
        fun field hfield => ih field (sizeOf_lt_of_mem_pairFields hfield)
      rw [render_of_isPair rfl, render_of_isPair rfl, pairFields_clean rfl, shape?_clean,
        prim_clean, blank_clean, List.mapM_map, mapM_congr hfields]
    | or s l r side =>
      rw [render_of_isOr (n := (or s l r side).clean) (by rw [← isOr_erase, erase_clean]; rfl),
        render_of_isOr rfl, chosenAlternative?_clean rfl, shape?_clean, prim_clean, blank_clean,
        site_clean]
      cases hchosen : (or s l r side).chosenAlternative? with
      | none => rfl
      | some chosen =>
        have hview : chosen.clean.render = chosen.render :=
          ih chosen (sizeOf_lt_of_chosenAlternative hchosen)
        have hname : chosen.clean.alternativeName = chosen.alternativeName := by
          simp [alternativeName]
        simp only [Option.map_some, hview, hname, entryName?_clean]

/-- Two nodes that are written, shown and searched alike. -/
structure LooksLike (a b : Node) : Prop where
  wire (optimized : Bool) : a.toWire optimized = b.toWire optimized
  render : a.render = b.render
  strings : a.strings = b.strings

lemma looksLike_clean : LooksLike n n.clean where
  wire _ := toWire_clean.symm
  render := render_clean.symm
  strings := strings_clean.symm

/-! ### Big maps with both halves -/

/-- Of the big maps that a value reaches, none holds the half that the value does not give. -/
def Clear : Node → Micheline → Prop
  | ticket _ inner, v => inner.Clear v
  | option _ inner _, v => ∀ a, v.Applies .some [a] → inner.Clear a
  | pair _ l r, v => ∀ first second rest, v.Components (first :: second :: rest) →
    l.Clear first ∧ r.Clear (.behind Constructor.pair.name second rest)
  | or _ l r _, v =>
    (∀ a, v.Applies .left [a] → l.Clear a) ∧ ∀ a, v.Applies .right [a] → r.Clear a
  | bigMap _ _ _ pointer entries, v =>
    (v.int?.isSome → entries = none) ∧ (v.seq?.isSome → pointer = none)
  | _, _ => True

lemma Unbound.clear (h : n.Unbound) (v : Micheline) : n.Clear v := by
  induction n using typeInduction generalizing v with
  | ticket s inner ih => exact ih h v
  | option s inner present ih => exact fun a _ => ih h.1 a
  | pair s l r ihl ihr => exact fun _ _ _ _ => ⟨ihl h.1 _, ihr h.2 _⟩
  | or s l r side ihl ihr => exact ⟨fun a _ => ihl h.1 a, fun a _ => ihr h.2.1 a⟩
  | bigMap => exact ⟨fun _ => h.2.2.2, fun _ => h.2.2.1⟩
  | _ => trivial

/-- With no other half in the way, a value is bound to a used node as to a new one. -/
theorem settle_erase_of_clear (h : n.settle v = .ok used) (hclear : n.Clear v) :
    n.erase.settle v = .ok used.clean := by
  induction n using typeInduction generalizing v used with
  | scalar s type typeArgs value =>
    obtain ⟨hcheck, rfl⟩ := settle_scalar.1 h
    exact settle_scalar.2 ⟨hcheck, rfl⟩
  | contract s parameter value =>
    obtain ⟨hv, rfl⟩ := settle_contract.1 h
    exact settle_contract.2 ⟨hv, rfl⟩
  | lambda s parameter result code =>
    obtain ⟨hv, rfl⟩ := settle_lambda.1 h
    exact settle_lambda.2 ⟨hv, rfl⟩
  | collection s kind elem items =>
    obtain ⟨vs, items', rfl, hitems, rfl⟩ := settle_collection.1 h
    exact settle_collection.2 ⟨vs, items', rfl, hitems, rfl⟩
  | map s key value entries =>
    obtain ⟨elts, entries', rfl, hentries, rfl⟩ := settle_map.1 h
    exact settle_map.2 ⟨elts, entries', rfl, hentries, rfl⟩
  | ticket s inner ih =>
    obtain ⟨inner', hinner, rfl⟩ := settle_ticket.1 h
    exact settle_ticket.2 ⟨_, ih hinner hclear, rfl⟩
  | option s inner present ih =>
    obtain ⟨hv, rfl⟩ | ⟨a, inner', hv, ha, rfl⟩ := settle_option.1 h
    · exact settle_option.2 (.inl ⟨hv, rfl⟩)
    · exact settle_option.2 (.inr ⟨a, _, hv, ih ha (hclear a hv), rfl⟩)
  | pair s l r ihl ihr =>
    obtain ⟨first, second, rest, l', r', hv, hl, hr, rfl⟩ := settle_pair.1 h
    obtain ⟨hcl, hcr⟩ := hclear first second rest hv
    exact settle_pair.2 ⟨first, second, rest, _, _, hv, ihl hl hcl, ihr hr hcr, rfl⟩
  | or s l r side ihl ihr =>
    obtain ⟨a, l', hv, ha, rfl⟩ | ⟨a, r', hv, ha, rfl⟩ := settle_or.1 h
    · exact settle_or.2 (.inl ⟨a, _, hv, ihl ha (hclear.1 a hv), rfl⟩)
    · exact settle_or.2 (.inr ⟨a, _, hv, ihr ha (hclear.2 a hv), rfl⟩)
  | bigMap s key value pointer entries =>
    obtain ⟨literal, p, rfl, hp, rfl⟩ | ⟨elts, entries', rfl, hentries, rfl⟩ := settle_bigMap.1 h
    · obtain rfl : entries = none := hclear.1 rfl
      exact settle_bigMap.2 (.inl ⟨literal, p, rfl, hp, rfl⟩)
    · obtain rfl : pointer = none := hclear.2 rfl
      exact settle_bigMap.2 (.inr ⟨elts, entries', rfl, hentries, rfl⟩)

/-- Another half shows in one of the two encodings. -/
theorem clear_of_toWire (h : n.settle v = .ok used) (hnew : n.erase.settle v = .ok n')
    (hsame : ∀ optimized, ∃ w, n'.toWire optimized = .ok w ∧ used.toWire optimized = .ok w) :
    n.Clear v := by
  induction n using typeInduction generalizing v used n' with
  | scalar | contract | lambda | collection | map => trivial
  | ticket s inner ih =>
    obtain ⟨inner', hinner, rfl⟩ := settle_ticket.1 h
    obtain ⟨new, ha', rfl⟩ := settle_ticket.1 hnew
    exact ih hinner ha' hsame
  | option s inner present ih =>
    intro a hv
    obtain ⟨inner', ha, rfl⟩ := (settle_of_some hv).1 h
    obtain ⟨new, ha', rfl⟩ := (settle_of_some hv).1 hnew
    refine ih ha ha' fun optimized => ?_
    obtain ⟨w, hw, hw'⟩ := hsame optimized
    obtain ⟨x, hx, rfl⟩ := toWire_some_ok.1 hw
    obtain ⟨y, hy, heq⟩ := toWire_some_ok.1 hw'
    cases heq
    exact ⟨x, hx, hy⟩
  | pair s l r ihl ihr =>
    intro first second rest hv
    obtain ⟨l', r', hl, hr, rfl⟩ := (settle_of_components hv).1 h
    obtain ⟨lnew, rnew, hlnew, hrnew, rfl⟩ := (settle_of_components hv).1 hnew
    have hparts : ∀ optimized,
        (∃ x, lnew.toWire optimized = .ok x ∧ l'.toWire optimized = .ok x) ∧
          ∃ x, rnew.toWire optimized = .ok x ∧ r'.toWire optimized = .ok x := by
      intro optimized
      obtain ⟨w, hw, hw'⟩ := hsame optimized
      obtain ⟨x, hx, y, hy, rfl⟩ := toWire_pair_ok.1 hw
      obtain ⟨x', hx', y', hy', heq⟩ := toWire_pair_ok.1 hw'
      cases heq
      exact ⟨⟨x, hx, hx'⟩, ⟨y, hy, hy'⟩⟩
    exact ⟨ihl hl hlnew fun o => (hparts o).1, ihr hr hrnew fun o => (hparts o).2⟩
  | or s l r side ihl ihr =>
    refine ⟨fun a hv => ?_, fun a hv => ?_⟩
    · obtain ⟨l', ha, rfl⟩ := (settle_of_left hv).1 h
      obtain ⟨new, ha', rfl⟩ := (settle_of_left hv).1 hnew
      refine ihl ha ha' fun optimized => ?_
      obtain ⟨w, hw, hw'⟩ := hsame optimized
      obtain ⟨x, hx, rfl⟩ := toWire_left_ok.1 hw
      obtain ⟨y, hy, heq⟩ := toWire_left_ok.1 hw'
      cases heq
      exact ⟨x, hx, hy⟩
    · obtain ⟨r', ha, rfl⟩ := (settle_of_right hv).1 h
      obtain ⟨new, ha', rfl⟩ := (settle_of_right hv).1 hnew
      refine ihr ha ha' fun optimized => ?_
      obtain ⟨w, hw, hw'⟩ := hsame optimized
      obtain ⟨x, hx, rfl⟩ := toWire_right_ok.1 hw
      obtain ⟨y, hy, heq⟩ := toWire_right_ok.1 hw'
      cases heq
      exact ⟨x, hx, hy⟩
  | bigMap s key value pointer entries =>
    obtain ⟨literal, p, rfl, hp, rfl⟩ | ⟨elts, entries', rfl, hentries, rfl⟩ := settle_bigMap.1 h
    · -- old entries are written where the pointer alone should be
      refine ⟨fun _ => ?_, fun hv => by cases hv⟩
      obtain ⟨literal', q, hv, -, rfl⟩ | ⟨elts, entries', hv, -, -⟩ := settle_bigMap.1 hnew
      · obtain ⟨w, hw, hw'⟩ := hsame false
        cases hw
        cases entries with
        | none => rfl
        | some entries => simp [toWire, except_bind_ok, pure, Except.pure] at hw'
      · cases hv
    · -- an old pointer is written instead of the entries
      refine ⟨(fun hv => by cases hv), fun _ => ?_⟩
      obtain ⟨literal, q, hv, -, -⟩ | ⟨elts', entries'', hv, -, rfl⟩ := settle_bigMap.1 hnew
      · cases hv
      · obtain ⟨w, hw, hw'⟩ := hsame true
        cases pointer with
        | none => rfl
        | some p =>
          cases hw'
          simp [toWire, except_bind_ok, pure, Except.pure] at hw

/-! ### Histories -/

/-- The node after values were bound to it one after the other, or were tried in vain. -/
def after (n : Node) (history : List Micheline) : Node :=
  history.foldl (fun n v => (n.bind v).result) n

/-- Binding the first value, be it in full or until it is refused, gives a big map a half that the
second value does not give it. -/
def Mixes : Node → Micheline → Micheline → Prop
  | ticket _ inner, u, v => inner.Mixes u v
  | option _ inner _, u, v =>
    ∃ a b, u.Applies .some [a] ∧ v.Applies .some [b] ∧ inner.Mixes a b
  | pair _ l r, u, v =>
    ∃ a a' as b b' bs, u.Components (a :: a' :: as) ∧ v.Components (b :: b' :: bs) ∧
      (l.Mixes a b ∨ (∃ l', l.settle a = .ok l') ∧
        r.Mixes (.behind Constructor.pair.name a' as) (.behind Constructor.pair.name b' bs))
  | or _ l r _, u, v =>
    (∃ a b, u.Applies .left [a] ∧ v.Applies .left [b] ∧ l.Mixes a b) ∨
      ∃ a b, u.Applies .right [a] ∧ v.Applies .right [b] ∧ r.Mixes a b
  | bigMap s key value pointer entries, u, v =>
    (∃ n', (bigMap s key value pointer entries).settle u = .ok n') ∧
      (u.int?.isSome ∧ v.seq?.isSome ∨ u.seq?.isSome ∧ v.int?.isSome)
  | _, _, _ => False

section History

variable {u : Micheline}

lemma exists_settle_erase :
    (∃ n', n.erase.settle v = .ok n') ↔ ∃ n', n.settle v = .ok n' := by
  rw [exists_settle_iff, exists_settle_iff, failure_bind_erase]

lemma mixes_erase : n.erase.Mixes u v ↔ n.Mixes u v := by
  induction n using typeInduction generalizing u v with
  | ticket s inner ih => exact ih
  | option s inner present ih => simp only [erase, Mixes, ih]
  | pair s l r ihl ihr => simp only [erase, Mixes, ihl, ihr, exists_settle_erase]
  | or s l r side ihl ihr => simp only [erase, Mixes, ihl, ihr]
  | bigMap s key value pointer entries =>
    exact and_congr_left fun _ => exists_settle_erase (n := bigMap s key value pointer entries)
  | _ => exact Iff.rfl

section Halves

variable {key value : Node} {pointer : Option Int} {entries : Option (List (Node × Node))}

lemma mixes_pointer {literal : String}
    (hu : ∃ n', (bigMap s key value pointer entries).settle (.int literal) = .ok n') :
    (bigMap s key value pointer entries).Mixes (.int literal) v ↔ v.seq?.isSome :=
  ⟨fun h => h.2.elim And.right nofun, fun hv => ⟨hu, .inl ⟨rfl, hv⟩⟩⟩

lemma mixes_entries {elts : List Micheline}
    (hu : ∃ n', (bigMap s key value pointer entries).settle (.seq elts) = .ok n') :
    (bigMap s key value pointer entries).Mixes (.seq elts) v ↔ v.int?.isSome :=
  ⟨fun h => h.2.elim nofun And.right, fun hv => ⟨hu, .inr ⟨rfl, hv⟩⟩⟩

end Halves

/-- A binding takes a node that is clear of other halves to such a node, unless it mixes. -/
theorem clear_bind : (n.bind u).result.Clear v ↔ n.Clear v ∧ ¬ n.Mixes u v := by
  induction n using typeInduction generalizing u v with
  | scalar | contract | lambda | collection | map =>
    -- such a node stays what it is, and only big maps have halves
    refine iff_of_true ((fun used hkind => ?_ : ∀ used : Node, used.erase = _ → used.Clear v) _
      (erase_bind _ u)) ⟨trivial, id⟩
    cases used with
    | scalar | contract | lambda | collection | map => trivial
    | _ => cases hkind
  | ticket s inner ih =>
    rw [bind.eq_def]
    exact ih
  | option s inner present ih =>
    obtain ⟨a, present', hu, hbind⟩ | ⟨hu, present', hbind⟩ := result_bind_option (v := u) <;>
      rw [hbind]
    · constructor
      · intro h
        refine ⟨fun b hv => (ih.1 (h b hv)).1, ?_⟩
        rintro ⟨a', b, hu', hv, hmixes⟩
        cases (hu.unique hu').2
        exact (ih.1 (h b hv)).2 hmixes
      · rintro ⟨h, hmixes⟩ b hv
        exact ih.2 ⟨h b hv, fun hb => hmixes ⟨a, b, hu, hv, hb⟩⟩
    · refine (and_iff_left ?_).symm
      rintro ⟨a, b, hu', -, -⟩
      exact hu a hu'
  | pair s l r ihl ihr =>
    obtain ⟨a, a', as, r', hu, hbind, hsecond⟩ | ⟨hu, hbind⟩ := result_bind_pair (v := u) <;>
      rw [hbind]
    · -- the second component mixes only if it was tried
      have hr : ∀ x, r'.Clear x ↔ r.Clear x ∧
          ¬ ((∃ l', l.settle a = .ok l') ∧ r.Mixes (.behind Constructor.pair.name a' as) x) := by
        obtain ⟨hl, rfl⟩ | ⟨hl, rfl⟩ := hsecond
        · exact fun x => by rw [ihr, and_iff_right hl]
        · exact fun x => (and_iff_left fun h => hl h.1).symm
      constructor
      · intro h
        refine ⟨fun b b' bs hv => ?_, ?_⟩
        · obtain ⟨hcl, hcr⟩ := h b b' bs hv
          exact ⟨(ihl.1 hcl).1, ((hr _).1 hcr).1⟩
        · rintro ⟨a₁, a₂, rest, b, b', bs, hu', hv, hmixes⟩
          cases hu.unique hu'
          obtain ⟨hcl, hcr⟩ := h b b' bs hv
          exact hmixes.elim (ihl.1 hcl).2 ((hr _).1 hcr).2
      · rintro ⟨h, hmixes⟩ b b' bs hv
        obtain ⟨hcl, hcr⟩ := h b b' bs hv
        exact ⟨ihl.2 ⟨hcl, fun hb => hmixes ⟨a, a', as, b, b', bs, hu, hv, .inl hb⟩⟩,
          (hr _).2 ⟨hcr, fun hb => hmixes ⟨a, a', as, b, b', bs, hu, hv, .inr hb⟩⟩⟩
    · refine (and_iff_left ?_).symm
      rintro ⟨a, a', as, b, b', bs, hu', -, -⟩
      exact hu a a' as hu'
  | or s l r side ihl ihr =>
    obtain ⟨a, side', hu, hbind⟩ | ⟨a, side', hu, hbind⟩ | ⟨hu, hbind⟩ :=
      result_bind_or (v := u) <;> rw [hbind]
    · constructor
      · rintro ⟨hcl, hcr⟩
        refine ⟨⟨fun b hv => (ihl.1 (hcl b hv)).1, hcr⟩, ?_⟩
        rintro (⟨a', b, hu', hv, hmixes⟩ | ⟨a', b, hu', -, -⟩)
        · cases (hu.unique hu').2
          exact (ihl.1 (hcl b hv)).2 hmixes
        · cases (hu.unique hu').1
      · rintro ⟨⟨hcl, hcr⟩, hmixes⟩
        exact ⟨fun b hv => ihl.2 ⟨hcl b hv, fun hb => hmixes (.inl ⟨a, b, hu, hv, hb⟩)⟩, hcr⟩
    · constructor
      · rintro ⟨hcl, hcr⟩
        refine ⟨⟨hcl, fun b hv => (ihr.1 (hcr b hv)).1⟩, ?_⟩
        rintro (⟨a', b, hu', -, -⟩ | ⟨a', b, hu', hv, hmixes⟩)
        · cases (hu.unique hu').1
        · cases (hu.unique hu').2
          exact (ihr.1 (hcr b hv)).2 hmixes
      · rintro ⟨⟨hcl, hcr⟩, hmixes⟩
        exact ⟨hcl, fun b hv => ihr.2 ⟨hcr b hv, fun hb => hmixes (.inr ⟨a, b, hu, hv, hb⟩)⟩⟩
    · refine (and_iff_left ?_).symm
      rintro (⟨a, b, hu', -, -⟩ | ⟨a, b, hu', -, -⟩)
      · exact (hu a).1 hu'
      · exact (hu a).2 hu'
  | bigMap s key value pointer entries =>
    obtain ⟨n', hn', hbind⟩ | ⟨e, he, hbind⟩ :=
      bind_of_isWhole (n := bigMap s key value pointer entries) (v := u) rfl <;> rw [hbind]
    · have hok := exists_settle_iff.2 (congrArg Attempt.failure hbind)
      obtain ⟨literal, p, rfl, -, rfl⟩ | ⟨elts, entries', rfl, -, rfl⟩ := settle_bigMap.1 hn'
      · rw [mixes_pointer hok]
        simp only [Attempt.done, Clear, reduceCtorEq]
        tauto
      · rw [mixes_entries hok]
        simp only [Attempt.done, Clear, reduceCtorEq]
        tauto
    · refine (and_iff_left ?_).symm
      rintro ⟨⟨n', hn'⟩, -⟩
      rw [he] at hn'
      cases hn'

lemma erase_after {history : List Micheline} : (n.after history).erase = n.erase := by
  induction history generalizing n with
  | nil => rfl
  | cons u history ih =>
    show (after _ history).erase = _
    rw [ih, erase_bind]

/-- The other halves come from the values that mixed, and from where there were some before. -/
theorem clear_after {history : List Micheline} :
    (n.after history).Clear v ↔ n.Clear v ∧ ∀ u ∈ history, ¬ n.Mixes u v := by
  induction history generalizing n with
  | nil => simp [after]
  | cons u history ih =>
    have hmixes : ∀ w, (n.bind u).result.Mixes w v ↔ n.Mixes w v := fun w => by
      rw [← mixes_erase, erase_bind, mixes_erase]
    show (after _ history).Clear v ↔ _
    simp only [ih, clear_bind, hmixes, List.forall_mem_cons, and_assoc]

end History

/-- **What a used node remembers**: whatever was bound to the node of a type or tried in vain, it
takes each value that a new node takes. It is then written, shown and searched like a new one
exactly when no value before gave a big map the half that this one does not give it. -/
theorem looksLike_iff {path : String} {type : Micheline} (history : List Micheline)
    (htype : ofTypeAt path type = .ok n) (h : n.settle v = .ok n') :
    ∃ used, (n.after history).settle v = .ok used ∧
      (LooksLike used n' ↔ ∀ u ∈ history, ¬ n.Mixes u v) := by
  have hn := unbound_ofTypeAt htype
  have hnew : (n.after history).erase.settle v = .ok n' := by rw [erase_after, hn.erase, h]
  obtain ⟨used, hused⟩ := exists_settle_erase.1 ⟨n', hnew⟩
  refine ⟨used, hused, ?_⟩
  rw [← and_iff_right (hn.clear v) (b := ∀ u ∈ history, ¬ n.Mixes u v), ← clear_after]
  constructor
  · intro hlike
    obtain ⟨w, hw⟩ := exists_returns hn h
    exact clear_of_toWire hused hnew fun o => ⟨w, hw.wire o, (hlike.wire o).trans (hw.wire o)⟩
  · intro hclear
    obtain rfl : n' = used.clean :=
      Except.ok.inj (hnew.symm.trans (settle_erase_of_clear hused hclear))
    exact looksLike_clean

/-- A pair of a big map and an option. -/
def account : Micheline :=
  .prim "pair" [.prim "big_map" [.prim "nat" [] [], .prim "nat" [] []] [],
    .prim "option" [.prim "nat" [] []] []] []

def accountEntries : Micheline :=
  .data .pair [.seq [.data .elt [.int "1", .int "2"]], .data .some [.int "3"]]

def accountPointer : Micheline := .data .pair [.int "5", .data .none []]

theorem looksLike_iff_account :
    ∃ n n' used, ofTypeAt "0" account = .ok n ∧ n.settle accountPointer = .ok n' ∧
      (n.after [.data .unit [], accountEntries]).settle accountPointer = .ok used ∧
      (LooksLike used n' ↔
        ∀ u ∈ [.data .unit [], accountEntries], ¬ n.Mixes u accountPointer) := by
  have hrun : (do
      let n ← ofTypeAt "0" account
      let n' ← n.settle accountPointer
      n'.toWire false).toOption = some accountPointer := by decide +kernel
  obtain ⟨n, htype, hrun⟩ := except_bind_ok.1 (except_ok_of_toOption hrun)
  obtain ⟨n', hn', -⟩ := except_bind_ok.1 hrun
  obtain ⟨used, hused, hiff⟩ := looksLike_iff [.data .unit [], accountEntries] htype hn'
  exact ⟨n, n', used, htype, hn', hused, hiff⟩

/-- A used node may be written differently from a new one: the pointer is not written for itself as
long as there are the entries of the value before. -/
theorem not_looksLike_account :
    ¬ ∀ (type v : Micheline) (history : List Micheline) (n n' : Node), ofType type = .ok n →
      (∀ u ∈ history, ∃ m, n.settle u = .ok m) → n.settle v = .ok n' →
      ∃ used, (n.after history).settle v = .ok used ∧ LooksLike used n' := by
  intro hclaim
  have hnew : (do
      let n ← ofType account
      let n' ← n.settle accountPointer
      let m ← n.settle accountEntries
      return (← n'.toWire false, ← m.toWire false)).toOption =
        some (accountPointer, accountEntries) := by decide +kernel
  have hold : (do
      let n ← ofType account
      let used ← (n.after [accountEntries]).settle accountPointer
      used.toWire false).toOption = some (.data .pair [.seq [.data .elt [.int "1", .int "2"]],
        .data .none []]) := by decide +kernel
  obtain ⟨n, htype, hnew⟩ := except_bind_ok.1 (except_ok_of_toOption hnew)
  obtain ⟨n', hn', hnew⟩ := except_bind_ok.1 hnew
  obtain ⟨m, hm, hnew⟩ := except_bind_ok.1 hnew
  obtain ⟨wire, hwire, hnew⟩ := except_bind_ok.1 hnew
  obtain ⟨_, -, hnew⟩ := except_bind_ok.1 hnew
  obtain ⟨rfl, -⟩ := Prod.mk.inj (Except.ok.inj hnew)
  obtain ⟨used, hused, hlike⟩ := hclaim account accountPointer [accountEntries] n n' htype
    (by simpa using ⟨m, hm⟩) hn'
  obtain ⟨n₁, htype₁, hold⟩ := except_bind_ok.1 (except_ok_of_toOption hold)
  cases htype.symm.trans htype₁
  obtain ⟨used₁, hused₁, hold⟩ := except_bind_ok.1 hold
  cases hused.symm.trans hused₁
  rw [hlike.wire, hwire] at hold
  cases hold

end Lineage.Node
