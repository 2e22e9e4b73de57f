import Lineage.Proofs.BigMap.Group
import Lineage.Proofs.BigMap.Replay

/-!
# The audit trail

A temporary pointer is copied from a pointer, this one perhaps from another, and so on up to a final
pointer or to a new big map. Whoever follows a group copy by copy knows the chain of each pointer as
soon as it is made (`ancestors`), and so knows which actions a log must come to (`deeds`). The
resolver does not take such notes: it asks for the chain only when something is copied to a final
pointer, and then walks the links that are there. `actions_resolve` says that this comes to the same
as long as no pointer is allocated or copied to after its use.

The invariant is `Traced`: a link leads one step up the chain. An entry cannot break it for another
pointer than its destination, since a destination that is not used before occurs in no chain.
-/

namespace Lineage

/-! ### Chains of copies -/

/-- The ancestors of temporary pointers after an entry: a copy is preceded by its source. Chains end
at final pointers, which therefore have no ancestors of their own. -/
def LogEntry.descend (ancestors : Int → List Int) : LogEntry → Int → List Int
  | alloc p _ _ => Function.update ancestors p []
  | copy s d => Function.update ancestors d (if 0 ≤ d then [] else s :: ancestors s)
  | update _ _ _ _ => ancestors
  | remove _ => ancestors

/-- The pointers that a temporary pointer was copied from, the nearest first. -/
def ancestors (history : List LogEntry) : Int → List Int :=
  history.foldl LogEntry.descend fun _ => []

/-- The final pointer itself, or the nearest final pointer among the ancestors of a temporary one;
none if the chain begins with a new big map. -/
def origin? (history : List LogEntry) (p : Int) : Option Int :=
  (p :: ancestors history p).find? (0 ≤ ·)

/-! ### Deeds -/

/-- What an action says of big maps. -/
structure Deed where
  kind : ActionKind
  source : Option Int
  destination : Option Int
  deriving DecidableEq

def Action.deed (a : Action) : Deed := ⟨a.kind, a.source, a.destination⟩

/-- What an entry does to a final pointer as a whole. -/
def LogEntry.deed? (history : List LogEntry) : LogEntry → Option Deed
  | alloc p _ _ => if 0 ≤ p then some ⟨.alloc, none, some p⟩ else none
  | copy s d => if 0 ≤ d then some ⟨.copy, origin? history s, some d⟩ else none
  | remove p => if 0 ≤ p then some ⟨.remove, some p, none⟩ else none
  | update _ _ _ _ => none

/-- What the entries of a log do to final pointers as a whole, after a history. -/
def deeds (history : List LogEntry) : List LogEntry → List Deed
  | [] => []
  | e :: log => (e.deed? history).toList ++ deeds (history ++ [e]) log

section Ancestors

variable {history log : List LogEntry} {e : LogEntry} {p s d : Int}

lemma ancestors_concat (history : List LogEntry) (e : LogEntry) :
    ancestors (history ++ [e]) = e.descend (ancestors history) := by
  unfold ancestors
  rw [List.foldl_append]
  rfl

lemma ancestors_concat_of_ne (hp : e.destination? ≠ some p) :
    ancestors (history ++ [e]) p = ancestors history p := by
  rw [ancestors_concat]
  cases e with
  | alloc d _ _ | copy _ d =>
    refine Function.update_of_ne (fun hpd => hp ?_) _ _
    rw [hpd]
    rfl
  | update _ _ _ _ | remove _ => rfl

lemma origin?_of_final (hp : 0 ≤ p) : origin? history p = some p := by
  unfold origin?
  rw [List.find?_cons_of_pos (by simpa using hp)]

lemma origin?_of_neg (hp : p < 0) :
    origin? history p = (ancestors history p).find? (0 ≤ ·) := by
  unfold origin?
  rw [List.find?_cons_of_neg (by simpa using hp)]

end Ancestors

namespace Resolver

open Function Resolve

variable {live : LiveRecords} {settings : Settings} {ctx : Context} {a : Arena}
  {r r' : Resolver} {out : Resolution} {calls : List Call} {earlier log : List LogEntry}
  {e : LogEntry} {p q s d start : Int} {n : Nat}

lemma fresh_of_append (hf : FreshDestinations (earlier ++ e :: log)) :
    ∀ d ∈ e.destination?, d ∉ earlier.flatMap LogEntry.pointers := by
  intro d hd hused
  obtain ⟨f, hf', hdf⟩ := List.mem_flatMap.1 hused
  exact (List.pairwise_append.1 hf).2.2 f hf' e List.mem_cons_self d hd hdf

lemma fresh_left (hf : FreshDestinations (earlier ++ log)) : FreshDestinations earlier :=
  (List.pairwise_append.1 hf).1

/-! ### The links of a chain -/

/-- **What the links say of a history**: the source of a temporary pointer is the first of its
ancestors, and the others are the ancestors of the source. -/
structure Traced (earlier : List LogEntry) (a : Arena) : Prop where
  tidy : Tidy (earlier.flatMap LogEntry.pointers) a
  records {p : Int} (hp : p ∉ earlier.flatMap LogEntry.pointers) : a.records? p = none
  chain {p : Int} (hp : p < 0) {source : Option Int}
    (hl : (a.link? p).map Link.source = some source) :
    ancestors earlier p = source.elim [] fun s => s :: ancestors earlier s

lemma traced_start : Traced [] Resolver.start.arena where
  tidy := tidy_start
  records _ := rfl
  chain _ _ hl := by cases hl

lemma Tidy.keepPath {used : List Int} (ht : Tidy used a) (p : Int) (path : Option String) :
    Tidy used (a.keepPath p path) where
  wf := ht.wf.keepPath p path
  closed q s hs := by
    rw [Arena.source_keepPath p ht.wf] at hs
    exact ht.closed q s hs
  link {q} hq := by
    have hmap := Arena.link?_keepPath p ht.wf path q
    rw [ht.link hq, Option.map_none, Option.map_eq_none_iff] at hmap
    exact hmap
  pending hq := by
    rw [Arena.pending_keepPath ht.wf]
    exact ht.pending hq

lemma Traced.keepPath (ht : Traced earlier a) (p : Int) (path : Option String) :
    Traced earlier (a.keepPath p path) where
  tidy := ht.tidy.keepPath p path
  records hq := by
    rw [Arena.records?_keepPath p ht.tidy.wf]
    exact ht.records hq
  chain hq source hl := by
    rw [Arena.source_keepPath p ht.tidy.wf] at hl
    exact ht.chain hq hl

/-- A pointer is not copied to itself while it is temporary and not used before. -/
lemma Traced.source_ne (ht : Traced earlier r.arena)
    (hd : d ∉ earlier.flatMap LogEntry.pointers) (hneg : d < 0)
    (h : (copy live settings ctx s d).exec r = (.ok out, r')) : s ≠ d := by
  rintro rfl
  obtain ⟨actions, rows, link, -, hrows, -, -, -⟩ := copy_ok h
  obtain ⟨held, hheld, -⟩ := liveRecords_ok.1 hrows
  unfold Persisted at hheld
  rw [if_neg (Int.not_le.2 hneg), ht.records hd] at hheld
  cases hheld.2

/-- **One entry** that succeeds keeps the links in accord with the history, if its destination is
not used before. -/
theorem Traced.entry (ht : Traced earlier r.arena)
    (hd : ∀ d ∈ e.destination?, d ∉ earlier.flatMap LogEntry.pointers)
    (h : (Resolver.entry live settings ctx e).exec r = (.ok out, r')) :
    Traced (earlier ++ [e]) r'.arena where
  tidy := by
    refine (ht.tidy.entry h).mono fun p hp => ?_
    simp only [List.flatMap_append, List.flatMap_cons, List.flatMap_nil, List.mem_append] at hp ⊢
    tauto
  records {p} hp := by
    simp only [List.flatMap_append, List.flatMap_cons, List.flatMap_nil, List.append_nil,
      List.mem_append, not_or] at hp
    have htarget : p ≠ e.target := by
      rintro rfl
      exact hp.2 e.target_mem_pointers
    have hslot := slot?_entry ht.tidy.wf h htarget
    unfold Arena.records?
    rw [hslot]
    exact ht.records hp.1
  chain {p} hp source hl := by
    -- a source is used before, so the destination is none and its ancestors are the same
    have hsource : ∀ q s, (r.arena.link? q).map Link.source = some (some s) →
        ancestors (earlier ++ [e]) s = ancestors earlier s := by
      intro q s hs
      exact ancestors_concat_of_ne fun hdest => hd s hdest (ht.tidy.closed q s hs)
    by_cases hdest : e.destination? = some p
    · cases e with
      | alloc d keyType valueType =>
        cases hdest
        obtain ⟨key, value, -, -, -, rfl⟩ := alloc_ok h
        rw [Arena.link?_openAt p _ ht.tidy.wf, update_self] at hl
        cases hl
        rw [ancestors_concat]
        exact update_self _ _ _
      | update x key keyHash value => cases hdest
      | copy s d =>
        cases hdest
        have hsp := ht.source_ne (hd p rfl) hp h
        obtain ⟨actions, rows, link, -, -, hlink, -, rfl⟩ := copy_ok h
        rw [link?_copied ht.tidy.wf, update_self, copyLink_ok hlink] at hl
        cases hl
        have hs : ancestors (earlier ++ [.copy s p]) s = ancestors earlier s :=
          ancestors_concat_of_ne fun hps => hsp (Option.some.inj hps).symm
        rw [Option.elim_some, hs, ancestors_concat]
        show Function.update _ p _ p = _
        rw [update_self, if_neg (Int.not_le.2 hp)]
      | remove x => cases hdest
    · have hsame := sameTypes_of_ne ht.tidy.wf hdest h
      rw [hsame.source List.mem_cons_self] at hl
      rw [ancestors_concat_of_ne hdest, ht.chain hp hl]
      cases source with
      | none => rfl
      | some s => exact congrArg (s :: ·) (hsource p s hl).symm

lemma Traced.final?_of_isHome (ht : Traced earlier a) (h : IsHome a p) :
    final? p = origin? earlier p := by
  by_cases hp : 0 ≤ p
  · rw [origin?_of_final hp]
    exact if_pos hp
  · have hneg := Int.not_le.1 hp
    rw [origin?_of_neg hneg, ht.chain hneg (h.resolve_left hp)]
    exact if_neg hp

/-- A walk along the links ends where the history says. -/
theorem Traced.final?_followLinks (ht : Traced earlier a)
    (h : followLinks a start n p = .ok q) : final? q = origin? earlier p := by
  induction n generalizing p with
  | zero =>
    obtain ⟨hhome, rfl⟩ | ⟨s, m, -, -, hn, -⟩ := followLinks_cases h
    · exact ht.final?_of_isHome hhome
    · cases hn
  | succ n ih =>
    obtain ⟨hhome, rfl⟩ | ⟨s, m, hneg, hs, hn, hq⟩ := followLinks_cases h
    · exact ht.final?_of_isHome hhome
    · cases hn
      rw [ih hq, origin?_of_neg hneg, ht.chain hneg hs]
      rfl

/-! ### The actions of entries -/

/-- An entry comes to the action that the history tells, or to none. -/
theorem Traced.deed_entry (ht : Traced earlier r.arena)
    (h : (Resolver.entry live settings ctx e).exec r = (.ok out, r')) :
    out.actions.map Action.deed = (e.deed? earlier).toList := by
  cases e with
  | alloc p keyType valueType =>
    obtain ⟨key, value, -, -, rfl, -⟩ := alloc_ok h
    by_cases hp : 0 ≤ p <;> simp [LogEntry.deed?, hp, Action.deed, actionOf]
  | update p key keyHash value =>
    obtain ⟨q, types, entry, -, -, -, rfl, -⟩ := update_ok ht.tidy.wf h
    unfold kept
    split <;> rfl
  | copy s d =>
    obtain ⟨actions, rows, link, hactions, -, -, rfl, -⟩ := copy_ok h
    unfold CopyActions at hactions
    by_cases hd : 0 ≤ d
    · rw [if_pos hd] at hactions
      obtain ⟨q, hq, rfl⟩ := hactions
      have horigin := ht.final?_followLinks hq
      simp [LogEntry.deed?, hd, Action.deed, actionOf, horigin]
    · rw [if_neg hd] at hactions
      simp [LogEntry.deed?, hd, hactions]
  | remove p =>
    by_cases hp : p < 0
    · cases (remove_of_neg hp).symm.trans h
      simp [LogEntry.deed?, Int.not_le.2 hp, Resolution.empty]
    · have hp' := Int.not_lt.1 hp
      obtain ⟨rows, -, rfl, -⟩ := remove_ok hp' h
      simp [LogEntry.deed?, hp', Action.deed, actionOf]

theorem Traced.deeds_log (ht : Traced earlier r.arena)
    (hf : FreshDestinations (earlier ++ log))
    (h : (forEach (Resolver.entry live settings ctx) log).exec r = (.ok out, r')) :
    out.actions.map Action.deed = deeds earlier log := by
  induction log generalizing r out earlier with
  | nil =>
    obtain ⟨rfl, -⟩ := forEach_nil_ok.1 h
    rfl
  | cons e log ih =>
    obtain ⟨o₁, r₁, o₂, h₁, h₂, rfl⟩ := forEach_cons_ok.1 h
    have ht₁ := ht.entry (fresh_of_append hf) h₁
    rw [Resolution.actions_append, List.map_append, ht.deed_entry h₁, deeds]
    rw [ih ht₁ (by rwa [List.append_assoc]) h₂]

/-! ### Groups -/

/-- The links stay in accord with a history in which no destination is used before. -/
theorem keeps_traced :
    Keeps (fun earlier r => FreshDestinations earlier → Traced earlier r.arena) live settings
      ctx where
  ok hr he hf := (hr (fresh_left hf)).entry (fresh_of_append hf) he
  error hr he hf := by
    obtain ⟨q, path, ha⟩ := entry_error he
    rw [ha]
    exact (hr hf).keepPath q path

theorem traced_effects (settings : Settings) (hf : FreshDestinations (effects settings calls)) :
    Traced (effects settings calls) (resolveAll settings calls).arena :=
  effects_keep (P := fun earlier r => FreshDestinations earlier → Traced earlier r.arena)
    (fun _ => traced_start) (fun _ _ => keeps_traced) hf

/-- **The audit trail**: after any calls of a group, in any contexts, a log that succeeds comes to
just the actions that the history tells, in the order of the log, if no entry that took effect and
none of the log allocates or copies to a pointer used before. -/
theorem actions_resolve (hfresh : FreshDestinations (effects settings calls ++ log))
    (h : (resolve live settings ctx log).exec (resolveAll settings calls) = (.ok out, r')) :
    out.actions.map Action.deed = deeds (effects settings calls) log :=
  (traced_effects settings (fresh_left hfresh)).deeds_log hfresh h

/-- Two calls, of which the second fails at its last entry: a new big map, and copies of copies of
the pointer 7. -/
def copiesOfSeven : List Call :=
  [⟨Store.repository.live storeOfSeven, twoBigMapsContext [(7, "0/0")] Conformance.address,
    [.alloc (-1) (.prim "string" [] []) (.prim "nat" [] []), .copy 7 (-2),
      .update (-2) (.bytes "00") "exprB" (some (.int "2")), .copy (-2) (-3)]⟩,
    ⟨Store.repository.live storeOfSeven, twoBigMapsContext [(7, "0/0")] Conformance.address,
    [.copy (-3) (-4), .update (-4) (.bytes "00") "exprB" (some (.string "x"))]⟩]

theorem actions_resolve_copiesOfSeven :
    let ctx := twoBigMapsContext [(7, "0/0")] Conformance.address
    let log := [.copy (-4) 5, .copy (-1) 6, .remove (-1), .remove 7]
    ∃ out r', FreshDestinations (effects .default copiesOfSeven ++ log) ∧
      (resolve (Store.repository.live storeOfSeven) .default ctx log).exec
        (resolveAll .default copiesOfSeven) = (.ok out, r') ∧
      out.actions.map Action.deed = deeds (effects .default copiesOfSeven) log ∧
      deeds (effects .default copiesOfSeven) log =
        [⟨.copy, some 7, some 5⟩, ⟨.copy, none, some 6⟩, ⟨.remove, some 7, none⟩] := by
  intro ctx log
  have hfresh : FreshDestinations (effects .default copiesOfSeven ++ log) := by decide +kernel
  have hrun : ((resolve (Store.repository.live storeOfSeven) .default ctx log).exec
      (resolveAll .default copiesOfSeven)).1.toOption.map (·.diffs.length) = some 3 := by
    decide +kernel
  obtain ⟨out, hout, -⟩ := fst_ok_of_toOption_map hrun
  exact ⟨out, _, hfresh, hout, actions_resolve hfresh hout, by decide +kernel⟩

end Resolver

end Lineage
