import Lineage.Proofs.BigMap.Links
import Lineage.Proofs.BigMap.LiveRecords
import Lineage.Proofs.BigMap.Schemas
import Lineage.Proofs.Typed.Entries

/-!
# Replaying logs

On big maps as plain maps a log is easily understood: an allocation and a removal leave no keys, an
update sets or deletes one key, and a copy makes one big map equal to another (`LogEntry.replay`).
The logs of one context come to just that: after they are resolved and what they come to is
committed, the live records of a big map are those that the replay says (`of_live_commit_resolve`).
The replay enters keys and values as they are written in their types (`Node.normal`), and so does
the resolver keep them (`normalize_ok`).

While the logs are resolved, what the store has of a pointer together with what the pointer was
given since has the contents of the replay (`Replayed`), and the records brought out so far are
those that the final pointers were given. The types of a pointer do not change once it is used, so
that the replay can take them from the last state (`replayed_log`). If only final pointers are in
the storage, it can tell them by itself (`replayedTyped_log`).
-/

namespace Lineage

open Function

abbrev BigMaps := Int → Contents

/-- The key and the value of an update, as they are written in their types; none if the key is to be
deleted. -/
def entered? (types : Node × Node) (key : Micheline) (value : Option Micheline) :
    Option (Micheline × Micheline) := do
  let value ← (types.2.normal (← value)).toOption
  let key ← (types.1.normal key).toOption
  return (key, value)

namespace LogEntry

/-- What an entry does to big maps whose keys and values have the types of a schema. -/
def replay (schema : Schemas) (maps : BigMaps) : LogEntry → BigMaps
  | alloc p _ _ => Function.update maps p .empty
  | update p key keyHash value =>
    Function.update maps p
      (Function.update (maps p) keyHash ((schema p).bind (entered? · key value)))
  | copy s d => Function.update maps d (maps s)
  | remove p => Function.update maps p .empty

def replayTyped (ctx : Context) (state : Schemas × BigMaps) (e : LogEntry) : Schemas × BigMaps :=
  (e.assign ctx state.1, e.replay state.1 state.2)

end LogEntry

namespace Resolver

open Resolve

/-! ### Series of records -/

section Series

variable {n : Nat} {rows : List Diff}

lemma foldl_copiesOf (ctx : Context) (p : Int) (path : String) (m : Contents) :
    (copiesOf ctx p path n rows).foldl Contents.record m = rows.foldl Contents.record m := by
  unfold copiesOf
  induction rows generalizing n m with
  | nil => rfl
  | cons row rows ih =>
    rw [numbered_cons, List.foldl_cons, List.foldl_cons, ih]
    rfl

lemma foldl_deletionsOf (ctx : Context) (p : Int) (m : Contents) (k : String) :
    (deletionsOf ctx p n rows).foldl Contents.record m k =
      if k ∈ rows.map Diff.keyHash then none else m k := by
  unfold deletionsOf
  induction rows generalizing n m with
  | nil => rfl
  | cons row rows ih =>
    have hrow : ∀ id, Contents.record m (ctx.deleted row id) = Function.update m row.keyHash none :=
      fun _ => rfl
    rw [numbered_cons, List.foldl_cons, ih, hrow, List.map_cons]
    by_cases hk : k = row.keyHash
    · subst hk
      simp
    · simp [hk]

lemma kept_diffs (d : Diff) : (kept d).diffs = if 0 ≤ d.pointer then [d] else [] := by
  unfold kept
  split <;> rfl

end Series

variable {s s' : Store} {settings : Settings} {ctx : Context} {r r' : Resolver}
  {out : Resolution} {old : List Diff} {maps : BigMaps} {used : List Int}

/-- What a store has of a pointer: of a temporary one nothing. -/
def stored (s : Store) (ctx : Context) (p : Int) : List Diff :=
  if 0 ≤ p then s.live (ctx.place p) else []

lemma liveRecords_store {a : Arena} {p : Int} {rows : List Diff}
    (h : liveRecords (Store.repository.live s) ctx a p = .ok rows) :
    rows = overlaid (stored s ctx p ++ a.pending p) := by
  obtain ⟨held, hheld, rfl⟩ := liveRecords_ok.1 h
  unfold Persisted at hheld
  unfold stored
  by_cases hp : 0 ≤ p
  · rw [if_pos hp] at hheld ⊢
    cases hheld
    rfl
  · rw [if_neg hp] at hheld ⊢
    rw [hheld.1]

lemma mem_live {place : Place} {d : Diff} (h : d ∈ s.live place) : Store.isAbout place d := by
  have hlast := (replaces_supersede.mem_live.1 h).1.mem
  unfold Store.history Store.byLevel at hlast
  rw [List.mem_mergeSort] at hlast
  exact (List.mem_filter.1 hlast).2

/-! ### The invariant -/

/-- The record is one of a context at a pointer. -/
structure Belongs (ctx : Context) (p : Int) (d : Diff) : Prop where
  pointer : d.pointer = p
  address : d.address = ctx.address
  provenance : d.provenance = ctx.provenance

/-- **The state of a replay**: what the store has of a pointer and what the pointer was given since
have the contents of the replay, and of what was given to pointers the final ones have it all. -/
structure Replayed (s : Store) (ctx : Context) (out : List Diff) (a : Arena) (maps : BigMaps) :
    Prop where
  contents (p : Int) : Contents.of (stored s ctx p ++ a.pending p) = maps p
  belongs {p : Int} {d : Diff} (hd : d ∈ a.pending p) : Belongs ctx p d
  final {d : Diff} (hd : d ∈ out) : 0 ≤ d.pointer
  filter {p : Int} (hp : 0 ≤ p) : out.filter (·.pointer = p) = a.pending p

lemma replayed_start : Replayed s ctx [] Resolver.start.arena (fun p => .of (stored s ctx p)) where
  contents p := by
    show Contents.of (_ ++ []) = _
    rw [List.append_nil]
  belongs h := by cases h
  final h := by cases h
  filter _ := rfl

section Step

variable {a b : Arena} {p : Int}

lemma Replayed.maps_of_unused (h : Replayed s ctx old a maps) (ht : Tidy used a) (hp : p ∉ used)
    (hs : stored s ctx p = []) : maps p = .empty := by
  rw [← h.contents p, hs, ht.pending hp]
  rfl

/-- Records that are given to a pointer, and brought out if it is final, change the contents of this
pointer. -/
lemma Replayed.push {new : List Diff} (h : Replayed s ctx old a maps)
    (hb : b.pending = Function.update a.pending p (a.pending p ++ new))
    (hnew : ∀ d ∈ new, Belongs ctx p d) :
    Replayed s ctx (old ++ if 0 ≤ p then new else []) b
      (Function.update maps p (new.foldl Contents.record (maps p))) where
  contents q := by
    rw [hb]
    by_cases hq : q = p
    · subst hq
      rw [update_self, update_self, ← List.append_assoc, Contents.of_append, h.contents]
    · rw [update_of_ne hq, update_of_ne hq, h.contents]
  belongs {q d} hd := by
    rw [hb] at hd
    by_cases hq : q = p
    · subst hq
      rw [update_self] at hd
      exact (List.mem_append.1 hd).elim h.belongs (hnew d)
    · rw [update_of_ne hq] at hd
      exact h.belongs hd
  final {d} hd := by
    rcases List.mem_append.1 hd with hd | hd
    · exact h.final hd
    · split at hd
      · next hp => exact (hnew d hd).pointer ▸ hp
      · cases hd
  filter {q} hq := by
    rw [hb, List.filter_append, h.filter hq]
    by_cases hqp : q = p
    · subst hqp
      rw [if_pos hq, update_self,
        List.filter_eq_self.2 fun d hd => decide_eq_true (hnew d hd).pointer]
    · have hnil : (if 0 ≤ p then new else []).filter (·.pointer = q) = [] := by
        refine List.filter_eq_nil_iff.2 fun d hd => ?_
        split at hd
        · simpa [(hnew d hd).pointer] using Ne.symm hqp
        · cases hd
      rw [update_of_ne hqp, hnil, List.append_nil]

lemma Replayed.of_mem_live (h : Replayed s ctx old a maps) {d : Diff}
    (hd : d ∈ overlaid (stored s ctx p ++ a.pending p)) :
    d.pointer = p ∧ d.address = ctx.address := by
  rcases List.mem_append.1 (mem_overlaid.1 hd).1.mem with hd | hd
  · unfold stored at hd
    split at hd
    · have habout := mem_live hd
      simp only [Store.isAbout, Context.place, Bool.and_eq_true, beq_iff_eq] at habout
      exact habout.1
    · cases hd
  · exact ⟨(h.belongs hd).pointer, (h.belongs hd).address⟩

lemma Replayed.empty (h : Replayed s ctx old a maps) (hp : stored s ctx p = [])
    (hout : 0 ≤ p → a.pending p = []) (hb : b.pending = Function.update a.pending p []) :
    Replayed s ctx old b (Function.update maps p .empty) where
  contents q := by
    rw [hb]
    by_cases hq : q = p
    · subst hq
      rw [update_self, update_self, hp]
      rfl
    · rw [update_of_ne hq, update_of_ne hq, h.contents]
  belongs {q d} hd := by
    rw [hb] at hd
    by_cases hq : q = p
    · subst hq
      rw [update_self] at hd
      cases hd
    · rw [update_of_ne hq] at hd
      exact h.belongs hd
  final := h.final
  filter {q} hq := by
    rw [hb, h.filter hq]
    by_cases hqp : q = p
    · subst hqp
      rw [update_self, hout hq]
    · rw [update_of_ne hqp]

end Step

/-! ### Entries -/

section Entry

variable {e : LogEntry} {schema : Schemas}

/-- **The resolver keeps values as they are written in their types.** It fails besides if the texts
in the value cannot be read. -/
lemma normalize_ok {type : Node} {value wire : Micheline} {texts : List String} :
    normalize type value = .ok (wire, texts) ↔
      type.normal value = .ok wire ∧ (type.settle value).bind Node.strings = .ok texts := by
  unfold normalize Node.normal
  cases type.settle value with
  | error e => simp [bind, Except.bind]
  | ok n => simp [except_bind_ok, Except.bind, pure, Except.pure]

lemma entered?_of_ok {types : Node × Node} {key : Micheline} {value : Option Micheline}
    {entry : Normalized} (h : normalizeEntry types key value = .ok entry) :
    entry.value.map (entry.key, ·) = entered? types key value := by
  unfold normalizeEntry at h
  obtain ⟨⟨k, keyTexts⟩, hk, h⟩ := except_bind_ok.1 h
  have hkey := (normalize_ok.1 hk).1
  cases value with
  | none =>
    cases h
    rfl
  | some value =>
    obtain ⟨⟨v, valueTexts⟩, hv, h⟩ := except_bind_ok.1 h
    have hvalue := (normalize_ok.1 hv).1
    cases h
    simp [entered?, hkey, hvalue, Except.toOption]

lemma Replayed.update {p : Int} {key : Micheline} {keyHash : String} {value : Option Micheline}
    (hr : Replayed s ctx old r.arena maps) (ht : Tidy used r.arena)
    (hschema : ∀ types, schemaOf settings ctx r.arena p = .ok types → schema p = some types)
    (h : (entry (Store.repository.live s) settings ctx (.update p key keyHash value)).exec r =
      (.ok out, r')) :
    Replayed s ctx (old ++ out.diffs) r'.arena
      ((LogEntry.update p key keyHash value).replay schema maps) := by
  obtain ⟨q, types, entry, hq, htypes, hentry, rfl, rfl⟩ := update_ok ht.wf h
  have hp : schema p = some types := by
    refine hschema types ?_
    unfold schemaOf
    rw [hq]
    exact htypes
  let record := updateOf ctx p (pathOf? ctx r.arena q) keyHash entry (r.ordinal + 1)
  have hout : (kept record).diffs = if 0 ≤ p then [record] else [] := kept_diffs record
  have hmap : [record].foldl Contents.record (maps p) =
      Function.update (maps p) keyHash ((schema p).bind (entered? · key value)) := by
    rw [hp, Option.bind_some, ← entered?_of_ok hentry]
    rfl
  show Replayed s ctx (old ++ (kept record).diffs) ((r.arena.keepPath p _).push p record)
    (Function.update maps p _)
  rw [hout, ← hmap]
  refine hr.push ?_ fun d hd => ?_
  · rw [Arena.pending_push (ht.wf.keepPath p _), Arena.pending_keepPath ht.wf]
  · rw [List.mem_singleton.1 hd]
    exact ⟨rfl, rfl, rfl⟩

lemma Replayed.alloc {p : Int} {keyType valueType : Micheline}
    (hr : Replayed s ctx old r.arena maps) (ht : Tidy used r.arena) (hp : p ∉ used)
    (hs : stored s ctx p = [])
    (h : (entry (Store.repository.live s) settings ctx (.alloc p keyType valueType)).exec r =
      (.ok out, r')) :
    Replayed s ctx (old ++ out.diffs) r'.arena
      ((LogEntry.alloc p keyType valueType).replay schema maps) := by
  obtain ⟨key, value, -, -, rfl, rfl⟩ := alloc_ok h
  show Replayed s ctx (old ++ []) (r.arena.openAt p _) (Function.update maps p .empty)
  rw [List.append_nil]
  exact hr.empty hs (fun _ => ht.pending hp) (Arena.pending_openAt ht.wf p _)

lemma Replayed.copy {p q : Int} (hr : Replayed s ctx old r.arena maps) (ht : Tidy used r.arena)
    (hq : q ∉ used) (hs : stored s ctx q = [])
    (h : (entry (Store.repository.live s) settings ctx (.copy p q)).exec r = (.ok out, r')) :
    Replayed s ctx (old ++ out.diffs) r'.arena ((LogEntry.copy p q).replay schema maps) := by
  obtain ⟨actions, rows, link, -, hrows, -, rfl, rfl⟩ := copy_ok h
  let path := (pathOf? ctx ((r.arena.setLink q link).touch q) q).getD ""
  let copies := copiesOf ctx q path (r.ordinal + actions.length) rows
  have hmap : copies.foldl Contents.record (maps q) = maps p := by
    rw [foldl_copiesOf, hr.maps_of_unused ht hq hs, ← hr.contents p,
      ← of_overlaid, ← liveRecords_store hrows]
    rfl
  show Replayed s ctx (old ++ if 0 ≤ q then copies else [])
    (((r.arena.setLink q link).touch q).pushAll q copies) (Function.update maps q (maps p))
  rw [← hmap]
  refine hr.push (pending_copied ht.wf) fun d hd => ?_
  obtain ⟨row, -, i, rfl⟩ := mem_numbered hd
  exact ⟨rfl, rfl, rfl⟩

lemma Replayed.remove {p : Int} (hr : Replayed s ctx old r.arena maps) (ht : Tidy used r.arena)
    (h : (entry (Store.repository.live s) settings ctx (.remove p)).exec r = (.ok out, r')) :
    Replayed s ctx (old ++ out.diffs) r'.arena ((LogEntry.remove p).replay schema maps) := by
  by_cases hp : p < 0
  · cases (remove_of_neg hp).symm.trans h
    show Replayed s ctx (old ++ []) (r.arena.discard p) (Function.update maps p .empty)
    rw [List.append_nil]
    exact hr.empty (if_neg (Int.not_le.2 hp)) (fun hp' => absurd hp (Int.not_lt.2 hp'))
      (Arena.pending_discard ht.wf p)
  · have hp' := Int.not_lt.1 hp
    obtain ⟨rows, hrows, rfl, rfl⟩ := remove_ok hp' h
    let deletions := deletionsOf ctx p r.ordinal rows
    have hrows' := liveRecords_store hrows
    have hmap : deletions.foldl Contents.record (maps p) = .empty := by
      funext k
      rw [foldl_deletionsOf]
      split
      · rfl
      · next hk =>
        rw [← hr.contents p, ← of_overlaid, ← hrows']
        refine Option.eq_none_iff_forall_ne_some.2 fun e he => ?_
        obtain ⟨d, hd, rfl, -⟩ := Contents.of_eq_some_iff.1 he
        exact hk (List.mem_map_of_mem hd.mem)
    have hbelongs : ∀ d ∈ deletions, Belongs ctx p d := by
      intro d hd
      obtain ⟨row, hrow, i, rfl⟩ := mem_numbered hd
      obtain ⟨hpointer, haddress⟩ := hr.of_mem_live (hrows' ▸ hrow)
      exact ⟨hpointer, haddress, rfl⟩
    have hpush := hr.push (Arena.pending_pushAll ht.wf p deletions) hbelongs
    rw [if_pos hp', hmap] at hpush
    exact hpush

/-- **One entry**: a successful entry, whose pointer is new if it allocates it or copies to it,
changes the contents of big maps as in the replay. -/
theorem Replayed.entry (hr : Replayed s ctx old r.arena maps) (ht : Tidy used r.arena)
    (hd : ∀ d ∈ e.destination?, d ∉ used ∧ stored s ctx d = [])
    (hschema : e.destination? = none → ∀ p ∈ e.pointers, ∀ types,
      schemaOf settings ctx r.arena p = .ok types → schema p = some types)
    (h : (entry (Store.repository.live s) settings ctx e).exec r = (.ok out, r')) :
    Replayed s ctx (old ++ out.diffs) r'.arena (e.replay schema maps) := by
  cases e with
  | alloc p keyType valueType => exact hr.alloc ht (hd p rfl).1 (hd p rfl).2 h
  | update p key keyHash value => exact hr.update ht (hschema rfl p (by simp [LogEntry.pointers])) h
  | copy p q => exact hr.copy ht (hd q rfl).1 (hd q rfl).2 h
  | remove p => exact hr.remove ht h

end Entry

/-! ### Logs -/

/-- No pointer that an entry of the log allocates or copies to is used before. -/
def FreshDestinations (log : List LogEntry) : Prop :=
  log.Pairwise fun earlier later => ∀ d ∈ later.destination?, d ∉ earlier.pointers

instance : DecidablePred FreshDestinations := fun log => by
  unfold FreshDestinations
  infer_instance

section Log

variable {log : List LogEntry}

lemma not_mem_used_cons {e : LogEntry} (hf : FreshDestinations (e :: log))
    (hd : ∀ f ∈ e :: log, ∀ d ∈ f.destination?, d ∉ used) :
    ∀ f ∈ log, ∀ d ∈ f.destination?, d ∉ e.pointers ++ used := by
  intro f hf' d hd'
  rw [List.mem_append, not_or]
  exact ⟨(List.pairwise_cons.1 hf).1 f hf' d hd', hd f (List.mem_cons_of_mem _ hf') d hd'⟩

/-- The types of used pointers stay what they are. -/
theorem sameTypes_log {live : LiveRecords} (ht : Tidy used r.arena) (hf : FreshDestinations log)
    (hd : ∀ e ∈ log, ∀ d ∈ e.destination?, d ∉ used)
    (h : (forEach (entry live settings ctx) log).exec r = (.ok out, r')) :
    SameTypes ctx used r.arena r'.arena := by
  induction log generalizing r out used with
  | nil =>
    obtain ⟨-, rfl⟩ := forEach_nil_ok.1 h
    exact .refl used _
  | cons e log ih =>
    obtain ⟨o₁, r₁, o₂, h₁, h₂, rfl⟩ := forEach_cons_ok.1 h
    have hstep := sameTypes_entry ht.wf (hd e (by simp)) h₁
    have hrest := ih (ht.entry h₁) (List.pairwise_cons.1 hf).2 (not_mem_used_cons hf hd) h₂
    exact hstep.trans (hrest.mono (List.subset_append_right _ _))

/-- **A whole log**: the replay takes the types of pointers from the last state. -/
theorem replayed_log (hr : Replayed s ctx old r.arena maps) (ht : Tidy used r.arena)
    (hf : FreshDestinations log) (hd : ∀ e ∈ log, ∀ d ∈ e.destination?, d ∉ used)
    (hs : ∀ e ∈ log, ∀ d ∈ e.destination?, stored s ctx d = [])
    (h : (forEach (entry (Store.repository.live s) settings ctx) log).exec r = (.ok out, r')) :
    Replayed s ctx (old ++ out.diffs) r'.arena
      (log.foldl (LogEntry.replay fun p => (schemaOf settings ctx r'.arena p).toOption) maps) := by
  induction log generalizing r out used old maps with
  | nil =>
    obtain ⟨rfl, rfl⟩ := forEach_nil_ok.1 h
    rw [Resolution.empty, List.append_nil]
    exact hr
  | cons e log ih =>
    obtain ⟨o₁, r₁, o₂, h₁, h₂, rfl⟩ := forEach_cons_ok.1 h
    have ht₁ := ht.entry h₁
    have hf₁ := (List.pairwise_cons.1 hf).2
    have hd₁ := not_mem_used_cons hf hd
    have hschema : e.destination? = none → ∀ p ∈ e.pointers, ∀ types,
        schemaOf settings ctx r.arena p = .ok types →
          (schemaOf settings ctx r'.arena p).toOption = some types := by
      intro hnone p hp types htypes
      have hmem : p ∈ e.pointers ++ used := List.mem_append_left _ hp
      have hclosed : Closed (e.pointers ++ used) r.arena := fun q x hq =>
        List.mem_append_right _ (ht.closed q x hq)
      have hstep : SameTypes ctx (e.pointers ++ used) r.arena r₁.arena :=
        sameTypes_entry ht.wf (by simp [hnone]) h₁
      have hrest := sameTypes_log ht₁ hf₁ hd₁ h₂
      rw [(hstep.trans hrest).schemaOf hclosed hmem, htypes]
      rfl
    have hr₁ := hr.entry ht (fun d hd' => ⟨hd e (by simp) d hd', hs e (by simp) d hd'⟩) hschema h₁
    have hrest := ih hr₁ ht₁ hf₁ hd₁ (fun f hf' => hs f (List.mem_cons_of_mem _ hf')) h₂
    rw [Resolution.diffs_append, ← List.append_assoc]
    exact hrest

/-- **A whole log, with the types of big maps on their own.** -/
theorem replayedTyped_log {schemas : Schemas} (hf : ctx.ListsFinal)
    (hr : Replayed s ctx old r.arena maps) (hy : Typed ctx r.arena schemas)
    (ht : Tidy used r.arena) (hfresh : FreshDestinations log)
    (hd : ∀ e ∈ log, ∀ d ∈ e.destination?, d ∉ used)
    (hs : ∀ e ∈ log, ∀ d ∈ e.destination?, stored s ctx d = [])
    (h : (forEach (entry (Store.repository.live s) settings ctx) log).exec r = (.ok out, r')) :
    Replayed s ctx (old ++ out.diffs) r'.arena
      (log.foldl (LogEntry.replayTyped ctx) (schemas, maps)).2 := by
  induction log generalizing r out used old schemas maps with
  | nil =>
    obtain ⟨rfl, rfl⟩ := forEach_nil_ok.1 h
    rw [Resolution.empty, List.append_nil]
    exact hr
  | cons e log ih =>
    obtain ⟨o₁, r₁, o₂, h₁, h₂, rfl⟩ := forEach_cons_ok.1 h
    have hr₁ : Replayed s ctx (old ++ o₁.diffs) r₁.arena (e.replay schemas maps) :=
      hr.entry ht (fun d hd' => ⟨hd e (by simp) d hd', hs e (by simp) d hd'⟩)
        (fun _ _ _ _ htypes => hy.schemaOf hf htypes) h₁
    have hy₁ : Typed ctx r₁.arena (e.assign ctx schemas) := hy.entry hf ht (hd e (by simp)) h₁
    have hrest : Replayed s ctx (old ++ o₁.diffs ++ o₂.diffs) r'.arena
        (log.foldl (LogEntry.replayTyped ctx) (e.assign ctx schemas, e.replay schemas maps)).2 :=
      ih hr₁ hy₁ (ht.entry h₁) (List.pairwise_cons.1 hfresh).2 (not_mem_used_cons hfresh hd)
        (fun f hf' => hs f (List.mem_cons_of_mem _ hf')) h₂
    rw [Resolution.diffs_append, ← List.append_assoc]
    exact hrest

end Log

/-! ### Groups -/

lemma Replayed.mem_pending {a : Arena} (h : Replayed s ctx old a maps) {d : Diff} (hd : d ∈ old) :
    d ∈ a.pending d.pointer := by
  rw [← h.filter (h.final hd)]
  exact List.mem_filter.2 ⟨hd, by simp⟩

lemma Replayed.filter_isAbout {a : Arena} (h : Replayed s ctx old a maps) {p : Int} (hp : 0 ≤ p) :
    old.filter (Store.isAbout (ctx.place p)) = a.pending p := by
  rw [← h.filter hp]
  refine List.filter_congr fun d hd => ?_
  obtain ⟨-, haddress, hprovenance⟩ := h.belongs (h.mem_pending hd)
  unfold Store.isAbout
  rw [haddress, hprovenance]
  simp only [Context.place, beq_self_eq_true, Bool.and_true]
  rfl

/-- What the final pointers were given has the contents of the replay also once it is committed, if
no records of higher levels are stored of them. -/
lemma Replayed.of_live_commit {a : Arena} (hr : Replayed s ctx out.diffs a maps)
    (hcommit : Store.commit ⟨out.diffs, out.actions⟩ s = (.ok (), s')) {p : Int} (hp : 0 ≤ p)
    (hlevel : a.pending p ≠ [] → ∀ d ∈ s.diffs, Store.isAbout (ctx.place p) d →
      d.provenance.level ≤ ctx.provenance.level) :
    Contents.of (s'.live (ctx.place p)) = maps p := by
  have hone : ∀ d ∈ out.diffs, d.provenance.level = ctx.provenance.level := by
    intro d hd
    exact congrArg Provenance.level (hr.belongs (hr.mem_pending hd)).provenance
  have hold : ∀ d ∈ s.diffs, Store.isAbout (ctx.place p) d → ∀ e ∈ out.diffs,
      Store.isAbout (ctx.place p) e → d.provenance.level ≤ ctx.provenance.level := by
    intro d hd habout e he habout'
    refine hlevel (List.ne_nil_of_mem (a := e) ?_) d hd habout
    rw [← hr.filter_isAbout hp]
    exact List.mem_filter.2 ⟨he, habout'⟩
  have hcommitted := Store.of_live_commit hcommit hone hold
  rw [hcommitted, hr.filter_isAbout hp, ← hr.contents p]
  unfold stored
  rw [if_pos hp]

/-- **A group of logs of one context**: when the logs are resolved one after another and what they
come to is committed, the live records of a final pointer have the contents that the replay of the
logs leaves, from the contents that were live before. The pointers allocated and copied to must be
new, and what is stored of the pointers in the logs must not be of a higher level.

The replay may take the types of pointers from the last state, and if only final pointers are in the
storage it may go without: a copy has the types of its source. -/
theorem of_live_commit_resolve {logs : List (List LogEntry)}
    (hfresh : FreshDestinations logs.flatten)
    (hempty : ∀ e ∈ logs.flatten, ∀ d ∈ e.destination?, 0 ≤ d → s.live (ctx.place d) = [])
    (hlevel : ∀ e ∈ logs.flatten, ∀ p ∈ e.pointers, ∀ d ∈ s.diffs,
      Store.isAbout (ctx.place p) d → d.provenance.level ≤ ctx.provenance.level)
    (hresolve : (forEach (resolve (Store.repository.live s) settings ctx) logs).exec .start =
      (.ok out, r'))
    (hcommit : Store.commit ⟨out.diffs, out.actions⟩ s = (.ok (), s')) {p : Int} (hp : 0 ≤ p) :
    Contents.of (s'.live (ctx.place p)) =
        logs.flatten.foldl (LogEntry.replay fun p => (schemaOf settings ctx r'.arena p).toOption)
          (fun p => .of (stored s ctx p)) p ∧
      (ctx.ListsFinal → Contents.of (s'.live (ctx.place p)) =
        (logs.flatten.foldl (LogEntry.replayTyped ctx)
          (located? ctx, fun p => .of (stored s ctx p))).2 p) := by
  have hlog := forEach_forEach_ok.1 hresolve
  have hused : ∀ e ∈ logs.flatten, ∀ d ∈ e.destination?, d ∉ [] := fun _ _ _ _ => List.not_mem_nil
  have hstored : ∀ e ∈ logs.flatten, ∀ d ∈ e.destination?, stored s ctx d = [] := by
    intro e he d hd
    unfold stored
    split
    · next hd' => exact hempty e he d hd hd'
    · rfl
  have ht := tidy_log tidy_start hlog
  rw [List.append_nil] at ht
  have hlevel' : r'.arena.pending p ≠ [] → ∀ d ∈ s.diffs, Store.isAbout (ctx.place p) d →
      d.provenance.level ≤ ctx.provenance.level := by
    intro hpending
    have hmem : p ∈ logs.flatten.flatMap LogEntry.pointers := by
      by_contra hmem
      exact hpending (ht.pending hmem)
    obtain ⟨f, hf, hpf⟩ := List.mem_flatMap.1 hmem
    exact hlevel f hf p hpf
  refine ⟨?_, fun hf => ?_⟩
  · exact (replayed_log replayed_start tidy_start hfresh hused hstored hlog).of_live_commit hcommit
      hp hlevel'
  · exact (replayedTyped_log hf replayed_start typed_start tidy_start hfresh hused
      hstored hlog).of_live_commit hcommit hp hlevel'

/-- A new big map that is filled and copied, and the end of an old one. -/
def copyAndRemove : List (List LogEntry) :=
  [[.alloc (-1) (.prim "string" [] []) (.prim "nat" [] []),
      .update (-1) (.string "a") "exprA" (some (.int "1"))],
    [.copy (-1) 5, .remove 7]]

theorem of_live_commit_copyAndRemove :
    ∃ out r' s', FreshDestinations copyAndRemove.flatten ∧
      (∀ e ∈ copyAndRemove.flatten, ∀ d ∈ e.destination?, 0 ≤ d →
        storeOfSeven.live (sampleContext.place d) = []) ∧
      (∀ e ∈ copyAndRemove.flatten, ∀ p ∈ e.pointers, ∀ d ∈ storeOfSeven.diffs,
        Store.isAbout (sampleContext.place p) d →
          d.provenance.level ≤ sampleContext.provenance.level) ∧
      (forEach (resolve (Store.repository.live storeOfSeven) .default sampleContext)
        copyAndRemove).exec .start = (.ok out, r') ∧
      Store.commit ⟨out.diffs, out.actions⟩ storeOfSeven = (.ok (), s') ∧ (0 : Int) ≤ 5 ∧
      Contents.of (s'.live (sampleContext.place 5)) =
        copyAndRemove.flatten.foldl
          (LogEntry.replay fun p => (schemaOf .default sampleContext r'.arena p).toOption)
          (fun p => .of (stored storeOfSeven sampleContext p)) 5 ∧
      sampleContext.ListsFinal ∧
      Contents.of (s'.live (sampleContext.place 5)) =
        (copyAndRemove.flatten.foldl (LogEntry.replayTyped sampleContext)
          (located? sampleContext, fun p => .of (stored storeOfSeven sampleContext p))).2 5 := by
  have hfresh : FreshDestinations copyAndRemove.flatten := by decide
  have hempty : ∀ e ∈ copyAndRemove.flatten, ∀ d ∈ e.destination?, 0 ≤ d →
      storeOfSeven.live (sampleContext.place d) = [] := by decide +kernel
  have hlevel : ∀ e ∈ copyAndRemove.flatten, ∀ p ∈ e.pointers, ∀ d ∈ storeOfSeven.diffs,
      Store.isAbout (sampleContext.place p) d →
        d.provenance.level ≤ sampleContext.provenance.level := by decide +kernel
  have hrun : ((forEach (resolve (Store.repository.live storeOfSeven) .default sampleContext)
      copyAndRemove).exec .start).1.toOption.map (fun out =>
        (Store.commit ⟨out.diffs, out.actions⟩ storeOfSeven).1) = some (.ok ()) := by decide +kernel
  obtain ⟨out, hresolve, hok⟩ := fst_ok_of_toOption_map hrun
  have hcommit : Store.commit ⟨out.diffs, out.actions⟩ storeOfSeven = (.ok (), _) :=
    Prod.ext hok rfl
  have hfinal : sampleContext.ListsFinal := fun _ _ => rfl
  obtain ⟨hlast, htyped⟩ :=
    of_live_commit_resolve hfresh hempty hlevel hresolve hcommit (p := 5) (by decide)
  exact ⟨out, _, _, hfresh, hempty, hlevel, hresolve, hcommit, by decide, hlast, hfinal,
    htyped hfinal⟩

end Resolver

end Lineage
