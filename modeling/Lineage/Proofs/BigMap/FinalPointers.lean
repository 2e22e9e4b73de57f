import Lineage.Proofs.BigMap.Group
import Lineage.Proofs.BigMap.Replay

/-!
# Temporary pointers stay inside

Records are made for one pointer and then given to it, and a copy makes new ones of them. So a
pointer holds only records that name it (`Own`), provided that the repository gives of a pointer
only records of this pointer (`Faithful`). Whatever the calls of a group are, and whichever of them
fail, it follows that what comes out of a log speaks of final pointers alone (`final_resolve`).
-/

namespace Lineage

/-- No temporary pointer is in the records. -/
structure Resolution.Final (out : Resolution) : Prop where
  diffs : ∀ d ∈ out.diffs, 0 ≤ d.pointer
  source : ∀ a ∈ out.actions, ∀ p ∈ a.source, 0 ≤ p
  destination : ∀ a ∈ out.actions, ∀ p ∈ a.destination, 0 ≤ p

namespace Resolution.Final

lemma empty : Resolution.empty.Final where
  diffs d hd := by cases hd
  source a ha := by cases ha
  destination a ha := by cases ha

lemma append {o₁ o₂ : Resolution} (h₁ : o₁.Final) (h₂ : o₂.Final) : (o₁ ++ o₂).Final where
  diffs d hd := (List.mem_append.1 hd).elim (h₁.diffs d) (h₂.diffs d)
  source a ha := (List.mem_append.1 ha).elim (h₁.source a) (h₂.source a)
  destination a ha := (List.mem_append.1 ha).elim (h₁.destination a) (h₂.destination a)

end Resolution.Final

namespace Resolver

open Function Resolve

/-- Of every pointer a repository gives records of this pointer only. -/
def Faithful (live : LiveRecords) : Prop :=
  ∀ place rows, live place = .ok rows → ∀ d ∈ rows, d.pointer = place.pointer

lemma faithful_store (s : Store) : Faithful (Store.repository.live s) := by
  intro place rows hrows d hd
  cases hrows
  have habout := mem_live hd
  simp only [Store.isAbout, Bool.and_eq_true, beq_iff_eq] at habout
  exact habout.1.1

/-- **What pointers hold**: records that name them. -/
structure Own (a : Arena) : Prop where
  wf : a.Wf
  pointer {p : Int} {d : Diff} (hd : d ∈ a.pending p) : d.pointer = p

variable {live : LiveRecords} {settings : Settings} {ctx : Context} {a b : Arena}
  {r r' : Resolver} {out : Resolution} {calls : List Call} {log : List LogEntry} {e : LogEntry}
  {p s d : Int} {rows : List Diff}

lemma own_start : Own Resolver.start.arena := ⟨Arena.wf_empty, fun hd => by cases hd⟩

/-- Only the records of one pointer have to be looked at when no others change. -/
lemma Own.update {records : List Diff} (h : Own a) (hb : b.Wf)
    (hpending : b.pending = Function.update a.pending p records)
    (hrecords : ∀ x ∈ records, x.pointer = p) : Own b where
  wf := hb
  pointer {q x} hx := by
    rw [hpending] at hx
    by_cases hq : q = p
    · subst hq
      rw [update_self] at hx
      exact hrecords x hx
    · rw [update_of_ne hq] at hx
      exact h.pointer hx

lemma Own.append {new : List Diff} (h : Own a) (hb : b.Wf)
    (hpending : b.pending = Function.update a.pending p (a.pending p ++ new))
    (hnew : ∀ x ∈ new, x.pointer = p) : Own b := by
  refine h.update hb hpending fun x hx => ?_
  rcases List.mem_append.1 hx with hx | hx
  · exact h.pointer hx
  · exact hnew x hx

lemma Own.keepPath (h : Own a) (p : Int) (path : Option String) : Own (a.keepPath p path) where
  wf := h.wf.keepPath p path
  pointer hd := by
    rw [Arena.pending_keepPath h.wf] at hd
    exact h.pointer hd

lemma pointer_liveRecords (hlive : Faithful live) (h : Own a)
    (hrows : liveRecords live ctx a p = .ok rows) : ∀ x ∈ rows, x.pointer = p := by
  intro x hx
  obtain ⟨held, hheld, rfl⟩ := liveRecords_ok.1 hrows
  rcases List.mem_append.1 (mem_overlaid.1 hx).1.mem with hx | hx
  · unfold Persisted at hheld
    split at hheld
    · exact hlive _ _ hheld x hx
    · rw [hheld.1] at hx
      cases hx
  · exact h.pointer hx

/-! ### Entries -/

lemma final_ofAction {kind : ActionKind} {source destination : Option Int} {n : Nat}
    (hs : ∀ p ∈ source, 0 ≤ p) (hd : ∀ p ∈ destination, 0 ≤ p) {diffs : List Diff}
    (hdiffs : ∀ x ∈ diffs, 0 ≤ x.pointer) :
    Resolution.Final ⟨diffs, [actionOf ctx kind source destination n]⟩ where
  diffs := hdiffs
  source a ha := by
    rw [List.mem_singleton.1 ha]
    exact hs
  destination a ha := by
    rw [List.mem_singleton.1 ha]
    exact hd

lemma final_ofDiffs {diffs : List Diff} (hdiffs : ∀ x ∈ diffs, 0 ≤ x.pointer) :
    Resolution.Final ⟨diffs, []⟩ where
  diffs := hdiffs
  source a ha := by cases ha
  destination a ha := by cases ha

lemma final_kept (x : Diff) : (kept x).Final := by
  unfold kept
  split
  · next hx =>
    refine final_ofDiffs fun y hy => ?_
    rw [List.mem_singleton.1 hy]
    exact hx
  · exact .empty

lemma mem_final? {q : Int} (h : q ∈ final? p) : 0 ≤ q := by
  unfold final? at h
  split at h
  · next hp =>
    cases h
    exact hp
  · cases h

/-- **An entry that succeeds** gives pointers records that name them, and brings out only what is
final. -/
theorem own_entry (hlive : Faithful live) (h : Own r.arena)
    (he : (entry live settings ctx e).exec r = (.ok out, r')) : Own r'.arena ∧ out.Final := by
  have hwf : r'.arena.Wf := wf_of_entry_ok h.wf he
  cases e with
  | alloc p keyType valueType =>
    obtain ⟨key, value, -, -, rfl, rfl⟩ := alloc_ok he
    refine ⟨h.update hwf (Arena.pending_openAt h.wf p _) (fun x hx => by cases hx), ?_⟩
    split
    · next hp => exact final_ofAction (by simp) (by simpa using hp) (by simp)
    · exact .empty
  | update p key keyHash value =>
    obtain ⟨q, types, entry, -, -, -, rfl, rfl⟩ := update_ok h.wf he
    refine ⟨(h.keepPath p _).append hwf (Arena.pending_push (h.wf.keepPath p _) p _) ?_,
      final_kept _⟩
    intro x hx
    rw [List.mem_singleton.1 hx]
    rfl
  | copy s d =>
    obtain ⟨actions, rows, link, hactions, -, -, rfl, rfl⟩ := copy_ok he
    have hcopies : ∀ path n, ∀ x ∈ copiesOf ctx d path n rows, x.pointer = d := by
      intro path n x hx
      obtain ⟨row, -, i, rfl⟩ := mem_numbered hx
      rfl
    refine ⟨h.append hwf (pending_copied h.wf) (hcopies _ _), ?_⟩
    unfold CopyActions at hactions
    by_cases hd : 0 ≤ d
    · rw [if_pos hd] at hactions
      obtain ⟨origin, -, rfl⟩ := hactions
      refine final_ofAction (fun q hq => mem_final? hq) (by simpa using hd) fun x hx => ?_
      rw [if_pos hd] at hx
      rw [hcopies _ _ x hx]
      exact hd
    · rw [if_neg hd] at hactions
      rw [if_neg hd, hactions]
      exact .empty
  | remove p =>
    by_cases hp : p < 0
    · cases (remove_of_neg hp).symm.trans he
      exact ⟨h.update hwf (Arena.pending_discard h.wf p) (fun x hx => by cases hx), .empty⟩
    · have hp' := Int.not_lt.1 hp
      obtain ⟨rows, hrows, rfl, rfl⟩ := remove_ok hp' he
      have hdeletions : ∀ x ∈ deletionsOf ctx p r.ordinal rows, x.pointer = p := by
        intro x hx
        obtain ⟨row, hrow, i, rfl⟩ := mem_numbered hx
        exact pointer_liveRecords hlive h hrows row hrow
      refine ⟨h.append hwf (Arena.pending_pushAll h.wf p _) hdeletions, ?_⟩
      refine final_ofAction (by simpa using hp') (by simp) fun x hx => ?_
      rw [hdeletions x hx]
      exact hp'

/-! ### Logs and groups -/

theorem own_keeps (hlive : Faithful live) : Keeps (fun _ r => Own r.arena) live settings ctx where
  ok hr he := (own_entry hlive hr he).1
  error hr he := by
    obtain ⟨q, path, ha⟩ := entry_error he
    rw [ha]
    exact hr.keepPath q path

theorem final_log (hlive : Faithful live) (h : Own r.arena)
    (hx : (forEach (entry live settings ctx) log).exec r = (.ok out, r')) : out.Final := by
  induction log generalizing r out with
  | nil =>
    obtain ⟨rfl, -⟩ := forEach_nil_ok.1 hx
    exact .empty
  | cons e log ih =>
    obtain ⟨o₁, r₁, o₂, h₁, h₂, rfl⟩ := forEach_cons_ok.1 hx
    obtain ⟨hown, hfinal⟩ := own_entry hlive h h₁
    exact hfinal.append (ih hown h₂)

/-- **Temporary pointers stay inside**: after any calls of a group, also failed ones, each pointer
holds only records that name it, and a log that succeeds next comes to records of final pointers and
to actions that name final pointers, if the repository gives of each pointer only its records. -/
theorem final_resolve (hlive : ∀ c ∈ calls, Faithful c.live) :
    (∀ p rows, (resolveAll settings calls).arena.records? p = some rows →
      ∀ x ∈ rows, x.pointer = p) ∧
    ∀ (live : LiveRecords) (ctx : Context) (log : List LogEntry) (out : Resolution)
      (r' : Resolver), Faithful live →
      (resolve live settings ctx log).exec (resolveAll settings calls) = (.ok out, r') →
      (∀ x ∈ out.diffs, 0 ≤ x.pointer) ∧
        ∀ a ∈ out.actions, (∀ p ∈ a.source, 0 ≤ p) ∧ ∀ p ∈ a.destination, 0 ≤ p := by
  have hown : Own (resolveAll settings calls).arena :=
    effects_keep (P := fun _ r => Own r.arena) own_start fun c hc => own_keeps (hlive c hc)
  refine ⟨fun p rows hrows x hx => hown.pointer ?_, fun live ctx log out r' hl hx => ?_⟩
  · unfold Arena.pending
    rw [hrows]
    exact hx
  · have hfinal := final_log hl hown hx
    exact ⟨hfinal.diffs, fun a ha => ⟨hfinal.source a ha, hfinal.destination a ha⟩⟩

/-- A call that fails when a new big map has a key already: the second value is no number. -/
def failedUpdate : List Call :=
  [⟨Store.repository.live storeOfSeven, sampleContext,
    [.alloc (-1) (.prim "string" [] []) (.prim "nat" [] []),
      .update (-1) (.string "a") "exprA" (some (.int "1")),
      .update (-1) (.string "b") "exprB" (some (.string "x"))]⟩]

theorem final_resolve_failedUpdate :
    ∃ out r', (∀ c ∈ failedUpdate, Faithful c.live) ∧
      Faithful (Store.repository.live storeOfSeven) ∧
      (resolve (Store.repository.live storeOfSeven) .default sampleContext
        [.copy (-1) 5, .remove 7]).exec (resolveAll .default failedUpdate) = (.ok out, r') ∧
      out.diffs.length = 2 ∧
      (∀ p rows, (resolveAll .default failedUpdate).arena.records? p = some rows →
        ∀ x ∈ rows, x.pointer = p) ∧
      (∀ x ∈ out.diffs, 0 ≤ x.pointer) ∧
      ∀ a ∈ out.actions, (∀ p ∈ a.source, 0 ≤ p) ∧ ∀ p ∈ a.destination, 0 ≤ p := by
  have hlive := faithful_store storeOfSeven
  have hcalls : ∀ c ∈ failedUpdate, Faithful c.live := by
    intro c hc
    rw [List.mem_singleton.1 hc]
    exact hlive
  have hrun : ((resolve (Store.repository.live storeOfSeven) .default sampleContext
      [.copy (-1) 5, .remove 7]).exec (resolveAll .default failedUpdate)).1.toOption.map
        (·.diffs.length) = some 2 := by decide +kernel
  obtain ⟨out, hout, htwo⟩ := fst_ok_of_toOption_map hrun
  obtain ⟨hrecords, hfinal⟩ := final_resolve hcalls
  exact ⟨out, _, hcalls, hlive, hout, htwo, hrecords, hfinal _ _ _ _ _ hlive hout⟩

end Resolver

end Lineage
