import Mathlib.Data.List.Perm.Subperm
import Lineage.Proofs.BigMap.Group
import Lineage.Proofs.BigMap.Rerun

/-!
# The identifiers of a group

A resolver makes identifiers in many places: for the record of an update, for every copy and every
deletion, for actions, and also in logs that fail. Which ones a step makes is told by `Makes`, along
the steps that it consists of. Their stamps are numbered in sequence (`Makes.numbered`), whatever
comes of the step, and so no two of them have the same bytes.

On the other hand all records that a step gives have identifiers that were made by it, each one for
itself (`Accounts`). A record that is copied or deleted does not keep the identifier that it had. So
the records of a whole group can be committed together (`ids_distinct`).
-/

namespace Lineage

/-! ### Bytes of stamps in sequence -/

lemma Stamp.ordinal_eq_of_bytes_eq {x y : Stamp} (hx : x.ordinal < Decimal.wordCount)
    (hy : y.ordinal < Decimal.wordCount) (h : x.bytes = y.bytes) : x.ordinal = y.ordinal := by
  obtain ⟨-, hordinal⟩ := List.append_inj' h ((length_word _).trans (length_word _).symm)
  have hmod := word_inj hordinal
  unfold Decimal.wordCount at *
  omega

/-- **Stamps in sequence have different bytes**, as long as the ordinals fit into 64 bits. -/
theorem Numbered.pairwise_bytes_ne {n : Nat} {stamps : List Stamp} (h : Numbered n stamps)
    (hn : n + stamps.length < Decimal.wordCount) :
    stamps.Pairwise fun x y => x.bytes ≠ y.bytes := by
  have hlt : ∀ x ∈ stamps, x.ordinal < Decimal.wordCount :=
    fun x hx => Nat.lt_of_le_of_lt (h.ordinal_bounds hx).2 hn
  refine h.pairwise_lt.imp_of_mem fun hx hy hxy heq => ?_
  exact Nat.ne_of_lt hxy (Stamp.ordinal_eq_of_bytes_eq (hlt _ hx) (hlt _ hy) heq)

/-- Different bytes give different identifiers, unless the digest fails to. -/
lemma nodup_ids {stamps : List Stamp} (hfree : CollisionFree stamps)
    (h : stamps.Pairwise fun x y => x.bytes ≠ y.bytes) : (stamps.map Stamp.id).Nodup := by
  refine List.pairwise_map.2 (h.imp_of_mem fun hx hy hne heq => ?_)
  exact hne (hfree _ hx _ hy (Hex.encode_inj heq))

namespace Store

lemma exists_commit_ok {staged : Staged} {s : Store} (hnodup : staged.ids.Nodup)
    (hnew : ∀ id ∈ staged.ids, id ∉ s.ids) : ∃ s', commit staged s = (.ok (), s') := by
  unfold commit
  rw [firstClash?_eq_none_iff.2 ⟨hnodup, hnew⟩]
  exact ⟨_, rfl⟩

end Store

namespace Resolver

open Resolve

/-! ### The identifiers that are made -/

/-- **The identifiers that a step makes** in a state have these stamps. A step that fails has made
those that it came to before. -/
inductive Makes : {α : Type} → Resolve α → Resolver → List Stamp → Prop
  | pure {α : Type} (a : α) (r : Resolver) : Makes (pure a) r []
  | lift {α : Type} (x : Except ResolveError α) (r : Resolver) : Makes (liftM x) r []
  | get (r : Resolver) : Makes get r []
  | modifyArena (f : Arena → Arena) (r : Resolver) : Makes (modifyArena f) r []
  | nextId (ctx : Context) (kind : String) (p : Int) (keyHash : String) (r : Resolver) :
    Makes (nextId ctx kind p keyHash) r [ctx.stamp kind p keyHash (r.ordinal + 1)]
  | bind {α β : Type} {x : Resolve α} {f : α → Resolve β} {r r₁ : Resolver} {a : α}
    {first rest : List Stamp} (hx : Makes x r first) (ha : x.exec r = (.ok a, r₁))
    (hf : Makes (f a) r₁ rest) : Makes (x >>= f) r (first ++ rest)
  | fail {α β : Type} {x : Resolve α} {f : α → Resolve β} {r r₁ : Resolver} {e : ResolveError}
    {stamps : List Stamp} (hx : Makes x r stamps) (he : x.exec r = (.error e, r₁)) :
    Makes (x >>= f) r stamps

/-- What is made is numbered in sequence, and counted whether the step succeeds or fails. -/
theorem Makes.numbered {α : Type} {x : Resolve α} {r : Resolver} {stamps : List Stamp}
    (h : Makes x r stamps) :
    Numbered r.ordinal stamps ∧ (x.exec r).2.ordinal = r.ordinal + stamps.length := by
  induction h with
  | pure a r => exact ⟨rfl, rfl⟩
  | lift x r =>
    rw [exec_liftM]
    exact ⟨rfl, rfl⟩
  | get r => exact ⟨rfl, rfl⟩
  | modifyArena f r => exact ⟨rfl, rfl⟩
  | nextId ctx kind p keyHash r => exact ⟨rfl, rfl⟩
  | bind hx ha hf ihx ihf =>
    rw [ha] at ihx
    obtain ⟨hfirst, hcount⟩ := ihx
    rw [hcount] at ihf
    obtain ⟨hrest, hcount'⟩ := ihf
    rw [exec_bind, ha]
    refine ⟨hfirst.append hrest, hcount'.trans ?_⟩
    rw [List.length_append, Nat.add_assoc]
  | fail hx he ihx =>
    rw [exec_bind, he]
    rw [he] at ihx
    exact ihx

variable {α β : Type} {x : Resolve α} {f : α → Resolve β} {given : List String}
  {ids : α → List String} {live : LiveRecords} {settings : Settings} {ctx : Context}

/-- The identifiers `ids` of what a step gives are all among those that are `given` and those that
the step makes, each of which is used at most once. -/
def Accounts (given : List String) (x : Resolve α) (r : Resolver) (ids : α → List String) : Prop :=
  ∃ stamps, Makes x r stamps ∧
    ∀ a r', x.exec r = (.ok a, r') → (ids a).Subperm (given ++ stamps.map Stamp.id)

namespace Accounts

variable {r : Resolver}

lemma pure {a : α} (h : (ids a).Subperm given) : Accounts given (pure a) r ids := by
  refine ⟨[], .pure a r, fun b r' hb => ?_⟩
  cases hb
  rw [List.map_nil, List.append_nil]
  exact h

/-- What the first step makes is given to the second one. -/
lemma bind {between : α → List String} {ids : β → List String} (hx : Accounts given x r between)
    (hf : ∀ a r₁, x.exec r = (.ok a, r₁) → Accounts (between a) (f a) r₁ ids) :
    Accounts given (x >>= f) r ids := by
  obtain ⟨first, hfirst, hbetween⟩ := hx
  rcases hexec : x.exec r with ⟨e | a, r₁⟩
  · refine ⟨first, .fail hfirst hexec, fun b r' hb => ?_⟩
    rw [exec_bind, hexec] at hb
    cases hb
  · obtain ⟨rest, hrest, hids⟩ := hf a r₁ hexec
    refine ⟨first ++ rest, .bind hfirst hexec hrest, fun b r' hb => ?_⟩
    rw [exec_bind, hexec] at hb
    rw [List.map_append, ← List.append_assoc]
    exact (hids b r' hb).trans ((hbetween a r₁ hexec).append (.refl _))

lemma skip {ids : β → List String} (hx : ∀ r, Makes x r [])
    (hf : ∀ a r₁, Accounts given (f a) r₁ ids) : Accounts given (x >>= f) r ids := by
  have hgiven : Accounts given x r fun _ => given := by
    refine ⟨[], hx r, fun a r' _ => ?_⟩
    rw [List.map_nil, List.append_nil]
  exact hgiven.bind fun a r₁ _ => hf a r₁

lemma nextId {kind keyHash : String} {p : Int} :
    Accounts given (nextId ctx kind p keyHash) r fun id => given ++ [id] := by
  refine ⟨_, .nextId ctx kind p keyHash r, fun id r' h => ?_⟩
  cases h
  exact .refl _

lemma makeAction {kind : ActionKind} {source destination : Option Int} :
    Accounts given (makeAction ctx kind source destination) r fun action => given ++ [action.id] :=
  bind nextId fun _ _ _ => pure (.refl _)

/-- What is given besides may be left alone. -/
lemma frame (h : Accounts [] x r ids) : Accounts given x r fun a => given ++ ids a := by
  obtain ⟨stamps, hmakes, hids⟩ := h
  exact ⟨stamps, hmakes, fun a r' ha => (List.subperm_append_left given).2 (hids a r' ha)⟩

lemma pure_append {o₁ o₂ : Resolution} :
    Accounts (Store.idsOf o₁ ++ Store.idsOf o₂) (Pure.pure (o₁ ++ o₂)) r Store.idsOf :=
  pure (perm_ids_append o₁ o₂).subperm

lemma pure_kept {d : Diff} : Accounts [d.id] (Pure.pure (kept d)) r Store.idsOf := by
  refine pure ?_
  unfold kept
  split
  · exact .refl _
  · exact List.nil_subperm

/-! ### The steps of the resolver -/

lemma forEach {ι : Type} {step : ι → Resolve Resolution}
    (hstep : ∀ item r, Accounts [] (step item) r Store.idsOf) (items : List ι) (r : Resolver) :
    Accounts [] (forEach step items) r Store.idsOf := by
  induction items generalizing r with
  | nil => exact pure (.refl _)
  | cons item items ih =>
    refine bind (hstep item r) fun out r₁ _ => ?_
    exact bind (ih r₁).frame fun rest r₂ _ => pure_append

lemma alloc (p : Int) (keyType valueType : Micheline) (r : Resolver) :
    Accounts [] (alloc ctx p keyType valueType) r Store.idsOf := by
  unfold Resolver.alloc
  refine skip (.lift _) fun key r => ?_
  refine skip (.lift _) fun value r => ?_
  refine skip (.modifyArena _) fun _ r => ?_
  split
  · exact bind makeAction fun action r _ => pure (.refl _)
  · exact pure (.refl _)

lemma update (p : Int) (key : Micheline) (keyHash : String) (value : Option Micheline)
    (r : Resolver) : Accounts [] (update settings ctx p key keyHash value) r Store.idsOf := by
  unfold Resolver.update
  refine skip .get fun _ r => ?_
  refine skip (.lift _) fun located r => ?_
  refine skip .get fun _ r => ?_
  refine skip (.modifyArena _) fun _ r => ?_
  refine skip .get fun _ r => ?_
  refine skip (.lift _) fun types r => ?_
  refine skip (.lift _) fun entry r => ?_
  refine bind nextId fun id r _ => ?_
  exact skip (.modifyArena _) fun _ r => pure_kept

lemma copyRecord (d : Int) (path : String) (row : Diff) (r : Resolver) :
    Accounts [] (copyRecord ctx d path row) r Store.idsOf := by
  unfold Resolver.copyRecord
  refine bind nextId fun id r _ => ?_
  exact skip (.modifyArena _) fun _ r => pure_kept

lemma recordCopy (s d : Int) (r : Resolver) :
    Accounts [] (recordCopy settings ctx s d) r Store.idsOf := by
  unfold Resolver.recordCopy
  split
  · refine skip .get fun _ r => ?_
    refine skip (.lift _) fun origin r => ?_
    exact bind makeAction fun action r _ => pure (.refl _)
  · exact pure (.refl _)

lemma copy (s d : Int) (r : Resolver) :
    Accounts [] (copy live settings ctx s d) r Store.idsOf := by
  unfold Resolver.copy
  refine bind (recordCopy s d r) fun action r _ => ?_
  refine skip .get fun _ r => ?_
  refine skip (.lift _) fun rows r => ?_
  refine skip .get fun _ r => ?_
  refine skip (.lift _) fun link r => ?_
  refine skip (.modifyArena _) fun _ r => ?_
  refine skip (.modifyArena _) fun _ r => ?_
  refine skip .get fun _ r => ?_
  -- the copies come besides the action
  have hcopies : ∀ path, Accounts [] (Resolver.forEach (Resolver.copyRecord ctx d path) rows) r
      Store.idsOf := fun path => forEach (copyRecord d path) rows r
  exact bind (hcopies _).frame fun copies r _ => pure_append

lemma deleteRecord (p : Int) (row : Diff) (r : Resolver) :
    Accounts [] (deleteRecord ctx p row) r Store.idsOf := by
  unfold Resolver.deleteRecord
  refine bind nextId fun id r _ => ?_
  exact skip (.modifyArena _) fun _ r => pure (.refl _)

lemma remove (p : Int) (r : Resolver) : Accounts [] (remove live ctx p) r Store.idsOf := by
  unfold Resolver.remove
  split
  · exact skip (.modifyArena _) fun _ r => pure (.refl _)
  · refine skip .get fun _ r => ?_
    refine skip (.lift _) fun rows r => ?_
    refine bind (forEach (deleteRecord p) rows r) fun deleted r _ => ?_
    exact bind makeAction fun action r _ => pure_append

lemma entry (e : LogEntry) (r : Resolver) :
    Accounts [] (entry live settings ctx e) r Store.idsOf := by
  cases e with
  | alloc p keyType valueType => exact alloc p keyType valueType r
  | update p key keyHash value => exact update p key keyHash value r
  | copy s d => exact copy s d r
  | remove p => exact remove p r

/-- **The records of a log** have identifiers that were made for them. -/
theorem resolve (live : LiveRecords) (settings : Settings) (ctx : Context) (log : List LogEntry)
    (r : Resolver) : Accounts [] (resolve live settings ctx log) r Store.idsOf :=
  forEach entry log r

end Accounts

/-! ### Groups -/

/-- The identifiers that calls make one after another, successful or not, have these stamps. -/
inductive MakesAll (settings : Settings) : Resolver → List Call → List Stamp → Prop
  | nil (r : Resolver) : MakesAll settings r [] []
  | cons {r : Resolver} {c : Call} {calls : List Call} {first rest : List Stamp}
    (hc : Makes (resolve c.live settings c.ctx c.log) r first)
    (hrest : MakesAll settings (c.after settings r) calls rest) :
    MakesAll settings r (c :: calls) (first ++ rest)

/-- The records that a call gives: none if it fails. -/
def Call.records (settings : Settings) (c : Call) (r : Resolver) : Resolution :=
  ((resolve c.live settings c.ctx c.log).exec r).1.toOption.getD .empty

def recordsFrom (settings : Settings) : Resolver → List Call → Resolution
  | _, [] => .empty
  | r, c :: calls => c.records settings r ++ recordsFrom settings (c.after settings r) calls

variable {calls : List Call} {stamps : List Stamp} {r : Resolver}

/-- The identifiers of all calls are numbered in one sequence. -/
theorem MakesAll.numbered (h : MakesAll settings r calls stamps) :
    Numbered r.ordinal stamps ∧
      (calls.foldl (fun r c => c.after settings r) r).ordinal = r.ordinal + stamps.length := by
  induction h with
  | nil r => exact ⟨rfl, rfl⟩
  | cons hc hrest ih =>
    obtain ⟨hfirst, hcount⟩ := hc.numbered
    unfold Call.after at ih
    rw [hcount] at ih
    obtain ⟨hnumbered, hcount'⟩ := ih
    refine ⟨hfirst.append hnumbered, hcount'.trans ?_⟩
    rw [List.length_append, Nat.add_assoc]

/-- The records that calls give have identifiers that were made for them. -/
theorem exists_makesAll (settings : Settings) (calls : List Call) (r : Resolver) :
    ∃ stamps, MakesAll settings r calls stamps ∧
      (Store.idsOf (recordsFrom settings r calls)).Subperm (stamps.map Stamp.id) := by
  induction calls generalizing r with
  | nil => exact ⟨[], .nil r, .refl _⟩
  | cons c calls ih =>
    obtain ⟨first, hfirst, hids⟩ := Accounts.resolve c.live settings c.ctx c.log r
    obtain ⟨rest, hrest, hids'⟩ := ih (c.after settings r)
    refine ⟨first ++ rest, .cons hfirst hrest, ?_⟩
    have hcall : (Store.idsOf (c.records settings r)).Subperm (first.map Stamp.id) := by
      unfold Call.records
      rcases hexec : (Resolver.resolve c.live settings c.ctx c.log).exec r with ⟨e | out, r₁⟩
      · exact List.nil_subperm
      · exact hids out r₁ hexec
    rw [recordsFrom, List.map_append]
    exact (perm_ids_append _ _).subperm.trans (hcall.append hids')

/-- **The identifiers of a group are different**: those that its calls make, whether they succeed or
fail, are digests of different bytes, as long as their number fits into 64 bits. If the digest tells
these bytes apart, then all records that the calls give have different identifiers, and any of them
can be committed to a store that has none of their identifiers. -/
theorem ids_distinct (hn : (resolveAll settings calls).ordinal < Decimal.wordCount) :
    (∀ stamps, MakesAll settings .start calls stamps →
      stamps.Pairwise fun x y => x.bytes ≠ y.bytes) ∧
    ∃ stamps, MakesAll settings .start calls stamps ∧
      (Store.idsOf (recordsFrom settings .start calls)).Subperm (stamps.map Stamp.id) ∧
      (CollisionFree stamps →
        (Store.idsOf (recordsFrom settings .start calls)).Nodup ∧
        ∀ (staged : Staged) (s : Store),
          staged.ids.Subperm (Store.idsOf (recordsFrom settings .start calls)) →
          (∀ id ∈ staged.ids, id ∉ s.ids) → ∃ s', Store.commit staged s = (.ok (), s')) := by
  have hpairwise : ∀ stamps, MakesAll settings .start calls stamps →
      stamps.Pairwise fun x y => x.bytes ≠ y.bytes := by
    intro stamps h
    obtain ⟨hnumbered, hcount⟩ := h.numbered
    have hend : (resolveAll settings calls).ordinal = Resolver.start.ordinal + stamps.length :=
      hcount
    exact hnumbered.pairwise_bytes_ne (hend ▸ hn)
  obtain ⟨stamps, hmakes, hids⟩ := exists_makesAll settings calls .start
  refine ⟨hpairwise, stamps, hmakes, hids, fun hfree => ?_⟩
  have hnodup : ∀ xs : List String, xs.Subperm (stamps.map Stamp.id) → xs.Nodup := by
    rintro xs ⟨ys, hperm, hsub⟩
    exact hperm.nodup_iff.1 ((nodup_ids hfree (hpairwise stamps hmakes)).sublist hsub)
  exact ⟨hnodup _ hids, fun staged s hsome hnew =>
    Store.exists_commit_ok (hnodup _ (hsome.trans hids)) hnew⟩

/-- A contract with the stored big map 7 and a new one. -/
def sevenAndEight : Context :=
  twoBigMapsContext [(7, "0/0"), (8, "0/0")] Conformance.address

/-- The big map 7 is copied to a temporary pointer and removed, before the first call fails at a
pointer that stands for nothing. The second call makes the copy the big map 8, and removes it. -/
def failedRemoval : List Call :=
  [⟨Store.repository.live storeOfSeven, sevenAndEight,
      [.copy 7 (-1), .remove 7, .update (-5) (.bytes "01") "exprA" none]⟩,
    ⟨Store.repository.live storeOfSeven, sevenAndEight, [.copy (-1) 8, .remove 8]⟩]

theorem ids_distinct_failedRemoval :
    let records := recordsFrom .default .start failedRemoval
    (resolveAll .default failedRemoval).ordinal = 7 ∧ records.diffs.length = 2 ∧
      records.actions.length = 2 ∧
    (∀ stamps, MakesAll .default .start failedRemoval stamps →
      stamps.Pairwise fun x y => x.bytes ≠ y.bytes) ∧
    ∃ stamps, MakesAll .default .start failedRemoval stamps ∧
      (Store.idsOf records).Subperm (stamps.map Stamp.id) ∧
      (CollisionFree stamps → (Store.idsOf records).Nodup ∧
        ∀ (staged : Staged) (s : Store), staged.ids.Subperm (Store.idsOf records) →
          (∀ id ∈ staged.ids, id ∉ s.ids) → ∃ s', Store.commit staged s = (.ok (), s')) := by
  intro records
  have hcount : (resolveAll .default failedRemoval).ordinal = 7 := by decide +kernel
  have hdiffs : records.diffs.length = 2 := by decide +kernel
  have hactions : records.actions.length = 2 := by decide +kernel
  have hn : (resolveAll .default failedRemoval).ordinal < Decimal.wordCount := by
    rw [hcount]
    decide
  exact ⟨hcount, hdiffs, hactions, ids_distinct hn⟩

end Resolver

end Lineage
