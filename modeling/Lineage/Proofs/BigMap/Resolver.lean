import Mathlib.Tactic.Common
import Lineage.BigMap.Resolver
import Lineage.Ledger.Conformance
import Lineage.Ledger.Store
import Lineage.Proofs.BigMap.Arena

/-!
# What the entries of a log do

The steps of the resolver are taken in a monad with a state and errors. `Resolve.exec` takes a step
in a state, and for each kind of entry one lemma says all that a successful step has done to the
state and all that has come of it (`alloc_ok`, `update_ok`, `copy_ok`, `remove_ok`). A step that
fails may have remembered a path, but has changed nothing else in the arena (`entry_error`).
-/

namespace Lineage

/-! ### Taking steps -/

/-- What comes of a step that is taken in a state, and the state after it. -/
def Resolve.exec {α : Type} (x : Resolve α) (r : Resolver) : Except ResolveError α × Resolver :=
  x.run.run r

namespace Resolve

variable {α β : Type}

@[simp] lemma exec_pure (a : α) (r : Resolver) : (pure a : Resolve α).exec r = (.ok a, r) := rfl

@[simp] lemma exec_liftM (x : Except ResolveError α) (r : Resolver) :
    (liftM x : Resolve α).exec r = (x, r) := by
  cases x <;> rfl

@[simp] lemma exec_get (r : Resolver) : (get : Resolve Resolver).exec r = (.ok r, r) := rfl

@[simp] lemma exec_modifyArena (f : Arena → Arena) (r : Resolver) :
    (Resolver.modifyArena f).exec r = (.ok (), { r with arena := f r.arena }) := rfl

@[simp] lemma exec_nextId (ctx : Context) (kind : String) (pointer : Int) (keyHash : String)
    (r : Resolver) :
    (Resolver.nextId ctx kind pointer keyHash).exec r =
      (.ok (ctx.stamp kind pointer keyHash (r.ordinal + 1)).id,
        { r with ordinal := r.ordinal + 1 }) := rfl

lemma exec_bind (x : Resolve α) (f : α → Resolve β) (r : Resolver) :
    (x >>= f).exec r =
      match x.exec r with
      | (.ok a, r') => (f a).exec r'
      | (.error e, r') => (.error e, r') := by
  unfold exec
  rw [ExceptT.run_bind, StateT.run_bind]
  rcases x.run.run r with ⟨_ | _, _⟩ <;> rfl

lemma bind_ok {x : Resolve α} {f : α → Resolve β} {r r' : Resolver} {b : β} :
    (x >>= f).exec r = (.ok b, r') ↔
      ∃ a r₁, x.exec r = (.ok a, r₁) ∧ (f a).exec r₁ = (.ok b, r') := by
  rw [exec_bind]
  rcases x.exec r with ⟨_ | a, r₁⟩ <;> simp

lemma bind_error {x : Resolve α} {f : α → Resolve β} {r r' : Resolver} {e : ResolveError} :
    (x >>= f).exec r = (.error e, r') ↔
      x.exec r = (.error e, r') ∨
        ∃ a r₁, x.exec r = (.ok a, r₁) ∧ (f a).exec r₁ = (.error e, r') := by
  rw [exec_bind]
  rcases x.exec r with ⟨_ | a, r₁⟩ <;> simp

end Resolve

namespace Resolver

open Resolve

variable {live : LiveRecords} {settings : Settings} {ctx : Context} {r r' : Resolver}
  {out : Resolution} {err : ResolveError} {p s d : Int}

/-! ### Lists of steps -/

lemma exec_forEach_cons {α : Type} (step : α → Resolve Resolution) (item : α) (items : List α) :
    (forEach step (item :: items)).exec r =
      match (step item).exec r with
      | (.ok o₁, r₁) =>
        match (forEach step items).exec r₁ with
        | (.ok o₂, r₂) => (.ok (o₁ ++ o₂), r₂)
        | (.error e, r₂) => (.error e, r₂)
      | (.error e, r₁) => (.error e, r₁) := by
  rw [forEach, exec_bind]
  rcases (step item).exec r with ⟨_ | o₁, r₁⟩
  · rfl
  · dsimp only
    rw [exec_bind]
    rcases (forEach step items).exec r₁ with ⟨_ | o₂, r₂⟩ <;> rfl

lemma forEach_cons_ok {α : Type} {step : α → Resolve Resolution} {item : α} {items : List α} :
    (forEach step (item :: items)).exec r = (.ok out, r') ↔
      ∃ o₁ r₁ o₂, (step item).exec r = (.ok o₁, r₁) ∧
        (forEach step items).exec r₁ = (.ok o₂, r') ∧ out = o₁ ++ o₂ := by
  rw [exec_forEach_cons]
  constructor
  · intro h
    split at h
    · next o₁ r₁ h₁ =>
      split at h
      · next o₂ r₂ h₂ =>
        obtain ⟨rfl, rfl⟩ : o₁ ++ o₂ = out ∧ r₂ = r' := by simpa using h
        exact ⟨o₁, r₁, o₂, h₁, h₂, rfl⟩
      · simp at h
    · simp at h
  · rintro ⟨o₁, r₁, o₂, h₁, h₂, rfl⟩
    simp only [h₁, h₂]

lemma forEach_nil_ok {α : Type} {step : α → Resolve Resolution} :
    (forEach step []).exec r = (.ok out, r') ↔ out = .empty ∧ r' = r := by
  show (Except.ok Resolution.empty, r) = (.ok out, r') ↔ _
  rw [Prod.mk.injEq, Except.ok.injEq, eq_comm, eq_comm (a := r)]

lemma forEach_append_ok {α : Type} {step : α → Resolve Resolution} {xs ys : List α} :
    (forEach step (xs ++ ys)).exec r = (.ok out, r') ↔
      ∃ o₁ r₁ o₂, (forEach step xs).exec r = (.ok o₁, r₁) ∧
        (forEach step ys).exec r₁ = (.ok o₂, r') ∧ out = o₁ ++ o₂ := by
  induction xs generalizing r out with
  | nil =>
    constructor
    · exact fun h => ⟨.empty, r, out, rfl, h, rfl⟩
    · rintro ⟨o₁, r₁, o₂, h₁, h₂, rfl⟩
      obtain ⟨rfl, rfl⟩ := forEach_nil_ok.1 h₁
      exact h₂
  | cons x xs ih =>
    simp only [List.cons_append, forEach_cons_ok, ih]
    constructor
    · rintro ⟨o₁, r₁, _, h₁, ⟨o₂, r₂, o₃, h₂, h₃, rfl⟩, rfl⟩
      exact ⟨o₁ ++ o₂, r₂, o₃, ⟨o₁, r₁, o₂, h₁, h₂, rfl⟩, h₃, (Resolution.append_assoc _ _ _).symm⟩
    · rintro ⟨_, r₂, o₃, ⟨o₁, r₁, o₂, h₁, h₂, rfl⟩, h₃, rfl⟩
      exact ⟨o₁, r₁, o₂ ++ o₃, h₁, ⟨o₂, r₂, o₃, h₂, h₃, rfl⟩, Resolution.append_assoc _ _ _⟩

/-- Logs that are resolved one after another come to what their entries come to. -/
theorem forEach_forEach_ok {α : Type} {step : α → Resolve Resolution} {lists : List (List α)} :
    (forEach (forEach step) lists).exec r = (.ok out, r') ↔
      (forEach step lists.flatten).exec r = (.ok out, r') := by
  induction lists generalizing r out with
  | nil => rfl
  | cons xs lists ih => simp only [List.flatten_cons, forEach_cons_ok, forEach_append_ok, ih]

/-- What holds of a state and is kept by every step holds after a list of steps, whether it
succeeds or fails. -/
theorem forEach_keeps {α : Type} {step : α → Resolve Resolution} {P : Resolver → Prop}
    (hstep : ∀ item r, P r → P ((step item).exec r).2) (items : List α) (hr : P r) :
    P ((forEach step items).exec r).2 := by
  induction items generalizing r with
  | nil => exact hr
  | cons item items ih =>
    have h₁ := hstep item r hr
    rw [exec_forEach_cons]
    split
    · next o₁ r₁ e₁ =>
      rw [e₁] at h₁
      have h₂ := ih h₁
      split <;> next e₂ => rw [e₂] at h₂; exact h₂
    · next e₁ => rw [e₁] at h₁; exact h₁

/-! ### Series of records -/

section Numbered

variable {β : Type} {make : Diff → Nat → β} {n : Nat} {rows : List Diff}

/-- What is made of records with the ordinals after `n`. -/
def numbered (make : Diff → Nat → β) (n : Nat) (rows : List Diff) : List β :=
  (rows.zipIdx (n + 1)).map fun (row, i) => make row i

@[simp] lemma numbered_nil (make : Diff → Nat → β) (n : Nat) : numbered make n [] = [] := rfl

@[simp] lemma numbered_cons (make : Diff → Nat → β) (n : Nat) (row : Diff) (rows : List Diff) :
    numbered make n (row :: rows) = make row (n + 1) :: numbered make (n + 1) rows := rfl

lemma mem_numbered {x : β} (h : x ∈ numbered make n rows) : ∃ row ∈ rows, ∃ i, x = make row i := by
  unfold numbered at h
  obtain ⟨⟨row, i⟩, hm, rfl⟩ := List.mem_map.1 h
  exact ⟨row, List.fst_mem_of_mem_zipIdx hm, i, rfl⟩

@[simp] lemma length_numbered : (numbered make n rows).length = rows.length := by
  unfold numbered
  rw [List.length_map, List.length_zipIdx]

lemma map_numbered {γ : Type} (f : β → γ) :
    (numbered make n rows).map f = numbered (fun row i => f (make row i)) n rows := by
  unfold numbered
  rw [List.map_map]
  rfl

end Numbered

/-- A step for each of some records that gives a record with the next ordinal to one and the same
pointer. -/
lemma exec_forEach_push {step : Diff → Resolve Resolution} (make : Diff → Nat → Diff) (keep : Bool)
    (hstep : ∀ row r, (step row).exec r =
      (.ok ⟨if keep then [make row (r.ordinal + 1)] else [], []⟩,
        ⟨r.arena.push p (make row (r.ordinal + 1)), r.ordinal + 1⟩)) (rows : List Diff) :
    (forEach step rows).exec r =
      (.ok ⟨if keep then numbered make r.ordinal rows else [], []⟩,
        ⟨r.arena.pushAll p (numbered make r.ordinal rows), r.ordinal + rows.length⟩) := by
  induction rows generalizing r with
  | nil => cases keep <;> rfl
  | cons row rows ih =>
    have hlen : r.ordinal + 1 + rows.length = r.ordinal + (row :: rows).length := by
      rw [List.length_cons]
      omega
    rw [exec_forEach_cons, hstep]
    dsimp only
    rw [ih, numbered_cons, Arena.pushAll_cons, hlen]
    cases keep <;> rfl

/-! ### Allocations -/

def actionOf (ctx : Context) (kind : ActionKind) (source destination : Option Int) (n : Nat) :
    Action :=
  ⟨(ctx.stamp kind.name ((destination.or source).getD 0) "" n).id, kind, source, destination,
    ctx.address, ctx.provenance⟩

@[simp] lemma exec_makeAction (kind : ActionKind) (source destination : Option Int) :
    (makeAction ctx kind source destination).exec r =
      (.ok (actionOf ctx kind source destination (r.ordinal + 1)),
        { r with ordinal := r.ordinal + 1 }) := rfl

lemma mapError_ok {ε ε' α : Type} {f : ε → ε'} {x : Except ε α} {a : α} :
    x.mapError f = .ok a ↔ x = .ok a := by
  cases x <;> simp [Except.mapError]

lemma ok_of_toOption_map {ε α β : Type} {x : Except ε α} {f : α → β} {b : β}
    (h : x.toOption.map f = some b) : ∃ a, x = .ok a ∧ f a = b := by
  cases x with
  | error e => cases h
  | ok a => exact ⟨a, rfl, Option.some.inj h⟩

lemma fst_ok_of_toOption_map {ε σ α β : Type} {x : Except ε α × σ} {f : α → β} {b : β}
    (h : x.1.toOption.map f = some b) : ∃ a, x = (.ok a, x.2) ∧ f a = b := by
  obtain ⟨a, ha, hf⟩ := ok_of_toOption_map h
  exact ⟨a, Prod.ext ha rfl, hf⟩

lemma fst_error_of_isOk {ε σ α : Type} {x : Except ε α × σ} (h : x.1.isOk = false) :
    ∃ e, x = (.error e, x.2) := by
  obtain ⟨_ | _, _⟩ := x
  · exact ⟨_, rfl⟩
  · cases h

/-- A successful allocation opens the pointer with the types it is given. -/
theorem alloc_ok {keyType valueType : Micheline}
    (h : (alloc ctx p keyType valueType).exec r = (.ok out, r')) :
    ∃ key value, Node.ofType keyType = .ok key ∧ Node.ofType valueType = .ok value ∧
      out = ⟨[], if 0 ≤ p then [actionOf ctx .alloc none (some p) (r.ordinal + 1)] else []⟩ ∧
      r' = ⟨r.arena.openAt p ⟨none, none, some (key, value)⟩,
        r.ordinal + if 0 ≤ p then 1 else 0⟩ := by
  unfold alloc at h
  simp only [bind_ok, exec_liftM, exec_modifyArena, Prod.mk.injEq, mapError_ok] at h
  obtain ⟨key, _, ⟨hk, rfl⟩, value, _, ⟨hv, rfl⟩, _, _, ⟨-, rfl⟩, h⟩ := h
  refine ⟨key, value, hk, hv, ?_⟩
  by_cases hp : 0 ≤ p
  · simp only [if_pos hp, bind_ok, exec_makeAction, exec_pure, Prod.mk.injEq] at h ⊢
    obtain ⟨_, _, ⟨ha, rfl⟩, ho, rfl⟩ := h
    cases ha
    cases ho
    exact ⟨rfl, rfl⟩
  · simp only [if_neg hp, exec_pure, Prod.mk.injEq] at h ⊢
    obtain ⟨ho, rfl⟩ := h
    cases ho
    exact ⟨rfl, rfl⟩

/-! ### Updates -/

/-- The types that the keys and the values of a pointer are normalized with. -/
def schemaOf (settings : Settings) (ctx : Context) (a : Arena) (p : Int) :
    Except ResolveError (Node × Node) := do
  typesOf ctx a p (pathOf? ctx a (← locate settings a p))

def updateOf (ctx : Context) (p : Int) (path : Option String) (keyHash : String)
    (entry : Normalized) (n : Nat) : Diff :=
  { id := (ctx.stamp "update" p keyHash n).id, pointer := p, key := entry.key, keyHash
    keyStrings := entry.keyStrings, value := entry.value, valueStrings := entry.valueStrings
    path := path.getD "", address := ctx.address, provenance := ctx.provenance }

lemma typesOf_keepPath {a : Arena} (h : a.Wf) (path path' : Option String) (q : Int) :
    typesOf ctx (a.keepPath p path) q path' = typesOf ctx a q path' := by
  unfold typesOf
  rw [Arena.types_keepPath p h]

/-- A successful update brings the key and the value into their normal form in the types of the
pointer, and gives the pointer a record of them. -/
theorem update_ok {key : Micheline} {keyHash : String} {value : Option Micheline}
    (hr : r.arena.Wf) (h : (update settings ctx p key keyHash value).exec r = (.ok out, r')) :
    ∃ located types entry, locate settings r.arena p = .ok located ∧
      let path := pathOf? ctx r.arena located
      let record := updateOf ctx p path keyHash entry (r.ordinal + 1)
      typesOf ctx r.arena p path = .ok types ∧ normalizeEntry types key value = .ok entry ∧
        out = kept record ∧
        r' = ⟨(r.arena.keepPath p path).push p record, r.ordinal + 1⟩ := by
  unfold update at h
  simp only [bind_ok, exec_liftM, exec_get, exec_modifyArena, exec_nextId, exec_pure,
    Prod.mk.injEq, Except.ok.injEq, mapError_ok] at h
  obtain ⟨_, _, ⟨rfl, rfl⟩, located, _, ⟨hl, rfl⟩, _, _, ⟨rfl, rfl⟩, _, _, ⟨-, rfl⟩, _, _,
    ⟨rfl, rfl⟩, types, _, ⟨ht, rfl⟩, entry, _, ⟨hn, rfl⟩, _, _, ⟨rfl, rfl⟩, _, _, ⟨-, rfl⟩,
    ho, rfl⟩ := h
  rw [typesOf_keepPath hr] at ht
  exact ⟨located, types, entry, hl, ht, hn, ho.symm, rfl⟩

/-! ### Copies -/

def copiesOf (ctx : Context) (d : Int) (path : String) : Nat → List Diff → List Diff :=
  numbered fun row n => ctx.copied d path row (ctx.stamp "copy" d row.keyHash n).id

/-- The actions of a copy: one if the destination is final. -/
def CopyActions (settings : Settings) (ctx : Context) (r : Resolver) (s d : Int)
    (actions : List Action) : Prop :=
  if 0 ≤ d then
    ∃ origin, resolveSource settings r.arena s = .ok origin ∧
      actions = [actionOf ctx .copy (final? origin) (some d) (r.ordinal + 1)]
  else actions = []

lemma recordCopy_ok (h : (recordCopy settings ctx s d).exec r = (.ok out, r')) :
    ∃ actions, CopyActions settings ctx r s d actions ∧ out = ⟨[], actions⟩ ∧
      r' = ⟨r.arena, r.ordinal + actions.length⟩ := by
  unfold recordCopy at h
  unfold CopyActions
  by_cases hd : 0 ≤ d
  · simp only [if_pos hd, bind_ok, exec_liftM, exec_get, exec_makeAction, exec_pure,
      Prod.mk.injEq, Except.ok.injEq] at h ⊢
    obtain ⟨_, _, ⟨rfl, rfl⟩, origin, _, ⟨ho, rfl⟩, _, _, ⟨rfl, rfl⟩, rfl, rfl⟩ := h
    exact ⟨_, ⟨origin, ho, rfl⟩, rfl, rfl⟩
  · simp only [if_neg hd, exec_pure, Prod.mk.injEq, Except.ok.injEq] at h ⊢
    obtain ⟨rfl, rfl⟩ := h
    exact ⟨[], rfl, rfl, rfl⟩

lemma exec_copyRecord (path : String) (row : Diff) (r : Resolver) :
    (copyRecord ctx d path row).exec r =
      (.ok ⟨if decide (0 ≤ d) then
          [ctx.copied d path row (ctx.stamp "copy" d row.keyHash (r.ordinal + 1)).id] else [], []⟩,
        ⟨r.arena.push d (ctx.copied d path row (ctx.stamp "copy" d row.keyHash (r.ordinal + 1)).id),
          r.ordinal + 1⟩) := by
  unfold copyRecord
  rw [exec_bind, exec_nextId]
  dsimp only
  rw [exec_bind, exec_modifyArena]
  dsimp only
  rw [exec_pure]
  unfold kept
  by_cases hd : 0 ≤ d <;> simp [Context.copied, hd] <;> rfl

lemma exec_copyRecords (path : String) (rows : List Diff) :
    (forEach (copyRecord ctx d path) rows).exec r =
      (.ok ⟨if decide (0 ≤ d) then copiesOf ctx d path r.ordinal rows else [], []⟩,
        ⟨r.arena.pushAll d (copiesOf ctx d path r.ordinal rows), r.ordinal + rows.length⟩) :=
  exec_forEach_push (fun row n => ctx.copied d path row (ctx.stamp "copy" d row.keyHash n).id) _
    (exec_copyRecord path) rows

/-- A successful copy links the destination to the source and gives it copies of the records that
are live at the source. -/
theorem copy_ok (h : (copy live settings ctx s d).exec r = (.ok out, r')) :
    ∃ actions rows link, CopyActions settings ctx r s d actions ∧
      liveRecords live ctx r.arena s = .ok rows ∧ copyLink ctx r.arena s d = .ok link ∧
      let a := (r.arena.setLink d link).touch d
      let n := r.ordinal + actions.length
      let copies := copiesOf ctx d ((pathOf? ctx a d).getD "") n rows
      out = ⟨if 0 ≤ d then copies else [], actions⟩ ∧
        r' = ⟨a.pushAll d copies, n + rows.length⟩ := by
  unfold copy at h
  simp only [bind_ok, exec_liftM, exec_get, exec_modifyArena, exec_pure, Prod.mk.injEq,
    Except.ok.injEq] at h
  obtain ⟨_, _, ha, _, _, ⟨rfl, rfl⟩, rows, _, ⟨hrows, rfl⟩, _, _, ⟨rfl, rfl⟩, link, _,
    ⟨hlink, rfl⟩, _, _, ⟨-, rfl⟩, _, _, ⟨-, rfl⟩, _, _, ⟨rfl, rfl⟩, _, _, hc, rfl, rfl⟩ := h
  obtain ⟨actions, hactions, rfl, rfl⟩ := recordCopy_ok ha
  rw [exec_copyRecords] at hc
  obtain ⟨ho, rfl⟩ := Prod.mk.inj hc
  cases ho
  refine ⟨actions, rows, link, hactions, hrows, hlink, ?_, rfl⟩
  simp only [decide_eq_true_eq]
  show Resolution.mk _ _ = _
  rw [List.nil_append, List.append_nil]

/-! ### Removals -/

/-- The records that the keys of some records are deleted. -/
def deletionsOf (ctx : Context) (p : Int) : Nat → List Diff → List Diff :=
  numbered fun row n => ctx.deleted row (ctx.stamp "remove" p row.keyHash n).id

lemma exec_deleteRecords (rows : List Diff) :
    (forEach (deleteRecord ctx p) rows).exec r =
      (.ok ⟨deletionsOf ctx p r.ordinal rows, []⟩,
        ⟨r.arena.pushAll p (deletionsOf ctx p r.ordinal rows), r.ordinal + rows.length⟩) :=
  exec_forEach_push (fun row n => ctx.deleted row (ctx.stamp "remove" p row.keyHash n).id) true
    (fun _ _ => rfl) rows

/-- The removal of a temporary pointer forgets its records. -/
theorem remove_of_neg (hp : p < 0) :
    (remove live ctx p).exec r = (.ok .empty, { r with arena := r.arena.discard p }) := by
  unfold remove
  rw [if_pos hp]
  rfl

/-- The successful removal of a final pointer records that all of its live keys are deleted. -/
theorem remove_ok (hp : 0 ≤ p) (h : (remove live ctx p).exec r = (.ok out, r')) :
    ∃ rows, liveRecords live ctx r.arena p = .ok rows ∧
      let deletions := deletionsOf ctx p r.ordinal rows
      out = ⟨deletions, [actionOf ctx .remove (some p) none (r.ordinal + rows.length + 1)]⟩ ∧
        r' = ⟨r.arena.pushAll p deletions, r.ordinal + rows.length + 1⟩ := by
  unfold remove at h
  rw [if_neg (Int.not_lt.2 hp)] at h
  simp only [bind_ok, exec_liftM, exec_get, exec_makeAction, exec_pure, Prod.mk.injEq,
    Except.ok.injEq] at h
  obtain ⟨_, _, ⟨rfl, rfl⟩, rows, _, ⟨hrows, rfl⟩, _, _, hd, _, _, ⟨rfl, rfl⟩, rfl, rfl⟩ := h
  rw [exec_deleteRecords] at hd
  obtain ⟨ho, rfl⟩ := Prod.mk.inj hd
  cases ho
  exact ⟨rows, hrows, congrArg (Resolution.mk · _) (List.append_nil _), rfl⟩

/-! ### Failures -/

lemma mapError_error {ε ε' α : Type} {f : ε → ε'} {x : Except ε α} {e : ε'} :
    x.mapError f = .error e ↔ ∃ e', x = .error e' ∧ f e' = e := by
  cases x <;> simp [Except.mapError]

lemma alloc_error {keyType valueType : Micheline}
    (h : (alloc ctx p keyType valueType).exec r = (.error err, r')) :
    r'.arena = r.arena ∧ ∃ e, err = .node e := by
  unfold alloc at h
  simp only [bind_error, exec_liftM, exec_modifyArena, Prod.mk.injEq, reduceCtorEq, false_and,
    false_or, mapError_error] at h
  rcases h with ⟨⟨e, -, rfl⟩, rfl⟩ | ⟨_, _, ⟨-, rfl⟩, ⟨⟨e, -, rfl⟩, rfl⟩ | ⟨_, _, -, _, _, -, h⟩⟩
  · exact ⟨rfl, e, rfl⟩
  · exact ⟨rfl, e, rfl⟩
  · split at h <;> cases h

/-- An update that fails has remembered the path of its pointer if it has got so far. -/
lemma update_error {key : Micheline} {keyHash : String} {value : Option Micheline}
    (h : (update settings ctx p key keyHash value).exec r = (.error err, r')) :
    locate settings r.arena p = .error err ∧ r' = r ∨
      ∃ located, locate settings r.arena p = .ok located ∧
        let path := pathOf? ctx r.arena located
        r'.arena = r.arena.keepPath p path ∧
          (typesOf ctx r'.arena p path = .error err ∨ ∃ e, err = .node e) := by
  unfold update at h
  simp only [bind_error, exec_liftM, exec_get, exec_modifyArena, exec_nextId, exec_pure,
    Prod.mk.injEq, Except.ok.injEq, reduceCtorEq, false_and, and_false, exists_false, false_or,
    or_false, mapError_error] at h
  obtain ⟨_, _, ⟨rfl, rfl⟩, ⟨hl, rfl⟩ | ⟨located, _, ⟨hl, rfl⟩, _, _, ⟨rfl, rfl⟩, _, _, ⟨-, rfl⟩,
    _, _, ⟨rfl, rfl⟩, ⟨ht, rfl⟩ | ⟨_, _, ⟨-, rfl⟩, ⟨e, -, rfl⟩, rfl⟩⟩⟩ := h
  · exact .inl ⟨hl, rfl⟩
  · exact .inr ⟨located, hl, rfl, .inl ht⟩
  · exact .inr ⟨located, hl, rfl, .inr ⟨e, rfl⟩⟩

lemma recordCopy_error (h : (recordCopy settings ctx s d).exec r = (.error err, r')) :
    r' = r ∧ resolveSource settings r.arena s = .error err := by
  unfold recordCopy at h
  split at h
  · simp only [bind_error, exec_liftM, exec_get, exec_makeAction, exec_pure, Prod.mk.injEq,
      Except.ok.injEq, reduceCtorEq, false_and, and_false, exists_false, false_or, or_false] at h
    obtain ⟨_, _, ⟨rfl, rfl⟩, horigin, rfl⟩ := h
    exact ⟨rfl, horigin⟩
  · cases h

lemma copy_error (h : (copy live settings ctx s d).exec r = (.error err, r')) :
    r'.arena = r.arena ∧
      (resolveSource settings r.arena s = .error err ∨ liveRecords live ctx r.arena s = .error err ∨
        copyLink ctx r.arena s d = .error err) := by
  unfold copy at h
  simp only [bind_error, exec_liftM, exec_get, exec_modifyArena, exec_pure, exec_copyRecords,
    Prod.mk.injEq, Except.ok.injEq, reduceCtorEq, false_and, and_false, exists_false, false_or,
    or_false] at h
  rcases h with haction | ⟨_, _, haction, _, _, ⟨rfl, rfl⟩, hrest⟩
  · obtain ⟨rfl, horigin⟩ := recordCopy_error haction
    exact ⟨rfl, .inl horigin⟩
  · obtain ⟨_, -, -, rfl⟩ := recordCopy_ok haction
    rcases hrest with ⟨hrows, rfl⟩ | ⟨_, _, ⟨-, rfl⟩, _, _, ⟨rfl, rfl⟩, ⟨hlink, rfl⟩⟩
    · exact ⟨rfl, .inr (.inl hrows)⟩
    · exact ⟨rfl, .inr (.inr hlink)⟩

lemma remove_error (h : (remove live ctx p).exec r = (.error err, r')) :
    r' = r ∧ 0 ≤ p ∧ liveRecords live ctx r.arena p = .error err := by
  unfold remove at h
  split at h
  · cases h
  · next hp =>
    simp only [bind_error, exec_liftM, exec_get, exec_deleteRecords, exec_makeAction, exec_pure,
      Prod.mk.injEq, Except.ok.injEq, reduceCtorEq, false_and, and_false, exists_false, false_or,
      or_false] at h
    obtain ⟨_, _, ⟨rfl, rfl⟩, hrows, rfl⟩ := h
    exact ⟨rfl, Int.not_lt.1 hp, hrows⟩

/-- An entry that fails has at most remembered the path of a pointer. -/
theorem entry_error {e : LogEntry}
    (h : (entry live settings ctx e).exec r = (.error err, r')) :
    ∃ q path, r'.arena = r.arena.keepPath q path := by
  cases e with
  | alloc pointer keyType valueType => exact ⟨0, none, (alloc_error h).1⟩
  | update pointer key keyHash value =>
    rcases update_error h with ⟨-, rfl⟩ | ⟨_, -, ha, -⟩
    · exact ⟨pointer, none, rfl⟩
    · exact ⟨pointer, _, ha⟩
  | copy source destination => exact ⟨0, none, (copy_error h).1⟩
  | remove pointer => exact ⟨0, none, congrArg Resolver.arena (remove_error h).1⟩

/-! ### Reachable states -/

/-- The states between the logs of a group, whatever their contexts are, whatever the repository
answers, and whether they succeed or fail. -/
inductive Reachable (settings : Settings) : Resolver → Prop
  | start : Reachable settings .start
  | resolve (live : LiveRecords) (ctx : Context) (log : List LogEntry) {r : Resolver}
    (h : Reachable settings r) : Reachable settings ((resolve live settings ctx log).exec r).2

/-- What is kept by every entry of every log holds of all reachable states. -/
theorem Reachable.keeps {P : Resolver → Prop} (hstart : P .start)
    (hentry : ∀ live ctx e r, P r → P ((entry live settings ctx e).exec r).2)
    (h : Reachable settings r) : P r := by
  induction h with
  | start => exact hstart
  | resolve live ctx log _ ih => exact forEach_keeps (hentry live ctx) log ih

/-- A context to try things in: that of a contract without types of its own. -/
def sampleContext : Context :=
  ⟨.ofRoots [], [], Conformance.address, Conformance.provenance 11⟩

/-- The storage of a contract with two big maps of different types. -/
def twoBigMaps : Micheline :=
  .prim "pair" [.prim "big_map" [.prim "bytes" [] [], .prim "nat" [] []] [],
    .prim "big_map" [.prim "string" [] [], .prim "string" [] []] []] []

def twoBigMapsContext (pointers : Dictionary Int String) (address : String) : Context :=
  ⟨(Tree.ofType twoBigMaps).toOption.getD (.ofRoots []), pointers, address,
    Conformance.provenance 11⟩

/-- A store with a single record, of the pointer 7. -/
def storeOfSeven : Store := ⟨[Conformance.diff "d1" 7 "exprA" (some 1) 10], [], ["d1"], []⟩

theorem wf_entry (e : LogEntry) (h : r.arena.Wf) :
    ((entry live settings ctx e).exec r).2.arena.Wf := by
  rcases hx : (entry live settings ctx e).exec r with ⟨_ | out, r'⟩
  · obtain ⟨q, path, ha⟩ := entry_error hx
    exact ha ▸ h.keepPath q path
  · cases e with
    | alloc pointer keyType valueType =>
      obtain ⟨key, value, -, -, -, rfl⟩ := alloc_ok hx
      exact h.openAt pointer _
    | update pointer key keyHash value =>
      obtain ⟨_, _, _, _, -, -, -, rfl⟩ := update_ok h hx
      exact (h.keepPath pointer _).push pointer _
    | copy source destination =>
      obtain ⟨_, _, _, -, -, -, -, rfl⟩ := copy_ok hx
      exact ((h.setLink destination _).touch destination).pushAll destination _
    | remove pointer =>
      by_cases hp : pointer < 0
      · cases (remove_of_neg hp).symm.trans hx
        exact h.discard pointer
      · obtain ⟨_, -, -, rfl⟩ := remove_ok (Int.not_lt.1 hp) hx
        exact h.pushAll pointer _

lemma wf_of_entry_ok {e : LogEntry} (hr : r.arena.Wf)
    (h : (entry live settings ctx e).exec r = (.ok out, r')) : r'.arena.Wf := by
  have hwf : ((entry live settings ctx e).exec r).2.arena.Wf := wf_entry e hr
  rw [h] at hwf
  exact hwf

theorem Reachable.wf (h : Reachable settings r) : r.arena.Wf :=
  h.keeps (P := fun r => r.arena.Wf) Arena.wf_empty fun _ _ e _ hr => wf_entry e hr

end Resolver

end Lineage
