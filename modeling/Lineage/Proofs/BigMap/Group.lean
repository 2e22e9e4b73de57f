import Lineage.Proofs.BigMap.Heritage

/-!
# What the calls of a group do

One resolver goes through the logs of a group. An entry that fails ends its log, and changes nothing
but perhaps a path that is remembered. So the history of a group is told by the entries that took
effect, those of failed logs before the failure among them (`effects`). An invariant may speak of
this history: it holds after any calls if an entry that succeeds keeps it, with the entry added to
the history, and if an entry that fails keeps it as it is (`effects_keep`).
-/

namespace Lineage.Resolver

open Resolve

/-- The entries of a log that take effect: those before the first one that fails. -/
def effective (live : LiveRecords) (settings : Settings) (ctx : Context) :
    List LogEntry → Resolver → List LogEntry
  | [], _ => []
  | e :: log, r =>
    match (entry live settings ctx e).exec r with
    | (.ok _, r') => e :: effective live settings ctx log r'
    | (.error _, _) => []

def Call.after (settings : Settings) (c : Call) (r : Resolver) : Resolver :=
  ((resolve c.live settings c.ctx c.log).exec r).2

/-- The entries that take effect in calls that begin in a state. -/
def effectsFrom (settings : Settings) : Resolver → List Call → List LogEntry
  | _, [] => []
  | r, c :: calls =>
    effective c.live settings c.ctx c.log r ++ effectsFrom settings (c.after settings r) calls

/-- The entries that took effect in the calls of a group, in their order. -/
def effects (settings : Settings) (calls : List Call) : List LogEntry :=
  effectsFrom settings .start calls

variable {live : LiveRecords} {settings : Settings} {ctx : Context} {r r' : Resolver}
  {calls : List Call} {log earlier : List LogEntry}
  {P : List LogEntry → Resolver → Prop}

/-! ### Logs that fail -/

lemma forEach_cons_error {α : Type} {step : α → Resolve Resolution} {item : α} {items : List α}
    {err : ResolveError} :
    (forEach step (item :: items)).exec r = (.error err, r') ↔
      (step item).exec r = (.error err, r') ∨
        ∃ o r₁, (step item).exec r = (.ok o, r₁) ∧
          (forEach step items).exec r₁ = (.error err, r') := by
  rw [exec_forEach_cons]
  rcases (step item).exec r with ⟨e | o, r₁⟩
  · simp
  · dsimp only
    rcases hrest : (forEach step items).exec r₁ with ⟨e | o₂, r₂⟩ <;> simp [hrest]

/-! ### Invariants of histories -/

/-- The two things that an entry may do to an invariant of a history. -/
structure Keeps (P : List LogEntry → Resolver → Prop) (live : LiveRecords) (settings : Settings)
    (ctx : Context) : Prop where
  ok {earlier : List LogEntry} {r r' : Resolver} {e : LogEntry} {out : Resolution}
    (hr : P earlier r) (he : (entry live settings ctx e).exec r = (.ok out, r')) :
    P (earlier ++ [e]) r'
  error {earlier : List LogEntry} {r r' : Resolver} {e : LogEntry} {err : ResolveError}
    (hr : P earlier r) (he : (entry live settings ctx e).exec r = (.error err, r')) :
    P earlier r'

theorem effective_keep (hP : Keeps P live settings ctx) (log : List LogEntry)
    (hr : P earlier r) :
    P (earlier ++ effective live settings ctx log r)
      ((resolve live settings ctx log).exec r).2 := by
  induction log generalizing r earlier with
  | nil =>
    show P (earlier ++ []) r
    rw [List.append_nil]
    exact hr
  | cons e log ih =>
    unfold resolve effective
    rw [exec_forEach_cons]
    rcases he : (entry live settings ctx e).exec r with ⟨err | out, r₁⟩
    · dsimp only
      rw [List.append_nil]
      exact hP.error hr he
    · have hrest := ih (hP.ok hr he)
      rw [List.append_assoc] at hrest
      unfold resolve at hrest
      dsimp only
      rcases hx : (forEach (entry live settings ctx) log).exec r₁ with ⟨err | o₂, r₂⟩ <;>
        rw [hx] at hrest <;> exact hrest

/-- What holds of the start, and is kept by the entries of all calls, holds after the calls. -/
theorem effects_keep (hstart : P [] .start)
    (hP : ∀ c ∈ calls, Keeps P c.live settings c.ctx) :
    P (effects settings calls) (resolveAll settings calls) := by
  have hfrom : ∀ r earlier, P earlier r → P (earlier ++ effectsFrom settings r calls)
      (calls.foldl (fun r c => c.after settings r) r) := by
    induction calls with
    | nil =>
      intro r earlier hr
      show P (earlier ++ []) r
      rw [List.append_nil]
      exact hr
    | cons c calls ih =>
      intro r earlier hr
      have hc := effective_keep (hP c List.mem_cons_self) c.log hr
      have hrest := ih (fun c' hc' => hP c' (List.mem_cons_of_mem _ hc')) _ _ hc
      rw [List.append_assoc] at hrest
      exact hrest
  exact hfrom .start [] hstart

end Lineage.Resolver
