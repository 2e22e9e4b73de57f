import Lineage.Proofs.BigMap.Ancestry

/-!
# Orderly logs

A log is orderly if it updates and copies from nothing but big maps that are there: those that the
history has opened, and those in the storage of the contract. An orderly log can only fail for
reasons that lie outside of it (`Unavoidable`): a type or a value that is no such thing, or a
repository that does not answer. It never fails for a pointer that cannot be resolved or for types
that are not known (`unavoidable_of_orderly`).

What has to be there is said by `Grounded`: an open pointer has types and records, and the chain
that it came from has links up to its end. A removal takes the records of a temporary pointer away
but leaves its link, so that pointers copied from it before can still be traced.
-/

namespace Lineage

/-! ### Orderly logs -/

def LogEntry.openAfter (opened : List Int) : LogEntry → List Int
  | alloc p _ _ => p :: opened
  | copy _ d => d :: opened
  | update _ _ _ _ => opened
  | remove p => if p < 0 then opened.filter (· ≠ p) else opened

/-- The pointers that were allocated or copied to, but for temporary ones removed since. -/
def openPointers (history : List LogEntry) : List Int := history.foldl LogEntry.openAfter []

/-- The pointer whose big map has to be there for an entry. -/
def LogEntry.subject? : LogEntry → Option Int
  | update p _ _ _ => some p
  | copy s _ => some s
  | alloc _ _ _ => none
  | remove _ => none

/-- At every path of a pointer in the storage there is a big map. -/
def Context.Locates (ctx : Context) : Prop :=
  ∀ p path, Dictionary.find? p ctx.pointers = some path →
    (ctx.storageType.bigMapTypes? path).isSome

namespace Resolver

open Function Resolve

/-- A pointer is open, or final and in the storage of the contract. -/
def Present (ctx : Context) (history : List LogEntry) (p : Int) : Prop :=
  p ∈ openPointers history ∨ 0 ≤ p ∧ (Dictionary.find? p ctx.pointers).isSome

/-- After a history, a log updates and copies from pointers only that are present then and that were
not copied too often. -/
def Orderly (settings : Settings) (ctx : Context) : List LogEntry → List LogEntry → Prop
  | _, [] => True
  | history, e :: log =>
    (∀ p ∈ e.subject?, Present ctx history p ∧
      (ancestors history p).length ≤ settings.maxChainLength) ∧
    Orderly settings ctx (history ++ [e]) log

instance (ctx : Context) (history : List LogEntry) (p : Int) : Decidable (Present ctx history p) :=
  inferInstanceAs (Decidable (_ ∨ _))

instance Orderly.decidable (settings : Settings) (ctx : Context) :
    ∀ history log, Decidable (Orderly settings ctx history log)
  | _, [] => .isTrue trivial
  | history, e :: log =>
    have := Orderly.decidable settings ctx (history ++ [e]) log
    inferInstanceAs (Decidable (_ ∧ _))

/-- What a log cannot see to: that types and values are such, and that the repository answers. -/
inductive Unavoidable (live : LiveRecords) : ResolveError → Prop
  | node (error : NodeError) : Unavoidable live (.node error)
  | ledger {place : Place} {error : LedgerError} (h : live place = .error error) :
    Unavoidable live (.ledger error)

variable {live : LiveRecords} {settings : Settings} {ctx : Context} {a : Arena}
  {r r' : Resolver} {out : Resolution} {err : ResolveError} {calls : List Call}
  {earlier log log' : List LogEntry} {e : LogEntry} {p q s d start : Int} {n : Nat}

lemma orderly_append :
    Orderly settings ctx earlier (log ++ log') ↔
      Orderly settings ctx earlier log ∧ Orderly settings ctx (earlier ++ log) log' := by
  induction log generalizing earlier with
  | nil => simp [Orderly]
  | cons e log ih => simp only [List.cons_append, Orderly, ih, List.append_assoc, and_assoc,
      List.nil_append]

lemma openPointers_concat :
    openPointers (earlier ++ [e]) = e.openAfter (openPointers earlier) := by
  unfold openPointers
  rw [List.foldl_append]
  rfl

lemma mem_openAfter {opened : List Int} (h : p ∈ e.openAfter opened) :
    e.destination? = some p ∨ p ∈ opened := by
  cases e with
  | alloc q _ _ | copy _ q =>
    exact (List.mem_cons.1 h).imp_left fun hpq => congrArg some hpq.symm
  | update _ _ _ _ => exact .inr h
  | remove q =>
    right
    change p ∈ (if q < 0 then opened.filter (· ≠ q) else opened) at h
    split at h
    · exact List.mem_of_mem_filter h
    · exact h

/-! ### What is there -/

/-- **What is known of open pointers**: their types, their records, and their chains. -/
structure Grounded (earlier : List LogEntry) (a : Arena) : Prop where
  traced : Traced earlier a
  types {p : Int} (hp : p ∈ openPointers earlier) : ((a.link? p).bind Link.types).isSome
  records {p : Int} (hp : p ∈ openPointers earlier) : (a.records? p).isSome
  linked {p s : Int} (hs : (a.link? p).map Link.source = some (some s)) (hneg : s < 0) :
    (a.link? s).isSome

lemma grounded_start : Grounded [] Resolver.start.arena where
  traced := traced_start
  types hp := by cases hp
  records hp := by cases hp
  linked hs := by cases hs

lemma isSome_link?_of_source_eq {b : Arena}
    (h : (b.link? p).map Link.source = (a.link? p).map Link.source) :
    (b.link? p).isSome ↔ (a.link? p).isSome := by
  rw [← Option.isSome_map, h, Option.isSome_map]

lemma Grounded.link (hg : Grounded earlier a) (hp : p ∈ openPointers earlier) :
    (a.link? p).isSome := by
  have htypes := hg.types hp
  cases hl : a.link? p with
  | none =>
    rw [hl] at htypes
    cases htypes
  | some l => rfl

lemma Grounded.keepPath (hg : Grounded earlier a) (p : Int) (path : Option String) :
    Grounded earlier (a.keepPath p path) where
  traced := hg.traced.keepPath p path
  types hq := by
    rw [Arena.types_keepPath p hg.traced.tidy.wf]
    exact hg.types hq
  records hq := by
    rw [Arena.records?_keepPath p hg.traced.tidy.wf]
    exact hg.records hq
  linked {q s} hs hneg := by
    rw [Arena.source_keepPath p hg.traced.tidy.wf] at hs
    exact (isSome_link?_of_source_eq (Arena.source_keepPath p hg.traced.tidy.wf path s)).2
      (hg.linked hs hneg)

lemma Present.mem_openPointers (hp : Present ctx earlier p) (hneg : p < 0) :
    p ∈ openPointers earlier := hp.resolve_right fun h => absurd h.1 (Int.not_le.2 hneg)

/-- The types of a pointer that is present are found if its own path, where it has one in the
storage, is looked at. -/
lemma Grounded.typesOf (hg : Grounded earlier a) (hl : ctx.Locates) (hp : Present ctx earlier p)
    (path : Option String)
    (hpath : ∀ x, 0 ≤ p → Dictionary.find? p ctx.pointers = some x → path = some x) :
    ∃ types, Resolver.typesOf ctx a p path = .ok types := by
  have hsome : ((typesAt? ctx path).or ((a.link? p).bind Link.types)).isSome := by
    rw [Option.isSome_or, Bool.or_eq_true]
    rcases hp with hopen | ⟨hfinal, hlisted⟩
    · exact .inr (hg.types hopen)
    · obtain ⟨x, hx⟩ := Option.isSome_iff_exists.1 hlisted
      rw [hpath x hfinal hx]
      exact .inl (hl p x hx)
  obtain ⟨types, htypes⟩ := Option.isSome_iff_exists.1 hsome
  refine ⟨types, ?_⟩
  rw [typesOf_eq, htypes]

lemma pathOf?_of_find? {x : String} (h : Dictionary.find? p ctx.pointers = some x) :
    pathOf? ctx a p = some x := by
  unfold pathOf?
  rw [h]
  rfl

lemma source_of_not_isHome (hhome : ¬ IsHome a p) (hlink : p < 0 → (a.link? p).isSome) :
    p < 0 ∧ ∃ s, (a.link? p).map Link.source = some (some s) := by
  unfold IsHome at hhome
  rw [not_or, Int.not_le] at hhome
  refine ⟨hhome.1, ?_⟩
  obtain ⟨l, hl⟩ := Option.isSome_iff_exists.1 (hlink hhome.1)
  rw [hl, Option.map_some] at hhome ⊢
  cases hs : l.source with
  | none => exact absurd (congrArg some hs) hhome.2
  | some s => exact ⟨s, rfl⟩

/-- A chain that is short enough is followed to its end. -/
theorem Grounded.followLinks (hg : Grounded earlier a) (hlink : p < 0 → (a.link? p).isSome)
    (hn : (ancestors earlier p).length ≤ n) :
    ∃ q, Resolver.followLinks a start n p = .ok q := by
  induction n generalizing p with
  | zero =>
    refine ⟨p, followLinks_of_isHome ?_⟩
    by_contra hhome
    obtain ⟨hneg, s, hs⟩ := source_of_not_isHome hhome hlink
    rw [hg.traced.chain hneg hs] at hn
    cases hn
  | succ n ih =>
    by_cases hhome : IsHome a p
    · exact ⟨p, followLinks_of_isHome hhome⟩
    · obtain ⟨hneg, s, hs⟩ := source_of_not_isHome hhome hlink
      rw [hg.traced.chain hneg hs] at hn
      obtain ⟨q, hq⟩ := ih (hg.linked hs) (Nat.le_of_succ_le_succ hn)
      refine ⟨q, ?_⟩
      rw [followLinks_eq, if_neg (Int.not_le.2 hneg), hs]
      exact hq

/-! ### Entries that succeed -/

lemma link?_destination (hr : r.arena.Wf) (hd : e.destination? = some d)
    (h : (Resolver.entry live settings ctx e).exec r = (.ok out, r')) :
    ∃ l, r'.arena.link? d = some l ∧
      ((∃ types, l = ⟨none, none, some types⟩) ∨
        ∃ s, e.subject? = some s ∧ copyLink ctx r.arena s d = .ok l) := by
  cases e with
  | alloc p keyType valueType =>
    cases hd
    obtain ⟨key, value, -, -, -, rfl⟩ := alloc_ok h
    refine ⟨_, ?_, .inl ⟨(key, value), rfl⟩⟩
    rw [Arena.link?_openAt d _ hr, update_self]
  | copy s p =>
    cases hd
    obtain ⟨actions, rows, l, -, -, hl, -, rfl⟩ := copy_ok h
    refine ⟨l, ?_, .inr ⟨s, rfl, hl⟩⟩
    rw [link?_copied hr, update_self]
  | update p key keyHash value => cases hd
  | remove p => cases hd

lemma isSome_records?_target (hr : r.arena.Wf) (hp : e.target ∈ openPointers (earlier ++ [e]))
    (hrecords : e.target ∈ openPointers earlier → (r.arena.records? e.target).isSome)
    (h : (Resolver.entry live settings ctx e).exec r = (.ok out, r')) :
    (r'.arena.records? e.target).isSome := by
  rw [openPointers_concat] at hp
  cases e with
  | alloc p keyType valueType =>
    obtain ⟨key, value, -, -, -, rfl⟩ := alloc_ok h
    show ((r.arena.openAt p _).records? p).isSome
    rw [Arena.records?_openAt p _ hr, update_self]
    rfl
  | update p key keyHash value =>
    obtain ⟨q, types, entry, -, -, -, -, rfl⟩ := update_ok hr h
    show (((r.arena.keepPath p _).push p _).records? p).isSome
    rw [Arena.records?_push p _ (hr.keepPath p _), update_self]
    rfl
  | copy s d =>
    obtain ⟨actions, rows, l, -, -, -, -, rfl⟩ := copy_ok h
    have hset := hr.setLink d l
    exact Arena.isSome_records?_pushAll (hset.touch d) (Arena.isSome_records?_touch hset d) _
  | remove p =>
    by_cases hneg : p < 0
    · change p ∈ (if p < 0 then (openPointers earlier).filter (· ≠ p) else _) at hp
      rw [if_pos hneg] at hp
      exact absurd rfl (of_decide_eq_true (List.mem_filter.1 hp).2)
    · change p ∈ (if p < 0 then _ else openPointers earlier) at hp
      rw [if_neg hneg] at hp
      obtain ⟨rows, -, -, rfl⟩ := remove_ok (Int.not_lt.1 hneg) h
      exact Arena.isSome_records?_pushAll hr (hrecords hp) _

lemma Grounded.copyLink (hg : Grounded earlier a) (hl : ctx.Locates) (hs : Present ctx earlier s) :
    ∃ l, Resolver.copyLink ctx a s d = .ok l ∧ l.types.isSome := by
  obtain ⟨types, htypes⟩ := hg.typesOf hl hs ((pathOf? ctx a s).or (pathOf? ctx a d))
    fun x _ hx => by rw [pathOf?_of_find? hx, Option.some_or]
  unfold Resolver.copyLink
  dsimp only
  rw [htypes]
  refine ⟨_, if_neg ?_, rfl⟩
  rw [Bool.and_eq_true, not_and_or]
  exact .inr Bool.false_ne_true

/-- **One entry** that succeeds leaves what is known of open pointers as it is, and its destination
is as well known as its source. -/
theorem Grounded.entry (hg : Grounded earlier r.arena) (hl : ctx.Locates)
    (hsub : ∀ p ∈ e.subject?, Present ctx earlier p)
    (hd : ∀ d ∈ e.destination?, d ∉ earlier.flatMap LogEntry.pointers)
    (h : (Resolver.entry live settings ctx e).exec r = (.ok out, r')) :
    Grounded (earlier ++ [e]) r'.arena := by
  have hwf := hg.traced.tidy.wf
  have hopened : ∀ p, p ∈ openPointers (earlier ++ [e]) →
      e.destination? = some p ∨ p ∈ openPointers earlier := by
    intro p hp
    rw [openPointers_concat] at hp
    exact mem_openAfter hp
  have hsame : ∀ p, e.destination? ≠ some p → SameTypes ctx [p] r.arena r'.arena :=
    fun p hp => sameTypes_of_ne hwf hp h
  have hkept : ∀ p, (r.arena.link? p).isSome → (r'.arena.link? p).isSome := by
    intro p hp
    by_cases hdest : e.destination? = some p
    · obtain ⟨l, hlink, -⟩ := link?_destination hwf hdest h
      rw [hlink]
      rfl
    · exact (isSome_link?_of_source_eq ((hsame p hdest).source List.mem_cons_self)).2 hp
  refine ⟨hg.traced.entry hd h, fun {p} hp => ?_, fun {p} hp => ?_, fun {p s} hs hneg => ?_⟩
  · by_cases hdest : e.destination? = some p
    · obtain ⟨l, hlink, ⟨types, rfl⟩ | ⟨s, hs, hcopy⟩⟩ := link?_destination hwf hdest h
      · rw [hlink]
        rfl
      · rw [hlink]
        obtain ⟨l', hcopy', htypes⟩ := hg.copyLink hl (hsub s hs)
        cases hcopy.symm.trans hcopy'
        exact htypes
    · rw [(hsame p hdest).types List.mem_cons_self]
      exact hg.types ((hopened p hp).resolve_left hdest)
  · by_cases htarget : p = e.target
    · subst htarget
      exact isSome_records?_target hwf hp hg.records h
    · have hslot := slot?_entry hwf h htarget
      unfold Arena.records?
      rw [hslot]
      refine hg.records ((hopened p hp).resolve_left fun hdest => htarget ?_)
      cases e <;> cases hdest <;> rfl
  · by_cases hdest : e.destination? = some p
    · obtain ⟨l, hlink, ⟨types, rfl⟩ | ⟨s', hs', hcopy⟩⟩ := link?_destination hwf hdest h
      · rw [hlink] at hs
        cases hs
      · rw [hlink, copyLink_ok hcopy] at hs
        cases hs
        exact hkept s (hg.link ((hsub s hs').mem_openPointers hneg))
    · rw [(hsame p hdest).source List.mem_cons_self] at hs
      exact hkept s (hg.linked hs hneg)

/-! ### Entries that fail -/

/-- The repository is to blame, unless a temporary pointer has no records. -/
lemma liveRecords_error (hp : p < 0 → (a.records? p).isSome)
    (h : liveRecords live ctx a p = .error err) : Unavoidable live err := by
  unfold liveRecords at h
  dsimp only at h
  split at h
  · cases hlive : live (ctx.place p) with
    | error e =>
      rw [hlive] at h
      cases h
      exact .ledger hlive
    | ok held =>
      rw [hlive] at h
      cases h
  · next hfinal =>
    have hsome := hp (Int.not_le.1 hfinal)
    rw [Option.isNone_eq_false_iff.2 hsome] at h
    cases h

/-- **One entry** that fails where its big map is there is not to blame for it. -/
theorem Grounded.unavoidable_entry (hg : Grounded earlier r.arena) (hl : ctx.Locates)
    (hsub : ∀ p ∈ e.subject?, Present ctx earlier p ∧
      (ancestors earlier p).length ≤ settings.maxChainLength)
    (h : (Resolver.entry live settings ctx e).exec r = (.error err, r')) :
    Unavoidable live err := by
  have hchain : ∀ p ∈ e.subject?, ∃ q, resolveSource settings r.arena p = .ok q := by
    intro p hp
    obtain ⟨hpresent, hlength⟩ := hsub p hp
    exact hg.followLinks (fun hneg => hg.link (hpresent.mem_openPointers hneg)) hlength
  cases e with
  | alloc p keyType valueType =>
    obtain ⟨-, e, rfl⟩ := alloc_error h
    exact .node e
  | update p key keyHash value =>
    obtain ⟨hpresent, -⟩ := hsub p rfl
    obtain ⟨q, hq⟩ : ∃ q, locate settings r.arena p = .ok q := by
      unfold locate
      split
      · exact hchain p rfl
      · exact ⟨p, rfl⟩
    have hpath : ∀ x, 0 ≤ p → Dictionary.find? p ctx.pointers = some x →
        pathOf? ctx r.arena q = some x := by
      intro x hfinal hx
      cases (locate_of_isHome (.inl hfinal)).symm.trans hq
      exact pathOf?_of_find? hx
    obtain ⟨types, htypes⟩ := hg.typesOf hl hpresent _ hpath
    rcases update_error h with ⟨hlocate, -⟩ | ⟨located, hlocate, ha, hunknown | ⟨e, rfl⟩⟩
    · cases hq.symm.trans hlocate
    · cases hq.symm.trans hlocate
      rw [ha, typesOf_keepPath hg.traced.tidy.wf, htypes] at hunknown
      cases hunknown
    · exact .node e
  | copy s d =>
    obtain ⟨hpresent, -⟩ := hsub s rfl
    obtain ⟨q, hq⟩ := hchain s rfl
    obtain ⟨l, hlink, -⟩ := hg.copyLink hl hpresent
    obtain ⟨-, horigin | hrows | hlink'⟩ := copy_error h
    · cases hq.symm.trans horigin
    · exact liveRecords_error (fun hneg => hg.records (hpresent.mem_openPointers hneg)) hrows
    · cases hlink.symm.trans hlink'
  | remove p =>
    obtain ⟨-, hfinal, hrows⟩ := remove_error h
    exact liveRecords_error (fun hneg => absurd hfinal (Int.not_le.2 hneg)) hrows

theorem Grounded.unavoidable_log (hg : Grounded earlier r.arena) (hl : ctx.Locates)
    (hf : FreshDestinations (earlier ++ log)) (ho : Orderly settings ctx earlier log)
    (h : (forEach (Resolver.entry live settings ctx) log).exec r = (.error err, r')) :
    Unavoidable live err := by
  induction log generalizing r earlier with
  | nil => cases h
  | cons e log ih =>
    obtain ⟨hsub, hlog⟩ := ho
    rcases forEach_cons_error.1 h with h₁ | ⟨o, r₁, h₁, h₂⟩
    · exact hg.unavoidable_entry hl hsub h₁
    · have hg₁ := hg.entry hl (fun p hp => (hsub p hp).1) (fresh_of_append hf) h₁
      exact ih hg₁ (by rwa [List.append_assoc]) hlog h₂

/-! ### Groups -/

theorem keeps_grounded (hl : ctx.Locates) :
    Keeps (fun earlier r => FreshDestinations earlier → Orderly settings ctx [] earlier →
      Grounded earlier r.arena) live settings ctx where
  ok hr he hf ho := by
    obtain ⟨hearlier, hsub, -⟩ := orderly_append.1 ho
    exact (hr (fresh_left hf) hearlier).entry hl (fun p hp => (hsub p hp).1) (fresh_of_append hf) he
  error hr he hf ho := by
    obtain ⟨q, path, ha⟩ := entry_error he
    rw [ha]
    exact (hr hf ho).keepPath q path

/-- **Orderly logs resolve**: in the calls of a group, all in one context with a big map at every
path of a pointer, a log fails only if a type or a value in it is no such thing or the repository
does not answer, provided that the entries that took effect and those of the log allocate and copy
to unused pointers, and update and copy from nothing but big maps that are there. -/
theorem unavoidable_of_orderly (hctx : ∀ c ∈ calls, c.ctx = ctx) (hl : ctx.Locates)
    (hfresh : FreshDestinations (effects settings calls ++ log))
    (horderly : Orderly settings ctx [] (effects settings calls ++ log))
    (h : (resolve live settings ctx log).exec (resolveAll settings calls) = (.error err, r')) :
    Unavoidable live err := by
  obtain ⟨hearlier, hlog⟩ := orderly_append.1 horderly
  have hg : Grounded (effects settings calls) (resolveAll settings calls).arena := by
    refine effects_keep (P := fun earlier r => FreshDestinations earlier →
      Orderly settings ctx [] earlier → Grounded earlier r.arena) (fun _ _ => grounded_start)
      (fun c hc => ?_) (fresh_left hfresh) hearlier
    rw [hctx c hc]
    exact keeps_grounded hl
  exact hg.unavoidable_log hl hfresh hlog h

theorem unavoidable_of_orderly_copiesOfSeven :
    let ctx := twoBigMapsContext [(7, "0/0")] Conformance.address
    let log := [.copy (-4) 5, .update (-1) (.int "1") "exprC" none]
    ∃ err r', (∀ c ∈ copiesOfSeven, c.ctx = ctx) ∧ ctx.Locates ∧
      FreshDestinations (effects .default copiesOfSeven ++ log) ∧
      Orderly .default ctx [] (effects .default copiesOfSeven ++ log) ∧
      (resolve (Store.repository.live storeOfSeven) .default ctx log).exec
        (resolveAll .default copiesOfSeven) = (.error err, r') ∧
      Unavoidable (Store.repository.live storeOfSeven) err := by
  intro ctx log
  have hctx : ∀ c ∈ copiesOfSeven, c.ctx = ctx := by simp [copiesOfSeven, ctx]
  have hlocates : ctx.Locates := by
    intro p path hpath
    have htypes : (ctx.storageType.bigMapTypes? "0/0").isSome := by decide +kernel
    change Dictionary.find? p [(7, "0/0")] = some path at hpath
    rw [Dictionary.find?_cons] at hpath
    split at hpath <;> cases hpath
    exact htypes
  have hfresh : FreshDestinations (effects .default copiesOfSeven ++ log) := by decide +kernel
  have horderly : Orderly .default ctx [] (effects .default copiesOfSeven ++ log) := by
    decide +kernel
  have hrun : ((resolve (Store.repository.live storeOfSeven) .default ctx log).exec
      (resolveAll .default copiesOfSeven)).1.isOk = false := by decide +kernel
  obtain ⟨err, herr⟩ := fst_error_of_isOk hrun
  exact ⟨err, _, hctx, hlocates, hfresh, horderly, herr,
    unavoidable_of_orderly hctx hlocates hfresh horderly herr⟩

end Resolver

end Lineage
