import Lineage.Proofs.BigMap.Links

/-!
# The types of big maps without paths

Within one context the types of big maps are easily told: a big map in the storage has those at its
path, a new one those of its allocation, and a copy those of its source (`LogEntry.assign`). The
resolver looks them up at the end of a chain, or takes what it remembers of a copy. It finds just
these types as long as only final pointers are in the storage and a pointer is not allocated or
copied to after its use (`Typed.schemaOf`).

The reason is that what is remembered is never worth less than a path: where the path of a pointer
or of the end of its chain has types, the pointer was given the same types (`Typed`).
-/

namespace Lineage

/-- The types of keys and values, by the pointers of big maps. -/
abbrev Schemas := Int → Option (Node × Node)

def allocated? (keyType valueType : Micheline) : Option (Node × Node) := do
  return (← (Node.ofType keyType).toOption, ← (Node.ofType valueType).toOption)

def LogEntry.assign (ctx : Context) (schemas : Schemas) : LogEntry → Schemas
  | alloc p keyType valueType =>
    Function.update schemas p ((Resolver.located? ctx p).or (allocated? keyType valueType))
  | copy s d => Function.update schemas d ((Resolver.located? ctx d).or (schemas s))
  | update _ _ _ _ => schemas
  | remove _ => schemas

lemma LogEntry.assign_of_ne {ctx : Context} {schemas : Schemas} {e : LogEntry} {p : Int}
    (hp : ∀ d ∈ e.destination?, p ≠ d) : e.assign ctx schemas p = schemas p := by
  cases e with
  | alloc d _ _ | copy _ d => exact Function.update_of_ne (hp d rfl) _ _
  | update _ _ _ _ | remove _ => rfl

/-- Only final pointers are in the storage. -/
def Context.ListsFinal (ctx : Context) : Prop := ∀ p < 0, Dictionary.find? p ctx.pointers = none

namespace Resolver

open Function

variable {live : LiveRecords} {settings : Settings} {ctx : Context} {a : Arena} {schemas : Schemas}
  {p q start : Int} {n : Nat} {used : List Int}

lemma located?_of_neg (hp : p < 0) : located? ctx p = none := if_neg (Int.not_le.2 hp)

lemma located?_of_find?_eq_none (hp : Dictionary.find? p ctx.pointers = none) :
    located? ctx p = none := by
  unfold located? typesAt?
  rw [hp]
  split <;> rfl

lemma pathOf?_of_find?_eq_none (hp : Dictionary.find? p ctx.pointers = none) :
    pathOf? ctx a p = (a.link? p).bind Link.path := by
  unfold pathOf?
  rw [hp]
  rfl

/-- **What is remembered of the types of a pointer**: they are those at its path in the storage, or
else the remembered ones. Where a remembered path has types, at the pointer or at the end of its
chain, they are those that are remembered. -/
structure TypedAt (ctx : Context) (a : Arena) (p : Int) (types : Option (Node × Node)) : Prop where
  known : types = (located? ctx p).or ((a.link? p).bind Link.types)
  path (hp : Dictionary.find? p ctx.pointers = none) :
    (typesAt? ctx (pathOf? ctx a p)).or ((a.link? p).bind Link.types) =
      (a.link? p).bind Link.types
  home {q start : Int} {n : Nat} (hp : p < 0) (hq : followLinks a start n p = .ok q) :
    (typesAt? ctx (pathOf? ctx a q)).or ((a.link? p).bind Link.types) =
      (a.link? p).bind Link.types

/-- All pointers have the types of a schema. -/
def Typed (ctx : Context) (a : Arena) (schemas : Schemas) : Prop :=
  ∀ p, TypedAt ctx a p (schemas p)

lemma typed_start : Typed ctx Resolver.start.arena (located? ctx) := fun p =>
  { known := Option.or_none.symm
    path := fun hp => by
      rw [pathOf?_of_find?_eq_none hp]
      rfl
    home := fun hp hq => by
      rw [followLinks_eq, if_neg (Int.not_le.2 hp)] at hq
      cases hq }

namespace Typed

lemma direct (ht : Typed ctx a schemas) (hf : ctx.ListsFinal) (p : Int) :
    (typesAt? ctx (pathOf? ctx a p)).or ((a.link? p).bind Link.types) = schemas p := by
  rw [(ht p).known]
  cases hp : Dictionary.find? p ctx.pointers with
  | none => rw [(ht p).path hp, located?_of_find?_eq_none hp, Option.none_or]
  | some path =>
    have hfinal : 0 ≤ p := by
      by_contra hneg
      rw [hf p (Int.not_le.1 hneg)] at hp
      cases hp
    unfold located? pathOf?
    rw [if_pos hfinal, hp, Option.some_or]

lemma followLinks (ht : Typed ctx a schemas) (hf : ctx.ListsFinal)
    (hq : Resolver.followLinks a start n p = .ok q) :
    (typesAt? ctx (pathOf? ctx a q)).or ((a.link? p).bind Link.types) = schemas p := by
  by_cases hp : 0 ≤ p
  · rw [followLinks_eq, if_pos hp] at hq
    cases hq
    exact ht.direct hf p
  · have hneg := Int.not_le.1 hp
    rw [(ht p).home hneg hq, (ht p).known, located?_of_neg hneg, Option.none_or]

lemma locate (ht : Typed ctx a schemas) (hf : ctx.ListsFinal)
    (hq : Resolver.locate settings a p = .ok q) :
    (typesAt? ctx (pathOf? ctx a q)).or ((a.link? p).bind Link.types) = schemas p := by
  unfold Resolver.locate at hq
  split at hq
  · exact ht.followLinks hf hq
  · cases hq
    exact ht.direct hf p

/-- **The types of an update** are the plain ones. -/
theorem schemaOf (ht : Typed ctx a schemas) (hf : ctx.ListsFinal) {types : Node × Node}
    (h : Resolver.schemaOf settings ctx a p = .ok types) : schemas p = some types := by
  unfold Resolver.schemaOf at h
  cases hq : Resolver.locate settings a p with
  | error e => rw [hq] at h; cases h
  | ok q =>
    rw [hq] at h
    change typesOf ctx a p (pathOf? ctx a q) = .ok types at h
    rw [typesOf_eq, ht.locate hf hq] at h
    cases hs : schemas p with
    | none => rw [hs] at h; cases h
    | some types' => rw [hs] at h; cases h; rfl

end Typed

/-! ### Entries -/

section Entry

variable {e : LogEntry} {r r' : Resolver} {out : Resolution} {d : Int}

lemma pathOf?_entry (ctx : Context) (hr : r.arena.Wf) (hd : ∀ d ∈ e.destination?, p ≠ d)
    (h : (entry live settings ctx e).exec r = (.ok out, r')) :
    pathOf? ctx r'.arena p = pathOf? ctx r.arena p ∨
      ∃ q, locate settings r.arena p = .ok q ∧
        pathOf? ctx r'.arena p = pathOf? ctx r.arena q := by
  cases e with
  | alloc d keyType valueType =>
    obtain ⟨key, value, -, -, -, rfl⟩ := alloc_ok h
    refine .inl (pathOf?_of_link?_eq ?_)
    rw [Arena.link?_openAt d _ hr, update_of_ne (hd d rfl)]
  | update x key keyHash value =>
    obtain ⟨q, types, entry, hq, -, -, -, rfl⟩ := update_ok hr h
    rw [pathOf?_of_link?_eq (congrFun (Arena.link?_push x _ (hr.keepPath x _)) p)]
    refine (pathOf?_keepPath ctx hr x p _).imp_right ?_
    rintro ⟨rfl, hpath⟩
    exact ⟨q, hq, hpath⟩
  | copy s d =>
    obtain ⟨actions, rows, link, -, -, -, -, rfl⟩ := copy_ok h
    refine .inl (pathOf?_of_link?_eq ?_)
    rw [link?_copied hr, update_of_ne (hd d rfl)]
  | remove x =>
    refine .inl (pathOf?_of_link?_eq ?_)
    by_cases hx : x < 0
    · cases (remove_of_neg hx).symm.trans h
      rw [Arena.link?_discard x hr]
    · obtain ⟨rows, -, -, rfl⟩ := remove_ok (Int.not_lt.1 hx) h
      rw [Arena.link?_pushAll hr]

lemma Typed.other (ht : Typed ctx r.arena schemas) (hf : ctx.ListsFinal) (hu : Tidy used r.arena)
    (hd : ∀ d ∈ e.destination?, d ∉ used) (hp : ∀ d ∈ e.destination?, p ≠ d)
    (h : (entry live settings ctx e).exec r = (.ok out, r')) :
    TypedAt ctx r'.arena p (schemas p) := by
  have hclosed : Closed (p :: used) r.arena := fun q x hq =>
    List.mem_cons_of_mem _ (hu.closed q x hq)
  have hmem : p ∈ p :: used := List.mem_cons_self
  have hsame : SameTypes ctx (p :: used) r.arena r'.arena := by
    refine sameTypes_entry hu.wf (fun d hd' => ?_) h
    rw [List.mem_cons, not_or]
    exact ⟨(hp d hd').symm, hd d hd'⟩
  have htypes := hsame.types hmem
  refine ⟨?_, fun hlisted => ?_, fun {q start n} hneg hq => ?_⟩
  · rw [htypes, (ht p).known]
  · rw [htypes]
    obtain hpath | ⟨q, hq, hpath⟩ := pathOf?_entry ctx hu.wf hp h
    · rw [hpath, (ht p).path hlisted]
    · rw [hpath, ht.locate hf hq, (ht p).known, located?_of_find?_eq_none hlisted, Option.none_or]
  · rw [htypes]
    rw [hsame.followLinks hclosed hmem] at hq
    obtain ⟨hhome, hused⟩ := followLinks_ok hq
    rw [hsame.path (hused hclosed hmem) hhome, (ht p).home hneg hq]

lemma typedAt_alloc {keyType valueType : Micheline} (hf : ctx.ListsFinal) (hr : r.arena.Wf)
    (h : (entry live settings ctx (.alloc d keyType valueType)).exec r = (.ok out, r')) :
    TypedAt ctx r'.arena d ((located? ctx d).or (allocated? keyType valueType)) := by
  obtain ⟨key, value, hkey, hvalue, -, rfl⟩ := alloc_ok h
  have hlink : (r.arena.openAt d ⟨none, none, some (key, value)⟩).link? d =
      some ⟨none, none, some (key, value)⟩ := by
    rw [Arena.link?_openAt d _ hr, update_self]
  have hpath : Dictionary.find? d ctx.pointers = none →
      pathOf? ctx (r.arena.openAt d ⟨none, none, some (key, value)⟩) d = none := by
    intro hlisted
    rw [pathOf?_of_find?_eq_none hlisted, hlink]
    rfl
  refine ⟨?_, fun hlisted => ?_, fun {q start n} hneg hq => ?_⟩
  · unfold allocated?
    rw [hlink, hkey, hvalue]
    rfl
  · show (typesAt? ctx (pathOf? ctx (r.arena.openAt d _) d)).or _ = _
    rw [hpath hlisted]
    rfl
  · have hhome : IsHome (r.arena.openAt d ⟨none, none, some (key, value)⟩) d := by
      right
      rw [hlink]
      rfl
    cases (followLinks_of_isHome hhome).symm.trans hq
    show (typesAt? ctx (pathOf? ctx (r.arena.openAt d _) d)).or _ = _
    rw [hpath (hf d hneg)]
    rfl

lemma copyLink_ne_unknown {s : Int} : copyLink ctx a s d ≠ .ok ⟨some s, none, none⟩ := by
  intro hl
  unfold copyLink at hl
  dsimp only at hl
  split at hl
  · cases hl
  · next hknown =>
    obtain ⟨-, hpath, htypes⟩ := Link.mk.inj (Except.ok.inj hl)
    rw [htypes, hpath] at hknown
    exact hknown rfl

/-- A copy remembers the types of its source, if its destination has none of its own. -/
lemma types_copyLink_of_typed {s : Int} {l : Link} (ht : Typed ctx a schemas)
    (hf : ctx.ListsFinal) (hd : a.link? d = none) (hl : copyLink ctx a s d = .ok l) :
    l.types = schemas s ∨ 0 ≤ d ∧ l.types = (located? ctx d).or (schemas s) := by
  have hs := ht.direct hf s
  rw [types_copyLink hl]
  cases hpath : pathOf? ctx a s with
  | some path =>
    rw [hpath] at hs
    exact .inl hs
  | none =>
    rw [hpath] at hs
    have hdirect : (typesAt? ctx none).or ((a.link? s).bind Link.types) =
        (a.link? s).bind Link.types := rfl
    have hfound : pathOf? ctx a d = Dictionary.find? d ctx.pointers := by
      unfold pathOf?
      rw [hd]
      exact Option.or_none
    rw [hdirect] at hs
    rw [Option.none_or, hfound, hs]
    by_cases hneg : d < 0
    · rw [hf d hneg]
      exact .inl rfl
    · have hfinal := Int.not_lt.1 hneg
      refine .inr ⟨hfinal, ?_⟩
      unfold located?
      rw [if_pos hfinal]

lemma typedAt_copy {b : Arena} {s : Int} {l : Link} (ht : Typed ctx a schemas)
    (hf : ctx.ListsFinal) (hu : Tidy used a) (hd : d ∉ used) (hl : copyLink ctx a s d = .ok l)
    (hb : b.link? = Function.update a.link? d (some l)) :
    TypedAt ctx b d ((located? ctx d).or (schemas s)) := by
  have hlink : b.link? d = some l := by rw [hb, update_self]
  have htypes := types_copyLink_of_typed ht hf (hu.link hd) hl
  refine ⟨?_, fun hlisted => ?_, fun {q start n} hneg hq => ?_⟩
  · rw [hlink, Option.bind_some]
    obtain htypes | ⟨-, htypes⟩ := htypes
    · rw [htypes]
    · rw [htypes, ← Option.or_assoc, Option.or_self]
  · rw [pathOf?_of_find?_eq_none hlisted, hlink, Option.bind_some, Option.bind_some,
      types_copyLink hl, copyLink_ok hl, ← Option.or_assoc, Option.or_self]
  · have hne : s ≠ d := by
      rintro rfl
      have hpath : pathOf? ctx a s = none := by
        rw [pathOf?_of_find?_eq_none (hf s hneg), hu.link hd]
        rfl
      have hnone : l = ⟨some s, none, none⟩ := by
        rw [copyLink_ok hl, hpath, typesOf_eq, hu.link hd]
        rfl
      rw [hnone] at hl
      exact copyLink_ne_unknown hl
    have hsame : SameTypes ctx (s :: used) a b := by
      refine .of_link?_eq fun x hx => ?_
      rw [hb, update_of_ne]
      rintro rfl
      exact (List.mem_cons.1 hx).elim (fun h => hne h.symm) hd
    have hclosed : Closed (s :: used) a := fun x y hx => List.mem_cons_of_mem _ (hu.closed x y hx)
    have hsource : (b.link? d).map Link.source = some (some s) := by
      rw [hlink, copyLink_ok hl]
      rfl
    rw [followLinks_eq, if_neg (Int.not_le.2 hneg), hsource] at hq
    cases n with
    | zero => cases hq
    | succ n =>
      change followLinks b start n s = .ok q at hq
      rw [hsame.followLinks hclosed List.mem_cons_self] at hq
      obtain ⟨hhome, hused⟩ := followLinks_ok hq
      have hfollow := ht.followLinks hf hq
      rw [hlink, Option.bind_some, htypes.resolve_right fun h => absurd hneg (Int.not_lt.2 h.1),
        hsame.path (hused hclosed List.mem_cons_self) hhome, ← hfollow, ← Option.or_assoc,
        Option.or_self]

/-- **One entry**: the resolver remembers the types that the entry assigns, if its destination is a
pointer that is not used before. -/
theorem Typed.entry (ht : Typed ctx r.arena schemas) (hf : ctx.ListsFinal)
    (hu : Tidy used r.arena) (hd : ∀ d ∈ e.destination?, d ∉ used)
    (h : (entry live settings ctx e).exec r = (.ok out, r')) :
    Typed ctx r'.arena (e.assign ctx schemas) := by
  intro p
  by_cases hp : ∀ d ∈ e.destination?, p ≠ d
  · rw [LogEntry.assign_of_ne hp]
    exact ht.other hf hu hd hp h
  · cases e with
    | alloc d keyType valueType =>
      have hpd : p = d := by simpa [LogEntry.destination?] using hp
      subst hpd
      show TypedAt ctx r'.arena p (Function.update schemas p _ p)
      rw [update_self]
      exact typedAt_alloc hf hu.wf h
    | update x key keyHash value => exact absurd (fun _ hx => by cases hx) hp
    | copy s d =>
      have hpd : p = d := by simpa [LogEntry.destination?] using hp
      subst hpd
      show TypedAt ctx r'.arena p (Function.update schemas p _ p)
      rw [update_self]
      obtain ⟨actions, rows, l, -, -, hl, -, rfl⟩ := copy_ok h
      exact typedAt_copy ht hf hu (hd p rfl) hl (link?_copied hu.wf)
    | remove x => exact absurd (fun _ hx => by cases hx) hp

end Entry

end Resolver

end Lineage
