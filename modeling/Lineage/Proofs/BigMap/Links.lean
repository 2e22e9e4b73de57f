import Lineage.Proofs.BigMap.Resolver

/-!
# Where the types of a pointer come from

The types of a pointer are looked up at the end of the chain of copies that it came from: at its own
path if it is final or has no source (`IsHome`). So they stay the same as long as nothing becomes of
the links of the chain, and of the path at its end (`schemaOf_congr`). Within one context only an
allocation of a pointer or a copy to it can change them (`sameTypes_entry`): an update remembers a
path, but at the end of a chain only the one that is known already.
-/

namespace Lineage

/-! ### The pointers of an entry -/

namespace LogEntry

def pointers : LogEntry → List Int
  | alloc p _ _ => [p]
  | update p _ _ _ => [p]
  | copy s d => [s, d]
  | remove p => [p]

/-- The pointer whose big map an entry changes. -/
def target : LogEntry → Int
  | alloc p _ _ => p
  | update p _ _ _ => p
  | copy _ d => d
  | remove p => p

lemma target_mem_pointers (e : LogEntry) : e.target ∈ e.pointers := by
  cases e <;> simp [target, pointers]

/-- The pointer that an entry allocates or copies to. -/
def destination? : LogEntry → Option Int
  | alloc p _ _ => some p
  | copy _ d => some d
  | update _ _ _ _ => none
  | remove _ => none

end LogEntry

namespace Resolver

open Function

variable {live : LiveRecords} {settings : Settings} {ctx : Context} {a b c : Arena}
  {p q s start : Int} {n : Nat} {used : List Int}

/-! ### Types at paths -/

/-- The types of the big map at a path in the storage of a contract. -/
def typesAt? (ctx : Context) (path : Option String) : Option (Node × Node) :=
  path.bind ctx.storageType.bigMapTypes?

/-- The types of a final pointer that is in the storage of the contract. -/
def located? (ctx : Context) (p : Int) : Option (Node × Node) :=
  if 0 ≤ p then typesAt? ctx (Dictionary.find? p ctx.pointers) else none

/-! ### The ends of chains -/

/-- The end of a chain of copies. -/
def IsHome (a : Arena) (p : Int) : Prop := 0 ≤ p ∨ (a.link? p).map Link.source = some none

/-- The sources of pointers are among those used before. -/
def Closed (used : List Int) (a : Arena) : Prop :=
  ∀ p s, (a.link? p).map Link.source = some (some s) → s ∈ used

lemma followLinks_eq (a : Arena) (start : Int) (n : Nat) (p : Int) :
    followLinks a start n p =
      if 0 ≤ p then .ok p
      else
        match (a.link? p).map Link.source, n with
        | none, _ => .error (.unresolvedPointer p)
        | some none, _ => .ok p
        | some (some _), 0 => .error (.unresolvedPointer start)
        | some (some s), n + 1 => followLinks a start n s := by
  rw [followLinks.eq_def]
  dsimp only
  split
  · rfl
  · cases a.link? p with
    | none => rfl
    | some l => cases hs : l.source <;> cases n <;> simp [hs]

lemma followLinks_of_isHome (h : IsHome a p) : followLinks a start n p = .ok p := by
  rw [followLinks_eq]
  by_cases hp : 0 ≤ p
  · rw [if_pos hp]
  · rw [if_neg hp, h.resolve_left hp]

lemma locate_of_isHome (h : IsHome a p) : locate settings a p = .ok p := by
  unfold locate resolveSource
  split
  · exact followLinks_of_isHome h
  · rfl

lemma followLinks_cases (h : followLinks a start n p = .ok q) :
    (IsHome a p ∧ q = p) ∨ ∃ s m, p < 0 ∧ (a.link? p).map Link.source = some (some s) ∧
      n = m + 1 ∧ followLinks a start m s = .ok q := by
  rw [followLinks_eq] at h
  split at h
  · next hp =>
    cases h
    exact .inl ⟨.inl hp, rfl⟩
  · next hp =>
    split at h
    · cases h
    · next hs =>
      cases h
      exact .inl ⟨.inr hs, rfl⟩
    · cases h
    · next s m hs => exact .inr ⟨s, m, Int.not_le.1 hp, hs, rfl, h⟩

/-- The links lead to the end of a chain, by way of pointers used before. -/
lemma followLinks_ok (h : followLinks a start n p = .ok q) :
    IsHome a q ∧ (Closed used a → p ∈ used → q ∈ used) := by
  induction n generalizing p with
  | zero =>
    obtain ⟨hhome, rfl⟩ | ⟨s, m, -, -, hn, -⟩ := followLinks_cases h
    · exact ⟨hhome, fun _ hu => hu⟩
    · cases hn
  | succ n ih =>
    obtain ⟨hhome, rfl⟩ | ⟨s, m, -, hs, hn, hq⟩ := followLinks_cases h
    · exact ⟨hhome, fun _ hu => hu⟩
    · cases hn
      exact ⟨(ih hq).1, fun hc _ => (ih hq).2 hc (hc p s hs)⟩

lemma locate_ok (h : locate settings a p = .ok q) :
    IsHome a q ∧ (Closed used a → p ∈ used → q ∈ used) := by
  unfold locate at h
  split at h
  · exact followLinks_ok h
  · next hp => cases h; exact ⟨.inl (Int.not_lt.1 hp), fun _ hu => hu⟩

/-! ### What the types depend on -/

lemma typesOf_eq (ctx : Context) (a : Arena) (p : Int) (path : Option String) :
    typesOf ctx a p path =
      match (typesAt? ctx path).or ((a.link? p).bind Link.types) with
      | some types => .ok types
      | none => .error (.unknownPath (path.getD "")) := by
  unfold typesOf typesAt?
  cases path.bind ctx.storageType.bigMapTypes? <;> rfl

/-- What is known of the pointers in a list is in both arenas the same, but for the paths of those
that are not the ends of chains. -/
structure SameTypes (ctx : Context) (used : List Int) (a b : Arena) : Prop where
  link {q : Int} (h : q ∈ used) :
    (b.link? q).map (fun l => (l.source, l.types)) = (a.link? q).map fun l => (l.source, l.types)
  path {q : Int} (h : q ∈ used) (hq : IsHome a q) : pathOf? ctx b q = pathOf? ctx a q

namespace SameTypes

lemma source (h : SameTypes ctx used a b) (hq : q ∈ used) :
    (b.link? q).map Link.source = (a.link? q).map Link.source := by
  have hmap := congrArg (Option.map Prod.fst) (h.link hq)
  rwa [Option.map_map, Option.map_map] at hmap

lemma types (h : SameTypes ctx used a b) (hq : q ∈ used) :
    (b.link? q).bind Link.types = (a.link? q).bind Link.types := by
  have hmap := congrArg (fun o => o.bind Prod.snd) (h.link hq)
  simp only [Option.bind_map] at hmap
  exact hmap

theorem refl (used : List Int) (a : Arena) : SameTypes ctx used a a :=
  ⟨fun _ => rfl, fun _ _ => rfl⟩

lemma isHome (h : SameTypes ctx used a b) (hq : q ∈ used) (ha : IsHome a q) : IsHome b q :=
  ha.imp_right (h.source hq).trans

theorem trans (h : SameTypes ctx used a b) (h' : SameTypes ctx used b c) :
    SameTypes ctx used a c where
  link hq := (h'.link hq).trans (h.link hq)
  path hq ha := (h'.path hq (h.isHome hq ha)).trans (h.path hq ha)

theorem mono {used' : List Int} (h : SameTypes ctx used a b) (hs : used' ⊆ used) :
    SameTypes ctx used' a b := ⟨fun hq => h.link (hs hq), fun hq => h.path (hs hq)⟩

lemma followLinks (h : SameTypes ctx used a b) (hc : Closed used a) (hp : p ∈ used) :
    Resolver.followLinks b start n p = Resolver.followLinks a start n p := by
  induction n generalizing p with
  | zero =>
    rw [followLinks_eq, followLinks_eq, h.source hp]
    rcases (a.link? p).map Link.source with _ | _ | _ <;> rfl
  | succ n ih =>
    rw [followLinks_eq, followLinks_eq, h.source hp]
    cases hs : (a.link? p).map Link.source with
    | none => rfl
    | some source =>
      cases source with
      | none => rfl
      | some s => dsimp only; rw [ih (hc p s hs)]

lemma locate (h : SameTypes ctx used a b) (hc : Closed used a) (hp : p ∈ used) :
    Resolver.locate settings b p = Resolver.locate settings a p := by
  unfold Resolver.locate resolveSource
  rw [h.followLinks hc hp]

theorem schemaOf (h : SameTypes ctx used a b) (hc : Closed used a) (hp : p ∈ used) :
    Resolver.schemaOf settings ctx b p = Resolver.schemaOf settings ctx a p := by
  unfold Resolver.schemaOf
  rw [h.locate hc hp]
  cases hl : Resolver.locate settings a p with
  | error e => rfl
  | ok q =>
    obtain ⟨hq, hu⟩ := locate_ok hl
    show typesOf ctx b p (pathOf? ctx b q) = typesOf ctx a p (pathOf? ctx a q)
    rw [h.path (hu hc hp) hq]
    unfold typesOf
    rw [h.types hp]

end SameTypes

/-! ### What changes them -/

lemma pathOf?_of_link?_eq (h : b.link? q = a.link? q) : pathOf? ctx b q = pathOf? ctx a q := by
  unfold pathOf?
  rw [h]

lemma SameTypes.of_link?_eq (h : ∀ q ∈ used, b.link? q = a.link? q) : SameTypes ctx used a b where
  link hq := by rw [h _ hq]
  path hq _ := pathOf?_of_link?_eq (h _ hq)

lemma pathOf?_keepPath (ctx : Context) (ha : a.Wf) (p q : Int) (path : Option String) :
    pathOf? ctx (a.keepPath p path) q = pathOf? ctx a q ∨
      q = p ∧ pathOf? ctx (a.keepPath p path) q = path := by
  cases path with
  | none => exact .inl rfl
  | some path =>
    show pathOf? ctx (a.setPath p path) q = _ ∨ q = p ∧ pathOf? ctx (a.setPath p path) q = _
    by_cases hq : q = p
    · subst hq
      unfold pathOf?
      rw [Arena.link?_setPath q path ha, update_self]
      cases Dictionary.find? q ctx.pointers with
      | some path' => exact .inl rfl
      | none =>
        cases a.link? q with
        | none => exact .inl rfl
        | some l => exact .inr ⟨rfl, rfl⟩
    · refine .inl (pathOf?_of_link?_eq ?_)
      rw [Arena.link?_setPath p path ha, update_of_ne hq]

/-- The path that is found at the end of a chain is the one that is known of it. -/
lemma sameTypes_keepPath (ha : a.Wf) (h : locate settings a p = .ok q) :
    SameTypes ctx used a (a.keepPath p (pathOf? ctx a q)) where
  link _ := Arena.link?_keepPath p ha _ _
  path := by
    intro x _ hx
    obtain hpath | ⟨rfl, hpath⟩ := pathOf?_keepPath ctx ha p x (pathOf? ctx a q)
    · exact hpath
    · have hxq : x = q := Except.ok.inj ((locate_of_isHome hx).symm.trans h)
      rw [hpath, hxq]

lemma copyLink_ok {l : Link} {d : Int} (h : copyLink ctx a s d = .ok l) :
    l = ⟨some s, (pathOf? ctx a s).or (pathOf? ctx a d),
      (typesOf ctx a s ((pathOf? ctx a s).or (pathOf? ctx a d))).toOption⟩ := by
  unfold copyLink at h
  dsimp only at h
  split at h
  · cases h
  · exact (Except.ok.inj h).symm

lemma types_copyLink {a : Arena} {s d : Int} {l : Link} (hl : copyLink ctx a s d = .ok l) :
    l.types = (typesAt? ctx ((pathOf? ctx a s).or (pathOf? ctx a d))).or
      ((a.link? s).bind Link.types) := by
  rw [copyLink_ok hl, typesOf_eq]
  generalize (typesAt? ctx _).or _ = types
  cases types <;> rfl

section Entry

variable {e : LogEntry} {r r' : Resolver} {out : Resolution}

lemma link?_copied {l : Link} {d : Int} {copies : List Diff} (ha : a.Wf) :
    (((a.setLink d l).touch d).pushAll d copies).link? = Function.update a.link? d (some l) := by
  have hl := ha.setLink d l
  rw [Arena.link?_pushAll (hl.touch d), Arena.link?_touch d hl, Arena.link?_setLink d l ha]

lemma pending_copied {l : Link} {d : Int} {copies : List Diff} (ha : a.Wf) :
    (((a.setLink d l).touch d).pushAll d copies).pending =
      Function.update a.pending d (a.pending d ++ copies) := by
  have hl := ha.setLink d l
  rw [Arena.pending_pushAll (hl.touch d), Arena.pending_touch hl, Arena.pending_setLink ha]

/-- A successful entry changes the slot of one pointer at most. -/
theorem slot?_entry (hr : r.arena.Wf) (h : (entry live settings ctx e).exec r = (.ok out, r'))
    (hq : q ≠ e.target) : r'.arena.slot? q = r.arena.slot? q := by
  cases e with
  | alloc p keyType valueType =>
    obtain ⟨key, value, -, -, -, rfl⟩ := alloc_ok h
    exact Arena.slot?_modify_of_ne p _ hr hq
  | update p key keyHash value =>
    obtain ⟨q', types, entry, -, -, -, -, rfl⟩ := update_ok hr h
    exact (Arena.slot?_modify_of_ne p _ (hr.keepPath p _) hq).trans
      (Arena.slot?_keepPath_of_ne p hr _ hq)
  | copy s d =>
    obtain ⟨actions, rows, link, -, -, -, -, rfl⟩ := copy_ok h
    have hl := hr.setLink d link
    calc _ = ((r.arena.setLink d link).touch d).slot? q :=
          Arena.slot?_pushAll_of_ne (hl.touch d) _ hq
      _ = (r.arena.setLink d link).slot? q := Arena.slot?_modify_of_ne d _ hl hq
      _ = r.arena.slot? q := Arena.slot?_modify_of_ne d _ hr hq
  | remove p =>
    by_cases hp : p < 0
    · cases (remove_of_neg hp).symm.trans h
      exact Arena.slot?_discard_of_ne p hr hq
    · obtain ⟨rows, -, -, rfl⟩ := remove_ok (Int.not_lt.1 hp) h
      exact Arena.slot?_pushAll_of_ne hr _ hq

/-- A successful entry changes nothing that is known of other pointers than its own. -/
theorem frame_entry (hr : r.arena.Wf) (h : (entry live settings ctx e).exec r = (.ok out, r'))
    (hq : q ∉ e.pointers) :
    r'.arena.link? q = r.arena.link? q ∧ r'.arena.pending q = r.arena.pending q := by
  have hslot : r'.arena.slot? q = r.arena.slot? q :=
    slot?_entry hr h fun he => hq (he ▸ e.target_mem_pointers)
  unfold Arena.link? Arena.pending Arena.records?
  rw [hslot]
  exact ⟨rfl, rfl⟩

/-- A successful entry gives pointers no other sources than its own pointers. -/
theorem source_entry (hr : r.arena.Wf) (h : (entry live settings ctx e).exec r = (.ok out, r'))
    (hs : (r'.arena.link? q).map Link.source = some (some s)) :
    (r.arena.link? q).map Link.source = some (some s) ∨ s ∈ e.pointers := by
  cases e with
  | alloc p keyType valueType =>
    obtain ⟨key, value, -, -, -, rfl⟩ := alloc_ok h
    rw [Arena.link?_openAt p _ hr] at hs
    by_cases hqp : q = p
    · rw [hqp, update_self] at hs
      cases hs
    · rw [update_of_ne hqp] at hs
      exact .inl hs
  | update p key keyHash value =>
    obtain ⟨q', types, entry, -, -, -, -, rfl⟩ := update_ok hr h
    rw [Arena.link?_push p _ (hr.keepPath p _)] at hs
    rw [Arena.source_keepPath p hr] at hs
    exact .inl hs
  | copy s' d =>
    obtain ⟨actions, rows, link, -, -, hl, -, rfl⟩ := copy_ok h
    rw [link?_copied hr] at hs
    by_cases hqd : q = d
    · rw [hqd, update_self, copyLink_ok hl] at hs
      cases hs
      exact .inr (by simp [LogEntry.pointers])
    · rw [update_of_ne hqd] at hs
      exact .inl hs
  | remove p =>
    by_cases hp : p < 0
    · cases (remove_of_neg hp).symm.trans h
      rw [Arena.link?_discard p hr] at hs
      exact .inl hs
    · obtain ⟨rows, -, -, rfl⟩ := remove_ok (Int.not_lt.1 hp) h
      rw [Arena.link?_pushAll hr] at hs
      exact .inl hs

/-- A successful entry leaves the types of pointers as they are, but for the pointer that it
allocates or copies to. -/
theorem sameTypes_entry (hr : r.arena.Wf)
    (hd : ∀ d ∈ e.destination?, d ∉ used)
    (h : (entry live settings ctx e).exec r = (.ok out, r')) :
    SameTypes ctx used r.arena r'.arena := by
  cases e with
  | alloc p keyType valueType =>
    obtain ⟨key, value, -, -, -, rfl⟩ := alloc_ok h
    refine .of_link?_eq fun q hq => ?_
    rw [Arena.link?_openAt p _ hr, update_of_ne]
    rintro rfl
    exact hd q rfl hq
  | update p key keyHash value =>
    obtain ⟨q, types, entry, hq, -, -, -, rfl⟩ := update_ok hr h
    refine (sameTypes_keepPath hr hq).trans (.of_link?_eq fun q _ => ?_)
    rw [Arena.link?_push p _ (hr.keepPath p _)]
  | copy s d =>
    obtain ⟨actions, rows, link, -, -, -, -, rfl⟩ := copy_ok h
    refine .of_link?_eq fun q hq => ?_
    rw [link?_copied hr, update_of_ne]
    rintro rfl
    exact hd q rfl hq
  | remove p =>
    refine .of_link?_eq fun q _ => ?_
    by_cases hp : p < 0
    · cases (remove_of_neg hp).symm.trans h
      rw [Arena.link?_discard p hr]
    · obtain ⟨rows, -, -, rfl⟩ := remove_ok (Int.not_lt.1 hp) h
      rw [Arena.link?_pushAll hr]

lemma sameTypes_of_ne (hr : r.arena.Wf) (hp : e.destination? ≠ some p)
    (h : (entry live settings ctx e).exec r = (.ok out, r')) :
    SameTypes ctx [p] r.arena r'.arena := by
  refine sameTypes_entry hr (fun d hd hmem => hp ?_) h
  rw [← List.mem_singleton.1 hmem]
  exact hd

end Entry

/-! ### Used pointers -/

/-- What is remembered of pointers is remembered only of used ones. -/
structure Tidy (used : List Int) (a : Arena) : Prop where
  wf : a.Wf
  closed : Closed used a
  link {p : Int} (hp : p ∉ used) : a.link? p = none
  pending {p : Int} (hp : p ∉ used) : a.pending p = []

lemma tidy_start : Tidy [] Resolver.start.arena where
  wf := Arena.wf_empty
  closed _ _ h := by cases h
  link _ := rfl
  pending _ := rfl

section Tidy

variable {e : LogEntry} {log : List LogEntry} {r r' : Resolver} {out : Resolution}

theorem Tidy.entry (ht : Tidy used r.arena)
    (h : (entry live settings ctx e).exec r = (.ok out, r')) :
    Tidy (e.pointers ++ used) r'.arena where
  wf := wf_of_entry_ok ht.wf h
  closed p s hs := by
    rw [List.mem_append, or_comm]
    exact (source_entry ht.wf h hs).imp_left (ht.closed p s)
  link hp := by
    rw [List.mem_append, not_or] at hp
    exact (frame_entry ht.wf h hp.1).1.trans (ht.link hp.2)
  pending hp := by
    rw [List.mem_append, not_or] at hp
    exact (frame_entry ht.wf h hp.1).2.trans (ht.pending hp.2)

theorem Tidy.mono {used' : List Int} {a : Arena} (ht : Tidy used a) (hs : used ⊆ used') :
    Tidy used' a where
  wf := ht.wf
  closed p x hx := hs (ht.closed p x hx)
  link hp := ht.link fun h => hp (hs h)
  pending hp := ht.pending fun h => hp (hs h)

theorem tidy_log (ht : Tidy used r.arena)
    (h : (forEach (entry live settings ctx) log).exec r = (.ok out, r')) :
    Tidy (log.flatMap LogEntry.pointers ++ used) r'.arena := by
  induction log generalizing r out used with
  | nil =>
    obtain ⟨-, rfl⟩ := forEach_nil_ok.1 h
    exact ht
  | cons e log ih =>
    obtain ⟨o₁, r₁, o₂, h₁, h₂, rfl⟩ := forEach_cons_ok.1 h
    refine (ih (ht.entry h₁) h₂).mono fun p hp => ?_
    simp only [List.flatMap_cons, List.mem_append] at hp ⊢
    tauto

end Tidy

end Resolver

end Lineage
