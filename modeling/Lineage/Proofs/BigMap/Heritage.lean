import Mathlib.Data.List.Induction
import Lineage.Proofs.BigMap.Links

/-!
# Which types a pointer inherits

The types of a new big map are known from its allocation, those of an old one from its path in the
storage of the contract that first copies it. They are handed on with every copy, but not always as
they are: wherever a path is remembered of the source or of the destination, the types at this path
in the storage of the contract at work count, be it the contract that the path was remembered in or
another one.

`heritages` follows a group through calls in any contexts, and notes of each pointer the types of
the big map that it descends from with those found on the way. What counts in the end are the types
found last (`types_eq`), so that an update is made with the types of the origin if and only if these
are the types of the origin (`update_types_iff`).
-/

namespace Lineage

/-- What became of the types of a big map: those it had in the beginning, and those that were found
on the way. -/
structure Heritage where
  origin : Node × Node
  found : List (Node × Node)

namespace Heritage

/-- The types found last, or else those of the beginning. -/
def types (h : Heritage) : Node × Node := h.found.getLast?.getD h.origin

/-- The heritage when types may have been found again. -/
def extend (h : Heritage) (types : Option (Node × Node)) : Heritage :=
  { h with found := h.found ++ types.toList }

lemma types_extend (h : Heritage) (types : Option (Node × Node)) :
    (h.extend types).types = types.getD h.types := by
  cases types with
  | none =>
    show (h.found ++ []).getLast?.getD h.origin = _
    rw [List.append_nil]
    rfl
  | some types =>
    show (h.found ++ [types]).getLast?.getD h.origin = _
    rw [List.getLast?_concat]
    rfl

/-- The types that count are those of the beginning if the types found last are. -/
theorem types_eq_origin_iff (h : Heritage) :
    h.types = h.origin ↔ ∀ types ∈ h.found.getLast?, types = h.origin := by
  unfold types
  cases h.found.getLast? <;> simp

end Heritage

namespace Resolver

open Function Resolve

abbrev Heritages := Int → Option Heritage

/-- The heritages after an entry that succeeds. A copy from a final pointer in the storage begins a
new one; any other copy hands one on, with the types at the path that it goes by. -/
def inherit (ctx : Context) (a : Arena) (h : Heritages) : LogEntry → Heritages
  | .alloc p keyType valueType =>
    Function.update h p <|
      match Node.ofType keyType, Node.ofType valueType with
      | .ok key, .ok value => some ⟨(key, value), []⟩
      | _, _ => none
  | .copy s d =>
    Function.update h d <|
      match located? ctx s with
      | some types => some ⟨types, []⟩
      | none => (h s).map (·.extend (typesAt? ctx ((pathOf? ctx a s).or (pathOf? ctx a d))))
  | .update _ _ _ _ => h
  | .remove _ => h

/-- Resolves a log and follows the heritages, up to the first entry that fails. -/
def trackLog (live : LiveRecords) (settings : Settings) (ctx : Context) :
    List LogEntry → Resolver × Heritages → Resolver × Heritages
  | [], state => state
  | e :: log, (r, h) =>
    match (entry live settings ctx e).exec r with
    | (.ok _, r') => trackLog live settings ctx log (r', inherit ctx r.arena h e)
    | (.error _, r') => (r', h)

/-- A call of the resolver: the log, its context, and the records of the repository at that time. -/
structure Call where
  live : LiveRecords
  ctx : Context
  log : List LogEntry

/-- Makes the calls of a group in turn and follows the heritages. -/
def track (settings : Settings) (calls : List Call) : Resolver × Heritages :=
  calls.foldl (fun state c => trackLog c.live settings c.ctx c.log state) (.start, fun _ => none)

def heritages (settings : Settings) (calls : List Call) : Heritages := (track settings calls).2

/-- The state after the calls of a group. -/
def resolveAll (settings : Settings) (calls : List Call) : Resolver :=
  calls.foldl (fun r c => ((resolve c.live settings c.ctx c.log).exec r).2) .start

variable {live : LiveRecords} {settings : Settings} {ctx : Context} {r r' : Resolver}
  {out : Resolution} {h : Heritages} {calls : List Call} {log : List LogEntry} {p t : Int}

/-! ### Following along -/

lemma trackLog_fst (live : LiveRecords) (settings : Settings) (ctx : Context) (log : List LogEntry)
    (state : Resolver × Heritages) :
    (trackLog live settings ctx log state).1 =
      ((resolve live settings ctx log).exec state.1).2 := by
  induction log generalizing state with
  | nil => rfl
  | cons e log ih =>
    obtain ⟨r, h⟩ := state
    unfold resolve trackLog
    rw [exec_forEach_cons]
    rcases (entry live settings ctx e).exec r with ⟨_ | o₁, r₁⟩
    · rfl
    · dsimp only
      rw [ih]
      unfold resolve
      rcases (forEach (entry live settings ctx) log).exec r₁ with ⟨_ | o₂, r₂⟩ <;> rfl

theorem track_fst (settings : Settings) (calls : List Call) :
    (track settings calls).1 = resolveAll settings calls := by
  unfold track resolveAll
  induction calls using List.reverseRecOn with
  | nil => rfl
  | append_singleton calls c ih =>
    rw [List.foldl_append, List.foldl_append, ← ih]
    exact trackLog_fst c.live settings c.ctx c.log _

/-! ### The invariant -/

/-- **What is remembered of the types**: of every pointer of a known heritage the types found
last. -/
structure Inherits (a : Arena) (h : Heritages) : Prop where
  wf : a.Wf
  types {p : Int} {heritage : Heritage} (hp : h p = some heritage) :
    (a.link? p).bind Link.types = some heritage.types

lemma typesAt?_of_located? {a : Arena} {s : Int} {types : Node × Node} {path : Option String}
    (hs : located? ctx s = some types) :
    typesAt? ctx ((pathOf? ctx a s).or path) = some types := by
  unfold located? at hs
  split at hs
  · unfold pathOf?
    cases hf : Dictionary.find? s ctx.pointers with
    | none => rw [hf] at hs; cases hs
    | some path' => rw [hf] at hs; exact hs
  · cases hs

/-- An entry that succeeds keeps the invariant. -/
theorem Inherits.entry {e : LogEntry} (hi : Inherits r.arena h)
    (he : (entry live settings ctx e).exec r = (.ok out, r')) :
    Inherits r'.arena (inherit ctx r.arena h e) := by
  refine ⟨wf_of_entry_ok hi.wf he, fun {p heritage} hp => ?_⟩
  cases e with
  | alloc q keyType valueType =>
    obtain ⟨key, value, hk, hv, -, rfl⟩ := alloc_ok he
    simp only [inherit, hk, hv] at hp
    rw [Arena.link?_openAt q _ hi.wf]
    by_cases hq : p = q
    · subst hq
      rw [update_self] at hp ⊢
      cases hp
      rfl
    · rw [update_of_ne hq] at hp ⊢
      exact hi.types hp
  | update q key keyHash value =>
    obtain ⟨q', types, entry, -, -, -, -, rfl⟩ := update_ok hi.wf he
    rw [Arena.link?_push q _ (hi.wf.keepPath q _), Arena.types_keepPath q hi.wf]
    exact hi.types hp
  | copy s d =>
    obtain ⟨actions, rows, link, -, -, hl, -, rfl⟩ := copy_ok he
    rw [link?_copied hi.wf]
    simp only [inherit] at hp
    by_cases hq : p = d
    · subst hq
      rw [update_self] at hp ⊢
      rw [Option.bind_some, types_copyLink hl]
      cases hs : located? ctx s with
      | some types =>
        rw [hs] at hp
        cases hp
        rw [typesAt?_of_located? hs]
        rfl
      | none =>
        rw [hs] at hp
        obtain ⟨heritage', hs', rfl⟩ := Option.map_eq_some_iff.1 hp
        rw [hi.types hs', Heritage.types_extend]
        cases typesAt? ctx ((pathOf? ctx r.arena s).or (pathOf? ctx r.arena p)) <;> rfl
    · rw [update_of_ne hq] at hp ⊢
      exact hi.types hp
  | remove q =>
    by_cases hq : q < 0
    · cases (remove_of_neg hq).symm.trans he
      rw [Arena.link?_discard q hi.wf]
      exact hi.types hp
    · obtain ⟨rows, -, -, rfl⟩ := remove_ok (Int.not_lt.1 hq) he
      rw [Arena.link?_pushAll hi.wf]
      exact hi.types hp

/-- An entry that fails keeps the invariant, with the heritages as they were. -/
theorem Inherits.failure {e : LogEntry} {err : ResolveError} (hi : Inherits r.arena h)
    (he : (Resolver.entry live settings ctx e).exec r = (.error err, r')) :
    Inherits r'.arena h := by
  obtain ⟨q, path, ha⟩ := entry_error he
  rw [ha]
  exact ⟨hi.wf.keepPath q path, fun hp => (Arena.types_keepPath q hi.wf path _).trans (hi.types hp)⟩

theorem inherits_trackLog (live : LiveRecords) (settings : Settings) (ctx : Context)
    (log : List LogEntry) (hi : Inherits r.arena h) :
    Inherits (trackLog live settings ctx log (r, h)).1.arena
      (trackLog live settings ctx log (r, h)).2 := by
  induction log generalizing r h with
  | nil => exact hi
  | cons e log ih =>
    unfold trackLog
    rcases he : (entry live settings ctx e).exec r with ⟨_ | out, r'⟩
    · exact hi.failure he
    · exact ih (hi.entry he)

/-- **After any calls** the types found last are remembered. -/
theorem inherits_resolveAll (settings : Settings) (calls : List Call) :
    Inherits (resolveAll settings calls).arena (heritages settings calls) := by
  rw [← track_fst]
  unfold heritages track
  induction calls using List.reverseRecOn with
  | nil => exact ⟨Arena.wf_empty, fun hp => by cases hp⟩
  | append_singleton calls c ih =>
    rw [List.foldl_append]
    exact inherits_trackLog c.live settings c.ctx c.log ih

/-! ### Updates -/

lemma typesOf_of_heritage {a : Arena} {heritage : Heritage} (hi : Inherits a h)
    (hp : h p = some heritage) (path : Option String) :
    typesOf ctx a p path = .ok (heritage.extend (typesAt? ctx path)).types := by
  rw [typesOf_eq, hi.types hp, Heritage.types_extend]
  cases typesAt? ctx path <;> rfl

/-- **Which types an update is made with**: after any calls of a group, in any contexts, an update
of a pointer that descends from a big map is made with the types of this big map if and only if the
types found last are the same: those found at remembered paths when the pointers on the way were
copied, and at the path at the end of the chain now. -/
theorem update_types_iff {key : Micheline} {keyHash : String} {value : Option Micheline}
    {heritage : Heritage} (ht : heritages settings calls t = some heritage)
    (hu : (update settings ctx t key keyHash value).exec (resolveAll settings calls) =
      (.ok out, r')) :
    ∃ located types entry,
      locate settings (resolveAll settings calls).arena t = .ok located ∧
      normalizeEntry types key value = .ok entry ∧
      (∃ path n, r'.arena.pending t =
        (resolveAll settings calls).arena.pending t ++ [updateOf ctx t path keyHash entry n]) ∧
      (types = heritage.origin ↔
        ∀ found ∈ (heritage.found ++
            (typesAt? ctx (pathOf? ctx (resolveAll settings calls).arena located)).toList).getLast?,
          found = heritage.origin) := by
  have hi := inherits_resolveAll settings calls
  obtain ⟨located, types, entry, hl, htypes, hentry, -, rfl⟩ := update_ok hi.wf hu
  rw [typesOf_of_heritage hi ht] at htypes
  cases htypes
  have hpending : ∀ path record,
      (((resolveAll settings calls).arena.keepPath t path).push t record).pending t =
        (resolveAll settings calls).arena.pending t ++ [record] := by
    intro path record
    rw [Arena.pending_push (hi.wf.keepPath t path), Arena.pending_keepPath hi.wf, update_self]
  exact ⟨located, _, entry, hl, hentry, ⟨_, _, hpending _ _⟩, Heritage.types_eq_origin_iff _⟩

/-- In the first operation the old big map 5 is copied to the temporary pointer -2, in the second
one a new big map is copied there. -/
def copiesToOnePointer : List Call :=
  [⟨fun _ => .ok [], twoBigMapsContext [(5, "0/0")] "KT1A", [.copy 5 (-2)]⟩,
    ⟨fun _ => .ok [], twoBigMapsContext [] "KT1B",
      [.alloc (-1) (.prim "string" [] []) (.prim "string" [] []), .copy (-1) (-2)]⟩]

theorem update_types_iff_copiesToOnePointer :
    ∃ heritage out r', heritages .default copiesToOnePointer (-2) = some heritage ∧
      (update .default (twoBigMapsContext [] "KT1B") (-2) (.bytes "00") "exprA"
        (some (.int "1"))).exec (resolveAll .default copiesToOnePointer) = (.ok out, r') ∧
      ∃ located types entry,
        locate .default (resolveAll .default copiesToOnePointer).arena (-2) = .ok located ∧
        normalizeEntry types (.bytes "00") (some (.int "1")) = .ok entry ∧
        (∃ path n, r'.arena.pending (-2) =
          (resolveAll .default copiesToOnePointer).arena.pending (-2) ++
            [updateOf (twoBigMapsContext [] "KT1B") (-2) path "exprA" entry n]) ∧
        (types = heritage.origin ↔
          ∀ found ∈ (heritage.found ++ (typesAt? (twoBigMapsContext [] "KT1B")
              (pathOf? (twoBigMapsContext [] "KT1B")
                (resolveAll .default copiesToOnePointer).arena located)).toList).getLast?,
            found = heritage.origin) := by
  have hknown : (heritages .default copiesToOnePointer (-2)).isSome := by decide +kernel
  have hok : ((update .default (twoBigMapsContext [] "KT1B") (-2) (.bytes "00") "exprA"
      (some (.int "1"))).exec (resolveAll .default copiesToOnePointer)).1.toOption.map
        (·.diffs.length) = some 0 := by decide +kernel
  obtain ⟨heritage, ht⟩ := Option.isSome_iff_exists.1 hknown
  obtain ⟨out, hu, -⟩ := fst_ok_of_toOption_map hok
  exact ⟨heritage, out, _, ht, hu, update_types_iff ht hu⟩

/-- An update is not always made with the types of the big map that its pointer descends from: the
path of the big map that the pointer stood for in another contract still counts. -/
theorem not_updateOf_origin :
    ¬ ∀ (settings : Settings) (calls : List Call) (ctx : Context) (t located : Int)
        (heritage : Heritage) (key : Micheline) (keyHash : String) (value : Option Micheline)
        (entry : Normalized), heritages settings calls t = some heritage → t < 0 →
        locate settings (resolveAll settings calls).arena t = .ok located →
        normalizeEntry heritage.origin key value = .ok entry →
        ∃ path n, ((update settings ctx t key keyHash value).exec
            (resolveAll settings calls)).2.arena.pending t =
          (resolveAll settings calls).arena.pending t ++ [updateOf ctx t path keyHash entry n] := by
  intro hclaim
  have hknown : (heritages .default copiesToOnePointer (-2)).map (fun heritage =>
      (normalizeEntry heritage.origin (.string "a") (some (.string "b"))).toOption.map
        (·.keyStrings)) = some (some ["a"]) := by decide +kernel
  have hlocated : (locate .default (resolveAll .default copiesToOnePointer).arena (-2)).toOption.map
      id = some (-1) := by decide +kernel
  have hbefore : ((resolveAll .default copiesToOnePointer).arena.pending (-2)).length = 0 := by
    decide +kernel
  have hafter : (((update .default (twoBigMapsContext [] "KT1B") (-2) (.string "a") "exprA"
      (some (.string "b"))).exec (resolveAll .default copiesToOnePointer)).2.arena.pending
        (-2)).length = 0 := by decide +kernel
  obtain ⟨heritage, ht, hentry⟩ := Option.map_eq_some_iff.1 hknown
  obtain ⟨located, hl, -⟩ := ok_of_toOption_map hlocated
  obtain ⟨entry, hentry, -⟩ := ok_of_toOption_map hentry
  obtain ⟨path, n, hpending⟩ := hclaim .default copiesToOnePointer (twoBigMapsContext [] "KT1B")
    (-2) located heritage (.string "a") "exprA" (some (.string "b")) entry ht (by decide) hl hentry
  rw [hpending, List.length_append, hbefore] at hafter
  cases hafter

end Resolver

end Lineage
