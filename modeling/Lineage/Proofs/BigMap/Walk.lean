import Lineage.Proofs.BigMap.Links

/-!
# How far links are followed

A link leads from a pointer to the one it was copied from. Nothing keeps the entries of a log from
copying to a pointer again, so links may lead round in a circle, and they may lead to a pointer that
has none. Whoever looks for the origin of a pointer therefore counts the hops.

`resolveSource_walk` says what comes of it, whatever the links are. The walk, taken turn by turn
(`Walk.turn`), is over after one turn more than hops are allowed at the latest, and its answer is
told by where the links lead within the hops that are allowed (`Leads`). A walk ends in one of three
ways, and there is no fourth (`exists_leads`).
-/

namespace Lineage

/-- The pointer to which so many hops along the links lead from a pointer. -/
def Arena.hop? (a : Arena) : Nat → Int → Option Int
  | 0, p => some p
  | n + 1, p => ((a.link? p).bind Link.source).bind (a.hop? n)

namespace Resolver

variable {a : Arena} {p q s start : Int} {n m : Nat} {answer : Except ResolveError Int}

/-! ### One pointer -/

/-- The link of a temporary pointer is missing. -/
def Dangles (a : Arena) (p : Int) : Prop := p < 0 ∧ a.link? p = none

/-- A temporary pointer has a source, so that there is a hop from it. -/
def HopsTo (a : Arena) (p s : Int) : Prop := p < 0 ∧ (a.link? p).map Link.source = some (some s)

/-- There is no hop from a pointer, and what is answered there: itself where a chain ends, and a
complaint where it breaks off. -/
inductive Stops (a : Arena) (p : Int) : Except ResolveError Int → Prop
  | home (h : IsHome a p) : Stops a p (.ok p)
  | dangling (h : Dangles a p) : Stops a p (.error (.unresolvedPointer p))

lemma stops_or_hops (a : Arena) (p : Int) : (∃ answer, Stops a p answer) ∨ ∃ s, HopsTo a p s := by
  by_cases hp : 0 ≤ p
  · exact .inl ⟨_, .home (.inl hp)⟩
  · replace hp := Int.not_le.1 hp
    rcases hs : (a.link? p).map Link.source with _ | _ | s
    · exact .inl ⟨_, .dangling ⟨hp, Option.map_eq_none_iff.1 hs⟩⟩
    · exact .inl ⟨_, .home (.inr hs)⟩
    · exact .inr ⟨s, hp, hs⟩

lemma HopsTo.not_isHome (h : HopsTo a p s) : ¬ IsHome a p := by
  rintro (hp | hs)
  · exact absurd h.1 (Int.not_lt.2 hp)
  · rw [h.2] at hs
    cases hs

lemma Stops.followLinks_eq (h : Stops a p answer) : followLinks a start n p = answer := by
  cases h with
  | home h => exact followLinks_of_isHome h
  | dangling h =>
    rw [Resolver.followLinks_eq, if_neg (Int.not_le.2 h.1), h.2]
    rfl

lemma followLinks_zero (h : HopsTo a p s) :
    followLinks a start 0 p = .error (.unresolvedPointer start) := by
  rw [followLinks_eq, if_neg (Int.not_le.2 h.1), h.2]

lemma followLinks_succ (h : HopsTo a p s) :
    followLinks a start (n + 1) p = followLinks a start n s := by
  rw [followLinks_eq, if_neg (Int.not_le.2 h.1), h.2]

/-! ### Where links lead -/

/-- So many hops along the links lead from a pointer to another one, and no chain ends before. -/
structure Leads (a : Arena) (p : Int) (n : Nat) (q : Int) : Prop where
  hop : a.hop? n p = some q
  goesOn {k : Nat} {x : Int} (hk : k < n) (hx : a.hop? k p = some x) : ¬ IsHome a x

lemma Leads.here (a : Arena) (p : Int) : Leads a p 0 p where
  hop := rfl
  goesOn hk := absurd hk (Nat.not_lt_zero _)

lemma hop?_succ (h : HopsTo a p s) (n : Nat) : a.hop? (n + 1) p = a.hop? n s := by
  obtain ⟨l, hl, hs⟩ := Option.map_eq_some_iff.1 h.2
  rw [Arena.hop?, hl, Option.bind_some, hs, Option.bind_some]

lemma leads_succ (h : HopsTo a p s) : Leads a p (n + 1) q ↔ Leads a s n q := by
  constructor
  · intro hq
    refine ⟨hop?_succ h n ▸ hq.hop, fun {k x} hk hx => ?_⟩
    exact hq.goesOn (Nat.succ_lt_succ hk) ((hop?_succ h k).trans hx)
  · intro hq
    refine ⟨(hop?_succ h n).trans hq.hop, fun {k x} hk hx => ?_⟩
    cases k with
    | zero =>
      cases hx
      exact h.not_isHome
    | succ k => exact hq.goesOn (Nat.lt_of_succ_lt_succ hk) (hop?_succ h k ▸ hx)

lemma Leads.exists_hop (h : Leads a p (n + 1) q) : ∃ s, HopsTo a p s := by
  refine (stops_or_hops a p).resolve_left ?_
  rintro ⟨answer, hhome | hdangles⟩
  · exact h.goesOn (Nat.succ_pos n) rfl hhome
  · have hq := h.hop
    rw [Arena.hop?, hdangles.2] at hq
    cases hq

/-- Links lead to where there is no hop within so many hops, or they lead farther. -/
theorem exists_leads (a : Arena) (p : Int) (m : Nat) :
    (∃ n ≤ m, ∃ q answer, Leads a p n q ∧ Stops a q answer) ∨ ∃ q, Leads a p (m + 1) q := by
  induction m generalizing p with
  | zero =>
    rcases stops_or_hops a p with ⟨answer, hstops⟩ | ⟨s, hs⟩
    · exact .inl ⟨0, Nat.le_refl 0, p, answer, .here a p, hstops⟩
    · exact .inr ⟨s, (leads_succ hs).2 (.here a s)⟩
  | succ m ih =>
    rcases stops_or_hops a p with ⟨answer, hstops⟩ | ⟨s, hs⟩
    · exact .inl ⟨0, Nat.zero_le _, p, answer, .here a p, hstops⟩
    · rcases ih s with ⟨n, hn, q, answer, hq, hstops⟩ | ⟨q, hq⟩
      · exact .inl ⟨n + 1, Nat.succ_le_succ hn, q, answer, (leads_succ hs).2 hq, hstops⟩
      · exact .inr ⟨q, (leads_succ hs).2 hq⟩

/-! ### What is found -/

lemma Leads.followLinks_of_stops (h : Leads a p n q) (hn : n ≤ m) (hq : Stops a q answer) :
    followLinks a start m p = answer := by
  induction n generalizing p m with
  | zero =>
    obtain rfl : p = q := Option.some.inj h.hop
    exact hq.followLinks_eq
  | succ n ih =>
    obtain ⟨s, hs⟩ := h.exists_hop
    obtain ⟨m, rfl⟩ := Nat.exists_eq_add_one_of_ne_zero (Nat.ne_zero_of_lt hn)
    rw [followLinks_succ hs]
    exact ih ((leads_succ hs).1 h) (Nat.le_of_succ_le_succ hn)

lemma Leads.followLinks_of_lt (h : Leads a p (m + 1) q) :
    followLinks a start m p = .error (.unresolvedPointer start) := by
  induction m generalizing p with
  | zero =>
    obtain ⟨s, hs⟩ := h.exists_hop
    exact followLinks_zero hs
  | succ m ih =>
    obtain ⟨s, hs⟩ := h.exists_hop
    rw [followLinks_succ hs]
    exact ih ((leads_succ hs).1 h)

theorem followLinks_ok_iff : followLinks a start m p = .ok q ↔
    ∃ n ≤ m, Leads a p n q ∧ IsHome a q := by
  constructor
  · intro h
    rcases exists_leads a p m with ⟨n, hn, x, answer, hx, hstops⟩ | ⟨x, hx⟩
    · cases (hx.followLinks_of_stops hn hstops).symm.trans h
      cases hstops with
      | home hhome => exact ⟨n, hn, hx, hhome⟩
    · cases hx.followLinks_of_lt.symm.trans h
  · rintro ⟨n, hn, hq, hhome⟩
    exact hq.followLinks_of_stops hn (.home hhome)

theorem followLinks_error_iff {e : ResolveError} : followLinks a start m p = .error e ↔
    (∃ n ≤ m, ∃ q, Leads a p n q ∧ Dangles a q ∧ e = .unresolvedPointer q) ∨
      ∃ q, Leads a p (m + 1) q ∧ e = .unresolvedPointer start := by
  constructor
  · intro h
    rcases exists_leads a p m with ⟨n, hn, x, answer, hx, hstops⟩ | ⟨x, hx⟩
    · cases (hx.followLinks_of_stops hn hstops).symm.trans h
      cases hstops with
      | dangling hdangles => exact .inl ⟨n, hn, x, hx, hdangles, rfl⟩
    · cases hx.followLinks_of_lt.symm.trans h
      exact .inr ⟨x, hx, rfl⟩
  · rintro (⟨n, hn, q, hq, hdangles, rfl⟩ | ⟨q, hq, rfl⟩)
    · exact hq.followLinks_of_stops hn (.dangling hdangles)
    · exact hq.followLinks_of_lt

end Resolver

/-! ### The walk, turn by turn -/

/-- Where a walk along the links stands, and after how many hops. -/
structure Walk where
  pointer : Int
  hops : Nat

namespace Walk

/-- What comes of a turn: the walk is over, or it goes on from another place. -/
inductive Turn where
  | over (answer : Except ResolveError Int)
  | on (w : Walk)

/-- A turn of a walk. A hop is counted before it is taken, and the walk is given up when it is one
too many. -/
def turn (limit : Nat) (a : Arena) (start : Int) (w : Walk) : Turn :=
  if 0 ≤ w.pointer then .over (.ok w.pointer)
  else
    match (a.link? w.pointer).map Link.source with
    | none => .over (.error (.unresolvedPointer w.pointer))
    | some none => .over (.ok w.pointer)
    | some (some source) =>
      if limit < w.hops + 1 then .over (.error (.unresolvedPointer start))
      else .on ⟨source, w.hops + 1⟩

/-- A walk is over after so many turns and has come to an answer. Nothing but the turns ends it. -/
inductive Ends (limit : Nat) (a : Arena) (start : Int) :
    Walk → Nat → Except ResolveError Int → Prop
  | over {w : Walk} {answer : Except ResolveError Int} (h : w.turn limit a start = .over answer) :
    Ends limit a start w 1 answer
  | on {w w' : Walk} {turns : Nat} {answer : Except ResolveError Int}
    (h : w.turn limit a start = .on w') (hw : Ends limit a start w' turns answer) :
    Ends limit a start w (turns + 1) answer

variable {limit turns hops m : Nat} {a : Arena} {start p s : Int} {w w' : Walk}
  {answer answer' : Except ResolveError Int}

lemma ends_of_over (h : w.turn limit a start = .over answer) :
    Ends limit a start w turns answer' ↔ turns = 1 ∧ answer' = answer := by
  constructor
  · rintro (h' | ⟨h', -⟩)
    · cases h.symm.trans h'
      exact ⟨rfl, rfl⟩
    · cases h.symm.trans h'
  · rintro ⟨rfl, rfl⟩
    exact .over h

lemma ends_of_on (h : w.turn limit a start = .on w') :
    Ends limit a start w turns answer ↔ ∃ n, turns = n + 1 ∧ Ends limit a start w' n answer := by
  constructor
  · rintro (h' | ⟨h', hw⟩)
    · cases h.symm.trans h'
    · cases h.symm.trans h'
      exact ⟨_, rfl, hw⟩
  · rintro ⟨n, rfl, hw⟩
    exact .on h hw

open Resolver

lemma turn_of_stops (h : Stops a p answer) : turn limit a start ⟨p, hops⟩ = .over answer := by
  unfold turn
  cases h with
  | home h =>
    by_cases hp : 0 ≤ p
    · rw [if_pos hp]
    · rw [if_neg hp, h.resolve_left hp]
  | dangling h =>
    rw [if_neg (Int.not_le.2 h.1), h.2]
    rfl

lemma turn_of_hopsTo (h : HopsTo a p s) :
    turn limit a start ⟨p, hops⟩ =
      if limit < hops + 1 then .over (.error (.unresolvedPointer start))
      else .on ⟨s, hops + 1⟩ := by
  unfold turn
  rw [if_neg (Int.not_le.2 h.1), h.2]

/-- **A walk has one course**: with so many hops left it takes at most one turn more, and it comes
to what following the links for the rest of the hops comes to. -/
theorem ends_iff (start p : Int) (hops : Nat) (hlimit : hops + m = limit) :
    ∃ n ≤ m + 1, ∀ turns answer, Ends limit a start ⟨p, hops⟩ turns answer ↔
      turns = n ∧ answer = followLinks a start m p := by
  induction m generalizing p hops with
  | zero =>
    refine ⟨1, Nat.le_refl 1, fun turns answer => ?_⟩
    rcases stops_or_hops a p with ⟨found, hstops⟩ | ⟨s, hs⟩
    · rw [ends_of_over (turn_of_stops hstops), hstops.followLinks_eq]
    · have hturn : turn limit a start ⟨p, hops⟩ = .over (.error (.unresolvedPointer start)) := by
        rw [turn_of_hopsTo hs, if_pos (by omega)]
      rw [ends_of_over hturn, followLinks_zero hs]
  | succ m ih =>
    rcases stops_or_hops a p with ⟨found, hstops⟩ | ⟨s, hs⟩
    · refine ⟨1, by omega, fun turns answer => ?_⟩
      rw [ends_of_over (turn_of_stops hstops), hstops.followLinks_eq]
    · obtain ⟨n, hn, hends⟩ := ih s (hops + 1) (by omega)
      have hturn : turn limit a start ⟨p, hops⟩ = .on ⟨s, hops + 1⟩ := by
        rw [turn_of_hopsTo hs, if_neg (by omega)]
      refine ⟨n + 1, by omega, fun turns answer => ?_⟩
      rw [ends_of_on hturn, followLinks_succ hs]
      simp only [hends]
      constructor
      · rintro ⟨_, rfl, rfl, hanswer⟩
        exact ⟨rfl, hanswer⟩
      · rintro ⟨rfl, hanswer⟩
        exact ⟨n, rfl, rfl, hanswer⟩

end Walk

namespace Resolver

/-- **A pointer is followed as far as is allowed and no farther**, whatever the links are.
The walk from it is over after at most one turn more than hops are allowed. It finds the first
pointer that is final or has a link without a source, if hops that are allowed lead there. Otherwise
it complains of the first temporary pointer without a link, if they lead there, and of the pointer
it started from if the links lead on. -/
theorem resolveSource_walk (settings : Settings) (a : Arena) (p : Int) :
    let limit := settings.maxChainLength
    let found := resolveSource settings a p
    (∃ n ≤ limit + 1, ∀ turns answer, Walk.Ends limit a p ⟨p, 0⟩ turns answer ↔
      turns = n ∧ answer = found) ∧
    (∀ q, found = .ok q ↔ ∃ n ≤ limit, Leads a p n q ∧ IsHome a q) ∧
    ∀ e, found = .error e ↔
      (∃ n ≤ limit, ∃ q, Leads a p n q ∧ Dangles a q ∧ e = .unresolvedPointer q) ∨
        ∃ q, Leads a p (limit + 1) q ∧ e = .unresolvedPointer p :=
  ⟨Walk.ends_iff p p 0 (Nat.zero_add _), fun _ => followLinks_ok_iff, fun _ => followLinks_error_iff⟩

/-- A hop too many, and a circle. -/
example :
    let a := (Arena.empty.setLink (-1) ⟨some 5, none, none⟩).setLink (-2) ⟨some (-1), none, none⟩
    let b := a.setLink (-1) ⟨some (-2), none, none⟩
    followLinks a (-2) 2 (-2) = .ok 5 ∧
      followLinks a (-2) 1 (-2) = .error (.unresolvedPointer (-2)) ∧
      followLinks b (-1) 8 (-1) = .error (.unresolvedPointer (-1)) := ⟨rfl, rfl, rfl⟩

end Resolver

end Lineage
