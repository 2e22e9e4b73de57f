import Mathlib.Tactic.Common
import Lineage.Typed.TypeExpression

/-!
# How type expressions are read

`Reads` has a rule for each way in which a type expression is read as a node, and `ofTypeFrom`
follows these rules (`ofTypeFrom_ok`). A pair of more than two components is read as a pair of
the first one and of a pair of the others.

The nodes that are read have no values (`unbound_ofType`).
-/

namespace Lineage

lemma except_bind_ok {ε α β : Type} {x : Except ε α} {f : α → Except ε β} {b : β} :
    (x >>= f) = .ok b ↔ ∃ a, x = .ok a ∧ f a = .ok b := by
  cases x with
  | error e => simp [bind, Except.bind]
  | ok a => simp [bind, Except.bind]

lemma except_ok_of_toOption {ε α : Type} {x : Except ε α} {a : α} (h : x.toOption = some a) :
    x = .ok a := by
  cases x with
  | error e => cases h
  | ok a' => exact congrArg Except.ok (Option.some.inj h)

/-- What is behind the first component of a pair: the second one, or a pair of all others. -/
def Micheline.behind (name : String) (second : Micheline) : List Micheline → Micheline
  | [] => second
  | rest => .prim name (second :: rest) []

def Collection.segment : Collection → String
  | list => "l"
  | set => "s"

namespace Node

/-- **The rules of reading**: a type expression at a path, with the number of the first node, the
node, and the number behind the last one. -/
inductive Reads : Nat → String → Nat → Micheline → Node → Nat → Prop
  | scalar {i d : Nat} {path name : String} {args : List Micheline} {annots : List String}
      {type : Scalar} (hname : Scalar.ofName? name = some type) :
    Reads i path d (.prim name args annots) (.scalar (siteAt i path d annots) type args none)
      (i + 1)
  | pair {i j k d : Nat} {path : String} {t u : Micheline} {rest : List Micheline}
      {annots : List String} {a b : Node}
      (hl : Reads (i + 1) (childPath path "0") (d + 1) t a j)
      (hr : Reads j (childPath path "1") (d + 1) (.behind "pair" u rest) b k) :
    Reads i path d (.prim "pair" (t :: u :: rest) annots) (.pair (siteAt i path d annots) a b) k
  | or {i j k d : Nat} {path : String} {t u : Micheline} {annots : List String} {a b : Node}
      (hl : Reads (i + 1) (childPath path "0") (d + 1) t a j)
      (hr : Reads j (childPath path "1") (d + 1) u b k) :
    Reads i path d (.prim "or" [t, u] annots) (.or (siteAt i path d annots) a b none) k
  | option {i j d : Nat} {path : String} {t : Micheline} {annots : List String} {a : Node}
      (ht : Reads (i + 1) (childPath path "o") (d + 1) t a j) :
    Reads i path d (.prim "option" [t] annots) (.option (siteAt i path d annots) a none) j
  | collection {i j d : Nat} {path : String} {t : Micheline} {annots : List String} {a : Node}
      (kind : Collection)
      (ht : Reads (i + 1) (childPath path kind.segment) (d + 1) t a j) :
    Reads i path d (.prim kind.name [t] annots)
      (.collection (siteAt i path d annots) kind a none) j
  | map {i j k d : Nat} {path : String} {t u : Micheline} {annots : List String} {a b : Node}
      (hk : Reads (i + 1) (childPath path "k") (d + 1) t a j)
      (hv : Reads j (childPath path "v") (d + 1) u b k) :
    Reads i path d (.prim "map" [t, u] annots) (.map (siteAt i path d annots) a b none) k
  | bigMap {i j k d : Nat} {path : String} {t u : Micheline} {annots : List String} {a b : Node}
      (hk : Reads (i + 1) (childPath path "k") (d + 1) t a j)
      (hv : Reads j (childPath path "v") (d + 1) u b k) :
    Reads i path d (.prim "big_map" [t, u] annots)
      (.bigMap (siteAt i path d annots) a b none none) k
  | lambda {i j k d : Nat} {path : String} {t u : Micheline} {annots : List String} {a b : Node}
      (hp : Reads (i + 1) (childPath path "0") (d + 1) t a j)
      (hr : Reads j (childPath path "1") (d + 1) u b k) :
    Reads i path d (.prim "lambda" [t, u] annots) (.lambda (siteAt i path d annots) a b none) k
  | contract {i j d : Nat} {path : String} {t : Micheline} {annots : List String} {a : Node}
      (hp : Reads (i + 1) (childPath path "0") (d + 1) t a j) :
    Reads i path d (.prim "contract" [t] annots) (.contract (siteAt i path d annots) a none) j
  | ticket {i j d : Nat} {path : String} {t : Micheline} {annots : List String} {a : Node}
      (hc : Reads (i + 4) (childPath (childPath (childPath path "0") "1") "0") (d + 3) t a j) :
    Reads i path d (.prim "ticket" [t] annots) (ticketAround a i j path d annots) (j + 1)

/-! ### Reading follows the rules -/

variable {next depth j : Nat} {path : String} {args rest : List Micheline} {annots : List String}
  {l m t : Micheline} {n : Node}

lemma ofTypeFrom_pair :
    ofTypeFrom next path depth (.prim "pair" args annots) = ofComb next path depth annots args := by
  rw [ofTypeFrom.eq_def]
  rfl

lemma ofComb_cons :
    ofComb next path depth annots (l :: m :: rest) = (do
      let (left, i) ← ofTypeFrom (next + 1) (childPath path "0") (depth + 1) l
      let (right, i) ← ofTypeFrom i (childPath path "1") (depth + 1) (.behind "pair" m rest)
      return (.pair (siteAt next path depth annots) left right, i)) := by
  cases rest with
  | nil => rw [ofComb]; rfl
  | cons r rest =>
    rw [ofComb]
    simp only [Micheline.behind, ofTypeFrom_pair]

lemma sizeOf_arg_lt {name : String} (h : t ∈ args) :
    sizeOf t < sizeOf (Micheline.prim name args annots) := by
  have hlt := List.sizeOf_lt_of_mem h
  rw [Micheline.prim.sizeOf_spec]
  omega

lemma sizeOf_behind_lt :
    sizeOf (Micheline.behind "pair" m rest) <
      sizeOf (Micheline.prim "pair" (l :: m :: rest) annots) := by
  cases rest with
  | nil => exact sizeOf_arg_lt (List.mem_cons_of_mem _ List.mem_cons_self)
  | cons r rest =>
    have hnil : sizeOf ([] : List String) ≤ sizeOf annots := by
      cases annots with
      | nil => exact Nat.le_refl _
      | cons annot annots =>
        rw [List.nil.sizeOf_spec, List.cons.sizeOf_spec]
        omega
    unfold Micheline.behind
    rw [Micheline.prim.sizeOf_spec, Micheline.prim.sizeOf_spec, List.cons.sizeOf_spec l]
    omega

lemma read_one {x : Except NodeError (Node × Nat)} (make : Node → Node) :
    (x >>= fun p => pure (make p.1, p.2)) = .ok (n, j) ↔
      ∃ inner, x = .ok (inner, j) ∧ make inner = n := by
  simp only [except_bind_ok, Prod.exists, pure, Except.pure, Except.ok.injEq, Prod.mk.injEq]
  constructor
  · rintro ⟨inner, i, hx, hn, rfl⟩
    exact ⟨inner, hx, hn⟩
  · rintro ⟨inner, hx, hn⟩
    exact ⟨inner, j, hx, hn, rfl⟩

lemma read_two {x : Except NodeError (Node × Nat)}
    {y : Node × Nat → Except NodeError (Node × Nat)} (make : Node → Node → Node) :
    (x >>= fun p => y p >>= fun q => pure (make p.1 q.1, q.2)) = .ok (n, j) ↔
      ∃ left right i, x = .ok (left, i) ∧ y (left, i) = .ok (right, j) ∧ make left right = n := by
  simp only [except_bind_ok, Prod.exists, pure, Except.pure, Except.ok.injEq, Prod.mk.injEq]
  constructor
  · rintro ⟨left, i, hx, right, j', hy, hn, rfl⟩
    exact ⟨left, right, i, hx, hy, hn⟩
  · rintro ⟨left, right, i, hx, hy, hn⟩
    exact ⟨left, i, hx, right, j, hy, hn, rfl⟩

theorem reads_of_ofTypeFrom (h : ofTypeFrom next path depth t = .ok (n, j)) :
    Reads next path depth t n j := by
  induction t using (measure (sizeOf : Micheline → Nat)).wf.induction
    generalizing next path depth n j with
  | h t ih' =>
    have ih : ∀ {t'}, sizeOf t' < sizeOf t → ∀ {next path depth n j},
        ofTypeFrom next path depth t' = .ok (n, j) → Reads next path depth t' n j :=
      fun ht' => ih' _ ht'
    have hfirst : ∀ {l : Micheline} {rest : List Micheline}, l ∈ l :: rest := List.mem_cons_self
    have hsecond : ∀ {l r : Micheline}, r ∈ [l, r] := List.mem_cons_of_mem _ List.mem_cons_self
    cases t with
    | seq _ | int _ | string _ | bytes _ => cases h
    | prim name args annots =>
      let s := siteAt next path depth annots
      by_cases hpair : name = "pair"
      · subst hpair
        rw [ofTypeFrom_pair] at h
        match args with
        | l :: m :: rest =>
          rw [ofComb_cons] at h
          dsimp only at h
          obtain ⟨left, right, i, hl, hr, rfl⟩ := (read_two (.pair s · ·)).1 h
          exact .pair (ih (sizeOf_arg_lt hfirst) hl) (ih sizeOf_behind_lt hr)
        | [] | [_] => cases h
      rw [ofTypeFrom.eq_def] at h
      dsimp only at h
      cases htype : Scalar.ofName? name with
      | some type =>
        rw [htype] at h
        cases h
        exact .scalar htype
      | none =>
        rw [htype] at h
        dsimp only at h
        rw [if_neg hpair] at h
        by_cases hor : name = "or"
        · rw [if_pos hor] at h
          subst hor
          split at h
          · obtain ⟨left, right, i, hl, hr, rfl⟩ := (read_two (.or s · · none)).1 h
            exact .or (ih (sizeOf_arg_lt hfirst) hl) (ih (sizeOf_arg_lt hsecond) hr)
          · cases h
        rw [if_neg hor] at h
        by_cases hoption : name = "option"
        · rw [if_pos hoption] at h
          subst hoption
          split at h
          · obtain ⟨inner, ht, rfl⟩ := (read_one (.option s · none)).1 h
            exact .option (ih (sizeOf_arg_lt hfirst) ht)
          · cases h
        rw [if_neg hoption] at h
        by_cases hlist : name = "list"
        · rw [if_pos hlist] at h
          subst hlist
          split at h
          · obtain ⟨inner, ht, rfl⟩ := (read_one (.collection s .list · none)).1 h
            exact .collection .list (ih (sizeOf_arg_lt hfirst) ht)
          · cases h
        rw [if_neg hlist] at h
        by_cases hset : name = "set"
        · rw [if_pos hset] at h
          subst hset
          split at h
          · obtain ⟨inner, ht, rfl⟩ := (read_one (.collection s .set · none)).1 h
            exact .collection .set (ih (sizeOf_arg_lt hfirst) ht)
          · cases h
        rw [if_neg hset] at h
        by_cases hmap : name = "map"
        · rw [if_pos hmap] at h
          subst hmap
          split at h
          · obtain ⟨left, right, i, hl, hr, rfl⟩ := (read_two (.map s · · none)).1 h
            exact .map (ih (sizeOf_arg_lt hfirst) hl) (ih (sizeOf_arg_lt hsecond) hr)
          · cases h
        rw [if_neg hmap] at h
        by_cases hbigMap : name = "big_map"
        · rw [if_pos hbigMap] at h
          subst hbigMap
          split at h
          · obtain ⟨left, right, i, hl, hr, rfl⟩ := (read_two (.bigMap s · · none none)).1 h
            exact .bigMap (ih (sizeOf_arg_lt hfirst) hl) (ih (sizeOf_arg_lt hsecond) hr)
          · cases h
        rw [if_neg hbigMap] at h
        by_cases hlambda : name = "lambda"
        · rw [if_pos hlambda] at h
          subst hlambda
          split at h
          · obtain ⟨left, right, i, hl, hr, rfl⟩ := (read_two (.lambda s · · none)).1 h
            exact .lambda (ih (sizeOf_arg_lt hfirst) hl) (ih (sizeOf_arg_lt hsecond) hr)
          · cases h
        rw [if_neg hlambda] at h
        by_cases hcontract : name = "contract"
        · rw [if_pos hcontract] at h
          subst hcontract
          split at h
          · obtain ⟨inner, ht, rfl⟩ := (read_one (.contract s · none)).1 h
            exact .contract (ih (sizeOf_arg_lt hfirst) ht)
          · cases h
        rw [if_neg hcontract] at h
        by_cases hticket : name = "ticket"
        · rw [if_pos hticket] at h
          subst hticket
          split at h
          · simp only [except_bind_ok, Prod.exists, pure, Except.pure, Except.ok.injEq,
              Prod.mk.injEq] at h
            obtain ⟨content, i, ht, rfl, rfl⟩ := h
            exact .ticket (ih (sizeOf_arg_lt hfirst) ht)
          · cases h
        rw [if_neg hticket] at h
        cases h

theorem ofTypeFrom_of_reads (h : Reads next path depth t n j) :
    ofTypeFrom next path depth t = .ok (n, j) := by
  induction h with
  | scalar hname => rw [ofTypeFrom.eq_def]; simp only [hname]
  | pair hl hr ihl ihr =>
    rw [ofTypeFrom_pair, ofComb_cons]
    exact (read_two (.pair _ · ·)).2 ⟨_, _, _, ihl, ihr, rfl⟩
  | or hl hr ihl ihr =>
    rw [ofTypeFrom.eq_def]
    exact (read_two (.or _ · · none)).2 ⟨_, _, _, ihl, ihr, rfl⟩
  | map hk hv ihk ihv =>
    rw [ofTypeFrom.eq_def]
    exact (read_two (.map _ · · none)).2 ⟨_, _, _, ihk, ihv, rfl⟩
  | bigMap hk hv ihk ihv =>
    rw [ofTypeFrom.eq_def]
    exact (read_two (.bigMap _ · · none none)).2 ⟨_, _, _, ihk, ihv, rfl⟩
  | lambda hp hr ihp ihr =>
    rw [ofTypeFrom.eq_def]
    exact (read_two (.lambda _ · · none)).2 ⟨_, _, _, ihp, ihr, rfl⟩
  | option ht ih =>
    rw [ofTypeFrom.eq_def]
    exact (read_one (.option _ · none)).2 ⟨_, ih, rfl⟩
  | collection kind ht ih =>
    rw [ofTypeFrom.eq_def]
    cases kind with
    | list => exact (read_one (.collection _ .list · none)).2 ⟨_, ih, rfl⟩
    | set => exact (read_one (.collection _ .set · none)).2 ⟨_, ih, rfl⟩
  | contract hp ih =>
    rw [ofTypeFrom.eq_def]
    exact (read_one (.contract _ · none)).2 ⟨_, ih, rfl⟩
  | ticket hc ih =>
    rw [ofTypeFrom.eq_def]
    exact except_bind_ok.2 ⟨_, ih, rfl⟩

theorem ofTypeFrom_ok :
    ofTypeFrom next path depth t = .ok (n, j) ↔ Reads next path depth t n j :=
  ⟨reads_of_ofTypeFrom, ofTypeFrom_of_reads⟩

/-! ### Nodes without values -/

/-- No value is bound to any node of the skeleton. -/
def Unbound : Node → Prop
  | scalar _ _ _ value => value = none
  | contract _ parameter value => parameter.Unbound ∧ value = none
  | ticket _ inner => inner.Unbound
  | option _ inner present => inner.Unbound ∧ present = none
  | pair _ l r => l.Unbound ∧ r.Unbound
  | or _ l r side => l.Unbound ∧ r.Unbound ∧ side = none
  | collection _ _ elem items => elem.Unbound ∧ items = none
  | map _ key value entries => key.Unbound ∧ value.Unbound ∧ entries = none
  | bigMap _ key value pointer entries =>
    key.Unbound ∧ value.Unbound ∧ pointer = none ∧ entries = none
  | lambda _ parameter result code => parameter.Unbound ∧ result.Unbound ∧ code = none

lemma Reads.unbound (h : Reads next path depth t n j) : n.Unbound := by
  induction h with
  | scalar _ => rfl
  | pair _ _ ihl ihr => exact ⟨ihl, ihr⟩
  | or _ _ ihl ihr => exact ⟨ihl, ihr, rfl⟩
  | option _ ih => exact ⟨ih, rfl⟩
  | collection _ _ ih => exact ⟨ih, rfl⟩
  | map _ _ ihk ihv => exact ⟨ihk, ihv, rfl⟩
  | bigMap _ _ ihk ihv => exact ⟨ihk, ihv, rfl, rfl⟩
  | lambda _ _ ihp ihr => exact ⟨ihp, ihr, rfl⟩
  | contract _ ih => exact ⟨ih, rfl⟩
  | ticket _ ih => exact ⟨rfl, ih, rfl⟩

lemma exists_reads (h : ofTypeAt path t = .ok n) : ∃ j, Reads 0 path 0 t n j := by
  unfold ofTypeAt at h
  cases hread : ofTypeFrom 0 path 0 t with
  | error e =>
    rw [hread] at h
    cases h
  | ok read =>
    rw [hread] at h
    cases h
    exact ⟨_, ofTypeFrom_ok.1 hread⟩

theorem unbound_ofTypeAt (h : ofTypeAt path t = .ok n) : n.Unbound := by
  obtain ⟨j, hreads⟩ := exists_reads h
  exact hreads.unbound

theorem unbound_ofType (h : ofType t = .ok n) : n.Unbound := unbound_ofTypeAt h

end Node

end Lineage
