import Lineage.Proofs.Typed.Binding
import Lineage.Typed.Shape

/-!
# What binding leaves alone

Binding a value changes the values at the nodes of a type and nothing else: without its values the
node is what it was before (`erase_bind`), however the binding ended. How it ends is a matter of the
type alone, and not of the values bound before (`failure_bind_erase`).

Names, fields and alternatives are read off the node without its values.
-/

namespace Lineage

namespace Attempt

variable {α β : Type} {t : Attempt α} {halted : α → β} {next : α → Attempt β}

lemma andThen_eq :
    (t.failure = none ∧ t.andThen halted next = next t.result) ∨
      ∃ e, t.failure = some e ∧ t.andThen halted next = stopped (halted t.result) e := by
  unfold andThen
  cases h : t.failure with
  | none => exact .inl ⟨rfl, rfl⟩
  | some e => exact .inr ⟨e, rfl, rfl⟩

lemma toExcept_eq_ok {a : α} : t.toExcept = .ok a ↔ t.failure = none ∧ t.result = a := by
  obtain ⟨b, _ | e⟩ := t <;> simp [toExcept]

lemma toExcept_andThen_done {f : α → β} :
    (t.andThen halted fun a => done (f a)).toExcept = t.toExcept.map f := by
  obtain ⟨a, _ | e⟩ := t <;> rfl

lemma failure_andThen : (t.andThen halted next).failure = t.failure.or (next t.result).failure := by
  unfold andThen
  cases h : t.failure with
  | none => rfl
  | some e => rfl

end Attempt

namespace Micheline

variable {v : Micheline} {c c' : Constructor} {args args' : List Micheline}

lemma Applies.unique (h : v.Applies c args) (h' : v.Applies c' args') : c' = c ∧ args' = args := by
  obtain ⟨annots, rfl⟩ := h
  obtain ⟨annots', h'⟩ := h'
  obtain ⟨hname, rfl, -⟩ := prim.inj h'
  have hdata : (data c args).Applies c' args := ⟨[], by rw [data, hname]⟩
  exact ⟨(data_applies.1 hdata).1, rfl⟩

lemma Components.unique (h : v.Components args) (h' : v.Components args') : args' = args := by
  obtain h | rfl := h <;> obtain h' | h' := h'
  · exact (h.unique h').2
  · obtain ⟨annots, rfl⟩ := h
    cases h'
  · obtain ⟨annots, h'⟩ := h'
    cases h'
  · exact (seq.inj h').symm

end Micheline

namespace Node

variable {n n' : Node} {s : Site} {v : Micheline}

/-! ### How a binding ends -/

lemma exists_settle_iff : (∃ n', n.settle v = .ok n') ↔ (n.bind v).failure = none := by
  simp [settle, Attempt.toExcept_eq_ok]

/-- Is a value bound to the node as a whole, and not part by part? -/
def isWhole : Node → Bool
  | ticket .. | option .. | pair .. | or .. => false
  | _ => true

/-- A node that takes values as a whole takes one or stays as it is. -/
lemma bind_of_isWhole (h : n.isWhole = true) :
    (∃ n', n.settle v = .ok n' ∧ n.bind v = .done n') ∨
      ∃ e, n.settle v = .error e ∧ n.bind v = .stopped n e := by
  have hend : ∀ t : Attempt Node, (∃ n', t = .done n') ∨ (∃ e, t = .stopped n e) →
      (∃ n', t.toExcept = .ok n' ∧ t = .done n') ∨
        ∃ e, t.toExcept = .error e ∧ t = .stopped n e := by
    rintro t (⟨n', rfl⟩ | ⟨e, rfl⟩)
    · exact .inl ⟨n', rfl, rfl⟩
    · exact .inr ⟨e, rfl, rfl⟩
  have hexcept : ∀ {α : Type} (x : Except NodeError α) (make : α → Node),
      (∃ n', Attempt.ofExcept n x make = .done n') ∨
        ∃ e, Attempt.ofExcept n x make = .stopped n e := by
    rintro α (e | a) make
    · exact .inr ⟨e, rfl⟩
    · exact .inl ⟨make a, rfl⟩
  apply hend
  rw [bind.eq_def]
  cases n with
  | ticket | option | pair | or => cases h
  | scalar => exact hexcept _ _
  | contract =>
    dsimp only
    split
    · exact .inl ⟨_, rfl⟩
    · exact .inr ⟨_, rfl⟩
  | lambda =>
    dsimp only
    split
    · exact .inl ⟨_, rfl⟩
    · exact .inl ⟨_, rfl⟩
    · exact .inr ⟨_, rfl⟩
  | collection | map =>
    dsimp only
    split
    · exact hexcept _ _
    · exact .inr ⟨_, rfl⟩
  | bigMap =>
    dsimp only
    split
    · split
      · exact .inl ⟨_, rfl⟩
      · exact .inr ⟨_, rfl⟩
    · exact hexcept _ _
    · exact .inr ⟨_, rfl⟩

/-- What holds of a node that takes values as a whole, and of it with a value bound, is left by
every binding. -/
lemma result_bind_of_isWhole {P : Node → Prop} (h : n.isWhole = true) (hn : P n)
    (hok : ∀ n', n.settle v = .ok n' → P n') : P (n.bind v).result := by
  obtain ⟨n', hn', hbind⟩ | ⟨e, -, hbind⟩ := bind_of_isWhole (v := v) h <;> rw [hbind]
  · exact hok n' hn'
  · exact hn

section Parts

open Micheline (construct_ok halves_ok)

variable {inner l r : Node} {present : Option Bool} {side : Option Side}

lemma bind_option :
    (∃ a, v.Applies .some [a] ∧ (option s inner present).bind v =
        (inner.bind a).andThen (option s · present) fun b => .done (option s b (some true))) ∨
      (∀ a, ¬ v.Applies .some [a]) ∧
        ((option s inner present).bind v = .done (option s inner (some false)) ∨
          ∃ e, (option s inner present).bind v = .stopped (option s inner present) e) := by
  rw [bind.eq_def]
  dsimp only
  by_cases hsome : ∃ a, v.Applies .some [a]
  · obtain ⟨a, hv⟩ := hsome
    refine .inl ⟨a, hv, ?_⟩
    rw [construct_ok.2 ⟨hv, by simp⟩]
  · rw [not_exists] at hsome
    refine .inr ⟨hsome, ?_⟩
    split
    · exact .inr ⟨_, rfl⟩
    · exact .inl rfl
    · exact .inr ⟨_, rfl⟩
    · next c a hnone hv =>
      obtain ⟨happlies, hc⟩ := construct_ok.1 hv
      rw [List.mem_pair] at hc
      rw [hc.resolve_right hnone] at happlies
      exact absurd happlies (hsome a)
    · exact .inr ⟨_, rfl⟩

lemma bind_pair :
    (∃ first second rest, v.Components (first :: second :: rest) ∧ (pair s l r).bind v =
        (l.bind first).andThen (pair s · r) fun l' =>
          (r.bind (.behind Constructor.pair.name second rest)).map (pair s l')) ∨
      (∀ first second rest, ¬ v.Components (first :: second :: rest)) ∧
        ∃ e, (pair s l r).bind v = .stopped (pair s l r) e := by
  rw [bind.eq_def]
  dsimp only
  split
  · next e hv =>
    refine .inr ⟨fun first second rest hcomponents => ?_, e, rfl⟩
    rw [halves_ok.2 ⟨second, rest, hcomponents, rfl⟩] at hv
    cases hv
  · next first other hv =>
    obtain ⟨second, rest, hcomponents, rfl⟩ := halves_ok.1 hv
    exact .inl ⟨first, second, rest, hcomponents, rfl⟩

lemma bind_or_left {a : Micheline} (hv : v.Applies .left [a]) :
    (or s l r side).bind v =
      (l.bind a).andThen (or s · r side) fun l' => .done (or s l' r (some .left)) := by
  rw [bind.eq_def]
  dsimp only
  rw [construct_ok.2 ⟨hv, by simp⟩]

lemma bind_or_right {a : Micheline} (hv : v.Applies .right [a]) :
    (or s l r side).bind v =
      (r.bind a).andThen (or s l · side) fun r' => .done (or s l r' (some .right)) := by
  rw [bind.eq_def]
  dsimp only
  rw [construct_ok.2 ⟨hv, by simp⟩]

lemma bind_or :
    (∃ a, v.Applies .left [a] ∧ (or s l r side).bind v =
        (l.bind a).andThen (or s · r side) fun l' => .done (or s l' r (some .left))) ∨
      (∃ a, v.Applies .right [a] ∧ (or s l r side).bind v =
        (r.bind a).andThen (or s l · side) fun r' => .done (or s l r' (some .right))) ∨
      (∀ a, ¬ v.Applies .left [a] ∧ ¬ v.Applies .right [a]) ∧
        ∃ e, (or s l r side).bind v = .stopped (or s l r side) e := by
  by_cases hleft : ∃ a, v.Applies .left [a]
  · obtain ⟨a, hv⟩ := hleft
    exact .inl ⟨a, hv, bind_or_left hv⟩
  by_cases hright : ∃ a, v.Applies .right [a]
  · obtain ⟨a, hv⟩ := hright
    exact .inr (.inl ⟨a, hv, bind_or_right hv⟩)
  rw [not_exists] at hleft hright
  refine .inr (.inr ⟨fun a => ⟨hleft a, hright a⟩, ?_⟩)
  rw [bind.eq_def]
  dsimp only
  split
  · exact ⟨_, rfl⟩
  · next a hv => exact absurd (construct_ok.1 hv).1 (hleft a)
  · next c a hnotLeft hv =>
    obtain ⟨happlies, hc⟩ := construct_ok.1 hv
    rw [List.mem_pair] at hc
    rw [hc.resolve_left hnotLeft] at happlies
    exact absurd happlies (hright a)
  · exact ⟨_, rfl⟩

/-! What is left of the parts, whether the binding was made in full or not. -/

lemma result_bind_option :
    (∃ a present', v.Applies .some [a] ∧
        ((option s inner present).bind v).result = option s (inner.bind a).result present') ∨
      (∀ a, ¬ v.Applies .some [a]) ∧
        ∃ present', ((option s inner present).bind v).result = option s inner present' := by
  obtain ⟨a, hv, hbind⟩ | ⟨hv, hbind | ⟨e, hbind⟩⟩ := bind_option (s := s) (v := v) <;> rw [hbind]
  · obtain ⟨-, h⟩ | ⟨e, -, h⟩ := Attempt.andThen_eq <;> rw [h] <;> exact .inl ⟨a, _, hv, rfl⟩
  · exact .inr ⟨hv, _, rfl⟩
  · exact .inr ⟨hv, _, rfl⟩

lemma result_bind_pair :
    (∃ first second rest r', v.Components (first :: second :: rest) ∧
        ((pair s l r).bind v).result = pair s (l.bind first).result r' ∧
        ((∃ l', l.settle first = .ok l') ∧
            r' = (r.bind (.behind Constructor.pair.name second rest)).result ∨
          (¬ ∃ l', l.settle first = .ok l') ∧ r' = r)) ∨
      (∀ first second rest, ¬ v.Components (first :: second :: rest)) ∧
        ((pair s l r).bind v).result = pair s l r := by
  obtain ⟨first, second, rest, hv, hbind⟩ | ⟨hv, e, hbind⟩ := bind_pair (s := s) (v := v) <;>
    rw [hbind]
  · refine .inl ⟨first, second, rest, ?_⟩
    simp only [exists_settle_iff]
    obtain ⟨hdone, h⟩ | ⟨e, hstop, h⟩ := Attempt.andThen_eq <;> rw [h]
    · exact ⟨_, hv, rfl, .inl ⟨hdone, rfl⟩⟩
    · exact ⟨_, hv, rfl, .inr ⟨by rw [hstop]; exact nofun, rfl⟩⟩
  · exact .inr ⟨hv, rfl⟩

lemma result_bind_or :
    (∃ a side', v.Applies .left [a] ∧
        ((or s l r side).bind v).result = or s (l.bind a).result r side') ∨
      (∃ a side', v.Applies .right [a] ∧
        ((or s l r side).bind v).result = or s l (r.bind a).result side') ∨
      (∀ a, ¬ v.Applies .left [a] ∧ ¬ v.Applies .right [a]) ∧
        ((or s l r side).bind v).result = or s l r side := by
  obtain ⟨a, hv, hbind⟩ | ⟨a, hv, hbind⟩ | ⟨hv, e, hbind⟩ := bind_or (s := s) (v := v) <;>
    rw [hbind]
  · obtain ⟨-, h⟩ | ⟨e, -, h⟩ := Attempt.andThen_eq <;> rw [h] <;> exact .inl ⟨a, _, hv, rfl⟩
  · obtain ⟨-, h⟩ | ⟨e, -, h⟩ := Attempt.andThen_eq <;> rw [h] <;>
      exact .inr (.inl ⟨a, _, hv, rfl⟩)
  · exact .inr (.inr ⟨hv, rfl⟩)

/-! The same for values whose constructor is known. -/

variable {a first second : Micheline} {rest : List Micheline}

lemma settle_of_some (hv : v.Applies .some [a]) :
    (option s inner present).settle v = .ok n' ↔
      ∃ inner', inner.settle a = .ok inner' ∧ n' = option s inner' (some true) := by
  rw [settle_option]
  constructor
  · rintro (⟨hv', -⟩ | ⟨b, inner', hv', hb, rfl⟩)
    · cases (hv.unique hv').1
    · cases (hv.unique hv').2
      exact ⟨inner', hb, rfl⟩
  · rintro ⟨inner', ha, rfl⟩
    exact .inr ⟨a, inner', hv, ha, rfl⟩

lemma settle_of_components (hv : v.Components (first :: second :: rest)) :
    (pair s l r).settle v = .ok n' ↔
      ∃ l' r', l.settle first = .ok l' ∧
        r.settle (.behind Constructor.pair.name second rest) = .ok r' ∧ n' = pair s l' r' := by
  rw [settle_pair]
  constructor
  · rintro ⟨first', second', rest', l', r', hv', hl, hr, rfl⟩
    cases hv.unique hv'
    exact ⟨l', r', hl, hr, rfl⟩
  · rintro ⟨l', r', hl, hr, rfl⟩
    exact ⟨first, second, rest, l', r', hv, hl, hr, rfl⟩

lemma settle_left (hv : v.Applies .left [a]) :
    (or s l r side).settle v = (l.settle a).map fun l' => or s l' r (some .left) := by
  unfold settle
  rw [bind_or_left hv, Attempt.toExcept_andThen_done]

lemma settle_right (hv : v.Applies .right [a]) :
    (or s l r side).settle v = (r.settle a).map fun r' => or s l r' (some .right) := by
  unfold settle
  rw [bind_or_right hv, Attempt.toExcept_andThen_done]

lemma settle_of_left (hv : v.Applies .left [a]) :
    (or s l r side).settle v = .ok n' ↔
      ∃ l', l.settle a = .ok l' ∧ n' = or s l' r (some .left) := by
  rw [settle_left hv]
  cases l.settle a <;> simp [Except.map, eq_comm]

lemma settle_of_right (hv : v.Applies .right [a]) :
    (or s l r side).settle v = .ok n' ↔
      ∃ r', r.settle a = .ok r' ∧ n' = or s l r' (some .right) := by
  rw [settle_right hv]
  cases r.settle a <;> simp [Except.map, eq_comm]

end Parts

/-! ### Nodes without their values -/

/-- The node without the values that were bound to it. What a collection or a map has its elements
made of is no value of it. -/
def erase : Node → Node
  | scalar s type typeArgs _ => scalar s type typeArgs none
  | contract s parameter _ => contract s parameter none
  | ticket s inner => ticket s inner.erase
  | option s inner _ => option s inner.erase none
  | pair s l r => pair s l.erase r.erase
  | or s l r _ => or s l.erase r.erase none
  | collection s kind elem _ => collection s kind elem none
  | map s key value _ => map s key value none
  | bigMap s key value _ _ => bigMap s key value none none
  | lambda s parameter result _ => lambda s parameter result none

lemma erase_erase : n.erase.erase = n.erase := by
  induction n using typeInduction with
  | ticket s inner ih => simp only [erase, ih]
  | option s inner present ih => simp only [erase, ih]
  | pair s l r ihl ihr => simp only [erase, ihl, ihr]
  | or s l r side ihl ihr => simp only [erase, ihl, ihr]
  | _ => rfl

lemma Unbound.erase (h : n.Unbound) : n.erase = n := by
  induction n using typeInduction with
  | scalar => cases h; rfl
  | contract => cases h.2; rfl
  | ticket s inner ih => simp only [Node.erase, ih h]
  | option s inner present ih =>
    obtain ⟨hinner, rfl⟩ := h
    simp only [Node.erase, ih hinner]
  | pair s l r ihl ihr => simp only [Node.erase, ihl h.1, ihr h.2]
  | or s l r side ihl ihr =>
    obtain ⟨hl, hr, rfl⟩ := h
    simp only [Node.erase, ihl hl, ihr hr]
  | collection => cases h.2; rfl
  | map => cases h.2.2; rfl
  | bigMap =>
    obtain ⟨-, -, rfl, rfl⟩ := h
    rfl
  | lambda => cases h.2.2; rfl

/-- **The skeleton stays**, also when a value was refused half way. -/
theorem erase_bind (n : Node) (v : Micheline) : (n.bind v).result.erase = n.erase := by
  induction n using typeInduction generalizing v with
  | scalar =>
    refine result_bind_of_isWhole (P := (erase · = _)) rfl rfl fun n' h => ?_
    rw [(settle_scalar.1 h).2]
    rfl
  | contract =>
    refine result_bind_of_isWhole (P := (erase · = _)) rfl rfl fun n' h => ?_
    rw [(settle_contract.1 h).2]
    rfl
  | lambda =>
    refine result_bind_of_isWhole (P := (erase · = _)) rfl rfl fun n' h => ?_
    rw [(settle_lambda.1 h).2]
    rfl
  | collection =>
    refine result_bind_of_isWhole (P := (erase · = _)) rfl rfl fun n' h => ?_
    obtain ⟨vs, items, -, -, rfl⟩ := settle_collection.1 h
    rfl
  | map =>
    refine result_bind_of_isWhole (P := (erase · = _)) rfl rfl fun n' h => ?_
    obtain ⟨elts, entries, -, -, rfl⟩ := settle_map.1 h
    rfl
  | bigMap =>
    refine result_bind_of_isWhole (P := (erase · = _)) rfl rfl fun n' h => ?_
    obtain ⟨literal, p, -, -, rfl⟩ | ⟨elts, entries, -, -, rfl⟩ := settle_bigMap.1 h <;> rfl
  | ticket s inner ih =>
    rw [bind_ticket]
    exact congrArg (Node.ticket s) (ih v)
  | option s inner present ih =>
    obtain ⟨a, present', -, hbind⟩ | ⟨-, present', hbind⟩ := result_bind_option (v := v) <;>
      rw [hbind]
    · exact congrArg (Node.option s · none) (ih a)
    · rfl
  | pair s l r ihl ihr =>
    obtain ⟨first, second, rest, r', -, hbind, ⟨-, rfl⟩ | ⟨-, rfl⟩⟩ | ⟨-, hbind⟩ :=
      result_bind_pair (v := v) <;> rw [hbind]
    · exact congrArg₂ (Node.pair s) (ihl first) (ihr _)
    · exact congrArg (Node.pair s · r.erase) (ihl first)
  | or s l r side ihl ihr =>
    obtain ⟨a, side', -, hbind⟩ | ⟨a, side', -, hbind⟩ | ⟨-, hbind⟩ := result_bind_or (v := v) <;>
      rw [hbind]
    · exact congrArg (Node.or s · r.erase none) (ihl a)
    · exact congrArg (Node.or s l.erase · none) (ihr a)

lemma erase_settle (h : n.settle v = .ok n') : n'.erase = n.erase := by
  obtain ⟨-, rfl⟩ := Attempt.toExcept_eq_ok.1 h
  exact erase_bind n v

/-- The values bound before have no say in whether a value fits, and in what is wrong with it. -/
theorem failure_bind_erase (n : Node) (v : Micheline) :
    (n.erase.bind v).failure = (n.bind v).failure := by
  induction n using typeInduction generalizing v with
  | scalar s type typeArgs value =>
    rw [erase, bind.eq_def, bind.eq_def (scalar ..)]
    dsimp only
    cases type.check v <;> rfl
  | contract s parameter value =>
    rw [erase, bind.eq_def, bind.eq_def (contract ..)]
    dsimp only
    split <;> rfl
  | lambda s parameter result code =>
    rw [erase, bind.eq_def, bind.eq_def (lambda ..)]
    cases v <;> rfl
  | collection s kind elem items =>
    rw [erase, bind.eq_def, bind.eq_def (collection ..)]
    cases v with
    | seq vs => dsimp only; cases vs.mapM fun item => (elem.bind item).toExcept <;> rfl
    | _ => rfl
  | map s key value entries =>
    rw [erase, bind.eq_def, bind.eq_def (map ..)]
    cases v with
    | seq elts =>
      dsimp only
      cases settleEntries (fun k => (key.bind k).toExcept) (fun x => (value.bind x).toExcept)
        s.path elts <;> rfl
    | _ => rfl
  | bigMap s key value pointer entries =>
    rw [erase, bind.eq_def, bind.eq_def (bigMap ..)]
    cases v with
    | int literal => dsimp only; cases Decimal.parseInt64? literal <;> rfl
    | seq elts =>
      dsimp only
      cases settleEntries (fun k => (key.bind k).toExcept) (fun x => (value.bind x).toExcept)
        s.path elts <;> rfl
    | _ => rfl
  | ticket s inner ih =>
    rw [erase, bind_ticket, bind_ticket]
    exact ih v
  | option s inner present ih =>
    rw [erase, bind.eq_def, bind.eq_def (option ..)]
    dsimp only
    split
    · rfl
    · rfl
    · rfl
    · simp [Attempt.failure_andThen, Attempt.done, ih]
    · rfl
  | pair s l r ihl ihr =>
    rw [erase, bind.eq_def, bind.eq_def (pair ..)]
    dsimp only
    split
    · rfl
    · simp [Attempt.failure_andThen, Attempt.map, ihl, ihr]
  | or s l r side ihl ihr =>
    rw [erase, bind.eq_def, bind.eq_def (or ..)]
    dsimp only
    split
    · rfl
    · simp [Attempt.failure_andThen, Attempt.done, ihl]
    · simp [Attempt.failure_andThen, Attempt.done, ihr]
    · rfl

/-! ### Names and parts -/

section Names

variable {m : Node}

@[simp] lemma site_erase : n.erase.site = n.site := by cases n <;> rfl

lemma site_of_erase (h : m.erase = n.erase) : m.site = n.site := by
  rw [← site_erase, h, site_erase]

@[simp] lemma prim_erase : n.erase.prim = n.prim := by cases n <;> rfl

@[simp] lemma isUnit_erase : n.erase.isUnit = n.isUnit := by
  cases n with
  | scalar s type typeArgs value => cases type <;> rfl
  | _ => rfl

@[simp] lemma isOr_erase : n.erase.isOr = n.isOr := by cases n <;> rfl

@[simp] lemma name?_erase : n.erase.name? = n.name? := by simp [name?, annots]

@[simp] lemma displayName_erase : n.erase.displayName = n.displayName := by
  simp [displayName, fallbackName]

@[simp] lemma entryName?_erase : n.erase.entryName? = n.entryName? := by simp [entryName?, annots]

lemma asFields_erase : n.erase.asFields = n.asFields.map erase := by
  induction n using typeInduction with
  | pair s l r ihl ihr =>
    simp only [erase, asFields, ihl, ihr]
    split <;> simp [erase]
  | _ => rfl

lemma asAlternatives_erase {sides : List Side} :
    n.erase.asAlternatives sides = (n.asAlternatives sides).map (Prod.map id erase) := by
  induction n using typeInduction generalizing sides with
  | or s l r side ihl ihr =>
    simp only [erase, asAlternatives, ihl, ihr]
    split <;> simp [erase]
  | _ => rfl

lemma pairFields_erase : n.erase.pairFields = n.pairFields.map erase := by
  cases n with
  | pair s l r => simp [erase, pairFields, asFields_erase]
  | _ => rfl

lemma orAlternatives_erase :
    n.erase.orAlternatives = n.orAlternatives.map (Prod.map id erase) := by
  cases n with
  | or s l r side => simp [erase, orAlternatives, asAlternatives_erase]
  | _ => rfl

@[simp] lemma shape?_erase : n.erase.shape? = n.shape? := by
  cases n with
  | pair s l r =>
    have hfields := pairFields_erase (n := pair s l r)
    simp only [erase] at hfields
    simp only [erase, shape?, hfields, List.map_map, Function.comp_def, name?_erase]
  | or s l r side =>
    have halternatives := orAlternatives_erase (n := or s l r side)
    simp only [erase] at halternatives
    simp only [erase, shape?, halternatives, List.map_map, List.all_map, Function.comp_def,
      Prod.map_snd, entryName?_erase, isUnit_erase]
  | _ => rfl

end Names

/-! ### Parts of a skeleton -/

/-- Induction along the size of nodes, for what goes into parts of parts at once. -/
@[elab_as_elim]
theorem sizeInduction {P : Node → Prop} (n : Node)
    (step : ∀ n, (∀ m, sizeOf m < sizeOf n → P m) → P n) : P n :=
  (measure sizeOf).wf.induction n step

section Parts

variable {m : Node}

lemma sizeOf_lt_of_mem_typeChildren (h : m ∈ n.typeChildren) : sizeOf m < sizeOf n := by
  cases n with
  | scalar => cases h
  | contract | ticket | option | collection =>
    obtain rfl := List.mem_singleton.1 h
    simp only [contract.sizeOf_spec, ticket.sizeOf_spec, option.sizeOf_spec, collection.sizeOf_spec]
    omega
  | pair | or | map | bigMap | lambda =>
    obtain rfl | rfl := List.mem_pair.1 h <;>
      simp only [pair.sizeOf_spec, or.sizeOf_spec, map.sizeOf_spec, bigMap.sizeOf_spec,
        lambda.sizeOf_spec] <;> omega

lemma mem_skeleton : m ∈ n.skeleton ↔ m = n ∨ ∃ child ∈ n.typeChildren, m ∈ child.skeleton := by
  cases n <;> simp [skeleton, typeChildren]

lemma mem_skeleton_self : n ∈ n.skeleton := mem_skeleton.2 (.inl rfl)

/-- What a node hands down to the types it is made of holds throughout its skeleton. -/
theorem of_mem_skeleton {P : Node → Prop} (hchild : ∀ n, P n → ∀ child ∈ n.typeChildren, P child)
    (h : P n) (hm : m ∈ n.skeleton) : P m := by
  induction n using sizeInduction with
  | step n ih =>
    obtain rfl | ⟨child, hmem, hm⟩ := mem_skeleton.1 hm
    · exact h
    · exact ih child (sizeOf_lt_of_mem_typeChildren hmem) (hchild n h child hmem) hm

lemma Unbound.of_mem_skeleton (h : n.Unbound) (hm : m ∈ n.skeleton) : m.Unbound := by
  refine Node.of_mem_skeleton (fun n hn => ?_) h hm
  cases n with
  | scalar => simp [typeChildren]
  | contract | option | collection => simpa [typeChildren] using hn.1
  | ticket => simpa [typeChildren, Unbound] using hn
  | pair => simpa [typeChildren, Unbound] using hn
  | or | map | bigMap | lambda => simpa [typeChildren] using ⟨hn.1, hn.2.1⟩

end Parts

end Node

end Lineage
