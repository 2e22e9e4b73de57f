import Lineage.Contract.Tree
import Lineage.Proofs.Typed.Skeleton

/-!
# Ways to write a pair

A pair of several components is written as one application of the constructor, as a sequence, or as
nested pairs of two; a tree with one root also takes the components as a list. A node whose type has
as many components makes the same of each (`formsAgree`), also where a component does not fit: the
binding stops at the same place, with the same error.
-/

namespace Lineage

namespace Micheline

variable {v v' : Micheline} {vs : List Micheline}

/-- Nested pairs of two: what stands behind a component is the second half of its pair. -/
def nested : List Micheline → Micheline
  | a :: b :: c :: rest => data .pair [a, nested (b :: c :: rest)]
  | vs => data .pair vs

lemma nested_eq (vs : List Micheline) : nested vs = data .pair (nestPair vs) := by
  fun_induction nested vs with
  | case1 a b c rest ih => rw [ih, nestPair]
  | case2 vs hvs =>
    rw [nestPair]
    exact hvs

lemma uncomb_data (vs : List Micheline) : (data .pair vs).uncomb = nested vs := by
  rw [nested_eq, data, uncomb, if_pos rfl]
  rfl

lemma halves_congr {path : String} (h : v.Components vs) (h' : v'.Components vs) :
    v.halves path = v'.halves path := by
  have hseq : ∀ {w : Micheline}, w.Components vs → w.halves path = (seq vs).halves path := by
    rintro w (⟨annots, rfl⟩ | rfl)
    · show ((construct "pair" [.pair] _).map Prod.snd >>= fun components =>
        (seq components).halves path) = _
      rw [components_construct.2 ⟨annots, rfl⟩]
      rfl
    · rfl
  rw [hseq h, hseq h']

end Micheline

open Micheline (nested nested_eq uncomb_data halves_congr halves_ok)

namespace Node

variable {n l r : Node} {s : Site} {v : Micheline} {vs : List Micheline}

/-- The components of a pair, those of a pair in the second place included. -/
def spine : Node → List Node
  | pair _ l r => l :: r.spine
  | n => [n]

lemma isPair_of_spine (h : 2 ≤ n.spine.length) : ∃ s l r, n = pair s l r := by
  cases n with
  | pair s l r => exact ⟨s, l, r, rfl⟩
  | _ => simp [spine] at h

lemma bind_of_components {first second : Micheline} {rest : List Micheline}
    (h : v.Components (first :: second :: rest)) :
    (pair s l r).bind v = (l.bind first).andThen (pair s · r) fun l' =>
      (r.bind (.behind Constructor.pair.name second rest)).map (pair s l') := by
  rw [bind.eq_def]
  dsimp only
  rw [halves_ok.2 ⟨second, rest, h, rfl⟩]

lemma bind_nested (h : vs.length ≤ n.spine.length) :
    n.bind (nested vs) = n.bind (.data .pair vs) := by
  induction vs generalizing n with
  | nil => rfl
  | cons first vs ih =>
    obtain _ | ⟨second, _ | ⟨third, rest⟩⟩ := vs
    · rfl
    · rfl
    · simp only [List.length_cons] at h
      obtain ⟨s, l, r, rfl⟩ := isPair_of_spine (n := n) (by omega)
      have hr : r.bind (nested (second :: third :: rest)) =
          r.bind (.data .pair (second :: third :: rest)) := by
        refine ih ?_
        simpa [spine] using h
      have hnested : (nested (first :: second :: third :: rest)).Components
          [first, nested (second :: third :: rest)] := .inl ⟨[], rfl⟩
      have hcomb : (Micheline.data .pair (first :: second :: third :: rest)).Components
          (first :: second :: third :: rest) := .inl ⟨[], rfl⟩
      rw [bind_of_components hnested, bind_of_components hcomb]
      exact congrArg _ (funext fun l' => congrArg (Attempt.map (pair s l')) hr)

/-- A pair is bound alike however its components are put together. -/
lemma bind_components (h2 : 2 ≤ vs.length) (h : vs.length ≤ n.spine.length)
    (hv : v.Components vs) : n.bind v = n.bind (nested vs) := by
  rw [bind_nested h]
  obtain ⟨s, l, r, rfl⟩ := isPair_of_spine (Nat.le_trans h2 h)
  rw [bind.eq_def, bind.eq_def]
  dsimp only
  have hcomb : (Micheline.data .pair vs).Components vs := .inl ⟨[], rfl⟩
  rw [halves_congr hv hcomb]

end Node

namespace Tree

variable {t : Tree} {n : Node} {vs : List Micheline}

lemma bind_nested (hroots : t.roots = [n]) (h2 : 2 ≤ vs.length) (h : vs.length ≤ n.spine.length) :
    t.bind vs = t.settledBy ((n.bind (nested vs)).map fun root => [root]) := by
  obtain ⟨s, l, r, rfl⟩ := Node.isPair_of_spine (Nat.le_trans h2 h)
  have hflat : vs.length ≠ 1 ∧ (Node.pair s l r).isPair = true := ⟨by omega, rfl⟩
  rw [Node.bind_nested h, bind, hroots]
  dsimp only
  rw [if_pos hflat]

/-- **Ways to write a pair are interchangeable**: one application of the constructor, a sequence,
nested pairs, which are what taking the comb apart leaves, and, for a tree with one root, the list
of the components all end in the same way, with the same node and the same error if there is one. -/
theorem formsAgree (hroots : t.roots = [n]) (h2 : 2 ≤ vs.length)
    (hspine : vs.length ≤ n.spine.length) :
    (∀ v : Micheline, v.Components vs → n.bind v = n.bind (nested vs)) ∧
      (Micheline.data .pair vs).uncomb = nested vs ∧
      t.bind vs = t.settledBy ((n.bind (nested vs)).map fun root => [root]) :=
  ⟨fun _ => Node.bind_components h2 hspine, uncomb_data vs, bind_nested hroots h2 hspine⟩

def crate : Micheline :=
  .prim "pair" [.prim "nat" [] [], .prim "string" [] [], .prim "bool" [] [], .prim "unit" [] []] []

/-- Components of a crate, the third of which stands for the last two. -/
def crateComponents : List Micheline :=
  [.int "7", .string "salt", .seq [.data .true [], .data .unit []]]

/-- Components of a crate with a misfit in the second place. -/
def brokenComponents : List Micheline := [.int "7", .int "8", .data .true [], .data .unit []]

theorem formsAgree_crate :
    ∃ n, Node.ofType crate = .ok n ∧
      (∃ n', n.settle (.data .pair crateComponents) = .ok n' ∧
        n.settle (.seq crateComponents) = .ok n') ∧
      (∃ e, n.settle (.data .pair brokenComponents) = .error e ∧
        n.settle (nested brokenComponents) = .error e) ∧
      (Tree.ofRoots [n]).bind brokenComponents =
        (Tree.ofRoots [n]).settledBy
          ((n.bind (nested brokenComponents)).map fun root => [root]) := by
  have hrun : (do
      let n ← Node.ofType crate
      return (n.spine.length, (n.settle (.data .pair crateComponents)).isOk,
        (n.bind (.data .pair brokenComponents)).failure) : Except NodeError _).toOption =
        some (4, true, some (.mismatch "string" "string literal")) := by
    decide +kernel
  obtain ⟨n, htype, hrun⟩ := except_bind_ok.1 (except_ok_of_toOption hrun)
  obtain ⟨hlength, hrun⟩ := Prod.mk.inj (Except.ok.inj hrun)
  obtain ⟨hok, hfailure⟩ := Prod.mk.inj hrun
  have hagree := fun vs h2 h => @formsAgree (.ofRoots [n]) n vs rfl h2 h
  obtain ⟨hforms, -, -⟩ := hagree crateComponents (by decide) (by rw [hlength]; decide)
  obtain ⟨hbroken, -, hflat⟩ := hagree brokenComponents (by decide) (by rw [hlength]; decide)
  refine ⟨n, htype, ?_, ⟨.mismatch "string" "string literal", ?_, ?_⟩, hflat⟩
  · cases hsettle : n.settle (.data .pair crateComponents) with
    | error e =>
      rw [hsettle] at hok
      cases hok
    | ok n' =>
      refine ⟨n', rfl, ?_⟩
      rw [← hsettle, Node.settle, Node.settle, hforms (.seq crateComponents) (.inr rfl),
        hforms (.data .pair crateComponents) (.inl ⟨[], rfl⟩)]
  · rw [Node.settle, Attempt.toExcept, hfailure]
  · rw [Node.settle, ← hbroken (.data .pair brokenComponents) (.inl ⟨[], rfl⟩), Attempt.toExcept,
      hfailure]

end Tree

end Lineage
