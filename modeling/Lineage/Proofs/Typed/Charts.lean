import Mathlib.Data.List.Nodup
import Lineage.Contract.Tree
import Lineage.Proofs.Text.Decimal
import Lineage.Proofs.Typed.Paths

/-!
# No two nodes stand at one path

When a type is read, each node gets the path of the node it is a part of with one more segment
(`Charted`). Segments have no slashes in them and the parts of a node have different ones, so all
that stands below one part is kept apart from all that stands below another (`Below.segment_inj`),
and the nodes of a skeleton have different paths (`Charted.nodup_path`).
-/

namespace Lineage

/-! ### Below a path -/

/-- A path, or one that goes on behind a slash. -/
def Below (path p : String) : Prop :=
  ∃ rest : List Char, p.toList = path.toList ++ rest ∧ ∀ c ∈ rest.head?, c = '/'

namespace Below

variable {path p q r a b : String}

lemma refl (path : String) : Below path path := ⟨[], by simp, by simp⟩

lemma trans (h : Below p q) (h' : Below q r) : Below p r := by
  obtain ⟨rest, hq, hslash⟩ := h
  obtain ⟨rest', hr, hslash'⟩ := h'
  refine ⟨rest ++ rest', by rw [hr, hq, List.append_assoc], ?_⟩
  cases rest with
  | nil => exact hslash'
  | cons c cs => exact hslash

lemma toList_childPath :
    (Node.childPath path a).toList = path.toList ++ '/' :: a.toList := by
  simp [Node.childPath]

lemma childPath : Below path (Node.childPath path a) :=
  ⟨'/' :: a.toList, toList_childPath, by simp⟩

lemma isPrefix (h : Below p q) : p.toList <+: q.toList := by
  obtain ⟨rest, hq, -⟩ := h
  exact ⟨rest, hq.symm⟩

lemma not_childPath : ¬ Below (Node.childPath path a) path := by
  intro h
  have hle := h.isPrefix.length_le
  rw [toList_childPath, List.length_append, List.length_cons] at hle
  omega

lemma name_inj (ha : '/' ∉ a.toList) (hb : '/' ∉ b.toList) (h : Below a p) (h' : Below b p) :
    a = b := by
  have htake : ∀ {a : String}, '/' ∉ a.toList → Below a p →
      p.toList.takeWhile (· != '/') = a.toList := by
    rintro a ha ⟨rest, hp, hslash⟩
    have hall : ∀ c ∈ a.toList, (c != '/') = true :=
      fun c hc => bne_iff_ne.2 fun hc' => ha (hc' ▸ hc)
    rw [hp, List.takeWhile_append_of_pos hall]
    cases rest with
    | nil => simp
    | cons c cs => simp [hslash c rfl]
  exact String.toList_inj.1 ((htake ha h).symm.trans (htake hb h'))

/-- Segments can be told from the paths below them. -/
lemma segment_inj (ha : '/' ∉ a.toList) (hb : '/' ∉ b.toList)
    (h : Below (Node.childPath path a) p) (h' : Below (Node.childPath path b) p) : a = b := by
  have hbehind : ∀ {a : String}, Below (Node.childPath path a) p →
      Below a (String.ofList (p.toList.drop (path.toList.length + 1))) := by
    rintro a ⟨rest, hp, hslash⟩
    refine ⟨rest, ?_, hslash⟩
    rw [hp, toList_childPath, String.toList_ofList, List.append_assoc, List.drop_append,
      List.drop_of_length_le (Nat.le_succ _)]
    simp
  exact name_inj ha hb (hbehind h) (hbehind h')

end Below

namespace Node

variable {n m m' : Node} {path : String}

/-! ### How types are charted -/

def segments : Node → List String
  | scalar .. => []
  | contract .. | ticket .. => ["0"]
  | option .. => ["o"]
  | collection _ kind .. => [kind.segment]
  | pair .. | or .. | lambda .. => ["0", "1"]
  | map .. | bigMap .. => ["k", "v"]

lemma nodup_segments (n : Node) : n.segments.Nodup := by
  cases n <;> simp [segments]

lemma not_mem_of_mem_segments {a : String} (h : a ∈ n.segments) : '/' ∉ a.toList := by
  have hall : ∀ a ∈ n.segments, a ∈ ["0", "1", "o", "l", "s", "k", "v"] := by
    cases n with
    | collection s kind => cases kind <;> simp [segments, Collection.segment]
    | _ => simp [segments]
  revert a
  simp only [List.mem_cons, List.not_mem_nil, or_false] at hall
  intro a ha
  rcases hall a ha with rfl | rfl | rfl | rfl | rfl | rfl | rfl <;> decide

/-- **Where nodes stand**: the parts of every node of the skeleton stand at its path with their
segments behind it. -/
def Charted (n : Node) : Prop :=
  ∀ m ∈ n.skeleton, m.typeChildren.map Node.path = m.segments.map (childPath m.path)

lemma skeleton_eq (n : Node) : n.skeleton = n :: n.typeChildren.flatMap skeleton := by
  cases n <;> simp [skeleton, typeChildren]

lemma charted_iff : n.Charted ↔ n.typeChildren.map Node.path = n.segments.map (childPath n.path) ∧
    ∀ child ∈ n.typeChildren, child.Charted := by
  unfold Charted
  rw [skeleton_eq, List.forall_mem_cons]
  simp only [List.forall_mem_flatMap]

section Parts

variable {child l r : Node} {a b : String}

lemma charted_of_none (hchildren : n.typeChildren = []) (hsegments : n.segments = []) :
    n.Charted :=
  charted_iff.2 ⟨by rw [hchildren, hsegments]; rfl, by rw [hchildren]; exact nofun⟩

lemma charted_of_one (hchildren : n.typeChildren = [child]) (hsegments : n.segments = [a])
    (hpath : child.path = childPath n.path a) (h : child.Charted) : n.Charted := by
  refine charted_iff.2 ⟨?_, ?_⟩
  · rw [hchildren, hsegments, List.map_singleton, List.map_singleton, hpath]
  · rw [hchildren]
    exact List.forall_mem_singleton.2 h

lemma charted_of_two (hchildren : n.typeChildren = [l, r]) (hsegments : n.segments = [a, b])
    (hl : l.path = childPath n.path a) (hr : r.path = childPath n.path b) (h : l.Charted)
    (h' : r.Charted) : n.Charted := by
  refine charted_iff.2 ⟨?_, ?_⟩
  · rw [hchildren, hsegments]
    simp only [List.map_cons, List.map_nil, hl, hr]
  · rw [hchildren]
    exact List.forall_mem_cons.2 ⟨h, List.forall_mem_singleton.2 h'⟩

end Parts

theorem Reads.charted {i j depth : Nat} {t : Micheline} (h : Reads i path depth t n j) :
    n.Charted := by
  induction h with
  | scalar => exact charted_of_none rfl rfl
  | pair hl hr ihl ihr | or hl hr ihl ihr | lambda hl hr ihl ihr | map hl hr ihl ihr
  | bigMap hl hr ihl ihr => exact charted_of_two rfl rfl hl.path_eq hr.path_eq ihl ihr
  | option ht ih | collection kind ht ih | contract ht ih =>
    exact charted_of_one rfl rfl ht.path_eq ih
  | ticket hc ih =>
    have hpart : ∀ type i path depth annot, (ticketPart type i path depth annot).Charted :=
      fun _ _ _ _ _ => charted_of_none rfl rfl
    refine charted_of_one rfl rfl rfl (charted_of_two rfl rfl rfl rfl (hpart _ _ _ _ _) ?_)
    exact charted_of_two rfl rfl hc.path_eq rfl ih (hpart _ _ _ _ _)

/-! ### Different nodes stand at different paths -/

lemma Charted.child {child : Node} (h : n.Charted) (hchild : child ∈ n.typeChildren) :
    child.Charted ∧ ∃ a ∈ n.segments, child.path = childPath n.path a := by
  obtain ⟨hpaths, hchildren⟩ := charted_iff.1 h
  have hpath := List.mem_map_of_mem (f := Node.path) hchild
  rw [hpaths] at hpath
  obtain ⟨a, ha, hpath⟩ := List.mem_map.1 hpath
  exact ⟨hchildren child hchild, a, ha, hpath.symm⟩

/-- What stands in the skeleton of a node stands below its path. -/
theorem Charted.below (h : n.Charted) (hm : m ∈ n.skeleton) : Below n.path m.path := by
  induction n using sizeInduction with
  | step n ih =>
    obtain rfl | ⟨child, hchild, hm⟩ := mem_skeleton.1 hm
    · exact .refl _
    · obtain ⟨hcharted, a, -, hpath⟩ := h.child hchild
      have hbelow := ih child (sizeOf_lt_of_mem_typeChildren hchild) hcharted hm
      exact .trans (hpath ▸ .childPath) hbelow

/-- No path goes on from both. -/
def Apart (p q : String) : Prop := ∀ r, Below p r → ¬ Below q r

/-- Skeletons that stand apart, each with different paths, have different paths together. -/
lemma nodup_path_flatMap {nodes : List Node} (hcharted : ∀ n ∈ nodes, n.Charted)
    (hnodup : ∀ n ∈ nodes, (n.skeleton.map Node.path).Nodup)
    (hapart : (nodes.map Node.path).Pairwise Apart) :
    ((nodes.flatMap skeleton).map Node.path).Nodup := by
  rw [List.map_flatMap, List.nodup_flatMap]
  refine ⟨hnodup, (List.pairwise_map.1 hapart).imp_of_mem fun {n n'} hn hn' h => ?_⟩
  refine List.disjoint_left.2 fun p hp hp' => ?_
  obtain ⟨m, hm, rfl⟩ := List.mem_map.1 hp
  obtain ⟨m', hm', hpath⟩ := List.mem_map.1 hp'
  exact h m.path ((hcharted n hn).below hm) (hpath ▸ (hcharted n' hn').below hm')

/-- **Paths tell the nodes of a skeleton apart.** -/
theorem Charted.nodup_path (h : n.Charted) : (n.skeleton.map Node.path).Nodup := by
  induction n using sizeInduction with
  | step n ih =>
    obtain ⟨hpaths, hchildren⟩ := charted_iff.1 h
    rw [skeleton_eq, List.map_cons, List.nodup_cons]
    constructor
    · intro hmem
      obtain ⟨m, hm, hpath⟩ := List.mem_map.1 hmem
      obtain ⟨child, hchild, hm⟩ := List.mem_flatMap.1 hm
      obtain ⟨hcharted, a, -, ha⟩ := h.child hchild
      have hbelow := hcharted.below hm
      rw [hpath, ha] at hbelow
      exact Below.not_childPath hbelow
    · refine nodup_path_flatMap hchildren (fun child hchild => ?_) ?_
      · exact ih child (sizeOf_lt_of_mem_typeChildren hchild) (hchildren child hchild)
      · rw [hpaths]
        refine List.pairwise_map.2 (n.nodup_segments.imp_of_mem fun ha hb hne r hr hr' => hne ?_)
        exact Below.segment_inj (not_mem_of_mem_segments ha) (not_mem_of_mem_segments hb) hr hr'

end Node

/-! ### Trees -/

namespace Tree

def skeleton (t : Tree) : List Node := t.roots.flatMap Node.skeleton

variable {t : Tree} {type : Micheline}

lemma exists_reads_rootsFrom {i : Nat} {types : List Micheline} {roots : List Node}
    (h : rootsFrom i types = .ok roots) :
    (∀ root ∈ roots, root.Charted) ∧
      roots.map Node.path = (List.range' i roots.length).map toString := by
  induction types generalizing i roots with
  | nil =>
    cases h
    exact ⟨nofun, rfl⟩
  | cons type types ih =>
    obtain ⟨root, hroot, h⟩ := except_bind_ok.1 h
    obtain ⟨rest, hrest, h⟩ := except_bind_ok.1 h
    cases h
    obtain ⟨j, hreads⟩ := Node.exists_reads hroot
    obtain ⟨hcharted, hpaths⟩ := ih hrest
    refine ⟨List.forall_mem_cons.2 ⟨hreads.charted, hcharted⟩, ?_⟩
    rw [List.map_cons, hreads.path_eq, hpaths, List.length_cons, List.range'_succ, List.map_cons]

lemma charted_ofType (h : ofType type = .ok t) :
    (∀ root ∈ t.roots, root.Charted) ∧
      t.roots.map Node.path = (List.range' 0 t.roots.length).map toString := by
  unfold ofType at h
  split at h
  · obtain ⟨roots, hroots, h⟩ := except_bind_ok.1 h
    cases h
    exact exists_reads_rootsFrom hroots
  · obtain ⟨root, hroot, h⟩ := except_bind_ok.1 h
    cases h
    obtain ⟨j, hreads⟩ := Node.exists_reads hroot
    refine ⟨List.forall_mem_singleton.2 hreads.charted, ?_⟩
    show [root.path] = _
    rw [hreads.path_eq]
    rfl

lemma toString_inj {i j : Nat} (h : toString i = toString j) : i = j := by
  have hdigits := congrArg String.toList h
  rw [Nat.toString_eq_repr, Nat.toString_eq_repr, Nat.toList_repr, Nat.toList_repr] at hdigits
  rw [← Decimal.valueOf_toDigits i, ← Decimal.valueOf_toDigits j, hdigits]

lemma not_mem_toString (i : Nat) : '/' ∉ (toString i).toList := by
  rw [Nat.toString_eq_repr, Nat.toList_repr]
  intro hmem
  exact absurd (Nat.isDigit_of_mem_toDigits (by decide) (by decide) hmem) (by decide)

/-- No two nodes of a tree stand at one path. -/
theorem nodup_path (h : ofType type = .ok t) : (t.skeleton.map Node.path).Nodup := by
  obtain ⟨hcharted, hpaths⟩ := charted_ofType h
  refine Node.nodup_path_flatMap hcharted (fun root hroot => (hcharted root hroot).nodup_path) ?_
  rw [hpaths]
  have hnumbers : (List.range' 0 t.roots.length).Nodup := List.nodup_range'
  refine List.pairwise_map.2 (hnumbers.imp fun hne r hr hr' => hne ?_)
  exact toString_inj (Below.name_inj (not_mem_toString _) (not_mem_toString _) hr hr')

end Tree

end Lineage
