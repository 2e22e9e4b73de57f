import Mathlib.Data.List.Induction
import Mathlib.Data.List.Nodup
import Mathlib.Logic.Function.Basic
import Lineage.Ledger.Store

/-!
# The contents that records amount to

Records say what became of the keys of a big map, one after another; `Contents.of` is the map from
hashes of keys to keys with values that they amount to. What counts is the last record of each key
(`Contents.of_eq_some_iff`). The lists of live records keep just these: `Store.latest` and
`Resolver.overlaid` differ in the order, but both replace the earlier record of a key by the later
one (`Replaces`), and so have the contents of the records they were made of.

`of_live_commit` says what a commit does to the contents of a big map: the new records count after
the old ones, if no old one is of a higher level.
-/

namespace Lineage

open Function

/-! ### Contents -/

/-- What a record says of its key: the key with its value, or none if the key was deleted. -/
def Diff.entry? (d : Diff) : Option (Micheline × Micheline) := d.value.map (d.key, ·)

/-- The keys of a big map with their values, by the hashes of the keys. -/
abbrev Contents := String → Option (Micheline × Micheline)

namespace Contents

def empty : Contents := fun _ => none

def record (m : Contents) (d : Diff) : Contents := update m d.keyHash d.entry?

/-- What records amount to when they are taken into account in turn. -/
def of (rows : List Diff) : Contents := rows.foldl record empty

lemma of_append (xs ys : List Diff) : of (xs ++ ys) = ys.foldl record (of xs) := by
  unfold of
  rw [List.foldl_append]

lemma of_concat (rows : List Diff) (d : Diff) :
    of (rows ++ [d]) = update (of rows) d.keyHash d.entry? := of_append rows [d]

end Contents

lemma Diff.isRemoved_eq_false_iff {d : Diff} : d.isRemoved = false ↔ d.entry?.isSome := by
  unfold isRemoved entry?
  cases d.value <;> simp

lemma Diff.isRemoved_of_entry? {d : Diff} {e : Micheline × Micheline} (h : d.entry? = some e) :
    d.isRemoved = false := by
  rw [Diff.isRemoved_eq_false_iff, h]
  rfl

/-! ### The last record of a key -/

/-- The record is the last one of its key. -/
def Diff.IsLast (rows : List Diff) (d : Diff) : Prop :=
  ∃ before after, rows = before ++ d :: after ∧ ∀ e ∈ after, e.keyHash ≠ d.keyHash

section IsLast

variable {rows : List Diff} {d : Diff}

open Diff

lemma Diff.IsLast.mem (h : IsLast rows d) : d ∈ rows := by
  obtain ⟨before, after, rfl, -⟩ := h
  simp

lemma not_isLast_nil : ¬ IsLast [] d := fun h => by simpa using h.mem

theorem isLast_append {xs ys : List Diff} :
    IsLast (xs ++ ys) d ↔ IsLast ys d ∨ IsLast xs d ∧ ∀ e ∈ ys, e.keyHash ≠ d.keyHash := by
  constructor
  · rintro ⟨before, after, h, hlast⟩
    rcases List.append_eq_append_iff.1 h with ⟨m, rfl, hys⟩ | ⟨m, rfl, hys⟩
    · exact .inl ⟨m, after, hys, hlast⟩
    · rcases List.cons_eq_append_iff.1 hys with ⟨rfl, rfl⟩ | ⟨m, rfl, rfl⟩
      · exact .inl ⟨[], after, rfl, hlast⟩
      · exact .inr ⟨⟨before, m, rfl, fun e he => hlast e (by simp [he])⟩,
          fun e he => hlast e (by simp [he])⟩
  · rintro (⟨before, after, rfl, hlast⟩ | ⟨⟨before, after, rfl, hlast⟩, hys⟩)
    · exact ⟨xs ++ before, after, (List.append_assoc ..).symm, hlast⟩
    · refine ⟨before, after ++ ys, by simp, fun e he => ?_⟩
      rcases List.mem_append.1 he with he | he
      · exact hlast e he
      · exact hys e he

lemma isLast_singleton {e : Diff} : IsLast [e] d ↔ d = e := by
  constructor
  · exact fun h => by simpa using h.mem
  · rintro rfl
    exact ⟨[], [], rfl, by simp⟩

lemma isLast_concat {e : Diff} :
    IsLast (rows ++ [e]) d ↔ d = e ∨ IsLast rows d ∧ d.keyHash ≠ e.keyHash := by
  rw [isLast_append, isLast_singleton]
  simp [eq_comm]

/-- If no key occurs twice, every record is the last one of its key. -/
theorem isLast_iff_mem (hn : (rows.map Diff.keyHash).Nodup) : IsLast rows d ↔ d ∈ rows := by
  refine ⟨fun h => h.mem, fun h => ?_⟩
  obtain ⟨before, after, rfl⟩ := List.append_of_mem h
  refine ⟨before, after, rfl, fun e he heq => ?_⟩
  rw [List.map_append, List.map_cons] at hn
  exact (List.nodup_cons.1 hn.of_append_right).1 (heq ▸ List.mem_map_of_mem he)

/-- The contents of records are what the last records of the keys say. -/
theorem Contents.of_eq_some_iff {h : String} {e : Micheline × Micheline} :
    of rows h = some e ↔ ∃ d, IsLast rows d ∧ d.keyHash = h ∧ d.entry? = some e := by
  induction rows using List.reverseRecOn with
  | nil => simp [of, empty, not_isLast_nil]
  | append_singleton rows d ih =>
    rw [of_concat]
    by_cases hd : d.keyHash = h
    · subst hd
      rw [update_self]
      constructor
      · exact fun he => ⟨d, isLast_concat.2 (.inl rfl), rfl, he⟩
      · rintro ⟨d', hl, hk, he⟩
        rcases isLast_concat.1 hl with rfl | ⟨-, hne⟩
        · exact he
        · exact absurd hk hne
    · rw [update_of_ne (Ne.symm hd), ih]
      constructor
      · rintro ⟨d', hl, rfl, he⟩
        exact ⟨d', isLast_concat.2 (.inr ⟨hl, Ne.symm hd⟩), rfl, he⟩
      · rintro ⟨d', hl, hk, he⟩
        rcases isLast_concat.1 hl with rfl | ⟨hl, -⟩
        · exact absurd hk hd
        · exact ⟨d', hl, hk, he⟩

end IsLast

/-! ### Records in the place of earlier ones -/

/-- A way to add a record to a list of records with different keys in the place of the earlier
record of its key. -/
structure Replaces (put : List Diff → Diff → List Diff) : Prop where
  mem_iff {rows : List Diff} {d x : Diff} :
    x ∈ put rows d ↔ x = d ∨ x ∈ rows ∧ x.keyHash ≠ d.keyHash
  nodup {rows : List Diff} {d : Diff} (h : (rows.map Diff.keyHash).Nodup) :
    ((put rows d).map Diff.keyHash).Nodup

namespace Replaces

variable {put : List Diff → Diff → List Diff} (hp : Replaces put)

include hp

theorem nodup_foldl (rows : List Diff) : ((rows.foldl put []).map Diff.keyHash).Nodup := by
  induction rows using List.reverseRecOn with
  | nil => exact List.nodup_nil
  | append_singleton rows d ih =>
    rw [List.foldl_append]
    exact hp.nodup ih

theorem mem_foldl {rows : List Diff} {x : Diff} :
    x ∈ rows.foldl put [] ↔ Diff.IsLast rows x := by
  induction rows using List.reverseRecOn with
  | nil => simp [not_isLast_nil]
  | append_singleton rows d ih =>
    rw [List.foldl_append, isLast_concat, ← ih]
    exact hp.mem_iff

theorem mem_live {rows : List Diff} {x : Diff} :
    x ∈ (rows.foldl put []).filter (fun d => !d.isRemoved) ↔
      Diff.IsLast rows x ∧ x.isRemoved = false := by
  rw [List.mem_filter, hp.mem_foldl, Bool.not_eq_true']

theorem nodup_live (rows : List Diff) :
    (((rows.foldl put []).filter fun d => !d.isRemoved).map Diff.keyHash).Nodup :=
  (hp.nodup_foldl rows).sublist (List.filter_sublist.map _)

theorem of_live (rows : List Diff) :
    Contents.of ((rows.foldl put []).filter fun d => !d.isRemoved) = Contents.of rows := by
  funext h
  refine Option.ext fun e => ?_
  rw [Contents.of_eq_some_iff, Contents.of_eq_some_iff]
  constructor
  · rintro ⟨d, hd, hk, he⟩
    rw [isLast_iff_mem (hp.nodup_live rows)] at hd
    exact ⟨d, (hp.mem_live.1 hd).1, hk, he⟩
  · rintro ⟨d, hd, hk, he⟩
    refine ⟨d, ?_, hk, he⟩
    rw [isLast_iff_mem (hp.nodup_live rows)]
    exact hp.mem_live.2 ⟨hd, Diff.isRemoved_of_entry? he⟩

end Replaces

theorem replaces_supersede : Replaces Store.supersede where
  mem_iff := by
    intro rows d x
    unfold Store.supersede
    rw [List.mem_append, List.mem_filter, List.mem_singleton, bne_iff_ne, or_comm]
  nodup := by
    intro rows d h
    unfold Store.supersede
    rw [List.map_append, List.nodup_append]
    refine ⟨h.sublist (List.filter_sublist.map _), List.nodup_singleton _, fun a ha b hb => ?_⟩
    obtain ⟨x, hx, rfl⟩ := List.mem_map.1 ha
    rw [List.map_singleton, List.mem_singleton] at hb
    rw [hb]
    exact bne_iff_ne.1 (List.mem_filter.1 hx).2

/-! ### Commits -/

namespace Store

section Sorting

variable {α : Type} {level : α → Int}

lemma le_trans_level (a b c : α) (hab : decide (level a ≤ level b))
    (hbc : decide (level b ≤ level c)) : decide (level a ≤ level c) := by
  simp only [decide_eq_true_eq] at *
  omega

lemma le_total_level (a b : α) : decide (level a ≤ level b) || decide (level b ≤ level a) := by
  simp only [Bool.or_eq_true, decide_eq_true_eq]
  omega

lemma pairwise_byLevel (xs : List α) : (byLevel level xs).Pairwise (level · ≤ level ·) := by
  have h : (byLevel level xs).Pairwise fun a b => decide (level a ≤ level b) :=
    List.pairwise_mergeSort le_trans_level le_total_level xs
  exact h.imp of_decide_eq_true

/-- An additional first record comes to stand after the records of lower levels and before all
others. -/
lemma byLevel_cons (x : α) (xs : List α) :
    byLevel level (x :: xs) =
      (byLevel level xs).filter (level · < level x) ++
        x :: (byLevel level xs).filter (fun y => ¬ level y < level x) := by
  obtain ⟨l₁, l₂, h, hxs, hlt⟩ : ∃ l₁ l₂, byLevel level (x :: xs) = l₁ ++ x :: l₂ ∧
      byLevel level xs = l₁ ++ l₂ ∧ ∀ y ∈ l₁, !decide (level x ≤ level y) :=
    List.mergeSort_cons le_trans_level le_total_level x xs
  have hsorted : (l₁ ++ x :: l₂).Pairwise (level · ≤ level ·) := h ▸ pairwise_byLevel _
  have hge := (List.pairwise_cons.1 (List.pairwise_append.1 hsorted).2.1).1
  have h₁ : ∀ y ∈ l₁, level y < level x := fun y hy => by simpa using hlt y hy
  have h₂ : ∀ y ∈ l₂, ¬ level y < level x := fun y hy => Int.not_lt.2 (hge y hy)
  rw [h, hxs, List.filter_append, List.filter_append,
    List.filter_eq_self.2 (by simpa using h₁), List.filter_eq_nil_iff.2 (by simpa using h₂),
    List.filter_eq_nil_iff.2 (by simpa using h₁), List.filter_eq_self.2 (by simpa using h₂),
    List.append_nil, List.nil_append]

/-- Records whose levels are not lower than any before them stay behind these when all are put in
the order of the levels. -/
theorem byLevel_append {xs ys : List α} (hys : ys.Pairwise (level · ≤ level ·))
    (h : ∀ x ∈ xs, ∀ y ∈ ys, level x ≤ level y) :
    byLevel level (xs ++ ys) = byLevel level xs ++ ys := by
  induction xs with
  | nil =>
    have hnil : byLevel level ([] : List α) = [] := List.mergeSort_nil
    rw [hnil, List.nil_append]
    exact List.mergeSort_of_pairwise (hys.imp decide_eq_true)
  | cons x xs ih =>
    have hx : ∀ y ∈ ys, ¬ level y < level x := fun y hy => Int.not_lt.2 (h x (by simp) y hy)
    have hlow : ys.filter (level · < level x) = [] := List.filter_eq_nil_iff.2 (by simpa using hx)
    have hhigh : ys.filter (fun y => ¬ level y < level x) = ys :=
      List.filter_eq_self.2 (by simpa using hx)
    rw [List.cons_append, byLevel_cons, ih fun x' hx' => h x' (by simp [hx']), List.filter_append,
      List.filter_append, hlow, hhigh, List.append_nil, byLevel_cons, List.append_assoc]
    rfl

end Sorting

variable {s s' : Store} {staged : Staged} {place : Place}

/-- There is no clash among identifiers that are different and have not been seen. -/
theorem firstClash?_eq_none_iff {seen ids : List String} :
    firstClash? seen ids = none ↔ ids.Nodup ∧ ∀ id ∈ ids, id ∉ seen := by
  induction ids generalizing seen with
  | nil => simp [firstClash?]
  | cons id ids ih =>
    rw [firstClash?]
    by_cases hid : id ∈ seen
    · simp [hid]
    · rw [if_neg (by simpa using hid), ih, List.nodup_cons, List.forall_mem_cons]
      simp only [List.mem_cons, not_or]
      constructor
      · rintro ⟨hnodup, hnew⟩
        exact ⟨⟨fun hmem => (hnew id hmem).1 rfl, hnodup⟩, hid, fun x hx => (hnew x hx).2⟩
      · rintro ⟨⟨hmem, hnodup⟩, -, hnew⟩
        exact ⟨hnodup, fun x hx => ⟨fun he => hmem (he ▸ hx), hnew x hx⟩⟩

/-- A commit that succeeds adds the records that were staged. -/
theorem commit_ok (h : commit staged s = (.ok (), s')) :
    firstClash? s.ids staged.ids = none ∧
      s' = { s with
        diffs := s.diffs ++ staged.diffs
        actions := s.actions ++ staged.actions
        ids := s.ids ++ staged.ids } := by
  unfold commit at h
  split at h
  · cases h
  · next hn => exact ⟨hn, (Prod.mk.inj h).2.symm⟩

/-- If what is committed is of one level, and no older record of a big map that it concerns is of a
higher one, then what is committed comes last in the history of the big map. -/
theorem history_commit {level : Int} (h : commit staged s = (.ok (), s'))
    (hnew : ∀ d ∈ staged.diffs, d.provenance.level = level)
    (hold : ∀ d ∈ s.diffs, isAbout place d → ∀ e ∈ staged.diffs, isAbout place e →
      d.provenance.level ≤ level) :
    s'.history place = s.history place ++ staged.diffs.filter (isAbout place) := by
  obtain ⟨-, rfl⟩ := commit_ok h
  have hlevel : ∀ d ∈ staged.diffs.filter (isAbout place), d.provenance.level = level :=
    fun d hd => hnew d (List.mem_filter.1 hd).1
  unfold history
  rw [List.filter_append]
  refine byLevel_append (List.pairwise_of_forall_mem_list fun d hd e he => ?_) fun d hd e he => ?_
  · exact Int.le_of_eq ((hlevel d hd).trans (hlevel e he).symm)
  · rw [hlevel e he]
    obtain ⟨hd, hd'⟩ := List.mem_filter.1 hd
    obtain ⟨he, he'⟩ := List.mem_filter.1 he
    exact hold d hd hd' e he he'

/-- What is committed comes after the contents that a big map had. -/
theorem of_live_commit {level : Int} (h : commit staged s = (.ok (), s'))
    (hnew : ∀ d ∈ staged.diffs, d.provenance.level = level)
    (hold : ∀ d ∈ s.diffs, isAbout place d → ∀ e ∈ staged.diffs, isAbout place e →
      d.provenance.level ≤ level) :
    Contents.of (s'.live place) =
      Contents.of (s.live place ++ staged.diffs.filter (isAbout place)) := by
  unfold live latest
  rw [history_commit h hnew hold, replaces_supersede.of_live, Contents.of_append,
    Contents.of_append, replaces_supersede.of_live]

end Store

end Lineage
