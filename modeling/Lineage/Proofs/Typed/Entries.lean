import Mathlib.Data.List.Nodup
import Mathlib.Logic.Function.Basic
import Lineage.Proofs.Typed.Bound
import Lineage.Proofs.Typed.Sameness

/-!
# What changes leave of a big map

A change gives a value to a key, or takes the key away. Of both it counts how they are written in
their types (`EntryChange.write`), since one value may be spelled in several ways. Changes in turn
amount to a `Table`, the values of the keys: a change counts in place of what earlier ones said of
its key.

Entries are made for a table when they are written as its keys with their values, each key once.
Making a change to them keeps them in step with the table, whether the key is new, gets another
value or is taken away (`exists_applyChange`), and so does a series of changes that fit
(`exists_applyChanges`). Entries made for one table differ in their order only (`Table.Lists.perm`).
-/

namespace Lineage

open Function

/-- How a value is written in a type. -/
def Node.normal (n : Node) (v : Micheline) : Except NodeError Micheline := do
  (← n.settle v).toWire false

/-- What a change says in types of keys and values: the key, and its value if it is to have one. -/
def EntryChange.write (key value : Node) (c : EntryChange) :
    Except NodeError (Micheline × Option Micheline) :=
  return (← key.normal c.key, ← c.value.mapM value.normal)

/-! ### Tables -/

/-- The values of keys. -/
abbrev Table := Micheline → Option Micheline

namespace Table

def empty : Table := fun _ => none

/-- Takes a change into account. One that does not fit says nothing. -/
def record (key value : Node) (t : Table) (c : EntryChange) : Table :=
  match c.write key value with
  | .ok (k, v) => update t k v
  | .error _ => t

/-- What changes amount to when they are taken into account in turn. -/
def of (key value : Node) (changes : List EntryChange) : Table :=
  changes.foldl (record key value) empty

/-- The keys with their values, each key once. -/
structure Lists (t : Table) (es : List (Micheline × Micheline)) : Prop where
  nodup : (es.map Prod.fst).Nodup
  mem_iff : ∀ k v, (k, v) ∈ es ↔ t k = some v

variable {key value : Node} {c : EntryChange} {k v : Micheline} {v? : Option Micheline} {t : Table}
  {changes : List EntryChange} {es es' : List (Micheline × Micheline)}

lemma record_of_ok (h : c.write key value = .ok (k, v?)) :
    record key value t c = update t k v? := by
  unfold record
  rw [h]

lemma of_concat (h : c.write key value = .ok (k, v?)) :
    of key value (changes ++ [c]) = update (of key value changes) k v? := by
  unfold of
  rw [List.foldl_append]
  exact record_of_ok h

lemma lists_empty : empty.Lists [] := ⟨List.nodup_nil, fun k v => by simp [empty]⟩

namespace Lists

theorem perm (h : t.Lists es) (h' : t.Lists es') : es.Perm es' := by
  rw [List.perm_ext_iff_of_nodup h.nodup.of_map h'.nodup.of_map]
  rintro ⟨k, v⟩
  rw [h.mem_iff, h'.mem_iff]

lemma of_perm (h : t.Lists es) (hperm : es'.Perm es) : t.Lists es' where
  nodup := (hperm.map Prod.fst).nodup_iff.2 h.nodup
  mem_iff k v := hperm.mem_iff.trans (h.mem_iff k v)

lemma erase (h : t.Lists es) (k : Micheline) : Lists (update t k none) (es.filter (·.1 ≠ k)) where
  nodup := h.nodup.sublist (List.filter_sublist.map _)
  mem_iff k' v := by
    rw [List.mem_filter, h.mem_iff, decide_eq_true_iff]
    by_cases hk : k' = k
    · subst hk
      simp
    · rw [update_of_ne hk]
      exact and_iff_left hk

lemma insert (h : t.Lists es) (k v : Micheline) :
    Lists (update t k (some v)) ((k, v) :: es.filter (·.1 ≠ k)) where
  nodup := by
    rw [List.map_cons, List.nodup_cons]
    refine ⟨fun hmem => ?_, (h.erase k).nodup⟩
    obtain ⟨e, he, rfl⟩ := List.mem_map.1 hmem
    exact of_decide_eq_true (List.mem_filter.1 he).2 rfl
  mem_iff k' v' := by
    rw [List.mem_cons, (h.erase k).mem_iff]
    by_cases hk : k' = k
    · subst hk
      simp [eq_comm]
    · simp [hk]

end Lists

end Table

namespace Node

variable {n n' key value : Node} {v w k x : Micheline} {v? : Option Micheline} {t : Table}
  {c : EntryChange} {changes : List EntryChange} {entries : List (Node × Node)}
  {es : List (Micheline × Micheline)}

/-! ### What changes say -/

lemma normal_ok : n.normal v = .ok w ↔ ∃ n', n.settle v = .ok n' ∧ n'.toWire false = .ok w :=
  except_bind_ok

lemma write_some_ok (hc : c.value = some x) :
    c.write key value = .ok (k, v?) ↔
      key.normal c.key = .ok k ∧ ∃ v, value.normal x = .ok v ∧ v? = some v := by
  simp [EntryChange.write, hc, except_bind_ok, pure, Except.pure, eq_comm (a := v?)]

lemma write_none_ok (hc : c.value = none) :
    c.write key value = .ok (k, v?) ↔ key.normal c.key = .ok k ∧ v? = none := by
  simp [EntryChange.write, hc, except_bind_ok, pure, Except.pure, eq_comm (a := v?)]

lemma Sound.exists_normal (h : n.Sound) (hn : n.settle v = .ok n') : ∃ w, n.normal v = .ok w := by
  obtain ⟨w, hw⟩ := ((h.bind v).of_settle hn).2.exists_toWire false
  exact ⟨w, normal_ok.2 ⟨n', hn, hw⟩⟩

/-- A change says something if its key fits, and its value, if it has one. -/
theorem exists_write (hkey : key.Sound) (hvalue : value.Sound) (hk : ∃ k, key.settle c.key = .ok k)
    (hv : ∀ x ∈ c.value, ∃ v, value.settle x = .ok v) : ∃ w, c.write key value = .ok w := by
  obtain ⟨k', hk⟩ := hk
  obtain ⟨k, hk⟩ := hkey.exists_normal hk
  cases hc : c.value with
  | none => exact ⟨(k, none), (write_none_ok hc).2 ⟨hk, rfl⟩⟩
  | some x =>
    obtain ⟨x', hx⟩ := hv x hc
    obtain ⟨v, hv⟩ := hvalue.exists_normal hx
    exact ⟨(k, some v), (write_some_ok hc).2 ⟨hk, v, hv, rfl⟩⟩

/-! ### Entries -/

/-- The entries are written as these keys with these values. -/
abbrev Writes (entries : List (Node × Node)) (es : List (Micheline × Micheline)) : Prop :=
  List.Forall₂ (fun entry e => entry.1.toWire false = .ok e.1 ∧ entry.2.toWire false = .ok e.2)
    entries es

lemma hasKey_iff {entry : Node × Node} (h : entry.1.toWire false = .ok w) :
    hasKey k entry = true ↔ w = k := by
  unfold hasKey
  rw [h]
  exact decide_eq_true_iff

lemma filter_tail {e : Micheline × Micheline} (hn : ((e :: es).map Prod.fst).Nodup) :
    es.filter (·.1 ≠ e.1) = es := by
  rw [List.map_cons, List.nodup_cons] at hn
  refine List.filter_eq_self.2 fun e' he' => decide_eq_true fun heq => hn.1 ?_
  exact heq ▸ List.mem_map_of_mem he'

/-- A value that is put at a key takes the place of the entry of the key. -/
lemma exists_writes_putEntry (h : Writes entries es) (hn : (es.map Prod.fst).Nodup)
    (hk : key.toWire false = .ok k) (hv : value.toWire false = .ok v) :
    ∃ es', Writes (putEntry key value k entries) es' ∧
      es'.Perm ((k, v) :: es.filter (·.1 ≠ k)) := by
  induction h with
  | nil => exact ⟨[(k, v)], .cons ⟨hk, hv⟩ .nil, .refl _⟩
  | @cons entry e entries es he hes ih =>
    rw [putEntry]
    by_cases hkey : e.1 = k
    · subst hkey
      rw [if_pos ((hasKey_iff he.1).2 rfl), List.filter_cons_of_neg (by simp), filter_tail hn]
      exact ⟨(e.1, v) :: es, .cons ⟨he.1, hv⟩ hes, .refl _⟩
    · rw [if_neg (mt (hasKey_iff he.1).1 hkey), List.filter_cons_of_pos (by simpa using hkey)]
      obtain ⟨es', hes', hperm⟩ := ih (List.nodup_cons.1 hn).2
      exact ⟨e :: es', .cons he hes', (hperm.cons e).trans (.swap ..)⟩

lemma writes_removeEntry (h : Writes entries es) (hn : (es.map Prod.fst).Nodup) :
    Writes (removeEntry k entries) (es.filter (·.1 ≠ k)) := by
  induction h with
  | nil => exact .nil
  | @cons entry e entries es he hes ih =>
    rw [removeEntry]
    by_cases hkey : e.1 = k
    · subst hkey
      rwa [List.eraseP_cons_of_pos ((hasKey_iff he.1).2 rfl), List.filter_cons_of_neg (by simp),
        filter_tail hn]
    · rw [List.eraseP_cons_of_neg (mt (hasKey_iff he.1).1 hkey),
        List.filter_cons_of_pos (by simpa using hkey)]
      exact .cons he (ih (List.nodup_cons.1 hn).2)

/-- **One change** is made if it says something, and the entries then are those of the table with
what it says. -/
theorem exists_applyChange (h : Writes entries es) (ht : t.Lists es)
    (hw : c.write key value = .ok (k, v?)) :
    ∃ entries' es', applyChange key value entries c = .ok entries' ∧ Writes entries' es' ∧
      Table.Lists (update t k v?) es' := by
  unfold applyChange
  cases hc : c.value with
  | none =>
    obtain ⟨hk, rfl⟩ := (write_none_ok hc).1 hw
    obtain ⟨k', hk', hkw⟩ := normal_ok.1 hk
    exact ⟨_, _, except_bind_ok.2 ⟨k', hk', except_bind_ok.2 ⟨k, hkw, rfl⟩⟩,
      writes_removeEntry h ht.nodup, ht.erase k⟩
  | some x =>
    obtain ⟨hk, v, hv, rfl⟩ := (write_some_ok hc).1 hw
    obtain ⟨k', hk', hkw⟩ := normal_ok.1 hk
    obtain ⟨v', hv', hvw⟩ := normal_ok.1 hv
    obtain ⟨es', hes', hperm⟩ := exists_writes_putEntry h ht.nodup hkw hvw
    exact ⟨_, es', except_bind_ok.2 ⟨k', hk', except_bind_ok.2 ⟨k, hkw, except_bind_ok.2
      ⟨v', hv', rfl⟩⟩⟩, hes', (ht.insert k v).of_perm hperm⟩

/-- **Changes** that all say something are all made, and the entries then are those of the table
that they amount to. -/
theorem exists_applyChanges (h : Writes entries es) (ht : t.Lists es)
    (hw : ∀ c ∈ changes, ∃ w, c.write key value = .ok w) :
    ∃ entries' es', applyChanges key value entries changes = .done entries' ∧
      Writes entries' es' ∧ (changes.foldl (Table.record key value) t).Lists es' := by
  induction changes generalizing entries es t with
  | nil => exact ⟨entries, es, rfl, h, ht⟩
  | cons c changes ih =>
    obtain ⟨⟨⟨k, v?⟩, hc⟩, hw⟩ := List.forall_mem_cons.1 hw
    obtain ⟨entries₁, es₁, hstep, h₁, ht₁⟩ := exists_applyChange h ht hc
    rw [applyChanges, hstep, List.foldl_cons, Table.record_of_ok hc]
    exact ih h₁ ht₁ hw

end Node

end Lineage
