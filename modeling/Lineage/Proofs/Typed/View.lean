import Lineage.Proofs.Typed.Skeleton
import Lineage.Typed.View

/-!
# How views are made

A pair is shown by its fields, and an `or` by the alternative that was chosen. Both may lie further
down than the parts of the node, so what holds of all views is proved along the size of nodes.

The texts to search fail in one way only: wire data that cannot be read (`onlyDecodes_strings`).
-/

namespace Lineage

lemma mapM_congr {α β γ : Type} {f g : α → Except γ β} {xs : List α} (h : ∀ x ∈ xs, f x = g x) :
    xs.mapM f = xs.mapM g := by
  induction xs with
  | nil => rfl
  | cons x xs ih =>
    obtain ⟨hx, hxs⟩ := List.forall_mem_cons.1 h
    rw [List.mapM_cons, List.mapM_cons, hx, ih hxs]

/-! ### What can go wrong -/

/-- Nothing goes wrong, unless in a given way. -/
def FailsOnly {α : Type} (E : NodeError → Prop) (x : Except NodeError α) : Prop :=
  ∀ e, x = .error e → E e

section FailsOnly

variable {α β : Type} {E E' : NodeError → Prop} {x : Except NodeError α}

lemma failsOnly_ok (a : α) : FailsOnly E (.ok a) := nofun

lemma FailsOnly.imp (h : FailsOnly E x) (hE : ∀ e, E e → E' e) : FailsOnly E' x :=
  fun e he => hE e (h e he)

lemma failsOnly_bind {f : α → Except NodeError β} (hx : FailsOnly E x)
    (hf : ∀ a, x = .ok a → FailsOnly E (f a)) : FailsOnly E (x >>= f) := by
  cases x with
  | error e => exact fun e' he => hx e' (by cases he; rfl)
  | ok a => exact hf a rfl

lemma failsOnly_mapM {f : α → Except NodeError β} {as : List α}
    (h : ∀ a ∈ as, FailsOnly E (f a)) : FailsOnly E (as.mapM f) := by
  induction as with
  | nil => exact failsOnly_ok _
  | cons a as ih =>
    obtain ⟨ha, has⟩ := List.forall_mem_cons.1 h
    rw [List.mapM_cons]
    exact failsOnly_bind ha fun _ _ => failsOnly_bind (ih has) fun _ _ => failsOnly_ok _

end FailsOnly

/-! ### Wire data that cannot be read -/

/-- Nothing goes wrong, unless wire data cannot be read. -/
def OnlyDecodes {α : Type} (x : Except NodeError α) : Prop :=
  ∀ e, x = .error e → ∃ d, e = .decode d

section OnlyDecodes

variable {α β : Type} {x : Except NodeError α}

lemma onlyDecodes_ok (a : α) : OnlyDecodes (.ok a) := failsOnly_ok a

lemma onlyDecodes_bind {f : α → Except NodeError β} (hx : OnlyDecodes x)
    (hf : ∀ a, x = .ok a → OnlyDecodes (f a)) : OnlyDecodes (x >>= f) := failsOnly_bind hx hf

lemma onlyDecodes_mapM {f : α → Except NodeError β} {as : List α}
    (h : ∀ a ∈ as, OnlyDecodes (f a)) : OnlyDecodes (as.mapM f) := failsOnly_mapM h

lemma onlyDecodes_liftDecode (x : Except DecodeError α) : OnlyDecodes (liftDecode x) := by
  cases x with
  | error d => exact fun e he => ⟨d, by cases he; rfl⟩
  | ok a => exact onlyDecodes_ok a

lemma onlyDecodes_text (type : Scalar) (v : Micheline) : OnlyDecodes (type.text v) := by
  unfold Scalar.text
  split
  · exact onlyDecodes_ok _
  · exact onlyDecodes_ok _
  · split
    · exact onlyDecodes_liftDecode _
    · exact onlyDecodes_ok _
  · exact onlyDecodes_ok _

lemma onlyDecodes_shown (type : Scalar) (v : Micheline) : OnlyDecodes (type.shown v) := by
  unfold Scalar.shown
  split
  all_goals first
    | exact onlyDecodes_ok _
    | exact onlyDecodes_bind (onlyDecodes_text type v) fun _ _ => onlyDecodes_ok _

end OnlyDecodes

namespace Node

variable {n : Node}

lemma onlyDecodes_required {α β : Type} {path : String} {a : α} {f : α → Except NodeError β}
    (h : OnlyDecodes (f a)) : OnlyDecodes (required path (some a) >>= f) := h

/-! ### Pairs and alternatives -/

lemma render_of_isPair (h : n.isPair = true) :
    n.render = do
      let fields ← n.pairFields.mapM render
      return { n.blank ((n.shape?.map Shape.name).getD n.prim) with children := fields } := by
  cases n with
  | pair s l r =>
    rw [render]
    simp
  | _ => cases h

lemma render_of_isOr (h : n.isOr = true) :
    n.render =
      match n.chosenAlternative? with
      | none => .error (.unsettled n.site.path)
      | some chosen =>
        let shown := n.blank ((n.shape?.map Shape.name).getD n.prim)
        if (n.shape?.map Shape.isEnumeration).getD false then
          return { shown with value := some (.text chosen.alternativeName) }
        else do
          let view ← chosen.render
          return { shown with
            children := [{ view with name := chosen.entryName?.or view.name }] } := by
  cases n with
  | or s l r side =>
    rw [render]
    split <;> simp_all [site]
  | _ => cases h

/-! ### Texts -/

lemma onlyDecodes_itemStrings {items : List Node} (h : ∀ item ∈ items, OnlyDecodes item.strings) :
    OnlyDecodes (itemStrings items) := by
  induction items with
  | nil => exact onlyDecodes_ok _
  | cons item items ih =>
    obtain ⟨hitem, hitems⟩ := List.forall_mem_cons.1 h
    rw [itemStrings]
    exact onlyDecodes_bind hitem fun _ _ => onlyDecodes_bind (ih hitems) fun _ _ => onlyDecodes_ok _

lemma onlyDecodes_entryStrings {entries : List (Node × Node)}
    (h : ∀ entry ∈ entries, OnlyDecodes entry.1.strings ∧ OnlyDecodes entry.2.strings) :
    OnlyDecodes (entryStrings entries) := by
  induction entries with
  | nil => exact onlyDecodes_ok _
  | cons entry entries ih =>
    obtain ⟨⟨hkey, hvalue⟩, hentries⟩ := List.forall_mem_cons.1 h
    rw [entryStrings]
    exact onlyDecodes_bind hkey fun _ _ => onlyDecodes_bind hvalue fun _ _ =>
      onlyDecodes_bind (ih hentries) fun _ _ => onlyDecodes_ok _

lemma sizeOf_lt_of_mem_entries {entries : List (Node × Node)} {entry : Node × Node}
    (h : entry ∈ entries) :
    sizeOf entry.1 < sizeOf entries ∧ sizeOf entry.2 < sizeOf entries := by
  have hlt := List.sizeOf_lt_of_mem h
  obtain ⟨k, v⟩ := entry
  rw [Prod.mk.sizeOf_spec] at hlt
  dsimp only
  omega

section Sizes

variable {s : Site} {inner key value elem : Node} {kind : Collection} {pointer : Option Int}
  {items : List Node} {entries : List (Node × Node)} {item : Node} {entry : Node × Node}

lemma sizeOf_lt_collection (h : item ∈ items) :
    sizeOf item < sizeOf (collection s kind elem (some items)) := by
  have := List.sizeOf_lt_of_mem h
  rw [collection.sizeOf_spec, Option.some.sizeOf_spec]
  omega

lemma sizeOf_lt_map (h : entry ∈ entries) :
    sizeOf entry.1 < sizeOf (map s key value (some entries)) ∧
      sizeOf entry.2 < sizeOf (map s key value (some entries)) := by
  obtain ⟨hkey, hvalue⟩ := sizeOf_lt_of_mem_entries h
  rw [map.sizeOf_spec, Option.some.sizeOf_spec]
  omega

lemma sizeOf_lt_bigMap (h : entry ∈ entries) :
    sizeOf entry.1 < sizeOf (bigMap s key value pointer (some entries)) ∧
      sizeOf entry.2 < sizeOf (bigMap s key value pointer (some entries)) := by
  obtain ⟨hkey, hvalue⟩ := sizeOf_lt_of_mem_entries h
  rw [bigMap.sizeOf_spec, Option.some.sizeOf_spec]
  omega

end Sizes

theorem onlyDecodes_strings (n : Node) : OnlyDecodes n.strings := by
  induction n using sizeInduction with
  | step n ih =>
    have hpart : ∀ m ∈ n.typeChildren, OnlyDecodes m.strings := fun m hm =>
      ih m (sizeOf_lt_of_mem_typeChildren hm)
    rw [strings.eq_def]
    split
    · split
      · exact onlyDecodes_bind (onlyDecodes_text _ _) fun _ _ => onlyDecodes_ok _
      · exact onlyDecodes_ok _
    · exact onlyDecodes_bind (onlyDecodes_text _ _) fun _ _ => onlyDecodes_ok _
    · exact hpart _ (by simp [typeChildren])
    · exact hpart _ (by simp [typeChildren])
    · refine onlyDecodes_bind (hpart _ (by simp [typeChildren])) fun _ _ => ?_
      exact onlyDecodes_bind (hpart _ (by simp [typeChildren])) fun _ _ => onlyDecodes_ok _
    · exact hpart _ (by simp [typeChildren])
    · exact hpart _ (by simp [typeChildren])
    · exact onlyDecodes_itemStrings fun item hitem => ih item (sizeOf_lt_collection hitem)
    · exact onlyDecodes_entryStrings fun entry hentry =>
        ⟨ih _ (sizeOf_lt_map hentry).1, ih _ (sizeOf_lt_map hentry).2⟩
    · exact onlyDecodes_entryStrings fun entry hentry =>
        ⟨ih _ (sizeOf_lt_bigMap hentry).1, ih _ (sizeOf_lt_bigMap hentry).2⟩
    · exact onlyDecodes_ok _

end Node

end Lineage
