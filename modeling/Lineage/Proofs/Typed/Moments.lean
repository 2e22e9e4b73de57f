import Lineage.Proofs.Calendar.Timestamp
import Lineage.Proofs.Typed.Literals
import Lineage.Typed.View

/-!
# How timestamps are shown

A timestamp that is given as a numeral is shown as the text of its instant, and the numeral itself
where there is no such text or the text would be that of the very last instant (`render_numeral`).
The text of the instant is a timestamp as well, equal to the numeral and shown as itself
(`settle_render_numeral`).
-/

namespace Lineage

/-! ### Texts of timestamps -/

namespace Scalar

variable {t : Timestamp} {text : String}

lemma check_of_parse? (h : Timestamp.parse? text = some t) :
    timestamp.check (.string text) = .ok () := by
  refine if_pos ?_
  show (Timestamp.parse? text).isSome = true
  rw [h]
  rfl

lemma integer?_of_parse? (h : Timestamp.parse? text = some t) :
    timestamp.integer? (.string text) = some t.toUnix := by
  show (Timestamp.parse? text).map Timestamp.toUnix = _
  rw [h, Option.map_some]

lemma text_of_parse? (h : Timestamp.parse? text = some t) :
    timestamp.text (.string text) = .ok t.render := by
  show Except.ok (timestampText text) = _
  unfold timestampText
  rw [h]

end Scalar

/-! ### Nodes of timestamps -/

namespace Node

variable {s : Site} {typeArgs : List Micheline} {old : Option Micheline} {v : Micheline}
  {numeral text : String} {a : Node}

lemma render_timestamp (htext : Scalar.timestamp.text v = .ok text) :
    ∃ view, (scalar s .timestamp typeArgs (some v)).render = .ok view ∧
      view.value = some (.text text) := by
  have hshown : Scalar.timestamp.shown v = .ok (some (.text text)) := by
    show (Scalar.timestamp.text v >>= _) = _
    rw [htext]
    rfl
  rw [render]
  show ∃ view, (Scalar.timestamp.shown v >>= _) = _ ∧ _
  rw [hshown]
  exact ⟨_, rfl, rfl⟩

lemma render_of_settle_numeral
    (h : (scalar s .timestamp typeArgs old).settle (.int numeral) = .ok a) :
    Decimal.isNumeral true numeral = true ∧
      ∃ view, a.render = .ok view ∧ view.value = some (.text (Timestamp.textOfNumeral numeral)) := by
  obtain ⟨hcheck, rfl⟩ := settle_scalar.1 h
  exact ⟨Scalar.admits_of_check (by decide) (by decide) hcheck, render_timestamp rfl⟩

lemma compare_instants {s' : Site} {typeArgs' : List Micheline} {w : Micheline} {n : Int}
    (hv : Scalar.timestamp.check v = .ok ()) (hw : Scalar.timestamp.check w = .ok ())
    (hvn : Scalar.timestamp.integer? v = some n) (hwn : Scalar.timestamp.integer? w = some n) :
    (scalar s .timestamp typeArgs (some v)).compare (scalar s' .timestamp typeArgs' (some w)) =
      .ok .eq := by
  obtain ⟨m, m', hm, hm', hcompare⟩ := Scalar.compare_integers (.inr rfl) hv hw
  obtain rfl := Option.some.inj (hm.symm.trans hvn)
  obtain rfl := Option.some.inj (hm'.symm.trans hwn)
  rw [compare, if_pos ⟨rfl, rfl⟩]
  show Scalar.timestamp.compare v w = .ok .eq
  rw [hcompare, compare_eq_iff_eq.2 rfl]

/-- **Timestamps given as numerals are shown** as the text of their instant, from the beginning of
the year 0 to the end of the year 9999, and as themselves elsewhere, whatever their length: all but
those of the last instant that has a text, which are shown as themselves too. -/
theorem render_numeral
    (h : (scalar s .timestamp typeArgs old).settle (.int numeral) = .ok a) :
    ∃ view text, a.render = .ok view ∧ view.value = some (.text text) ∧
      (Timestamp.Shows numeral text ↔ Decimal.integer numeral ≠ Timestamp.last.toUnix) ∧
      (Decimal.integer numeral = Timestamp.last.toUnix → text = numeral) := by
  obtain ⟨hnumeral, view, hrender, hvalue⟩ := render_of_settle_numeral h
  refine ⟨view, _, hrender, hvalue, Timestamp.shows_textOfNumeral_iff hnumeral, fun hlast => ?_⟩
  rw [Timestamp.textOfNumeral_eq hnumeral, hlast]
  exact if_neg fun hlt => lt_irrefl _ hlt.2

/-- The first instant that has a text, with zeros before its digits. -/
theorem render_numeral_first :
    ∃ a view text, (moment none).settle (.int "-00062167219200") = .ok a ∧
      a.render = .ok view ∧ view.value = some (.text text) ∧
      Decimal.integer "-00062167219200" = Timestamp.first.toUnix ∧
      Timestamp.Shows "-00062167219200" text := by
  have hsettle : (moment none).settle (.int "-00062167219200") =
      .ok (moment (some (.int "-00062167219200"))) := rfl
  have hfirst : Decimal.integer "-00062167219200" = Timestamp.first.toUnix := by decide +kernel
  obtain ⟨view, text, hrender, hvalue, hshows, -⟩ := render_numeral hsettle
  refine ⟨_, view, text, hsettle, hrender, hvalue, hfirst, hshows.2 ?_⟩
  rw [hfirst]
  decide

/-- The last instant that has a text is not shown as this text. -/
theorem render_numeral_last :
    ∃ a view, (moment none).settle (.int "253402300799") = .ok a ∧
      a.render = .ok view ∧ view.value = some (.text "253402300799") ∧
      Timestamp.IsTextOf 253402300799 "9999-12-31T23:59:59Z" ∧
      ¬ Timestamp.Shows "253402300799" "253402300799" := by
  have hsettle : (moment none).settle (.int "253402300799") =
      .ok (moment (some (.int "253402300799"))) := rfl
  have hlast : Decimal.integer "253402300799" = Timestamp.last.toUnix := by decide +kernel
  have htext : Timestamp.textOfNumeral "253402300799" = "253402300799" := by decide +kernel
  obtain ⟨hnumeral, view, hrender, hvalue⟩ := render_of_settle_numeral hsettle
  have hshows := Timestamp.shows_textOfNumeral_iff hnumeral
  rw [htext] at hvalue hshows
  refine ⟨_, view, hsettle, hrender, hvalue, Timestamp.isTextOf_iff.2 ⟨?_, ?_⟩, fun h => ?_⟩
  · exact Timestamp.isMoment_ofUnix.2 (by decide)
  · decide +kernel
  · exact hshows.1 h hlast

/-- **The text a numeral is shown as is a timestamp of its instant**: wherever it is not the numeral
itself, it is the text of the instant and can be bound to a timestamp in turn, which then is equal to
the one given as a numeral and is shown as this text again. -/
theorem settle_render_numeral
    (h : (scalar s .timestamp typeArgs old).settle (.int numeral) = .ok a) :
    ∃ view text, a.render = .ok view ∧ view.value = some (.text text) ∧
      (text ≠ numeral → Timestamp.IsTextOf (Decimal.integer numeral) text ∧
        ∀ s' typeArgs' old', ∃ b view',
          (scalar s' .timestamp typeArgs' old').settle (.string text) = .ok b ∧
          a.compare b = .ok .eq ∧ b.compare a = .ok .eq ∧
          b.render = .ok view' ∧ view'.value = some (.text text)) := by
  obtain ⟨hnumeral, view, hrender, hvalue⟩ := render_of_settle_numeral h
  obtain ⟨hcheck, rfl⟩ := settle_scalar.1 h
  refine ⟨view, _, hrender, hvalue, fun hne => ?_⟩
  have hshown := Timestamp.isTextOf_textOfNumeral hnumeral hne
  generalize Timestamp.textOfNumeral numeral = text at hshown ⊢
  refine ⟨hshown, fun s' typeArgs' old' => ?_⟩
  obtain ⟨t, hparse, hrendered, hunix⟩ := hshown.exists_parse?
  have hcheck' := Scalar.check_of_parse? hparse
  have hinteger := Scalar.integer?_of_parse? hparse
  have htext := Scalar.text_of_parse? hparse
  rw [hunix] at hinteger
  rw [hrendered] at htext
  obtain ⟨view', hrender', hvalue'⟩ : ∃ view',
      (scalar s' .timestamp typeArgs' (some (.string text))).render = .ok view' ∧
        view'.value = some (.text text) := render_timestamp htext
  exact ⟨_, view', settle_scalar.2 ⟨hcheck', rfl⟩, compare_instants hcheck hcheck' rfl hinteger,
    compare_instants hcheck' hcheck hinteger rfl, hrender', hvalue'⟩

/-- The last second before the epoch. -/
theorem settle_render_numeral_neg :
    ∃ a view text, (moment none).settle (.int "-1") = .ok a ∧ a.render = .ok view ∧
      view.value = some (.text text) ∧ text = "1969-12-31T23:59:59Z" ∧ text ≠ "-1" ∧
      Timestamp.IsTextOf (-1) text ∧
      ∃ b view', (moment none).settle (.string text) = .ok b ∧ a.compare b = .ok .eq ∧
        b.compare a = .ok .eq ∧ b.render = .ok view' ∧ view'.value = some (.text text) := by
  have hsettle : (moment none).settle (.int "-1") = .ok (moment (some (.int "-1"))) := rfl
  have hinteger : Decimal.integer "-1" = -1 := by decide +kernel
  have hdate : Timestamp.textOfNumeral "-1" = "1969-12-31T23:59:59Z" := by decide +kernel
  obtain ⟨-, view', hrender', hvalue'⟩ := render_of_settle_numeral hsettle
  obtain ⟨view, text, hrender, hvalue, hshown⟩ := settle_render_numeral hsettle
  obtain rfl := Except.ok.inj (hrender.symm.trans hrender')
  rw [hvalue', hdate, Option.some.injEq, Json.text.injEq] at hvalue
  have hne : text ≠ "-1" := by
    rw [← hvalue]
    decide
  obtain ⟨htext, hagain⟩ := hshown hne
  rw [hinteger] at htext
  exact ⟨_, view, text, hsettle, hrender, by rw [hvalue', hdate, hvalue], hvalue.symm, hne, htext,
    hagain _ _ _⟩

end Node

end Lineage
