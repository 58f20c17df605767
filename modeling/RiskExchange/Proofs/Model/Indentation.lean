import RiskExchange.Proofs.Markup.Indentation
import RiskExchange.Proofs.Model.Shape

/-! # Indentation of models — the lines of an exchange document

    In an exchange document texts stand in labels and nowhere else, and nothing
    but a text stands in a label (`exchange_textIn`). So a document with an
    indent is the one without, with a line break in front of every tag but the
    end tags of labels (`render_model_eq_broken`). -/

namespace RiskExchange.Markup

variable {schema : Schema} {textual : String}

/-- The elements of one name are those with texts. -/
def Schema.TextIn (textual : String) (schema : Schema) : Prop :=
  ∀ r ∈ schema, r.content = .text ↔ r.name = textual

instance (textual : String) (schema : Schema) :
    Decidable (schema.TextIn textual) :=
  inferInstanceAs (Decidable (∀ r ∈ schema, _))

/-- Where a schema has texts in the elements of one name, so has an element that
    conforms to it. -/
theorem Conforms.textIn (hs : schema.TextIn textual) {e : Element}
    (h : Conforms schema e) : e.TextIn textual := by
  induction h with
  | empty hr ha hc hf => exact .empty _ _
  | text hr ha hc content =>
      rw [(hs _ hr).mp hc]
      exact .text content
  | node hr ha hc hne hf h ih =>
      refine .node _ ?_ ih
      intro hname
      rw [(hs _ hr).mpr hname] at hc
      exact nomatch hc

end RiskExchange.Markup

namespace RiskExchange.Model

open RiskExchange.Markup

theorem exchange_textIn : exchange.TextIn "label" := by
  decide

/-- The text of a model with an indent is the one without, with a line break in
    front of each tag, but for the declaration and the end tags of labels, and
    behind it the indent for each element that is open around the tag. Nothing
    else is added. -/
theorem render_model_eq_broken (m : Model) {indent : Nat}
    (hi : 1 ≤ indent) : (m.render indent).toList
      = broken "label" indent 0 (m.render 0).toList :=
  render_eq_broken (proper_model m) ((isExchange_model m).2.textIn
    exchange_textIn) (Nat.ne_of_gt hi)

/-- A model with two labels: one holds a line break and what looks like a tag,
    the other one is empty. -/
def twoLabels : Model where
  initiatingEvent := ⟨.tagged .initiatingEvent "1", "T"⟩
  eventTree := ⟨"T", [], []⟩
  faultTrees := []
  modelData := ⟨[⟨.tagged .basicEvent "1", "a\n<b/>", "1.000000E+00"⟩,
    ⟨.tagged .basicEvent "2", "", "0.000000E+00"⟩]⟩

/-- The lines of its document. -/
def twoLabelsLines : List String :=
  ["<?xml version=\"1.0\" encoding=\"UTF-8\"?>",
    "<opsa-mef>",
    "  <define-initiating-event name=\"INIT1\" event-tree=\"T\"/>",
    "  <define-event-tree name=\"T\"/>",
    "  <model-data>",
    "    <define-basic-event name=\"BE1\">",
    "      <label>a",
    "&lt;b/&gt;</label>",
    "      <float value=\"1.000000E+00\"/>",
    "    </define-basic-event>",
    "    <define-basic-event name=\"BE2\">",
    "      <label></label>",
    "      <float value=\"0.000000E+00\"/>",
    "    </define-basic-event>",
    "  </model-data>",
    "</opsa-mef>"]

/-- Nothing is put next to the texts of the labels. -/
theorem render_model_eq_broken_twoLabels :
    broken "label" 2 0 (twoLabels.render 0).toList
      = ['\n'].intercalate (twoLabelsLines.map String.toList) ∧
    (twoLabels.render 2).toList
      = ['\n'].intercalate (twoLabelsLines.map String.toList) := by
  have hlines : broken "label" 2 0 (twoLabels.render 0).toList
      = ['\n'].intercalate (twoLabelsLines.map String.toList) := by
    rw [render, Markup.render, String.toList_ofList]
    decide +kernel
  exact ⟨hlines, (render_model_eq_broken twoLabels (by decide)).trans hlines⟩

end RiskExchange.Model
