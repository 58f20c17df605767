import RiskExchange.Proofs.Markup.Listing
import RiskExchange.Proofs.Model.ArityWarnings
import RiskExchange.Proofs.Model.Counts
import RiskExchange.Proofs.Model.Reading
import RiskExchange.Proofs.Text.Padding

/-! # Gate kinds — which texts are kinds, and how thresholds are written

    A kind is one of two words, or a threshold: a positive number of 32 bits in
    front of the first slash, with blanks around it (`parse_eq_atLeast_iff`).
    What follows the slash makes no difference. In a document each threshold of
    the records is an element of its own, in their order, which gives the number
    in decimal; in front of a slash this is the same threshold again
    (`accepts_words_and_thresholds`). -/

namespace RiskExchange.Model

open RiskExchange.Markup
open RiskExchange.Solver
open RiskExchange.Text

/-! ## Texts of kinds -/

namespace GateKind

variable {s : String} {kind : GateKind} {k : Nat} {before : List Char}

/-- The text is a threshold: before its first slash there is a positive number
    of 32 bits, with blanks around it. -/
inductive IsThreshold (k : Nat) (s : String) : Prop where
  | intro {before after : List Char} (hs : s.toList = before ++ '/' :: after)
      (hbefore : '/' ∉ before) (hk : IsPadded k before) (hpos : 1 ≤ k)
      (hword : k < 2 ^ 32) : IsThreshold k s

theorem paddedNumber?_word32_iff : paddedNumber? maxWord32 before = some k ↔
    IsPadded k before ∧ k < 2 ^ 32 := by
  rw [paddedNumber?_eq_some_iff, isUnsigned_trim_iff]
  exact and_congr_right fun _ => Nat.le_iff_lt_add_one

/-- What a text is read as, and why. -/
theorem parse_cases (h : parse s = .ok kind) :
    (s = "or" ∧ kind = .or) ∨ (s = "and" ∧ kind = .and) ∨
      ∃ k, threshold? s = some k ∧ kind = .atLeast k := by
  unfold parse at h
  split_ifs at h with hor hand
  · exact .inl ⟨hor, (Except.ok.inj h).symm⟩
  · exact .inr (.inl ⟨hand, (Except.ok.inj h).symm⟩)
  · split at h
    next k hk => exact .inr (.inr ⟨k, hk, (Except.ok.inj h).symm⟩)
    next => exact nomatch h

theorem parse_eq_or_iff : parse s = .ok .or ↔ s = "or" := by
  constructor
  · intro h
    rcases parse_cases h with ⟨hs, -⟩ | ⟨-, h⟩ | ⟨k, -, h⟩
    · exact hs
    · exact nomatch h
    · exact nomatch h
  · rintro rfl
    rfl

theorem parse_eq_and_iff : parse s = .ok .and ↔ s = "and" := by
  constructor
  · intro h
    rcases parse_cases h with ⟨-, h⟩ | ⟨hs, -⟩ | ⟨k, -, h⟩
    · exact nomatch h
    · exact hs
    · exact nomatch h
  · rintro rfl
    rfl

/-- A text that is read as a threshold has a slash. -/
theorem exists_slash_of_parse (h : parse s = .ok (.atLeast k)) :
    ∃ before after, s.toList = before ++ '/' :: after ∧ '/' ∉ before := by
  rcases parse_cases h with ⟨-, h⟩ | ⟨-, h⟩ | ⟨n, hn, -⟩
  · exact nomatch h
  · exact nomatch h
  · obtain ⟨⟨before, after⟩, hsplit, -⟩ := Option.bind_eq_some_iff.mp hn
    exact ⟨before, after, splitSlash?_eq_some_iff.mp hsplit⟩

/-- The thresholds that are read are those that the texts spell. -/
theorem parse_eq_atLeast_iff :
    parse s = .ok (.atLeast k) ↔ IsThreshold k s := by
  constructor
  · intro h
    obtain ⟨before, after, hs, hbefore⟩ := exists_slash_of_parse h
    obtain ⟨n, hn, hpos, heq⟩ := (parse_of_slash hs hbefore).mp h
    cases heq
    obtain ⟨hk, hword⟩ := paddedNumber?_word32_iff.mp hn
    exact .intro hs hbefore hk hpos hword
  · rintro ⟨hs, hbefore, hk, hpos, hword⟩
    exact (parse_of_slash hs hbefore).mpr
      ⟨k, paddedNumber?_word32_iff.mpr ⟨hk, hword⟩, hpos, rfl⟩

theorem reads_iff :
    Reads s ↔ s = "or" ∨ s = "and" ∨ ∃ k, IsThreshold k s := by
  constructor
  · rintro ⟨kind, h⟩
    cases kind with
    | or => exact .inl (parse_eq_or_iff.mp h)
    | and => exact .inr (.inl (parse_eq_and_iff.mp h))
    | atLeast k => exact .inr (.inr ⟨k, parse_eq_atLeast_iff.mp h⟩)
  · rintro (h | h | ⟨k, h⟩)
    · exact ⟨.or, parse_eq_or_iff.mpr h⟩
    · exact ⟨.and, parse_eq_and_iff.mpr h⟩
    · exact ⟨.atLeast k, parse_eq_atLeast_iff.mpr h⟩

/-- A positive number of 32 bits in decimal is a threshold in front of a slash,
    whatever follows it. -/
theorem isThreshold_of_isDecimal {min : String} (h : IsDecimal k min.toList)
    (hpos : 1 ≤ k) (hword : k < 2 ^ 32) (after : String) :
    IsThreshold k (min ++ "/" ++ after) := by
  have hdigits := isDecimal_iff.mp h
  have hslash : '/' ∉ min.toList := by
    rw [hdigits]
    intro hmem
    exact nomatch Number.isDigit_of_mem hmem
  have hpadded : IsPadded k min.toList := by
    refine isUnsigned_trim_iff.mp ?_
    rw [hdigits, trim_toDigits]
    exact isUnsigned_toDigits k
  have hs : (min ++ "/" ++ after).toList
      = min.toList ++ '/' :: after.toList := by
    rw [String.toList_append, String.toList_append, List.append_assoc]
    rfl
  exact .intro hs hslash hpadded hpos hword

end GateKind

/-! ## Thresholds in a document -/

open GateKind (IsThreshold)

/-- The element has the threshold that the record spells, in decimal, as its
    only attribute. In front of a slash this is the same threshold again. -/
def WritesThreshold (r : GateRecord) (e : Element) : Prop :=
  ∃ k min, IsThreshold k r.kind ∧ e.attributes = [("min", min)] ∧
    IsDecimal k min.toList ∧
    ∀ after, GateKind.parse (min ++ "/" ++ after) = .ok (.atLeast k)

/-- The element of a gate's connective. -/
def Gate.connective (g : Gate) : Element :=
  .nodeOrEmpty g.kind.element g.kind.attributes g.inputElements

theorem Gate.attributes_connective (g : Gate) :
    g.connective.attributes = g.kind.attributes := by
  rw [connective]
  cases g.inputElements <;> rfl

theorem writesThreshold_of_parse {r : GateRecord} {g : Gate} {k : Nat}
    (hg : g.kind = .atLeast k) (h : GateKind.parse r.kind = .ok (.atLeast k)) :
    WritesThreshold r g.connective := by
  have hk := GateKind.parse_eq_atLeast_iff.mp h
  have hdecimal : IsDecimal k (toString k).toList :=
    isDecimal_iff.mpr Nat.toList_repr
  refine ⟨k, toString k, hk, ?_, hdecimal, fun after => ?_⟩
  · rw [Gate.attributes_connective, hg]
    rfl
  · obtain ⟨-, -, -, hpos, hword⟩ := hk
    exact GateKind.parse_eq_atLeast_iff.mpr
      (GateKind.isThreshold_of_isDecimal hdecimal hpos hword after)

theorem named_nameElement {name element : String} (h : element ≠ name)
    (id : Identifier) : (nameElement element id).named name = [] :=
  Element.named_empty h

/-- There are no thresholds among the inputs of a gate. -/
theorem named_inputElements (g : Gate) :
    g.inputElements.flatMap (·.named "atleast") = [] := by
  refine List.flatMap_eq_nil_iff.mpr fun e he => ?_
  rcases mem_inputElements he with ⟨id, rfl⟩ | ⟨id, rfl⟩ | ⟨id, rfl⟩
  · exact named_nameElement (by decide) id
  · exact named_nameElement (by decide) id
  · rw [Element.named_node (by decide), List.flatMap_singleton]
    exact named_nameElement (by decide) id

/-- The only threshold in a gate is its own. -/
theorem named_gate (g : Gate) : g.toElement.named "atleast"
    = match g.kind with
      | .atLeast _ => [g.connective]
      | _ => [] := by
  have hgate : g.toElement.named "atleast" = g.connective.named "atleast" := by
    rw [Gate.toElement, Element.named_node (by decide), List.flatMap_singleton]
    rfl
  have hinputs := named_inputElements g
  rw [hgate, Gate.connective]
  cases g.kind with
  | or => exact (Element.named_nodeOrEmpty (by decide)).trans hinputs
  | and => exact (Element.named_nodeOrEmpty (by decide)).trans hinputs
  | atLeast k =>
      refine Element.named_nodeOrEmpty_self.trans ?_
      rw [hinputs]
      rfl

theorem named_faultTree (t : FaultTree) : t.toElement.named "atleast"
    = t.gates.flatMap (·.toElement.named "atleast") := by
  rw [FaultTree.toElement, Element.named_nodeOrEmpty (by decide),
    List.flatMap_map]

theorem named_eventTree (t : EventTree) :
    t.toElement.named "atleast" = [] := by
  rw [EventTree.toElement, Element.named_nodeOrEmpty (by decide)]
  refine List.flatMap_eq_nil_iff.mpr fun e he => ?_
  rcases List.mem_append.mp he with he | he
  · obtain ⟨id, -, rfl⟩ := List.mem_map.mp he
    exact named_nameElement (by decide) id
  · obtain ⟨id, -, rfl⟩ := List.mem_map.mp he
    exact named_nameElement (by decide) id

theorem named_modelData (d : ModelData) :
    d.toElement.named "atleast" = [] := by
  rw [ModelData.toElement, Element.named_nodeOrEmpty (by decide)]
  refine List.flatMap_eq_nil_iff.mpr fun e he => ?_
  obtain ⟨event, -, rfl⟩ := List.mem_map.mp he
  rw [BasicEvent.toElement, Element.named_node (by decide), List.flatMap_cons,
    Element.named_text (by decide), List.flatMap_singleton,
    Element.named_empty (by decide)]
  rfl

/-- The thresholds of a model are those of its gates, tree by tree. -/
theorem named_model (m : Model) : m.toElement.named "atleast"
    = (m.faultTrees.flatMap (·.gates)).flatMap
        (·.toElement.named "atleast") := by
  rw [toElement, Element.named_node (by decide), List.flatMap_append,
    List.flatMap_cons, List.flatMap_cons, List.flatMap_singleton,
    named_eventTree, named_modelData, List.flatMap_map, List.flatMap_assoc,
    InitiatingEvent.toElement, Element.named_empty (by decide),
    List.nil_append, List.nil_append, List.append_nil]
  exact List.flatMap_congr fun t _ => named_faultTree t

/-! ## From records to elements -/

section Records

variable {rs : List GateRecord} {gs : List Gate}

/-- Each gate has the kind that its record spells. -/
theorem GatesFollow.kinds (h : GatesFollow rs gs) :
    List.Forall₂ (fun r g => GateKind.parse r.kind = .ok g.kind) rs gs := by
  cases h with
  | nothing => exact .nil
  | gates htop hrest => exact .cons htop.kind (hrest.imp fun _ _ h => h.kind)

/-- The kind is spelled with neither of the two words. -/
def unworded (r : GateRecord) : Bool := r.kind ≠ "or" ∧ r.kind ≠ "and"

/-- A gate without one of the words for its kind is a threshold. -/
theorem unworded_iff {r : GateRecord} {kind : GateKind}
    (h : GateKind.parse r.kind = .ok kind) :
    unworded r = true ↔ ∃ k, kind = .atLeast k := by
  rw [unworded, decide_eq_true_iff, Ne, Ne, ← GateKind.parse_eq_or_iff,
    ← GateKind.parse_eq_and_iff, h]
  cases kind <;> simp

/-- The thresholds are written one after the other. -/
theorem writesThreshold_all
    (h : List.Forall₂ (fun r g => GateKind.parse r.kind = .ok g.kind) rs gs) :
    List.Forall₂ WritesThreshold (rs.filter unworded)
      (gs.flatMap (·.toElement.named "atleast")) := by
  induction h with
  | nil => exact .nil
  | @cons r g rs gs hkind _ ih =>
      rw [List.flatMap_cons, named_gate]
      have hword := unworded_iff hkind
      cases hg : g.kind with
      | or | and =>
          rw [hg] at hword
          rw [List.filter_cons_of_neg (by simp [hword])]
          exact ih
      | atLeast k =>
          rw [List.filter_cons_of_pos (hword.mpr ⟨k, hg⟩)]
          exact .cons (writesThreshold_of_parse hg (hg ▸ hkind)) ih

/-- The records of all gates of a solution, tree by tree. -/
def gateRecords (s : Solution) : List GateRecord :=
  s.faultTrees.flatMap (·.gates)

theorem kinds_assembled {s : Solution} {a : Assembly}
    (h : (assemble s).result = .ok a) :
    List.Forall₂ (fun r g => GateKind.parse r.kind = .ok g.kind)
      (gateRecords s) (a.model.faultTrees.flatMap (·.gates)) := by
  obtain ⟨trees, data, hbuilt, rfl⟩ := assemble_eq_ok_iff.mp h
  refine List.rel_flatMap hbuilt.trees ?_
  intro r t ht
  exact (FaultTree.build_eq_ok_iff.mp ht).gates.kinds

end Records

/-- The kinds are the two words and the thresholds, and a text that is none of
    them is reported as it is. If a solution makes a model, then its document
    is that of one element alone. The elements for thresholds in it are those
    of the gates whose kind is not a word, in order; each has a positive number
    as its only attribute, in decimal, which in front of any text with a slash
    is the same threshold again. -/
theorem GateKind.accepts_words_and_thresholds :
    (∀ s : String, (parse s = .ok .or ↔ s = "or") ∧
      (parse s = .ok .and ↔ s = "and") ∧
      (∀ k, parse s = .ok (.atLeast k) ↔ IsThreshold k s) ∧
      ∀ e, parse s = .error e ↔
        (s ≠ "or" ∧ s ≠ "and" ∧ ∀ k, ¬ IsThreshold k s) ∧
          e = .malformedGateKind s) ∧
    ∀ (s : Solution) (a : Assembly) (indent : Nat),
      (assemble s).result = .ok a → ∃ root,
        (∀ e, IsDocument e (a.model.render indent).toList ↔ e = root) ∧
        List.Forall₂ WritesThreshold ((gateRecords s).filter unworded)
          (root.named "atleast") := by
  refine ⟨fun s => ⟨parse_eq_or_iff, parse_eq_and_iff,
    fun k => parse_eq_atLeast_iff, fun e => ?_⟩, fun s a indent h => ?_⟩
  · rw [parse_eq_error_iff, reads_iff, not_or, not_or, not_exists]
  · have hdocument := isDocument_model a.model indent
    refine ⟨a.model.toElement, fun e => ⟨fun he => ?_, ?_⟩, ?_⟩
    · exact Option.some.inj ((readDocument_of_isDocument he).symm.trans
        (readDocument_of_isDocument hdocument))
    · rintro rfl
      exact hdocument
    · rw [named_model]
      exact writesThreshold_all (kinds_assembled h)

/-- A solution with one gate of a kind. -/
def oneGate (kind : String) : Solution :=
  { twoTrees [] with faultTrees := [FaultTree.declaring kind] }

/-- A threshold with a wide blank, a plus and zeros in front of its number is
    written with the number alone, and nothing of what follows its slash. -/
theorem GateKind.accepts_words_and_thresholds_padded :
    parse "\u2003+007\t/x/1" = .ok (.atLeast 7) ∧
    ∃ a root, (assemble (oneGate "\u2003+007\t/x/1")).result = .ok a ∧
      IsDocument root (a.model.render 2).toList ∧
      (root.named "atleast").map (·.attributes) = [[("min", "7")]] := by
  have hparse : parse "\u2003+007\t/x/1" = .ok (.atLeast 7) := by
    have hread :
        readUnsigned maxWord32 (trim "\u2003+007\t".toList) = .ok 7 := by
      decide
    have hpadded := (readUnsigned_trim_eq_ok_iff.mp hread).1
    have hs : "\u2003+007\t/x/1".toList
        = "\u2003+007\t".toList ++ '/' :: "x/1".toList := by
      decide
    exact ((accepts_words_and_thresholds.1 _).2.2.1 7).mpr
      (.intro hs (by decide) hpadded (by decide) (by decide))
  refine ⟨hparse, ?_⟩
  have hsome :
      (assemble (oneGate "\u2003+007\t/x/1")).result.toOption.isSome := by
    decide +kernel
  obtain ⟨a, ha⟩ := Option.isSome_iff_exists.mp hsome
  have hok := toOption_eq_some_iff.mp ha
  obtain ⟨root, hroot, hwritten⟩ := accepts_words_and_thresholds.2 _ a 2 hok
  refine ⟨a, root, hok, (hroot root).mpr rfl, ?_⟩
  have hrecords : (gateRecords (oneGate "\u2003+007\t/x/1")).filter unworded
      = (FaultTree.declaring "\u2003+007\t/x/1").gates := rfl
  rw [hrecords] at hwritten
  generalize root.named "atleast" = es at hwritten
  obtain _ | ⟨⟨k, min, hk, hmin, hdecimal, -⟩, _ | _⟩ := hwritten
  have hseven : Except.ok (GateKind.atLeast k) = .ok (.atLeast 7) :=
    (parse_eq_atLeast_iff.mpr hk).symm.trans hparse
  cases hseven
  have htext : min = "7" := String.toList_inj.mp (isDecimal_iff.mp hdecimal)
  rw [List.map_singleton, hmin, htext]

end RiskExchange.Model
