import PetriAlign.Proofs.Pnml.Grammar
import PetriAlign.Proofs.Xml.Stream

/-!
# Reading labels

Fillers change nothing, wherever the reader is. What a label does depends on where the reader is and
on its text alone, and since no declaration has two labels of one name, their order does not matter.
-/

namespace PetriAlign

open Xml (Event Node TagSource writtenTag bytesOf)

theorem Xml.TagSource.value?_read (tag : TagSource) (key : String) :
    tag.read.value? key = tag.value? key :=
  congrArg (Option.map Xml.Attribute.valueOrRaw) (tag.attribute?_read key)

namespace Pnml

/-! ## Looking labels up -/

section LookUp

variable {name other : String} {n : Node} {content : List Node}

/-- A filler is not an element of a name that means something. -/
theorem IsFiller.contentOf?_eq (h : IsFiller n) (hname : name ∈ keywords) :
    contentOf? name n = none := by
  cases h with
  | element hne => exact if_neg (hne name hname)
  | _ => rfl

theorem label?_cons_of_some (h : contentOf? name n = some label) :
    label? name (n :: content) = labelText? label := by
  rw [label?, List.findSome?_cons, h]
  rfl

theorem label?_cons_of_none (h : contentOf? name n = none) :
    label? name (n :: content) = label? name content := by
  rw [label?, List.findSome?_cons, h]
  rfl

theorem label?_eq_none (h : content.filterMap (contentOf? name) = []) :
    label? name content = none := by
  rw [List.filterMap_eq_nil_iff] at h
  rw [label?, List.findSome?_eq_none_iff.2 h]
  rfl

/-- The content of a filler has no text in it. -/
theorem IsFiller.pieceText?_eq (h : ∀ n ∈ content, IsFiller n) : pieceText? content = none := by
  unfold pieceText?
  split
  case h_1 raw =>
    cases h _ List.mem_cons_self with
    | blank hblank =>
      have hdrop : raw.1.dropWhile Xml.isSpace = [] := List.dropWhile_eq_nil_iff.2 hblank
      exact if_pos (Text.strip_eq_nil_iff.2 hdrop)
  case h_2 => rfl

theorem IsFiller.text?_eq (h : IsFiller n) : (contentOf? "text" n).bind pieceText? = none := by
  cases h with
  | @element tag short content _ hcontent =>
    rw [contentOf?]
    split
    · exact IsFiller.pieceText?_eq hcontent
    · rfl
  | _ => rfl

theorem contentOf?_element {tag : TagSource} (h : tag.name.bytes = bytesOf name) (short : Bool)
    (label : List Node) (other : String) : contentOf? other (.element tag short label) =
      if bytesOf name = bytesOf other then some label else none := by
  rw [contentOf?, h]

theorem label?_element {tag : TagSource} (h : tag.name.bytes = bytesOf name) (short : Bool)
    (label : List Node) (other : String) : label? other [.element tag short label] =
      if bytesOf name = bytesOf other then labelText? label else none := by
  rw [label?, List.findSome?_singleton, contentOf?_element h]
  split <;> rfl

/-- Whatever labels change, a label changes it before the labels of other names that follow. -/
theorem apply_label?_cons {α : Type} (h : contentOf? name n = none ∨ label? name content = none)
    (f : Option String → α → α) (hf : ∀ x, f none x = x) (x : α) :
    f (label? name (n :: content)) x = f (label? name content) (f (label? name [n]) x) := by
  cases hn : contentOf? name n with
  | none =>
    have hnone : label? name [n] = none := label?_cons_of_none hn
    rw [label?_cons_of_none hn, hnone, hf]
  | some label =>
    have hcontent : label? name content = none := h.resolve_left (by simp [hn])
    have hsome : label? name [n] = labelText? label := label?_cons_of_some hn
    rw [label?_cons_of_some hn, hcontent, hsome, hf]

end LookUp

/-- Of a node and the nodes after it, at most one holds the label of a name. -/
theorem HoldsLabels.of_cons {fields : List Field} {other : Node → Prop} {n : Node}
    {content : List Node} (h : HoldsLabels fields other (n :: content)) :
    HoldsLabels fields other content ∧
      ∀ field ∈ fields, contentOf? field.name n = none ∨ label? field.name content = none := by
  refine ⟨⟨fun m hm ↦ h.forall_node m (List.mem_cons_of_mem n hm), fun field hfield ↦ ?_⟩,
    fun field hfield ↦ ?_⟩
  · have hsub : content.Sublist (n :: content) := List.sublist_cons_self n content
    exact (hsub.filterMap (contentOf? field.name)).length_le.trans (h.at_most_one field hfield)
  · cases hlabel : contentOf? field.name n with
    | none => exact .inl rfl
    | some label =>
      have hlength := h.at_most_one field hfield
      rw [List.filterMap_cons_some hlabel, List.length_cons] at hlength
      exact .inr (label?_eq_none (List.length_eq_zero_iff.1 (by omega)))

/-! ## White space -/

/-- Not a text, unless it is white space. -/
def IsQuiet : Node → Prop
  | .text raw => ∀ b ∈ raw.1, Xml.isSpace b = true
  | .comment _ | .instruction _ | .element .. => True

theorem IsFiller.isQuiet {n : Node} (h : IsFiller n) : IsQuiet n := by
  cases h with
  | blank hblank => exact hblank
  | _ => trivial

theorem HoldsLabels.isQuiet {fields : List Field} {other : Node → Prop} {content : List Node}
    (h : HoldsLabels fields other content) (hother : ∀ n, other n → IsQuiet n) :
    ∀ n ∈ content, IsQuiet n := by
  intro n hn
  rcases h.forall_node n hn with hn | ⟨field, -, hlabel⟩
  · exact hother n hn
  · cases hlabel
    trivial

namespace Draft

variable {d d₁ d₂ : Draft}

/-! ## Reading nodes -/

/-- Reads the events of one node. -/
def readNode (d : Draft) (n : Node) : Except ParseError Draft := n.events.foldlM step d

theorem rawEvents_blank {raw : Bytes} (h : ∀ b ∈ raw, Xml.isSpace b = true) :
    Xml.rawEvents raw = [] := by
  have hdrop : raw.dropWhile Xml.isSpace = [] := List.dropWhile_eq_nil_iff.2 h
  exact if_pos (Text.strip_eq_nil_iff.2 hdrop)

/-- Nodes without text between them are read one after the other. -/
theorem foldlM_eventsFrom {nodes : List Node} (h : ∀ n ∈ nodes, IsQuiet n) (d : Draft) :
    (Node.eventsFrom [] nodes).foldlM step d = nodes.foldlM readNode d := by
  have hnil : ∀ b ∈ ([] : Bytes), Xml.isSpace b = true := fun _ hb ↦ absurd hb List.not_mem_nil
  refine Node.foldlM_eventsFrom (p := fun raw ↦ ∀ b ∈ raw, Xml.isSpace b = true) hnil ?_ ?_
    (fun raw hraw ↦ h _ hraw) hnil d
  · exact fun raw raw' hraw hraw' ↦ List.forall_mem_append.2 ⟨hraw, hraw'⟩
  · intro raw hraw d
    rw [rawEvents_blank hraw]
    rfl

/-- An element is read from its start tag through its content to its end tag, whether it is
written as one tag or as two. -/
theorem readNode_element {tag : TagSource} (short : Bool) {content : List Node}
    (hopen : d.opened tag.read = .ok d₁)
    (hcontent : (Node.eventsFrom [] content).foldlM step d₁ = .ok d₂) :
    d.readNode (.element tag short content) = .ok (d₂.closed tag.name.bytes) := by
  rw [readNode, Node.events]
  split
  case isTrue hshort =>
    obtain rfl : content = [] := List.isEmpty_iff.1 (Bool.and_eq_true_iff.1 hshort).2
    obtain rfl : d₁ = d₂ := Except.ok.inj hcontent
    have hstep : d.step (.empty tag.read) = .ok (d₁.closed tag.name.bytes) := by
      rw [step, hopen, tag.name_read]
      rfl
    rw [List.foldlM_cons, hstep]
    rfl
  case isFalse => exact foldlM_between hopen hcontent

/-- The names of elements whose attributes mean nothing. -/
def plainNames : List String :=
  ["pnml", "page", "name", "initialMarking", "finalMarking", "type", "origname", "inscription",
    "finalmarkings", "marking", "text"]

theorem opened_of_name {tag : Xml.Tag} {name : String} (h : tag.name = bytesOf name)
    (hname : name ∈ plainNames) : d.opened tag = d.opened (writtenTag name []) := by
  simp only [plainNames, List.mem_cons, List.not_mem_nil, or_false] at hname
  rcases hname with rfl | rfl | rfl | rfl | rfl | rfl | rfl | rfl | rfl | rfl | rfl <;>
    · unfold opened
      rw [h]
      rfl

/-! ## Fillers -/

theorem opened_of_ne {tag : Xml.Tag} (h : ∀ name ∈ keywords, tag.name ≠ bytesOf name) :
    d.opened tag = .ok d := by
  simp only [keywords, List.forall_mem_cons] at h
  simp [opened, h]

theorem closed_of_ne {name : Bytes} (h : ∀ key ∈ keywords, name ≠ bytesOf key) :
    d.closed name = d := by
  simp only [keywords, List.forall_mem_cons] at h
  simp [closed, h]

theorem readNode_filler {n : Node} (h : IsFiller n) (d : Draft) : d.readNode n = .ok d := by
  induction h with
  | blank | comment | instruction => rfl
  | @element tag short content hname hcontent ih =>
    have hread : (Node.eventsFrom [] content).foldlM step d = .ok d := by
      rw [foldlM_eventsFrom fun n hn ↦ (hcontent n hn).isQuiet]
      exact foldlM_eq_ok ih
    have hopen : d.opened tag.read = .ok d := opened_of_ne (tag.name_read ▸ hname)
    rw [readNode_element short hopen hread, closed_of_ne hname]

theorem foldlM_fillers {content : List Node} (h : ∀ n ∈ content, IsFiller n) (d : Draft) :
    (Node.eventsFrom [] content).foldlM step d = .ok d := by
  rw [foldlM_eventsFrom fun n hn ↦ (h n hn).isQuiet]
  exact foldlM_eq_ok fun n hn ↦ readNode_filler (h n hn) d

/-! ## Labels -/

/-- Reads the text of a label, if it is not blank. -/
def readGiven (d : Draft) : Option String → Except ParseError Draft
  | none => .ok d
  | some text => d.texted text

theorem foldlM_piece {piece : List Node} (h : IsPiece piece) (d : Draft) :
    (Node.eventsFrom [] piece).foldlM step d = d.readGiven (pieceText? piece) := by
  cases h with
  | nil => rfl
  | @text raw htext =>
    have hevents : Node.eventsFrom [] [.text raw] = Xml.rawEvents raw.1 := rfl
    rw [hevents, Xml.rawEvents, pieceText?]
    split
    case isTrue => rfl
    case isFalse =>
      cases hread : Xml.textOf (Text.strip Xml.isSpace raw.1) with
      | error e =>
        rw [hread] at htext
        cases htext
      | ok text =>
        rw [List.foldlM_cons, step, hread]
        change (d.texted text >>= fun d ↦ .ok d) = d.texted text
        cases d.texted text <;> rfl

/-- A label is read as its text. -/
theorem foldlM_label {content : List Node} (h : IsLabelContent content)
    (htext : d₁.readGiven (labelText? content) = .ok d₂) :
    (Node.eventsFrom [] content).foldlM step d₁ = .ok d₂ := by
  cases h with
  | @intro before after tag short piece hbefore hname hpiece hafter =>
    have hquiet : ∀ n ∈ before ++ .element tag short piece :: after, IsQuiet n :=
      List.forall_mem_append.2 ⟨fun n hn ↦ (hbefore n hn).isQuiet,
        List.forall_mem_cons.2 ⟨trivial, fun n hn ↦ (hafter n hn).isQuiet⟩⟩
    have hnone {nodes : List Node} (hnodes : ∀ n ∈ nodes, IsFiller n) :
        nodes.findSome? (fun n ↦ (contentOf? "text" n).bind pieceText?) = none :=
      List.findSome?_eq_none_iff.2 fun n hn ↦ (hnodes n hn).text?_eq
    have hgiven : labelText? (before ++ .element tag short piece :: after) = pieceText? piece := by
      have hcontent : contentOf? "text" (.element tag short piece) = some piece := if_pos hname
      rw [labelText?, List.findSome?_append, hnone hbefore, List.findSome?_cons, hcontent,
        Option.none_or, Option.bind_some, hnone hafter]
      cases pieceText? piece <;> rfl
    have hopen : d₁.opened tag.read = .ok d₁ :=
      (opened_of_name (tag.name_read.trans hname) (by decide)).trans rfl
    have hpiece' : (Node.eventsFrom [] piece).foldlM step d₁ = .ok d₂ := by
      rw [foldlM_piece hpiece, ← hgiven, htext]
    have hread : d₁.readNode (.element tag short piece) = .ok d₂ := by
      rw [readNode_element short hopen hpiece', hname]
      rfl
    calc (Node.eventsFrom [] (before ++ .element tag short piece :: after)).foldlM step d₁
        = (before ++ .element tag short piece :: after).foldlM readNode d₁ :=
          foldlM_eventsFrom hquiet d₁
      _ = (.element tag short piece :: after).foldlM readNode d₁ := by
          rw [List.foldlM_append, foldlM_eq_ok fun n hn ↦ readNode_filler (hbefore n hn) d₁]
          rfl
      _ = after.foldlM readNode d₂ := by
          rw [List.foldlM_cons, hread]
          rfl
      _ = .ok d₂ := foldlM_eq_ok fun n hn ↦ readNode_filler (hafter n hn) d₂

/-- A label leads where its name leads, and its text is read there. -/
theorem readNode_label {field : Field} {n : Node} (h : field.IsLabel n)
    (hname : field.name ∈ plainNames) (hopen : d.opened (writtenTag field.name []) = .ok d₁)
    (hblank : (∀ name, label? name [n] = none) → d₁ = d₂)
    (htexted : ∀ text, field.accepts text = true →
      (∀ name, label? name [n] = if bytesOf field.name = bytesOf name then some text else none) →
      d₁.texted text = .ok d₂) :
    d.readNode n = .ok (d₂.closed (bytesOf field.name)) := by
  cases h with
  | @intro tag short label htag hlabel htext =>
    have hlabels := label?_element htag short label
    have hgiven : d₁.readGiven (labelText? label) = .ok d₂ := by
      cases hgiven : labelText? label with
      | none => exact congrArg Except.ok (hblank fun name ↦ by rw [hlabels, hgiven, ite_self])
      | some text => exact htexted text (htext text hgiven) (hgiven ▸ hlabels)
    rw [← opened_of_name (tag.name_read.trans htag) hname] at hopen
    rw [readNode_element short hopen (foldlM_label hlabel hgiven), htag]

end Draft

end Pnml

end PetriAlign
