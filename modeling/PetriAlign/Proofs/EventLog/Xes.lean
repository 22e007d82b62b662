import PetriAlign.EventLog.Xes
import PetriAlign.Proofs.Except
import PetriAlign.Proofs.Xml.Stream

/-!
# The traces of an element tree

The traces of a log are a function of its element tree: the labels of the `event` children of the
`trace` children of the root. The reader, which keeps a depth and the trace and event at hand, finds
these traces. Below an element that means nothing where it stands, nothing means anything to it,
whatever its name.
-/

namespace PetriAlign.Xes

open Xml (Event Node Source TagSource bytesOf)

/-! ## The traces of a tree -/

/-- The content of an element with this name. -/
def contentOf? (name : String) : Node → Option (List Node)
  | .element tag _ content => if localName tag.name.bytes = bytesOf name then some content else none
  | .text _ | .comment _ | .instruction _ => none

/-- The key of a tag, as it is written. -/
def key? (tag : TagSource) : Option Bytes := (tag.attribute? "key").map (·.raw)

/-- The text that the value of a tag stands for. -/
def value? (tag : TagSource) : Option String :=
  (tag.attribute? "value").bind (·.value.toOption)

/-- The value of a string with the key of labels. -/
def labelOf? : Node → Option String
  | .element tag _ _ =>
    if localName tag.name.bytes = bytesOf "string" ∧ key? tag = some labelKey then value? tag
    else none
  | .text _ | .comment _ | .instruction _ => none

/-- The label of an event with this content. -/
def eventLabel? (content : List Node) : Option String := content.findSome? labelOf?

/-- The labels of a trace with this content. -/
def traceLabels (content : List Node) : LabelTrace :=
  (content.filterMap (contentOf? "event")).filterMap eventLabel?

/-- The traces of a log with this content. -/
def logTraces (content : List Node) : List LabelTrace :=
  (content.filterMap (contentOf? "trace")).map traceLabels

/-- If this is a string, its value stands for a text, and there is one if the key is that of
labels. -/
def IsReadable : Node → Prop
  | .element tag _ _ => localName tag.name.bytes = bytesOf "string" →
    (∀ a ∈ tag.attribute? "value", a.value.isOk = true) ∧
      (key? tag = some labelKey → (tag.attribute? "value").isSome)
  | .text _ | .comment _ | .instruction _ => True

instance : DecidablePred IsReadable
  | .element .. => inferInstanceAs (Decidable (_ → _ ∧ _))
  | .text _ | .comment _ | .instruction _ => isTrue trivial

/-- The strings in the events of the traces of a log can be read. -/
def EventsReadable (content : List Node) : Prop :=
  ∀ trace ∈ content.filterMap (contentOf? "trace"),
    ∀ event ∈ trace.filterMap (contentOf? "event"), ∀ n ∈ event, IsReadable n

instance (content : List Node) : Decidable (EventsReadable content) :=
  inferInstanceAs (Decidable (∀ trace ∈ _, ∀ event ∈ _, ∀ n ∈ event, IsReadable n))

/-! ## Key and value of a string -/

/-- What one attribute adds to the key and the value. -/
def takeAttribute (found : Option Bytes × Option String) (a : Xml.Attribute) :
    Except ParseError (Option Bytes × Option String) :=
  if a.name = bytesOf "key" then .ok (some a.raw, found.2)
  else if a.name = bytesOf "value" then
    match a.value with
    | .ok text => .ok (found.1, some text)
    | .error e => .error (.xml e)
  else .ok found

theorem keyAndValue_eq_foldlM (as : List Xml.Attribute) :
    keyAndValue as = as.foldlM takeAttribute (none, none) := rfl

/-- Where all names differ, the last attribute of a name is the first one. -/
theorem foldlM_takeAttribute {as : List Xml.Attribute} (hnodup : (as.map (·.name)).Nodup)
    (hvalue : ∀ a, as.find? (·.name = bytesOf "value") = some a → ∃ text, a.value = .ok text)
    (found : Option Bytes × Option String) :
    as.foldlM takeAttribute found =
      .ok (((as.find? (·.name = bytesOf "key")).map (·.raw)).or found.1,
        ((as.find? (·.name = bytesOf "value")).bind (·.value.toOption)).or found.2) := by
  induction as generalizing found with
  | nil => rfl
  | cons a as ih =>
    rw [List.map_cons, List.nodup_cons] at hnodup
    have hrest {name : Bytes} (hname : a.name = name) : as.find? (·.name = name) = none := by
      rw [List.find?_eq_none]
      intro b hb
      rw [decide_eq_true_iff, ← hname]
      exact ne_of_mem_of_not_mem (List.mem_map.2 ⟨b, hb, rfl⟩) hnodup.1
    have hkeep {name : Bytes} (hname : a.name ≠ name) :
        (a :: as).find? (·.name = name) = as.find? (·.name = name) :=
      List.find?_cons_of_neg (by simp [hname])
    have htake {name : Bytes} (hname : a.name = name) : (a :: as).find? (·.name = name) = some a :=
      List.find?_cons_of_pos (by simp [hname])
    rw [List.foldlM_cons, takeAttribute]
    split
    case isTrue hkey =>
      have hne : a.name ≠ bytesOf "value" := by
        rw [hkey]
        decide
      rw [hkeep hne] at hvalue ⊢
      rw [htake hkey]
      exact (ih hnodup.2 hvalue _).trans (by rw [hrest hkey]; rfl)
    case isFalse hkey =>
      rw [hkeep hkey]
      split
      case isTrue hname =>
        obtain ⟨text, htext⟩ := hvalue a (htake hname)
        have hnone : ∀ b, as.find? (·.name = bytesOf "value") = some b →
            ∃ text, b.value = .ok text := by
          rw [hrest hname]
          exact nofun
        rw [htake hname, htext]
        exact (ih hnodup.2 hnone _).trans (by rw [hrest hname, Option.bind_some, htext]; rfl)
      case isFalse hname =>
        rw [hkeep hname] at hvalue ⊢
        exact ih hnodup.2 hvalue found

/-- A string that can be read labels an event if it has the key of labels. -/
theorem label?_read {tag : TagSource} {short : Bool} {content : List Node}
    (hname : localName tag.name.bytes = bytesOf "string")
    (h : IsReadable (.element tag short content)) :
    label? tag.read = .ok (labelOf? (.element tag short content)) := by
  obtain ⟨hok, hpresent⟩ := h hname
  have hvalue : ∀ a, tag.attribute? "value" = some a → ∃ text, a.value = .ok text := by
    intro a ha
    have hvalue := hok a ha
    cases heq : a.value with
    | ok text => exact ⟨text, rfl⟩
    | error e =>
      rw [heq] at hvalue
      cases hvalue
  have hnodup : ((tag.attributes.map (·.read)).map (·.name)).Nodup := by
    rw [List.map_map]
    exact tag.nodup
  have hfound : keyAndValue tag.read.attributes = .ok (key? tag, value? tag) := by
    rw [keyAndValue_eq_foldlM, TagSource.attributes_read, foldlM_takeAttribute hnodup hvalue,
      Option.or_none, Option.or_none]
    rfl
  simp only [label?, hfound, bind, Except.bind, labelOf?, hname, true_and]
  split
  case isTrue hkey =>
    obtain ⟨a, ha⟩ := Option.isSome_iff_exists.1 (hpresent hkey)
    obtain ⟨text, ha'⟩ := hvalue a ha
    have htext : value? tag = some text := by
      rw [value?, ha, Option.bind_some, ha']
      rfl
    rw [htext]
    rfl
  case isFalse => rfl

/-! ## Reading nodes -/

namespace State

/-- Reads the events of one node. -/
def readNode (s : State) (n : Node) : Except ParseError State := n.events.foldlM step s

theorem foldlM_rawEvents (s : State) (raw : Bytes) : (Xml.rawEvents raw).foldlM step s = .ok s := by
  unfold Xml.rawEvents
  split <;> rfl

/-- Text between nodes does not matter, so they are read one after the other. -/
theorem foldlM_eventsFrom (s : State) (nodes : List Node) :
    (Node.eventsFrom [] nodes).foldlM step s = nodes.foldlM readNode s :=
  Node.foldlM_eventsFrom (p := fun _ ↦ True) trivial (fun _ _ _ _ ↦ trivial)
    (fun raw _ s ↦ foldlM_rawEvents s raw) (fun _ _ ↦ trivial) trivial s

/-- The state inside an element that is open to this depth. -/
def within (s : State) (depth : Nat) : State := { s with depth := depth }

theorem opened_within (s : State) (inner : Nat) (tag : Xml.Tag) (depth : Nat) :
    (s.within inner).opened tag depth = (s.opened tag depth).map (·.within inner) := by
  have hstring : (s.within inner).openString tag depth =
      (s.openString tag depth).map (·.within inner) := by
    obtain ⟨d, inLog, trace, event, traces⟩ := s
    rcases event with _ | ⟨eventDepth, _ | label⟩
    · rfl
    · unfold openString within
      dsimp only
      split_ifs
      · cases label? tag <;> rfl
      · rfl
    · rfl
  unfold opened
  rw [hstring]
  simp only [apply_ite (Except.map fun s : State ↦ s.within inner)]
  rfl

theorem closed_within (s : State) (inner depth : Nat) :
    (s.within inner).closed depth = (s.closed depth).within inner := by
  unfold closed closeEvent closeTrace within
  grind

/-- An element is read from its start tag through its content to its end tag, whether it is
written as one tag or as two. -/
theorem readNode_element {s s₁ s₂ : State} {depth : Nat} {tag : TagSource} (short : Bool)
    {content : List Node} (hopen : s.opened tag.read (depth + 1) = .ok s₁)
    (hcontent : content.foldlM readNode (s₁.within (depth + 1)) = .ok (s₂.within (depth + 1))) :
    (s.within depth).readNode (.element tag short content) =
      .ok ((s₂.closed (depth + 1)).within depth) := by
  have hwithin (inner : Nat) :
      (s.within inner).opened tag.read (depth + 1) = .ok (s₁.within inner) := by
    rw [opened_within, hopen]
    rfl
  rw [readNode, Node.events]
  split
  case isTrue hshort =>
    obtain rfl : content = [] := List.isEmpty_iff.1 (Bool.and_eq_true_iff.1 hshort).2
    have heq : s₁.within (depth + 1) = s₂.within (depth + 1) := Except.ok.inj hcontent
    have hsame : s₁.within depth = s₂.within depth := congrArg (·.within depth) heq
    have hstep : (s.within depth).step (.empty tag.read) =
        .ok ((s₁.within depth).closed (depth + 1)) := by
      change ((s.within depth).opened tag.read (depth + 1)).map _ = _
      rw [hwithin]
      rfl
    rw [List.foldlM_cons, hstep, hsame, closed_within]
    rfl
  case isFalse =>
    have hstep : (s.within depth).step (.opening tag.read) = .ok (s₁.within (depth + 1)) :=
      hwithin (depth + 1)
    have hend : (s₂.within (depth + 1)).step (.closing tag.name.bytes) =
        .ok ((s₂.closed (depth + 1)).within depth) := by
      change Except.ok (((s₂.within (depth + 1)).closed (depth + 1)).within depth) = _
      rw [closed_within]
      rfl
    rw [List.foldlM_cons, hstep]
    change (Node.eventsFrom [] content ++ [Event.closing tag.name.bytes]).foldlM step _ = _
    rw [List.foldlM_append, foldlM_eventsFrom, hcontent]
    change [Event.closing tag.name.bytes].foldlM step _ = _
    rw [List.foldlM_cons, hend]
    rfl

/-! ## Elements without meaning -/

/-- Inside elements to this depth no element means anything: a trace would have to be further out,
and so would an event, or a label of the event at hand. -/
structure Inert (s : State) (depth : Nat) : Prop where
  inside_log : 2 ≤ depth
  inside_trace : s.trace.isSome → 3 ≤ depth
  inside_event : ∀ e ∈ s.event, e.depth ≤ depth
  labelled : ∀ e ∈ s.event, e.label = none → e.depth < depth

namespace Inert

variable {s : State} {depth : Nat}

theorem succ (h : s.Inert depth) : s.Inert (depth + 1) where
  inside_log := Nat.le_succ_of_le h.inside_log
  inside_trace htrace := Nat.le_succ_of_le (h.inside_trace htrace)
  inside_event e he := Nat.le_succ_of_le (h.inside_event e he)
  labelled e he hlabel := Nat.lt_succ_of_lt (h.labelled e he hlabel)

theorem opened_eq (h : s.Inert depth) (tag : Xml.Tag) : s.opened tag (depth + 1) = .ok s := by
  have hlog := h.inside_log
  have hstring : s.openString tag (depth + 1) = .ok s := by
    unfold openString
    split
    case h_1 eventDepth hevent =>
      have hlt := h.labelled ⟨eventDepth, none⟩ hevent rfl
      rw [if_neg]
      dsimp only at hlt
      omega
    case h_2 => rfl
  unfold opened
  dsimp only
  rw [if_neg (by omega), if_neg (by omega), if_neg, hstring, ite_self]
  rintro ⟨-, htrace, hdepth⟩
  have := h.inside_trace htrace
  omega

theorem closed_eq (h : s.Inert depth) : s.closed (depth + 1) = s := by
  have hlog := h.inside_log
  unfold closed
  split
  case h_1 eventDepth label hevent =>
    have hle := h.inside_event ⟨eventDepth, label⟩ hevent
    dsimp only at hle
    rw [if_neg (by omega), if_neg (by omega)]
  case h_2 => rw [if_neg (by omega)]

/-- Nothing inside is read as anything. -/
theorem readNode_eq (n : Node) {depth : Nat} (h : s.Inert depth) :
    (s.within depth).readNode n = .ok (s.within depth) := by
  match n with
  | .text raw | .comment body | .instruction body => rfl
  | .element tag short content =>
    have hcontent : content.foldlM readNode (s.within (depth + 1)) = .ok (s.within (depth + 1)) :=
      foldlM_eq_ok fun m hm ↦ readNode_eq m h.succ
    rw [readNode_element short (h.opened_eq tag.read) hcontent, h.closed_eq]

end Inert

/-! ## Events -/

/-- The reader in an event of a trace, with the labels of the events before it in reverse. -/
def inEvent (labels : LabelTrace) (traces : List LabelTrace) (label : Option String) : State :=
  { inLog := true, trace := some labels, event := some ⟨3, label⟩, traces := traces }

section Event

variable (labels : LabelTrace) (traces : List LabelTrace)

theorem inert_inEvent (label : Option String) {depth : Nat} (hdepth : 3 ≤ depth)
    (hlabel : label = none → 3 < depth) : (inEvent labels traces label).Inert depth where
  inside_log := by omega
  inside_trace _ := hdepth
  inside_event e he := by
    cases he
    exact hdepth
  labelled e he hnone := by
    cases he
    exact hlabel hnone

theorem opened_inEvent {tag : TagSource} {short : Bool} {content : List Node}
    (h : IsReadable (.element tag short content)) :
    (inEvent labels traces none).opened tag.read 4 =
      .ok (inEvent labels traces (labelOf? (.element tag short content))) := by
  unfold opened
  rw [TagSource.name_read]
  dsimp only
  rw [if_neg (by simp), if_neg (by simp), if_neg (by simp)]
  split
  case isTrue hname =>
    change (label? tag.read).map _ = _
    rw [label?_read hname h]
    rfl
  case isFalse hname =>
    rw [labelOf?, if_neg fun hlabel ↦ hname hlabel.1]

/-- A node in an event without a label may be its label. -/
theorem readNode_inEvent {n : Node} (h : IsReadable n) :
    ((inEvent labels traces none).within 3).readNode n =
      .ok ((inEvent labels traces (labelOf? n)).within 3) := by
  match n with
  | .text raw | .comment body | .instruction body => rfl
  | .element tag short content =>
    have hinert : (inEvent labels traces (labelOf? (.element tag short content))).Inert 4 :=
      inert_inEvent labels traces _ (by omega) fun _ ↦ by omega
    rw [readNode_element short (opened_inEvent labels traces h)
      (foldlM_eq_ok fun m _ ↦ hinert.readNode_eq m)]
    rfl

/-- The label of an event is that of its first node which has one. -/
theorem foldlM_readNode_inEvent {content : List Node} (h : ∀ n ∈ content, IsReadable n)
    (label : Option String) :
    content.foldlM readNode ((inEvent labels traces label).within 3) =
      .ok ((inEvent labels traces (label.or (eventLabel? content))).within 3) := by
  induction content generalizing label with
  | nil =>
    rw [eventLabel?, List.findSome?_nil, Option.or_none]
    rfl
  | cons n content ih =>
    rw [List.forall_mem_cons] at h
    rw [List.foldlM_cons]
    cases label with
    | some text =>
      rw [(inert_inEvent labels traces (some text) le_rfl nofun).readNode_eq n]
      exact ih h.2 (some text)
    | none =>
      have hlabel : eventLabel? (n :: content) = (labelOf? n).or (eventLabel? content) := by
        rw [eventLabel?, List.findSome?_cons]
        cases labelOf? n <;> rfl
      rw [readNode_inEvent labels traces h.1, Option.none_or, hlabel]
      exact ih h.2 (labelOf? n)

end Event

/-! ## Traces -/

/-- The reader in a trace, with the labels so far in reverse. -/
def inTrace (traces : List LabelTrace) (labels : LabelTrace) : State :=
  { inLog := true, trace := some labels, traces := traces }

section Trace

variable (traces : List LabelTrace)

theorem inert_inTrace (labels : LabelTrace) : (inTrace traces labels).Inert 3 where
  inside_log := by omega
  inside_trace _ := le_rfl
  inside_event := nofun
  labelled := nofun

/-- A node in a trace that is an event adds its label, if it has one. -/
theorem readNode_inTrace (labels : LabelTrace) {n : Node}
    (h : ∀ event ∈ contentOf? "event" n, ∀ m ∈ event, IsReadable m) :
    ((inTrace traces labels).within 2).readNode n =
      .ok ((inTrace traces
        (((contentOf? "event" n).bind eventLabel?).toList ++ labels)).within 2) := by
  match n with
  | .text raw | .comment body | .instruction body => rfl
  | .element tag short content =>
    by_cases hname : localName tag.name.bytes = bytesOf "event"
    · have hevent : contentOf? "event" (.element tag short content) = some content := if_pos hname
      have hopen : (inTrace traces labels).opened tag.read 3 =
          .ok (inEvent labels traces none) := by
        unfold opened
        rw [TagSource.name_read]
        dsimp only
        rw [if_neg (by simp), if_neg (by simp), if_pos ⟨hname, rfl, rfl⟩]
        rfl
      have hcontent := foldlM_readNode_inEvent labels traces (h content hevent) none
      rw [readNode_element short hopen hcontent, hevent, Option.none_or, Option.bind_some]
      cases eventLabel? content <;> rfl
    · have hopen : (inTrace traces labels).opened tag.read 3 = .ok (inTrace traces labels) := by
        unfold opened
        rw [TagSource.name_read]
        dsimp only
        rw [if_neg (by simp), if_neg (by simp), if_neg fun h ↦ hname h.1]
        exact ite_self _
      have hcontent : content.foldlM readNode ((inTrace traces labels).within 3) = _ :=
        foldlM_eq_ok fun m _ ↦ (inert_inTrace traces labels).readNode_eq m
      rw [readNode_element short hopen hcontent, contentOf?, if_neg hname]
      rfl

theorem traceLabels_cons (n : Node) (content : List Node) : traceLabels (n :: content) =
    ((contentOf? "event" n).bind eventLabel?).toList ++ traceLabels content := by
  rw [traceLabels, List.filterMap_cons]
  cases contentOf? "event" n with
  | none => rfl
  | some event =>
    dsimp only
    rw [List.filterMap_cons, Option.bind_some]
    cases eventLabel? event <;> rfl

theorem foldlM_readNode_inTrace {content : List Node}
    (h : ∀ event ∈ content.filterMap (contentOf? "event"), ∀ n ∈ event, IsReadable n)
    (labels : LabelTrace) :
    content.foldlM readNode ((inTrace traces labels).within 2) =
      .ok ((inTrace traces ((traceLabels content).reverse ++ labels)).within 2) := by
  induction content generalizing labels with
  | nil => rfl
  | cons n content ih =>
    have hhead : ∀ event ∈ contentOf? "event" n, ∀ m ∈ event, IsReadable m := by
      intro event hevent
      exact h event (List.mem_filterMap.2 ⟨n, List.mem_cons_self, hevent⟩)
    have htail : ∀ event ∈ content.filterMap (contentOf? "event"), ∀ m ∈ event, IsReadable m := by
      intro event hevent
      obtain ⟨m, hm, hcontent⟩ := List.mem_filterMap.1 hevent
      exact h event (List.mem_filterMap.2 ⟨m, List.mem_cons_of_mem n hm, hcontent⟩)
    have hreverse : ((contentOf? "event" n).bind eventLabel?).toList.reverse =
        ((contentOf? "event" n).bind eventLabel?).toList := by
      cases (contentOf? "event" n).bind eventLabel? <;> rfl
    rw [List.foldlM_cons, readNode_inTrace traces labels hhead, traceLabels_cons,
      List.reverse_append, hreverse, List.append_assoc]
    exact ih htail _

end Trace

/-! ## The log -/

/-- The reader in a log, with the traces so far in reverse. -/
def inLogWith (traces : List LabelTrace) : State := { inLog := true, traces := traces }

theorem inert_inLogWith (traces : List LabelTrace) : (inLogWith traces).Inert 2 where
  inside_log := le_rfl
  inside_trace := nofun
  inside_event := nofun
  labelled := nofun

theorem opened_inLogWith (traces : List LabelTrace) {tag : TagSource}
    (h : localName tag.name.bytes = bytesOf "trace") :
    (inLogWith traces).opened tag.read 2 = .ok (inTrace traces []) := by
  unfold opened
  rw [TagSource.name_read]
  dsimp only
  rw [if_neg (by simp), if_pos ⟨h, rfl, rfl⟩]
  rfl

/-- A node in a log that is a trace is added with its labels. -/
theorem readNode_inLogWith (traces : List LabelTrace) {n : Node}
    (h : ∀ trace ∈ contentOf? "trace" n,
      ∀ event ∈ trace.filterMap (contentOf? "event"), ∀ m ∈ event, IsReadable m) :
    ((inLogWith traces).within 1).readNode n =
      .ok ((inLogWith (((contentOf? "trace" n).map traceLabels).toList ++ traces)).within 1) := by
  match n with
  | .text raw | .comment body | .instruction body => rfl
  | .element tag short content =>
    by_cases hname : localName tag.name.bytes = bytesOf "trace"
    · have htrace : contentOf? "trace" (.element tag short content) = some content := if_pos hname
      have hcontent := foldlM_readNode_inTrace traces (h content htrace) []
      rw [readNode_element short (opened_inLogWith traces hname) hcontent, htrace, List.append_nil]
      change Except.ok ((inLogWith ((traceLabels content).reverse.reverse :: traces)).within 1) = _
      rw [List.reverse_reverse]
      rfl
    · have hopen : (inLogWith traces).opened tag.read 2 = .ok (inLogWith traces) := by
        unfold opened
        rw [TagSource.name_read]
        dsimp only
        rw [if_neg (by simp), if_neg fun h ↦ hname h.1, if_neg (by simp)]
        exact ite_self _
      have hcontent : content.foldlM readNode ((inLogWith traces).within 2) = _ :=
        foldlM_eq_ok fun m _ ↦ (inert_inLogWith traces).readNode_eq m
      rw [readNode_element short hopen hcontent, contentOf?, if_neg hname]
      rfl

theorem logTraces_cons (n : Node) (content : List Node) : logTraces (n :: content) =
    ((contentOf? "trace" n).map traceLabels).toList ++ logTraces content := by
  rw [logTraces, List.filterMap_cons]
  cases contentOf? "trace" n <;> rfl

theorem foldlM_readNode_inLogWith {content : List Node} (h : EventsReadable content)
    (traces : List LabelTrace) :
    content.foldlM readNode ((inLogWith traces).within 1) =
      .ok ((inLogWith ((logTraces content).reverse ++ traces)).within 1) := by
  induction content generalizing traces with
  | nil => rfl
  | cons n content ih =>
    have hhead : ∀ trace ∈ contentOf? "trace" n,
        ∀ event ∈ trace.filterMap (contentOf? "event"), ∀ m ∈ event, IsReadable m := by
      intro trace htrace
      exact h trace (List.mem_filterMap.2 ⟨n, List.mem_cons_self, htrace⟩)
    have htail : EventsReadable content := by
      intro trace htrace
      obtain ⟨m, hm, hcontent⟩ := List.mem_filterMap.1 htrace
      exact h trace (List.mem_filterMap.2 ⟨m, List.mem_cons_of_mem n hm, hcontent⟩)
    have hreverse : ((contentOf? "trace" n).map traceLabels).toList.reverse =
        ((contentOf? "trace" n).map traceLabels).toList := by
      cases contentOf? "trace" n <;> rfl
    rw [List.foldlM_cons, readNode_inLogWith traces hhead, logTraces_cons, List.reverse_append,
      hreverse, List.append_assoc]
    exact ih htail _

end State

/-- The traces that are read from a document with the root `log` are those of its element tree, if
the strings in its events can be read. -/
theorem read_eq_logTraces {s : Source} (hroot : localName s.tag.name.bytes = bytesOf "log")
    (hreadable : EventsReadable s.content) : read s.document = .ok (logTraces s.content) := by
  have hopen : State.opened {} s.tag.read 1 = .ok (State.inLogWith []) := by
    unfold State.opened
    rw [TagSource.name_read]
    dsimp only
    rw [if_pos ⟨hroot, rfl⟩]
    rfl
  have hnode := State.readNode_element s.short hopen (State.foldlM_readNode_inLogWith hreadable [])
  have hevents : s.root.events.foldlM State.step {} =
      .ok (((State.inLogWith ((logTraces s.content).reverse ++ [])).closed 1).within 0) := hnode
  rw [read, ofStream, Source.stream_document]
  dsimp only
  rw [hevents, List.append_nil]
  change Except.ok (logTraces s.content).reverse.reverse = _
  rw [List.reverse_reverse]

/-! ## A log with elements out of place -/

/-- An element without attributes. -/
def plainElement (name : Xml.Name) (short : Bool) (content : List Node) : Node :=
  .element (.plain name) short content

def logName : Xml.Name := .ofText "log" (by decide)

def traceName : Xml.Name := .ofText "trace" (by decide)

def eventName : Xml.Name := .ofText "event" (by decide)

/-- A string with a key and a value. -/
def stringElement (key value : String) (content : List Node) : Node :=
  .element
    ⟨.ofText "string" (by decide),
      [.ofText (.ofText "key" (by decide)) key, .ofText (.ofText "value" (by decide)) value],
      .empty, by simp [Xml.AttributeSource.ofText, Xml.Name.ofText, bytesOf]⟩
    true content

/-- Two traces among elements of the same names that stand elsewhere. -/
def misplaced : Source where
  marked := true
  prolog := [.instruction ⟨bytesOf "xml version='1.0'", by decide +kernel⟩]
  tag := { TagSource.plain (.ofText "x:log" (by decide)) with
    after := ⟨[0x0A], List.forall_mem_singleton.2 rfl⟩ }
  content :=
    [stringElement "concept:name" "the log" [],
      plainElement (.ofText "event" (by decide)) false [stringElement "concept:name" "no trace" []],
      plainElement (.ofText "x:trace" (by decide)) false
        [.comment ⟨bytesOf " first ", by decide +kernel⟩, stringElement "concept:name" "case" [],
          plainElement (.ofText "event" (by decide)) false
            [plainElement (.ofText "list" (by decide)) false
                [stringElement "concept:name" "deep" []],
              stringElement "org:resource" "clerk" [], .text ⟨bytesOf "noise", by decide⟩,
              stringElement "concept:name" "a & b" [stringElement "concept:name" "inside" []],
              stringElement "concept:name" "second" []],
          plainElement (.ofText "event" (by decide)) true [],
          plainElement (.ofText "trace" (by decide)) false
            [plainElement (.ofText "event" (by decide)) false
              [stringElement "concept:name" "deep" []]]],
      plainElement (.ofText "trace" (by decide)) true []]
  prolog_isOutside := by simp [Node.IsOutside]
  epilog_isOutside := Node.isOutside_nil

theorem read_eq_logTraces_misplaced :
    localName misplaced.tag.name.bytes = bytesOf "log" ∧ EventsReadable misplaced.content ∧
      read misplaced.document = .ok [["a & b"], []] := by
  have hroot : localName misplaced.tag.name.bytes = bytesOf "log" := by decide +kernel
  have hreadable : EventsReadable misplaced.content := by decide +kernel
  have htraces : logTraces misplaced.content = [["a & b"], []] := by decide +kernel
  refine ⟨hroot, hreadable, ?_⟩
  rw [read_eq_logTraces hroot hreadable, htraces]

end PetriAlign.Xes
