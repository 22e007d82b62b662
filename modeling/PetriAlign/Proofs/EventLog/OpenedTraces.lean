import PetriAlign.Proofs.EventLog.Xes

/-!
# Traces that are opened

The nesting of the tags alone tells how many traces a document opens: the elements `trace` right
inside an element at the top, once a log was found. The reader adds a trace to the log only when it
ends, and elements may stay open at the end of a document. So the last trace is missing exactly if
the document ends in it.
-/

namespace PetriAlign.Xes

open Xml (Event Node TagSource bytesOf)

/-! ## Nesting -/

/-- What the tags of a document open. -/
structure Survey where
  /-- The local names of the open elements, the innermost first. -/
  path : List Bytes := []
  /-- Whether a log was found at the top. -/
  inLog : Bool := false
  /-- The number of traces, open or not. -/
  traces : Nat := 0
  deriving DecidableEq, Repr

namespace Survey

/-- Takes note of an element of this name inside the open ones. -/
def note (v : Survey) (name : Bytes) : Survey :=
  match v.path with
  | [] => if name = bytesOf "log" then { v with inLog := true } else v
  | [_] => if name = bytesOf "trace" ∧ v.inLog then { v with traces := v.traces + 1 } else v
  | _ => v

def step (v : Survey) : Event → Survey
  | .opening tag => { v.note (localName tag.name) with path := localName tag.name :: v.path }
  | .empty tag => v.note (localName tag.name)
  | .closing _ => { v with path := v.path.tail }
  | .text _ => v

/-- What the tags of a document open, up to where reading stops. -/
def ofDocument (d : Document) : Survey := (Xml.stream d).events.foldl step {}

/-- Whether a trace is open. It is the second open element, and a log is found only while no element
is open. -/
def inTrace (v : Survey) : Bool := v.inLog && v.path.reverse[1]? = some (bytesOf "trace")

variable (v : Survey)

theorem path_note (name : Bytes) : (v.note name).path = v.path := by
  unfold note
  split <;> (try split) <;> rfl

/-- An element with one tag opens and closes. -/
theorem step_empty (tag : Xml.Tag) (name : Bytes) :
    v.step (.empty tag) = (v.step (.opening tag)).step (.closing name) := by
  have hpath := v.path_note (localName tag.name)
  simp only [step, List.tail_cons, ← hpath]

variable {v}

theorem inTrace_of_length_le (h : v.path.length ≤ 1) : v.inTrace = false := by
  have hnone : v.path.reverse[1]? = none := List.getElem?_eq_none (by simpa using h)
  simp only [inTrace, hnone, reduceCtorEq, decide_false, Bool.and_false]

/-- Elements inside the second one do not matter. -/
theorem inTrace_cons (h : 2 ≤ v.path.length) (name : Bytes) :
    { v with path := name :: v.path }.inTrace = v.inTrace := by
  have hsecond : (name :: v.path).reverse[1]? = v.path.reverse[1]? := by
    rw [List.reverse_cons, List.getElem?_append_left]
    rw [List.length_reverse]
    exact h
  simp only [inTrace, hsecond]

theorem inTrace_push {name : Bytes}
    (h : v.path.length = 1 → v.inLog = true → name ≠ bytesOf "trace") :
    { v with path := name :: v.path }.inTrace = v.inTrace := by
  match hpath : v.path with
  | [] => rw [inTrace_of_length_le le_rfl, inTrace_of_length_le (by simp [hpath])]
  | [outer] =>
    have hname := h (by simp [hpath])
    rw [inTrace_of_length_le (v := v) (by simp [hpath])]
    simpa [inTrace] using hname
  | inner :: outer :: rest =>
    rw [← hpath]
    exact inTrace_cons (by simp [hpath]) name

theorem inTrace_tail (h : v.path.length ≠ 2) :
    { v with path := v.path.tail }.inTrace = v.inTrace := by
  match hpath : v.path with
  | [] => rw [inTrace_of_length_le (by simp), inTrace_of_length_le (by simp [hpath])]
  | [outer] => rw [inTrace_of_length_le (by simp), inTrace_of_length_le (by simp [hpath])]
  | [inner, outer] => exact absurd (by simp [hpath]) h
  | name :: inner :: outer :: rest =>
    have hcons := inTrace_cons (v := { v with path := inner :: outer :: rest }) (by simp) name
    rw [List.tail_cons, ← hcons, ← hpath]

end Survey

/-! ## What a tag does to the traces -/

namespace State

/-- The traces of two states are the same, and the event at hand of the second one stands right
inside a trace if that of the first one does. -/
structure SameTraces (s s' : State) : Prop where
  depth : s'.depth = s.depth
  inLog : s'.inLog = s.inLog
  trace : s'.trace.isSome = s.trace.isSome
  traces : s'.traces = s.traces
  event : (∀ e ∈ s.event, e.depth = 3) → ∀ e ∈ s'.event, e.depth = 3

theorem SameTraces.refl (s : State) : SameTraces s s := ⟨rfl, rfl, rfl, rfl, id⟩

/-- The state after a start tag, but for the event at hand. -/
def noted (s : State) (name : Bytes) (depth : Nat) : State :=
  if name = bytesOf "log" ∧ depth = 1 then { s with inLog := true }
  else if name = bytesOf "trace" ∧ s.inLog ∧ depth = 2 then { s with trace := some [] }
  else s

theorem sameTraces_openString {s s' : State} {tag : Xml.Tag} {depth : Nat}
    (h : s.openString tag depth = .ok s') : SameTraces s s' := by
  unfold openString at h
  split at h
  case h_1 eventDepth hevent =>
    split at h
    case isTrue =>
      obtain ⟨label, -, rfl⟩ := exists_of_map_eq_ok h
      exact
        { SameTraces.refl s with
          event hs e he := by
            cases he
            exact hs ⟨eventDepth, none⟩ hevent }
    case isFalse =>
      cases h
      exact .refl s
  case h_2 =>
    cases h
    exact .refl s

theorem sameTraces_opened {s s' : State} {tag : Xml.Tag} {depth : Nat}
    (h : s.opened tag depth = .ok s') : SameTraces (s.noted (localName tag.name) depth) s' := by
  unfold opened at h
  unfold noted
  dsimp only at h
  split_ifs at h ⊢ with hlog htrace hevent
  · cases h
    exact .refl _
  · cases h
    exact .refl _
  · cases h
    exact
      { SameTraces.refl s with
        event _ e he := by
          cases he
          exact hevent.2.2 }
  · exact sameTraces_openString h
  · cases h
    exact .refl s

theorem closed_two {s : State} (h : ∀ e ∈ s.event, e.depth = 3) : s.closed 2 = s.closeTrace := by
  unfold closed
  split
  case h_1 eventDepth label hevent =>
    have hdepth : eventDepth = 3 := h ⟨eventDepth, label⟩ hevent
    rw [if_neg (by omega), if_pos rfl]
  case h_2 => rfl

/-- The trace at hand is one of the traces afterwards. -/
theorem exists_closeTrace_eq (s : State) :
    ∃ traces, s.closeTrace = { s with trace := none, traces := traces } ∧
      traces.length = s.traces.length + s.trace.isSome.toNat := by
  unfold closeTrace
  cases htrace : s.trace with
  | none => exact ⟨s.traces, congrArg (fun trace ↦ { s with trace := trace }) htrace, rfl⟩
  | some labels => exact ⟨labels.reverse :: s.traces, rfl, rfl⟩

/-- The end of an event adds to the trace at hand, if there is one. -/
theorem sameTraces_closed (s : State) {depth : Nat} (h : depth ≠ 2) :
    SameTraces s (s.closed depth) := by
  unfold closed closeEvent
  split
  case h_1 eventDepth label hevent =>
    rw [if_neg h]
    split_ifs
    · split
      case h_1 labels htrace => exact ⟨rfl, rfl, by rw [htrace]; rfl, rfl, fun _ ↦ nofun⟩
      case h_2 => exact ⟨rfl, rfl, rfl, rfl, fun _ ↦ nofun⟩
    · exact .refl s
  case h_2 =>
    rw [if_neg h]
    exact .refl s

/-- An element with one tag opens and closes. So what start and end tags keep, it keeps. -/
theorem step_empty (s : State) (tag : Xml.Tag) (name : Bytes) :
    s.step (.empty tag) = s.step (.opening tag) >>= (·.step (.closing name)) := by
  have hopen := opened_within s (s.depth + 1) tag (s.depth + 1)
  have hsame : s.opened tag (s.depth + 1) = _ := opened_within s s.depth tag (s.depth + 1)
  change (s.opened tag (s.depth + 1)).map _ =
    (s.within (s.depth + 1)).opened tag (s.depth + 1) >>= _
  rw [hopen]
  cases hopened : s.opened tag (s.depth + 1) with
  | error e => rfl
  | ok s' =>
    rw [hopened] at hsame
    have hdepth : s' = s'.within s.depth := Except.ok.inj hsame
    change Except.ok (s'.closed (s.depth + 1)) =
      .ok (((s'.within (s.depth + 1)).closed (s.depth + 1)).within s.depth)
    rw [closed_within, hdepth, closed_within]
    rfl

end State

/-! ## The reader and the nesting -/

/-- The reader in a document of which this was opened. -/
structure Agrees (s : State) (v : Survey) : Prop where
  depth : s.depth = v.path.length
  inLog : s.inLog = v.inLog
  trace : s.trace.isSome = v.inTrace
  event : ∀ e ∈ s.event, e.depth = 3
  traces : s.traces.length + v.inTrace.toNat = v.traces

namespace Agrees

variable {s s' : State} {v : Survey}

theorem congr (h : Agrees s v) (hs : s.SameTraces s') : Agrees s' v where
  depth := hs.depth.trans h.depth
  inLog := hs.inLog.trans h.inLog
  trace := hs.trace.trans h.trace
  event := hs.event h.event
  traces := by
    rw [hs.traces]
    exact h.traces

theorem start_of_document : Agrees {} {} where
  depth := rfl
  inLog := rfl
  trace := rfl
  event := nofun
  traces := rfl

/-- An element that is no trace is opened. -/
theorem push (h : Agrees s v) {name : Bytes}
    (hname : v.path.length = 1 → v.inLog = true → name ≠ bytesOf "trace") :
    Agrees (s.within (s.depth + 1)) { v with path := name :: v.path } where
  depth := congrArg (· + 1) h.depth
  inLog := h.inLog
  trace := by
    rw [Survey.inTrace_push hname]
    exact h.trace
  event := h.event
  traces := by
    rw [Survey.inTrace_push hname]
    exact h.traces

/-- A log is found at the top. -/
theorem found (h : Agrees s v) (hpath : v.path = []) :
    Agrees { s with inLog := true } { v with inLog := true } := by
  have hshort : v.path.length ≤ 1 := by simp [hpath]
  have hinTrace : { v with inLog := true }.inTrace = v.inTrace :=
    (Survey.inTrace_of_length_le (v := { v with inLog := true }) hshort).trans
      (Survey.inTrace_of_length_le hshort).symm
  refine ⟨h.depth, rfl, ?_, h.event, ?_⟩
  · rw [hinTrace]
    exact h.trace
  · rw [hinTrace]
    exact h.traces

/-- A trace is opened. -/
theorem start (h : Agrees s v) (hpath : v.path.length = 1) (hlog : v.inLog = true) :
    Agrees { s.within (s.depth + 1) with trace := some [] }
      { v with path := bytesOf "trace" :: v.path, traces := v.traces + 1 } := by
  have hinTrace :
      { v with path := bytesOf "trace" :: v.path, traces := v.traces + 1 }.inTrace = true := by
    obtain ⟨outer, houter⟩ := List.length_eq_one_iff.1 hpath
    simp [Survey.inTrace, hlog, houter]
  have htraces := h.traces
  rw [Survey.inTrace_of_length_le hpath.le] at htraces
  refine ⟨congrArg (· + 1) h.depth, h.inLog, hinTrace.symm, h.event, ?_⟩
  rw [hinTrace]
  exact congrArg (· + 1) htraces

theorem opening (h : Agrees s v) {tag : Xml.Tag} (hs : s.step (.opening tag) = .ok s') :
    Agrees s' (v.step (.opening tag)) := by
  refine congr ?_ (State.sameTraces_opened hs)
  have hdepth := h.depth
  obtain ⟨path, inLog, traces⟩ := v
  unfold State.noted
  match path with
  | [] =>
    rw [List.length_nil] at hdepth
    unfold Survey.step Survey.note
    by_cases hname : localName tag.name = bytesOf "log"
    · rw [if_pos ⟨hname, by omega⟩]
      dsimp only
      rw [if_pos hname]
      exact (h.found rfl).push nofun
    · rw [if_neg (fun hlog ↦ hname hlog.1), if_neg (by omega)]
      dsimp only
      rw [if_neg hname]
      exact h.push nofun
  | [outer] =>
    rw [List.length_singleton] at hdepth
    unfold Survey.step Survey.note
    rw [if_neg (by omega)]
    dsimp only
    by_cases htrace : localName tag.name = bytesOf "trace" ∧ inLog = true
    · rw [if_pos ⟨htrace.1, h.inLog.trans htrace.2, by omega⟩, if_pos htrace, htrace.1]
      exact h.start rfl htrace.2
    · rw [if_neg fun hs ↦ htrace ⟨hs.1, h.inLog.symm.trans hs.2.1⟩, if_neg htrace]
      exact h.push fun _ hlog hname ↦ htrace ⟨hname, hlog⟩
  | inner :: outer :: rest =>
    rw [List.length_cons, List.length_cons] at hdepth
    rw [if_neg (by omega), if_neg (by omega)]
    exact h.push nofun

/-- The innermost element is closed, if it is no trace. -/
theorem pop (h : Agrees s v) (hdepth : s.depth ≠ 2) :
    Agrees (s.within (s.depth - 1)) { v with path := v.path.tail } where
  depth := by
    change s.depth - 1 = v.path.tail.length
    rw [h.depth, List.length_tail]
  inLog := h.inLog
  trace := by
    rw [Survey.inTrace_tail (h.depth ▸ hdepth)]
    exact h.trace
  event := h.event
  traces := by
    rw [Survey.inTrace_tail (h.depth ▸ hdepth)]
    exact h.traces

/-- The element right inside the outermost one is closed. -/
theorem finish (h : Agrees s v) (hdepth : s.depth = 2) :
    Agrees (s.closeTrace.within 1) { v with path := v.path.tail } := by
  have hlength : v.path.tail.length = 1 := by rw [List.length_tail, ← h.depth, hdepth]
  have hinTrace : { v with path := v.path.tail }.inTrace = false :=
    Survey.inTrace_of_length_le hlength.le
  obtain ⟨traces, hclose, htraces⟩ := s.exists_closeTrace_eq
  rw [h.trace, h.traces] at htraces
  rw [hclose]
  refine ⟨hlength.symm, h.inLog, hinTrace.symm, h.event, ?_⟩
  rw [hinTrace]
  exact htraces

theorem closing (h : Agrees s v) {name : Bytes} (hs : s.step (.closing name) = .ok s') :
    Agrees s' (v.step (.closing name)) := by
  obtain rfl : (s.closed s.depth).within (s.depth - 1) = s' := Except.ok.inj hs
  by_cases hdepth : s.depth = 2
  · rw [hdepth, State.closed_two h.event]
    exact h.finish hdepth
  · have hclosed := State.sameTraces_closed s hdepth
    have hpop := (h.congr hclosed).pop (hclosed.depth.trans_ne hdepth)
    rw [hclosed.depth] at hpop
    exact hpop

theorem step {event : Event} (h : Agrees s v) (hs : s.step event = .ok s') :
    Agrees s' (v.step event) := by
  cases event with
  | opening tag => exact h.opening hs
  | closing name => exact h.closing hs
  | text raw =>
    obtain rfl : s = s' := Except.ok.inj hs
    exact h
  | empty tag =>
    rw [State.step_empty s tag tag.name, bind_eq_ok_iff] at hs
    obtain ⟨inside, hopen, hclose⟩ := hs
    rw [Survey.step_empty v tag tag.name]
    exact (h.opening hopen).closing hclose

theorem foldlM_step {events : List Event} (h : Agrees s v)
    (hs : events.foldlM State.step s = .ok s') : Agrees s' (events.foldl Survey.step v) := by
  induction events generalizing s v with
  | nil =>
    obtain rfl : s = s' := Except.ok.inj hs
    exact h
  | cons event events ih =>
    rw [List.foldlM_cons, bind_eq_ok_iff] at hs
    obtain ⟨next, hnext, hrest⟩ := hs
    exact ih (h.step hnext) hrest

end Agrees

theorem agrees_ofDocument {d : Document} {s : State}
    (h : (Xml.stream d).events.foldlM State.step {} = .ok s) : Agrees s (.ofDocument d) :=
  Agrees.foldlM_step .start_of_document h

/-! ## Logs that are cut off -/

/-- A log that ends in a trace, between two nodes of it. -/
structure CutOff where
  tag : TagSource
  /-- What stands in the log before the trace. -/
  before : List Node
  traceTag : TagSource
  /-- What stands in the trace. -/
  inside : List Node
  isLog : localName tag.name.bytes = bytesOf "log"
  isTrace : localName traceTag.name.bytes = bytesOf "trace"
  before_readable : EventsReadable before
  inside_readable : ∀ event ∈ inside.filterMap (contentOf? "event"), ∀ n ∈ event, IsReadable n

namespace CutOff

variable (c : CutOff)

def document : Document where
  bytes := 0x3C :: (c.tag.content ++ 0x3E :: (Node.bytesAll c.before ++
    0x3C :: (c.traceTag.content ++ 0x3E :: Node.bytesAll c.inside)))

/-- The reader at the end of the log. -/
def lastState : State :=
  (State.inTrace (logTraces c.before).reverse (traceLabels c.inside).reverse).within 2

theorem stream_document : Xml.stream c.document =
    { events := .opening c.tag.read :: (Node.eventsFrom [] c.before ++
      .opening c.traceTag.read :: Node.eventsFrom [] c.inside) } := by
  have hnil : (0x3C : UInt8) ∉ [] := List.not_mem_nil
  have hinside := Node.streamFrom_nodes_last c.inside hnil
    [c.traceTag.read.name, c.tag.read.name]
  have hbefore := Node.streamFrom_nodes c.before hnil
    [c.tag.read.name] (c.traceTag.content ++ 0x3E :: Node.bytesAll c.inside)
  rw [List.nil_append] at hinside hbefore
  change Xml.streamFrom none [] c.document.bytes = _
  rw [document, Xml.streamFrom_bracket (c.tag.pieceOf_opening _) rfl, hbefore,
    Xml.streamFrom_bracket (c.traceTag.pieceOf_opening _) rfl, hinside]
  rfl

/-- The trace at hand is lost. -/
theorem foldlM_step :
    (Xml.stream c.document).events.foldlM State.step {} = .ok c.lastState := by
  have hlog : State.step {} (.opening c.tag.read) = .ok ((State.inLogWith []).within 1) := by
    change State.opened _ c.tag.read 1 = _
    unfold State.opened
    rw [TagSource.name_read]
    dsimp only
    rw [if_pos ⟨c.isLog, rfl⟩]
    rfl
  have hbefore := State.foldlM_readNode_inLogWith c.before_readable []
  rw [List.append_nil] at hbefore
  have htrace : ((State.inLogWith (logTraces c.before).reverse).within 1).step
      (.opening c.traceTag.read) =
        .ok ((State.inTrace (logTraces c.before).reverse []).within 2) := by
    change ((State.inLogWith (logTraces c.before).reverse).within 2).opened c.traceTag.read 2 = _
    rw [State.opened_within, State.opened_inLogWith _ c.isTrace]
    rfl
  have hinside := State.foldlM_readNode_inTrace (logTraces c.before).reverse c.inside_readable []
  rw [List.append_nil] at hinside
  rw [stream_document]
  dsimp only
  rw [List.foldlM_cons, hlog]
  change (Node.eventsFrom [] c.before ++ _).foldlM State.step _ = _
  rw [List.foldlM_append, State.foldlM_eventsFrom, hbefore]
  change (Event.opening c.traceTag.read :: _).foldlM State.step _ = _
  rw [List.foldlM_cons, htrace]
  change (Node.eventsFrom [] c.inside).foldlM State.step _ = _
  rw [State.foldlM_eventsFrom, hinside]
  rfl

/-- A log that is cut off is read as one that ends before the trace. -/
theorem read_document : read c.document = .ok (logTraces c.before) := by
  rw [read, ofStream, c.foldlM_step]
  rw [stream_document]
  change Except.ok (logTraces c.before).reverse.reverse = _
  rw [List.reverse_reverse]

theorem inTrace_document : (Survey.ofDocument c.document).inTrace = true :=
  (agrees_ofDocument c.foldlM_step).trace.symm

theorem traces_document :
    (Survey.ofDocument c.document).traces = (logTraces c.before).length + 1 := by
  have htraces := (agrees_ofDocument c.foldlM_step).traces
  rw [inTrace_document, ← List.length_reverse] at htraces
  exact htraces.symm.trans (congrArg (· + 1) (by simp [lastState, State.within, State.inTrace]))

end CutOff

/-! ## Traces that are read -/

/-- Every trace that a document opens is read, but for one that is open at its end. -/
theorem length_of_read {d : Document} {traces : List LabelTrace} (h : read d = .ok traces) :
    traces.length + (if (Survey.ofDocument d).inTrace then 1 else 0) =
      (Survey.ofDocument d).traces := by
  simp only [read, ofStream, bind_eq_ok_iff] at h
  obtain ⟨s, hs, hrest⟩ := h
  have htraces := (agrees_ofDocument hs).traces
  split at hrest
  case h_1 => cases hrest
  case h_2 =>
    split at hrest
    case isTrue =>
      obtain rfl : s.traces.reverse = traces := Except.ok.inj hrest
      rw [List.length_reverse, ← htraces]
      cases (Survey.ofDocument d).inTrace <;> rfl
    case isFalse => cases hrest

/-- A log of two traces with one event each, of which the second does not end. -/
def halfWritten : CutOff where
  tag := .plain logName
  before :=
    [plainElement traceName false
      [plainElement eventName false [stringElement "concept:name" "a" []]]]
  traceTag := .plain traceName
  inside := [plainElement eventName false [stringElement "concept:name" "b" []]]
  isLog := by decide
  isTrace := by decide
  before_readable := by decide +kernel
  inside_readable := by decide +kernel

theorem logTraces_halfWritten : logTraces halfWritten.before = [["a"]] := by
  decide +kernel

theorem length_of_read_halfWritten :
    read halfWritten.document = .ok [["a"]] ∧
      (Survey.ofDocument halfWritten.document).traces = 2 := by
  have hread := halfWritten.read_document
  rw [logTraces_halfWritten] at hread
  have hlength := length_of_read hread
  rw [if_pos halfWritten.inTrace_document] at hlength
  exact ⟨hread, hlength.symm⟩

/-- A trace can be lost. -/
theorem not_forall_length_of_read : ¬ ∀ (d : Document) (traces : List LabelTrace),
    read d = .ok traces → traces.length = (Survey.ofDocument d).traces := by
  intro h
  have hlength := h _ _ halfWritten.read_document
  rw [halfWritten.traces_document] at hlength
  omega

end PetriAlign.Xes
