import PetriAlign.Pnml.Reader
import PetriAlign.Pnml.Writer
import PetriAlign.Proofs.Text.Numeral
import PetriAlign.Proofs.Xml.Markup

/-!
# Written elements read back

What the reader makes of the events of each written element. The same names mean different things in
different places, so each lemma says where the reader is: at a place, at a transition, at an arc, in
the final marking, or between the declarations of the net.
-/

namespace PetriAlign.Pnml

open Xml (Event Markup trimmed writtenTag textEvents bytesOf IsName)

/-! ## Elements and texts -/

namespace Draft

variable {d d₁ d₂ : Draft}

/-- Reads the text of an element, if it is not blank. -/
def readText (d : Draft) (content : String) : Except ParseError Draft :=
  if trimmed content = "" then .ok d else d.texted (trimmed content)

/-- Reading these elements leads from one draft to another. -/
def Reads (d : Draft) (ms : List Markup) (d' : Draft) : Prop :=
  (Markup.eventsAll ms).foldlM step d = .ok d'

theorem foldlM_textEvents (d : Draft) (content : String) :
    (textEvents content).foldlM step d = d.readText content := by
  unfold textEvents readText
  split
  · rfl
  · rw [List.foldlM_cons, step, Xml.textOf_escape]
    change (d.texted (trimmed content) >>= fun d ↦ .ok d) = _
    cases d.texted (trimmed content) <;> rfl

theorem eventsAll_append (ms ms' : List Markup) :
    Markup.eventsAll (ms ++ ms') = Markup.eventsAll ms ++ Markup.eventsAll ms' := by
  induction ms with
  | nil => rfl
  | cons m ms ih =>
    rw [List.cons_append, Markup.eventsAll, Markup.eventsAll, ih, List.append_assoc]

theorem reads_nil (d : Draft) : Reads d [] d := rfl

theorem reads_singleton {m : Markup} : Reads d [m] d₁ ↔ m.events.foldlM step d = .ok d₁ := by
  rw [Reads, Markup.eventsAll, Markup.eventsAll, List.append_nil]

theorem Reads.append {ms ms' : List Markup} (h : Reads d ms d₁) (h' : Reads d₁ ms' d₂) :
    Reads d (ms ++ ms') d₂ := by
  unfold Reads at h h' ⊢
  rw [eventsAll_append, List.foldlM_append, h]
  exact h'

theorem Reads.cons {m : Markup} {ms : List Markup} (h : Reads d [m] d₁) (h' : Reads d₁ ms d₂) :
    Reads d (m :: ms) d₂ :=
  h.append h'

/-- The content of an element between its tags. -/
theorem foldlM_between {tag : Xml.Tag} {events : List Event} {name : Bytes}
    (hopen : d.opened tag = .ok d₁) (hevents : events.foldlM step d₁ = .ok d₂) :
    (.opening tag :: (events ++ [.closing name])).foldlM step d = .ok (d₂.closed name) := by
  have hstep : step d (.opening tag) = .ok d₁ := hopen
  rw [List.foldlM_cons, hstep]
  change (events ++ [Event.closing name]).foldlM step d₁ = _
  rw [List.foldlM_append, hevents]
  rfl

theorem reads_element {name : String} {attributes : List (String × String)}
    {content : List Markup} (hopen : d.opened (writtenTag name attributes) = .ok d₁)
    (hcontent : Reads d₁ content d₂) :
    Reads d [.element name attributes content] (d₂.closed (bytesOf name)) := by
  rw [reads_singleton, Markup.events]
  exact foldlM_between hopen hcontent

theorem reads_text {name content : String} (hopen : d.opened (writtenTag name []) = .ok d₁)
    (htext : d₁.readText content = .ok d₂) :
    Reads d [.text name content] (d₂.closed (bytesOf name)) := by
  rw [← foldlM_textEvents] at htext
  rw [reads_singleton, Markup.events]
  exact foldlM_between hopen htext

/-- The text inside a labelled element is read where the element leads. -/
theorem reads_labelled {name content : String} (hopen : d.opened (writtenTag name []) = .ok d₁)
    (htext : d₁.readText content = .ok d₂) :
    Reads d [labelled name content] (d₂.closed (bytesOf name)) := by
  apply reads_element hopen
  have hinner : Reads d₁ [.text "text" content] (d₂.closed (bytesOf "text")) :=
    reads_text rfl htext
  exact hinner

end Draft

/-- A text without blanks is read as it is. -/
theorem trimmed_eq_self {s : String} (h : ∀ c ∈ s.toList, Xml.isSpaceChar c = false) :
    trimmed s = s := by
  rw [trimmed, Text.strip_eq_self h, String.ofList_toList]

theorem trimmed_showCount (n : UInt64) : trimmed (Text.showCount n) = Text.showCount n := by
  apply trimmed_eq_self
  intro c hc
  rw [Text.showCount, Text.toList_showNat] at hc
  have hne {d : Char} (hd : Text.digit? d = none) : c ≠ d :=
    ne_of_mem_of_not_mem hc (Text.notMem_decimal _ hd)
  simp only [Xml.isSpaceChar, Bool.or_eq_false_iff, decide_eq_false_iff_not]
  exact ⟨⟨⟨hne rfl, hne rfl⟩, hne rfl⟩, hne rfl⟩

theorem readCount_showCount (place : String) (n : UInt64) :
    readCount place (Text.showCount n) = .ok n := by
  rw [readCount, Text.showCount, Text.toList_showNat, Text.strip_decimal, Text.readCount?_decimal]

theorem showCount_ne_empty (n : UInt64) : Text.showCount n ≠ "" := by
  intro h
  have hdigits := congrArg String.toList h
  rw [Text.showCount, Text.toList_showNat] at hdigits
  exact Text.decimal_ne_nil _ hdigits

theorem Draft.readText_showCount (d : Draft) (n : UInt64) :
    d.readText (Text.showCount n) = d.texted (Text.showCount n) := by
  rw [readText, trimmed_showCount, if_neg (showCount_ne_empty n)]

/-! ## Places -/

/-- A place as it is read back. -/
def readPlace (p : Place) : Place :=
  { p with name := if trimmed p.name = "" then p.id else trimmed p.name }

namespace Draft

/-- The draft with this place at hand. -/
def atPlace (d : Draft) (p : Place) : Draft :=
  { d with places := p :: d.places, position := .place }

variable {d : Draft} {p : Place} {tag : Xml.Tag}

theorem reads_placeName (name : String) :
    Reads (d.atPlace p) [labelled "name" name]
      (d.atPlace { p with name := if trimmed name = "" then p.name else trimmed name }) := by
  have htext : ((d.atPlace p).goTo .placeName).readText name = .ok ((d.atPlace
      { p with name := if trimmed name = "" then p.name else trimmed name }).goTo .placeName) := by
    unfold readText
    split <;> rfl
  exact reads_labelled rfl htext

theorem reads_initialMarking (n : UInt64) :
    Reads (d.atPlace p) [labelled "initialMarking" (Text.showCount n)]
      (d.atPlace { p with initial := n }) := by
  have htext : ((d.atPlace p).goTo .initialMarking).readText (Text.showCount n) =
      .ok ((d.atPlace { p with initial := n }).goTo .initialMarking) := by
    rw [readText_showCount]
    unfold texted changePlace atPlace goTo
    dsimp only
    rw [readCount_showCount]
    rfl
  exact reads_labelled rfl htext

theorem reads_finalMarking (n : UInt64) :
    Reads (d.atPlace p) [labelled "finalMarking" (Text.showCount n)]
      (d.atPlace { p with final := some n }) := by
  have htext : ((d.atPlace p).goTo .finalMarking).readText (Text.showCount n) =
      .ok ((d.atPlace { p with final := some n }).goTo .finalMarking) := by
    rw [readText_showCount]
    unfold texted changePlace atPlace goTo
    dsimp only
    rw [readCount_showCount]
    rfl
  exact reads_labelled rfl htext

theorem reads_finalMarking? (h : p.final = none) (final : Option UInt64) :
    Reads (d.atPlace p)
      (final.map fun n ↦ labelled "finalMarking" (Text.showCount n)).toList
      (d.atPlace { p with final := final }) := by
  cases final with
  | none =>
    have hp : { p with final := none } = p := by
      rw [← h]
    rw [hp]
    exact reads_nil _
  | some n => exact reads_finalMarking n

theorem reads_placeType (kind : PlaceKind) :
    Reads (d.atPlace p) [labelled "type" kind.tag] (d.atPlace { p with kind := kind }) := by
  have htext : ((d.atPlace p).goTo .placeKind).readText kind.tag =
      .ok ((d.atPlace { p with kind := kind }).goTo .placeKind) := by
    cases kind <;> rfl
  exact reads_labelled rfl htext

theorem opened_place (h : tag.name = bytesOf "place") : d.opened tag = d.openPlace tag := by
  unfold opened
  rw [h]
  rfl

theorem closed_place : d.closed (bytesOf "place") = d.closePlace := rfl

theorem reads_placeMarkup (d : Draft) (p : Place) :
    Reads (d.goTo .net) [placeMarkup p]
      ({ d with places := readPlace p :: d.places }.goTo .net) := by
  have hkeys := Xml.isName_keys [("id", p.id)]
    (show ∀ key ∈ ["id"], IsName key by decide)
  have hopen : (d.goTo .net).opened (writtenTag "place" [("id", p.id)]) =
      .ok (d.atPlace ⟨p.id, p.id, 0, none, .model⟩) := by
    rw [opened_place (Xml.name_writtenTag (by decide) hkeys), openPlace,
      if_neg Position.noConfusion, required, Xml.value?_writtenTag (by decide) hkeys (by decide)]
    rfl
  have hcounts := (reads_placeName (d := d) (p := ⟨p.id, p.id, 0, none, .model⟩) p.name).cons
    (reads_initialMarking p.initial)
  have hfinal := hcounts.append (reads_finalMarking? rfl p.final)
  have hplace := reads_element hopen (hfinal.append (reads_placeType p.kind))
  rw [closed_place, closePlace, if_neg Position.noConfusion] at hplace
  dsimp only [atPlace, goTo] at hplace
  exact hplace

end Draft

/-! ## Transitions -/

/-- A transition as it is read before its label is filled in. -/
def readTransition (t : Transition) : Transition :=
  { t with name := trimmed t.name, label := trimmed t.label }

namespace Draft

/-- The draft with this transition at hand. -/
def atTransition (d : Draft) (t : Transition) : Draft :=
  { d with transitions := t :: d.transitions, position := .transition }

variable {d : Draft} {t : Transition} {tag : Xml.Tag}

theorem reads_transitionName (h : t.name = "") (name : String) :
    Reads (d.atTransition t) [labelled "name" name]
      (d.atTransition { t with name := trimmed name }) := by
  have htext : ((d.atTransition t).goTo .transitionName).readText name =
      .ok ((d.atTransition { t with name := trimmed name }).goTo .transitionName) := by
    unfold readText
    split
    case isTrue hblank =>
      rw [hblank, ← h]
    case isFalse => rfl
  exact reads_labelled rfl htext

theorem reads_transitionLabel (h : t.label = "") (label : String) :
    Reads (d.atTransition t) [labelled "origname" label]
      (d.atTransition { t with label := trimmed label }) := by
  have htext : ((d.atTransition t).goTo .transitionLabel).readText label =
      .ok ((d.atTransition { t with label := trimmed label }).goTo .transitionLabel) := by
    unfold readText
    split
    case isTrue hblank =>
      rw [hblank, ← h]
    case isFalse => rfl
  exact reads_labelled rfl htext

theorem reads_transitionType (kind : TransitionKind) :
    Reads (d.atTransition t) [labelled "type" kind.tag]
      (d.atTransition { t with kind := kind }) := by
  have htext : ((d.atTransition t).goTo .transitionKind).readText kind.tag =
      .ok ((d.atTransition { t with kind := kind }).goTo .transitionKind) := by
    cases kind <;> rfl
  exact reads_labelled rfl htext

theorem opened_toolspecific (h : tag.name = bytesOf "toolspecific") :
    d.opened tag = .ok (d.openToolSpecific tag) := by
  unfold opened
  rw [h]
  rfl

theorem closed_toolspecific : d.closed (bytesOf "toolspecific") = d := rfl

theorem reads_invisibleMark (id : String) :
    Reads (d.atTransition t) [invisibleMark id]
      ({ d with invisible := d.invisible.insert t.id () }.atTransition t) := by
  let attributes :=
    [("tool", "ProM"), ("version", "6.4"), ("activity", "$invisible$"), ("localNodeID", id)]
  have hkeys := Xml.isName_keys attributes
    (show ∀ key ∈ ["tool", "version", "activity", "localNodeID"], IsName key by decide)
  have hname : (writtenTag "toolspecific" attributes).name = bytesOf "toolspecific" :=
    Xml.name_writtenTag (by decide) hkeys
  have hactivity : (writtenTag "toolspecific" attributes).value? "activity" =
      some "$invisible$" := by
    rw [Xml.value?_writtenTag (by decide) hkeys (by decide)]
    rfl
  have hmark : (d.atTransition t).openToolSpecific (writtenTag "toolspecific" attributes) =
      { d with invisible := d.invisible.insert t.id () }.atTransition t := by
    unfold openToolSpecific atTransition
    dsimp only
    rw [if_pos ⟨rfl, hactivity⟩]
  have hstep : step (d.atTransition t) (.empty (writtenTag "toolspecific" attributes)) =
      .ok ({ d with invisible := d.invisible.insert t.id () }.atTransition t) := by
    rw [step, opened_toolspecific hname, hmark, hname]
    exact congrArg Except.ok closed_toolspecific
  rw [reads_singleton, invisibleMark, Markup.events, List.foldlM_cons, hstep]
  rfl

theorem reads_invisibleMark? (marked : Bool) :
    Reads (d.atTransition t) (if marked then [invisibleMark t.id] else [])
      ({ d with
        invisible :=
          if marked then d.invisible.insert t.id () else d.invisible }.atTransition t) := by
  cases marked with
  | false => exact reads_nil _
  | true => exact reads_invisibleMark t.id

theorem opened_transition (h : tag.name = bytesOf "transition") :
    d.opened tag = d.openTransition tag := by
  unfold opened
  rw [h]
  rfl

theorem closed_transition : d.closed (bytesOf "transition") = d.goTo .net := rfl

theorem reads_transitionMarkup (d : Draft) (invisible : IdSet) (t : Transition) :
    Reads (d.goTo .net) [transitionMarkup invisible t]
      ({ d with
        transitions := readTransition t :: d.transitions
        invisible := if invisible.contains t.id then d.invisible.insert t.id ()
          else d.invisible }.goTo .net) := by
  have hkeys := Xml.isName_keys [("id", t.id)]
    (show ∀ key ∈ ["id"], IsName key by decide)
  have hopen : (d.goTo .net).opened (writtenTag "transition" [("id", t.id)]) =
      .ok (d.atTransition ⟨t.id, "", "", .model⟩) := by
    rw [opened_transition (Xml.name_writtenTag (by decide) hkeys), openTransition, required,
      Xml.value?_writtenTag (by decide) hkeys (by decide)]
    rfl
  have hname := reads_transitionName (d := d) (t := ⟨t.id, "", "", .model⟩) rfl t.name
  have hlabels := hname.cons ((reads_transitionLabel rfl t.label).cons
    (reads_transitionType t.kind))
  have htransition := reads_element hopen
    (hlabels.append (reads_invisibleMark? (invisible.contains t.id)))
  rw [closed_transition] at htransition
  exact htransition

/-! ## Arcs -/

theorem opened_arc (h : tag.name = bytesOf "arc") : d.opened tag = d.openArc tag := by
  unfold opened
  rw [h]
  rfl

theorem closed_arc : d.closed (bytesOf "arc") = d.goTo .net := rfl

/-- The name of an arc is passed over. -/
theorem reads_arcName (name : String) :
    Reads (d.goTo .arc) [labelled "name" name] (d.goTo .arc) := by
  have htext : (d.goTo .arc).readText name = .ok (d.goTo .arc) := by
    unfold readText
    split <;> rfl
  exact reads_labelled rfl htext

theorem reads_arcMarkup (d : Draft) (a : Arc) :
    Reads (d.goTo .net) [arcMarkup a] ({ d with arcs := ⟨a, none⟩ :: d.arcs }.goTo .net) := by
  let attributes := [("id", a.id), ("source", a.source), ("target", a.target)]
  have hkeys := Xml.isName_keys attributes
    (show ∀ key ∈ ["id", "source", "target"], IsName key by decide)
  have hid : (writtenTag "arc" attributes).value? "id" = some a.id := by
    rw [Xml.value?_writtenTag (by decide) hkeys (by decide)]
    rfl
  have hsource : (writtenTag "arc" attributes).value? "source" = some a.source := by
    rw [Xml.value?_writtenTag (by decide) hkeys (by decide)]
    rfl
  have htarget : (writtenTag "arc" attributes).value? "target" = some a.target := by
    rw [Xml.value?_writtenTag (by decide) hkeys (by decide)]
    rfl
  have hopen : (d.goTo .net).opened (writtenTag "arc" attributes) =
      .ok ({ d with arcs := ⟨a, none⟩ :: d.arcs }.goTo .arc) := by
    rw [opened_arc (Xml.name_writtenTag (by decide) hkeys), openArc, required, required, hsource,
      htarget, hid]
    rfl
  have harc := reads_element hopen (reads_arcName a.id)
  rw [closed_arc] at harc
  exact harc

end Draft

end PetriAlign.Pnml
