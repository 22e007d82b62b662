import PetriAlign.Proofs.Pnml.Labels

/-!
# Reading declarations

Each declaration of the grammar adds to the draft what it says, and the reader is back between the
declarations of the net afterwards. A declaration is read one node at a time, and what a node says
is what the declaration would say with this node alone.
-/

namespace PetriAlign.Pnml.Draft

open Xml (Node TagSource writtenTag bytesOf)

variable {d : Draft}

/-! ## Places -/

section Place

variable {p p' : Place} {n : Node} {content : List Node}

theorem placeWith_cons
    (h : ∀ field ∈ placeFields, contentOf? field.name n = none ∨ label? field.name content = none)
    (p : Place) : placeWith p (n :: content) = placeWith (placeWith p [n]) content := by
  simp only [placeFields, List.forall_mem_cons] at h
  have hname := apply_label?_cons h.1 (fun text? name ↦ text?.getD name) (fun _ ↦ rfl) p.name
  have hinitial := apply_label?_cons h.2.1 (fun text? n ↦ (text?.bind countOf?).getD n)
    (fun _ ↦ rfl) p.initial
  have hfinal := apply_label?_cons h.2.2.1 (fun text? n ↦ (text?.bind countOf?).or n)
    (fun _ ↦ Option.none_or) p.final
  have hkind := apply_label?_cons h.2.2.2.1 (fun text? kind ↦ (text?.bind placeKindOf?).getD kind)
    (fun _ ↦ rfl) p.kind
  rw [placeWith, hname, hinitial, hfinal, hkind]
  rfl

/-- A node without labels says nothing about a place. -/
theorem placeWith_of_none (h : ∀ field ∈ placeFields, label? field.name [n] = none) (p : Place) :
    placeWith p [n] = p := by
  simp only [placeFields, List.forall_mem_cons] at h
  rw [placeWith, h.1, h.2.1, h.2.2.1, h.2.2.2.1]
  rfl

theorem readCount_of_countOf? {place text : String} {n : UInt64} (h : countOf? text = some n) :
    readCount place text = .ok n := by
  unfold countOf? at h
  rw [readCount, h]

theorem readPlaceKind_of_placeKindOf? {text : String} {kind : PlaceKind}
    (h : placeKindOf? text = some kind) : readPlaceKind text = .ok kind := by
  unfold placeKindOf? at h
  rw [readPlaceKind, h]

/-- A label of a place leads to its text, which changes the place at hand, and back. -/
theorem readNode_placeLabel {field : Field} (position : Position)
    (change : String → Place → Except ParseError Place) (hlabel : field.IsLabel n)
    (hname : field.name ∈ plainNames)
    (hopen : (d.atPlace p).opened (writtenTag field.name []) = .ok ((d.atPlace p).goTo position))
    (htexted : ∀ text, ((d.atPlace p).goTo position).texted text =
      ((d.atPlace p).goTo position).changePlace (change text))
    (hclosed : ∀ p', ((d.atPlace p').goTo position).closed (bytesOf field.name) = d.atPlace p')
    (hchange : ∀ text, field.accepts text = true →
      (∀ name, label? name [n] = if bytesOf field.name = bytesOf name then some text else none) →
      change text p = .ok (placeWith p [n])) :
    (d.atPlace p).readNode n = .ok (d.atPlace (placeWith p [n])) := by
  have hread : (d.atPlace p).readNode n =
      .ok (((d.atPlace (placeWith p [n])).goTo position).closed (bytesOf field.name)) := by
    refine readNode_label hlabel hname hopen (fun hnone ↦ ?_) fun text haccepts hlabels ↦ ?_
    · rw [placeWith_of_none fun field _ ↦ hnone field.name]
    · rw [htexted]
      change (change text p).map _ = _
      rw [hchange text haccepts hlabels]
      rfl
  rw [hread, hclosed]

/-- A node in a place is read as what it says about the place. -/
theorem readNode_atPlace (h : IsFiller n ∨ ∃ field ∈ placeFields, field.IsLabel n) :
    (d.atPlace p).readNode n = .ok (d.atPlace (placeWith p [n])) := by
  rcases h with hfiller | ⟨field, hfield, hlabel⟩
  · have hnone : ∀ field ∈ placeFields, label? field.name [n] = none := by
      intro field hfield
      exact label?_cons_of_none (hfiller.contentOf?_eq (by revert field; decide))
    rw [readNode_filler hfiller, placeWith_of_none hnone]
  · simp only [placeFields, List.mem_cons, List.not_mem_nil, or_false] at hfield
    rcases hfield with rfl | rfl | rfl | rfl
    case inr.inl =>
      refine readNode_placeLabel .placeName (fun text p ↦ .ok { p with name := text }) hlabel
        (by decide) rfl (fun _ ↦ rfl) (fun _ ↦ rfl) fun text _ hlabels ↦ ?_
      simp +decide [placeWith, hlabels]
    case inr.inr.inl =>
      refine readNode_placeLabel .initialMarking
        (fun text p ↦ (readCount p.id text).map fun n ↦ { p with initial := n }) hlabel
        (by decide) rfl (fun _ ↦ rfl) (fun _ ↦ rfl) fun text haccepts hlabels ↦ ?_
      have hsome : (countOf? text).isSome = true := haccepts
      obtain ⟨count, hcount⟩ := Option.isSome_iff_exists.1 hsome
      rw [readCount_of_countOf? hcount]
      simp +decide [placeWith, hlabels, hcount, Except.map]
    case inr.inr.inr.inl =>
      refine readNode_placeLabel .finalMarking
        (fun text p ↦ (readCount p.id text).map fun n ↦ { p with final := some n }) hlabel
        (by decide) rfl (fun _ ↦ rfl) (fun _ ↦ rfl) fun text haccepts hlabels ↦ ?_
      have hsome : (countOf? text).isSome = true := haccepts
      obtain ⟨count, hcount⟩ := Option.isSome_iff_exists.1 hsome
      rw [readCount_of_countOf? hcount]
      simp +decide [placeWith, hlabels, hcount, Except.map]
    case inr.inr.inr.inr =>
      refine readNode_placeLabel .placeKind
        (fun text p ↦ (readPlaceKind text).map fun kind ↦ { p with kind := kind }) hlabel
        (by decide) rfl (fun _ ↦ rfl) (fun _ ↦ rfl) fun text haccepts hlabels ↦ ?_
      have hsome : (placeKindOf? text).isSome = true := haccepts
      obtain ⟨kind, hkind⟩ := Option.isSome_iff_exists.1 hsome
      rw [readPlaceKind_of_placeKindOf? hkind]
      simp +decide [placeWith, hlabels, hkind, Except.map]

/-- The labels of a place are read as what they say about it. -/
theorem foldlM_placeContent (h : HoldsLabels placeFields IsFiller content) (p : Place) :
    content.foldlM readNode (d.atPlace p) = .ok (d.atPlace (placeWith p content)) := by
  induction content generalizing p with
  | nil => rfl
  | cons n content ih =>
    obtain ⟨hrest, hapart⟩ := h.of_cons
    rw [List.foldlM_cons, readNode_atPlace (h.forall_node n List.mem_cons_self),
      placeWith_cons hapart]
    exact ih hrest _

theorem placeOf?_element {tag : TagSource} {short : Bool} {id : String}
    (hname : tag.name.bytes = bytesOf "place") (hid : tag.value? "id" = some id) :
    placeOf? (.element tag short content) =
      some (placeWith ⟨id, id, 0, none, .model⟩ content) := by
  rw [placeOf?, if_pos hname, hid]
  rfl

theorem readNode_place {tag : TagSource} (short : Bool) (hname : tag.name.bytes = bytesOf "place")
    (hid : (tag.value? "id").isSome) (hcontent : HoldsLabels placeFields IsFiller content) :
    (d.goTo .net).readNode (.element tag short content) = .ok ({ d with
      places := (placeOf? (.element tag short content)).toList ++ d.places }.goTo .net) := by
  obtain ⟨id, hid⟩ := Option.isSome_iff_exists.1 hid
  have hopen : (d.goTo .net).opened tag.read =
      .ok (d.atPlace ⟨id, id, 0, none, .model⟩) := by
    rw [opened_place (tag.name_read.trans hname), openPlace, if_neg Position.noConfusion, required,
      tag.value?_read, hid]
    rfl
  have hread := foldlM_placeContent (d := d) hcontent ⟨id, id, 0, none, .model⟩
  rw [← foldlM_eventsFrom (hcontent.isQuiet fun _ h ↦ h.isQuiet)] at hread
  rw [readNode_element short hopen hread, hname, closed_place, closePlace,
    if_neg Position.noConfusion, placeOf?_element hname hid]
  rfl

end Place

/-! ## Transitions -/

section Transition

variable {t : Transition} {n : Node} {content : List Node}

theorem transitionWith_cons
    (h : ∀ field ∈ transitionFields,
      contentOf? field.name n = none ∨ label? field.name content = none) (t : Transition) :
    transitionWith t (n :: content) = transitionWith (transitionWith t [n]) content := by
  simp only [transitionFields, List.forall_mem_cons] at h
  have hname := apply_label?_cons h.1 (fun text? name ↦ text?.getD name) (fun _ ↦ rfl) t.name
  have hlabel := apply_label?_cons h.2.1 (fun text? label ↦ text?.getD label) (fun _ ↦ rfl) t.label
  have hkind := apply_label?_cons h.2.2.1
    (fun text? kind ↦ (text?.bind transitionKindOf?).getD kind) (fun _ ↦ rfl) t.kind
  rw [transitionWith, hname, hlabel, hkind]
  rfl

/-- A node without labels says nothing about a transition. -/
theorem transitionWith_of_none (h : ∀ field ∈ transitionFields, label? field.name [n] = none)
    (t : Transition) : transitionWith t [n] = t := by
  simp only [transitionFields, List.forall_mem_cons] at h
  rw [transitionWith, h.1, h.2.1, h.2.2.1]
  rfl

theorem readTransitionKind_of_transitionKindOf? {text : String} {kind : TransitionKind}
    (h : transitionKindOf? text = some kind) : readTransitionKind text = .ok kind := by
  unfold transitionKindOf? at h
  rw [readTransitionKind, h]

/-- A label of a transition leads to its text, which changes the transition at hand, and back. -/
theorem readNode_transitionLabel {field : Field} (position : Position)
    (change : String → Transition → Except ParseError Transition) (hlabel : field.IsLabel n)
    (hname : field.name ∈ plainNames)
    (hopen : (d.atTransition t).opened (writtenTag field.name []) =
      .ok ((d.atTransition t).goTo position))
    (htexted : ∀ text, ((d.atTransition t).goTo position).texted text =
      ((d.atTransition t).goTo position).changeTransition (change text))
    (hclosed : ∀ t', ((d.atTransition t').goTo position).closed (bytesOf field.name) =
      d.atTransition t')
    (hchange : ∀ text, field.accepts text = true →
      (∀ name, label? name [n] = if bytesOf field.name = bytesOf name then some text else none) →
      change text t = .ok (transitionWith t [n])) :
    (d.atTransition t).readNode n = .ok (d.atTransition (transitionWith t [n])) := by
  have hread : (d.atTransition t).readNode n =
      .ok (((d.atTransition (transitionWith t [n])).goTo position).closed
        (bytesOf field.name)) := by
    refine readNode_label hlabel hname hopen (fun hnone ↦ ?_) fun text haccepts hlabels ↦ ?_
    · rw [transitionWith_of_none fun field _ ↦ hnone field.name]
    · rw [htexted]
      change (change text t).map _ = _
      rw [hchange text haccepts hlabels]
      rfl
  rw [hread, hclosed]

/-- The draft with the transition marked as silent, if a tool says so. -/
def noteSilent (d : Draft) (id : String) (silent : Bool) : Draft :=
  { d with invisible := if silent then d.invisible.insert id () else d.invisible }

theorem noteSilent_noteSilent (d : Draft) (id : String) (silent silent' : Bool) :
    (d.noteSilent id silent).noteSilent id silent' = d.noteSilent id (silent || silent') := by
  have hinsert : (d.invisible.insert id ()).insert id () = d.invisible.insert id () := by
    apply Table.ext_get?
    intro key
    rw [Table.get?_insert, Table.get?_insert]
    split <;> rfl
  cases silent <;> cases silent' <;> simp [noteSilent, hinsert]

theorem readNode_toolNote (h : IsToolNote n) : (d.atTransition t).readNode n =
    .ok ((d.noteSilent t.id (isSilentNote n)).atTransition t) := by
  cases h with
  | filler hfiller =>
    have hsilent : isSilentNote n = false := by
      cases hfiller with
      | element hname _ => simp [isSilentNote, hname "toolspecific" (by decide)]
      | _ => rfl
    rw [readNode_filler hfiller, hsilent]
    rfl
  | @element tag short content hname hcontent =>
    have hnote : (d.atTransition t).openToolSpecific tag.read =
        (d.noteSilent t.id (isSilentNote (.element tag short content))).atTransition t := by
      unfold openToolSpecific atTransition
      dsimp only
      rw [tag.value?_read, isSilentNote, hname]
      by_cases hactivity : tag.value? "activity" = some "$invisible$"
      · rw [if_pos ⟨rfl, hactivity⟩, hactivity]
        rfl
      · rw [if_neg fun h ↦ hactivity h.2, decide_eq_false hactivity, Bool.and_false]
        rfl
    have hopen : (d.atTransition t).opened tag.read = _ :=
      opened_toolspecific (tag.name_read.trans hname)
    rw [hnote] at hopen
    rw [readNode_element short hopen (foldlM_fillers hcontent _), hname, closed_toolspecific]

/-- A node in a transition is read as what it says about the transition. -/
theorem readNode_atTransition (h : IsToolNote n ∨ ∃ field ∈ transitionFields, field.IsLabel n) :
    (d.atTransition t).readNode n =
      .ok ((d.noteSilent t.id (isSilentNote n)).atTransition (transitionWith t [n])) := by
  rcases h with hnote | ⟨field, hfield, hlabel⟩
  · have hnone : ∀ field ∈ transitionFields, label? field.name [n] = none := by
      intro field hfield
      apply label?_cons_of_none
      cases hnote with
      | filler hfiller => exact hfiller.contentOf?_eq (by revert field; decide)
      | element hname _ =>
        rw [contentOf?_element hname, if_neg]
        revert field
        decide
    rw [readNode_toolNote hnote, transitionWith_of_none hnone]
  · have hnames : ∀ field ∈ transitionFields, bytesOf field.name ≠ bytesOf "toolspecific" := by
      decide
    have hsilent : isSilentNote n = false := by
      cases hlabel with
      | intro hname _ _ => simp [isSilentNote, hname, hnames field hfield]
    have hdraft : d.noteSilent t.id (isSilentNote n) = d := by
      rw [hsilent]
      rfl
    rw [hdraft]
    simp only [transitionFields, List.mem_cons, List.not_mem_nil, or_false] at hfield
    rcases hfield with rfl | rfl | rfl
    case inr.inl =>
      refine readNode_transitionLabel .transitionName (fun text t ↦ .ok { t with name := text })
        hlabel (by decide) rfl (fun _ ↦ rfl) (fun _ ↦ rfl) fun text _ hlabels ↦ ?_
      simp +decide [transitionWith, hlabels]
    case inr.inr.inl =>
      refine readNode_transitionLabel .transitionLabel (fun text t ↦ .ok { t with label := text })
        hlabel (by decide) rfl (fun _ ↦ rfl) (fun _ ↦ rfl) fun text _ hlabels ↦ ?_
      simp +decide [transitionWith, hlabels]
    case inr.inr.inr =>
      refine readNode_transitionLabel .transitionKind
        (fun text t ↦ (readTransitionKind text).map fun kind ↦ { t with kind := kind }) hlabel
        (by decide) rfl (fun _ ↦ rfl) (fun _ ↦ rfl) fun text haccepts hlabels ↦ ?_
      have hsome : (transitionKindOf? text).isSome = true := haccepts
      obtain ⟨kind, hkind⟩ := Option.isSome_iff_exists.1 hsome
      rw [readTransitionKind_of_transitionKindOf? hkind]
      simp +decide [transitionWith, hlabels, hkind, Except.map]

theorem foldlM_transitionContent (h : HoldsLabels transitionFields IsToolNote content)
    (d : Draft) (t : Transition) : content.foldlM readNode (d.atTransition t) =
      .ok ((d.noteSilent t.id (content.any isSilentNote)).atTransition
        (transitionWith t content)) := by
  induction content generalizing d t with
  | nil => rfl
  | cons n content ih =>
    obtain ⟨hrest, hapart⟩ := h.of_cons
    rw [List.foldlM_cons, readNode_atTransition (h.forall_node n List.mem_cons_self),
      transitionWith_cons hapart, List.any_cons, ← noteSilent_noteSilent]
    exact ih hrest _ _

theorem IsToolNote.isQuiet (h : IsToolNote n) : IsQuiet n := by
  cases h with
  | filler hfiller => exact hfiller.isQuiet
  | element => trivial

theorem readNode_transition {tag : TagSource} (short : Bool)
    (hname : tag.name.bytes = bytesOf "transition") (hid : (tag.value? "id").isSome)
    (hcontent : HoldsLabels transitionFields IsToolNote content) :
    (d.goTo .net).readNode (.element tag short content) = .ok ({ d with
      transitions := (transitionOf? (.element tag short content)).toList ++ d.transitions
      invisible := (silentId? (.element tag short content)).elim d.invisible
        (d.invisible.insert · ()) }.goTo .net) := by
  obtain ⟨id, hid⟩ := Option.isSome_iff_exists.1 hid
  have hopen : (d.goTo .net).opened tag.read = .ok (d.atTransition ⟨id, "", "", .model⟩) := by
    rw [opened_transition (tag.name_read.trans hname), openTransition, required,
      tag.value?_read, hid]
    rfl
  have hread := foldlM_transitionContent hcontent d ⟨id, "", "", .model⟩
  rw [← foldlM_eventsFrom (hcontent.isQuiet fun _ h ↦ IsToolNote.isQuiet h)] at hread
  have htransition : transitionOf? (.element tag short content) =
      some (transitionWith ⟨id, "", "", .model⟩ content) := by
    rw [transitionOf?, if_pos hname, hid]
    rfl
  have hsilent : silentId? (.element tag short content) =
      if content.any isSilentNote then some id else none := by
    simp [silentId?, hname, hid]
  rw [readNode_element short hopen hread, hname, closed_transition, htransition, hsilent]
  cases content.any isSilentNote <;> rfl

end Transition

/-! ## Arcs -/

section Arc

variable {n : Node} {content : List Node}

/-- The arc that is declared here, with the text of its inscription. -/
def draftArcOf? : Node → Option DraftArc
  | .element tag short content =>
    (arcOf? (.element tag short content)).map (⟨·, label? "inscription" content⟩)
  | .text _ | .comment _ | .instruction _ => none

/-- The draft with this arc at hand. -/
def atArc (d : Draft) (a : DraftArc) : Draft := { d with arcs := a :: d.arcs, position := .arc }

theorem readNode_atArc {a : DraftArc} (h : IsFiller n ∨ ∃ field ∈ arcFields, field.IsLabel n) :
    (d.atArc a).readNode n =
      .ok (d.atArc { a with weight := (label? "inscription" [n]).or a.weight }) := by
  rcases h with hfiller | ⟨field, hfield, hlabel⟩
  · rw [readNode_filler hfiller, label?_cons_of_none (hfiller.contentOf?_eq (by decide))]
    rfl
  · obtain rfl := List.mem_singleton.1 hfield
    have hread : (d.atArc a).readNode n = .ok (((d.atArc { a with
        weight := (label? "inscription" [n]).or a.weight }).goTo .inscription).closed
          (bytesOf "inscription")) := by
      refine readNode_label hlabel (by decide) rfl (fun hnone ↦ ?_) fun text _ hlabels ↦ ?_
      · rw [hnone]
        rfl
      · rw [hlabels, if_pos rfl]
        rfl
    exact hread

theorem foldlM_arcContent (h : HoldsLabels arcFields IsFiller content) (a : DraftArc) :
    content.foldlM readNode (d.atArc a) =
      .ok (d.atArc { a with weight := (label? "inscription" content).or a.weight }) := by
  induction content generalizing a with
  | nil => rfl
  | cons n content ih =>
    obtain ⟨hrest, hapart⟩ := h.of_cons
    have hweight := apply_label?_cons (hapart _ List.mem_cons_self)
      (fun text? weight ↦ text?.or weight) (fun _ ↦ Option.none_or) a.weight
    rw [List.foldlM_cons, readNode_atArc (h.forall_node n List.mem_cons_self)]
    exact (ih hrest _).trans (by rw [hweight])

theorem readNode_arc {tag : TagSource} (short : Bool) (hname : tag.name.bytes = bytesOf "arc")
    (hsource : (tag.value? "source").isSome) (htarget : (tag.value? "target").isSome)
    (hcontent : HoldsLabels arcFields IsFiller content) :
    (d.goTo .net).readNode (.element tag short content) = .ok ({ d with
      arcs := (draftArcOf? (.element tag short content)).toList ++ d.arcs }.goTo .net) := by
  obtain ⟨source, hsource⟩ := Option.isSome_iff_exists.1 hsource
  obtain ⟨target, htarget⟩ := Option.isSome_iff_exists.1 htarget
  let arc : Arc := ⟨(tag.value? "id").getD (source ++ target), source, target⟩
  have hopen : (d.goTo .net).opened tag.read = .ok (d.atArc ⟨arc, none⟩) := by
    rw [opened_arc (tag.name_read.trans hname), openArc, required, required, tag.value?_read,
      tag.value?_read, tag.value?_read, hsource, htarget]
    rfl
  have harc : arcOf? (.element tag short content) = some arc := by
    rw [arcOf?, if_pos hname, hsource, htarget]
    rfl
  have hread := foldlM_arcContent (d := d) hcontent ⟨arc, none⟩
  rw [← foldlM_eventsFrom (hcontent.isQuiet fun _ h ↦ h.isQuiet)] at hread
  rw [readNode_element short hopen hread, hname, closed_arc, draftArcOf?, harc, Option.or_none]
  rfl

/-- The text of an inscription is that of a label. -/
theorem trim_inscription {text : String} (h : HoldsLabels arcFields IsFiller content)
    (htext : label? "inscription" content = some text) : Text.trim text = "1" := by
  obtain ⟨label, hlabel, htext⟩ := Option.bind_eq_some_iff.1 htext
  obtain ⟨n, hn, hcontent⟩ := List.exists_of_findSome?_eq_some hlabel
  rcases h.forall_node n hn with hfiller | ⟨field, hfield, hfieldLabel⟩
  · rw [hfiller.contentOf?_eq (by decide)] at hcontent
    cases hcontent
  · obtain rfl := List.mem_singleton.1 hfield
    cases hfieldLabel with
    | intro hname _ haccepts =>
      rw [contentOf?_element hname, if_pos rfl] at hcontent
      cases hcontent
      exact of_decide_eq_true (haccepts text htext)

end Arc

/-! ## Final markings -/

section FinalMarkings

variable {n : Node} {content : List Node}

/-- The draft at this position in the list of final markings, between the places. -/
def inFinal (d : Draft) (position : Position) : Draft :=
  { d with markedPlace := none, position := position }

theorem position_inFinal (position : Position) : (d.inFinal position).position = position := rfl

/-- The draft at this place of a final marking. -/
def inMark (d : Draft) (place : String) : Draft :=
  { d with markedPlace := some place, position := .markingPlace }

theorem position_inMark (place : String) : (d.inMark place).position = .markingPlace := rfl

/-- The draft with these pairs of the final marking at hand, if it is the first. -/
def addMarks (d : Draft) (marks : List (String × UInt64)) : Draft :=
  if d.markings = 1 then { d with final := marks.reverse ++ d.final } else d

theorem addMarks_nil (d : Draft) : d.addMarks [] = d := ite_self _

theorem addMarks_append (d : Draft) (marks marks' : List (String × UInt64)) :
    d.addMarks (marks ++ marks') = (d.addMarks marks).addMarks marks' := by
  by_cases h : d.markings = 1 <;> simp [addMarks, h]

theorem readGiven_inMark {place : String} {text? : Option String}
    (hcount : ∀ text ∈ text?, (countOf? text).isSome) :
    (d.inMark place).readGiven text? =
      .ok ((d.addMarks ((text?.bind countOf?).map (place, ·)).toList).inMark place) := by
  cases text? with
  | none =>
    change _ = Except.ok ((d.addMarks []).inMark place)
    rw [addMarks_nil]
    rfl
  | some text =>
    obtain ⟨count, hcount⟩ := Option.isSome_iff_exists.1 (hcount text rfl)
    rw [Option.bind_some, hcount, readGiven]
    change (if d.markings = 1 then (readCount place text).map _ else _) =
      Except.ok ((d.addMarks [(place, count)]).inMark place)
    rw [readCount_of_countOf? hcount, addMarks]
    split <;> rfl

theorem readNode_mark (h : IsMark n) : (d.inFinal .marking).readNode n =
    .ok ((d.addMarks (markOf? n).toList).inFinal .marking) := by
  cases h with
  | filler hfiller =>
    have hmark : markOf? n = none := by
      cases hfiller with
      | element hname _ => exact if_neg (hname "place" (by decide))
      | _ => rfl
    rw [readNode_filler hfiller, hmark, Option.toList_none, addMarks_nil]
  | @element tag short content hname hid hlabel hcount =>
    obtain ⟨place, hplace⟩ := Option.isSome_iff_exists.1 hid
    have hopen : (d.inFinal .marking).opened tag.read = .ok (d.inMark place) := by
      rw [opened_place (tag.name_read.trans hname), openPlace,
        if_pos (position_inFinal _), required, tag.value?_read, hplace]
      rfl
    have hmark : markOf? (.element tag short content) =
        ((labelText? content).bind countOf?).map (place, ·) := by
      rw [markOf?, if_pos hname, hplace]
      cases labelText? content with
      | none => rfl
      | some text =>
        change (countOf? text).bind _ = (countOf? text).map _
        cases countOf? text <;> rfl
    rw [readNode_element short hopen (foldlM_label hlabel (readGiven_inMark hcount)), hname,
      closed_place, closePlace, if_pos (position_inMark place), hmark]
    rfl

theorem IsMark.isQuiet (h : IsMark n) : IsQuiet n := by
  cases h with
  | filler hfiller => exact hfiller.isQuiet
  | element => trivial

theorem foldlM_markingContent (h : ∀ n ∈ content, IsMark n) (d : Draft) :
    content.foldlM readNode (d.inFinal .marking) =
      .ok ((d.addMarks (content.filterMap markOf?)).inFinal .marking) := by
  induction content generalizing d with
  | nil =>
    rw [List.filterMap_nil, addMarks_nil]
    rfl
  | cons n content ih =>
    rw [List.forall_mem_cons] at h
    have hmarks : (n :: content).filterMap markOf? =
        (markOf? n).toList ++ content.filterMap markOf? := by
      rw [List.filterMap_cons]
      cases markOf? n <;> rfl
    rw [List.foldlM_cons, readNode_mark h.1, hmarks, addMarks_append]
    exact ih h.2 _

/-- The draft after these final markings. -/
def addMarkings (d : Draft) (markings : List (List (String × UInt64))) : Draft :=
  { d with
    markings := d.markings + markings.length
    final := if d.markings = 0 then (markings.head?.getD []).reverse ++ d.final else d.final }

theorem addMarkings_nil (d : Draft) : d.addMarkings [] = d := by
  have hfinal : (if d.markings = 0 then [] ++ d.final else d.final) = d.final := ite_self _
  exact congrArg (fun final ↦ { d with final := final }) hfinal

theorem addMarkings_append (d : Draft) (markings markings' : List (List (String × UInt64))) :
    d.addMarkings (markings ++ markings') = (d.addMarkings markings).addMarkings markings' := by
  cases markings with
  | nil => rw [addMarkings_nil, List.nil_append]
  | cons marks markings =>
    by_cases h : d.markings = 0 <;> simp [addMarkings, h, Nat.add_assoc, Nat.add_comm 1]

theorem readNode_marking (h : IsMarking n) : (d.inFinal .finalMarkings).readNode n =
    .ok ((d.addMarkings (((contentOf? "marking" n).map (·.filterMap markOf?)).toList)).inFinal
      .finalMarkings) := by
  cases h with
  | filler hfiller =>
    rw [readNode_filler hfiller, hfiller.contentOf?_eq (by decide)]
    change _ = Except.ok ((d.addMarkings []).inFinal .finalMarkings)
    rw [addMarkings_nil]
  | @element tag short content hname hcontent =>
    have hopen : (d.inFinal .finalMarkings).opened tag.read =
        .ok ({ d with markings := d.markings + 1 }.inFinal .marking) :=
      (opened_of_name (tag.name_read.trans hname) (by decide)).trans rfl
    have hread := foldlM_markingContent hcontent { d with markings := d.markings + 1 }
    rw [← foldlM_eventsFrom fun n hn ↦ IsMark.isQuiet (hcontent n hn)] at hread
    rw [readNode_element short hopen hread, hname, contentOf?_element hname, if_pos rfl,
      closed_marking, goFrom, if_pos (position_inFinal _)]
    by_cases h : d.markings = 0 <;> simp [addMarkings, addMarks, h, goTo, inFinal]

theorem IsMarking.isQuiet (h : IsMarking n) : IsQuiet n := by
  cases h with
  | filler hfiller => exact hfiller.isQuiet
  | element => trivial

theorem foldlM_finalMarkingsContent (h : ∀ n ∈ content, IsMarking n) (d : Draft) :
    content.foldlM readNode (d.inFinal .finalMarkings) =
      .ok ((d.addMarkings ((content.filterMap (contentOf? "marking")).map
        (·.filterMap markOf?))).inFinal .finalMarkings) := by
  induction content generalizing d with
  | nil => exact congrArg (Except.ok ∘ (inFinal · .finalMarkings)) (addMarkings_nil d).symm
  | cons n content ih =>
    rw [List.forall_mem_cons] at h
    have hmarkings : ((n :: content).filterMap (contentOf? "marking")).map (·.filterMap markOf?) =
        ((contentOf? "marking" n).map (·.filterMap markOf?)).toList ++
          (content.filterMap (contentOf? "marking")).map (·.filterMap markOf?) := by
      rw [List.filterMap_cons]
      cases contentOf? "marking" n <;> rfl
    rw [List.foldlM_cons, readNode_marking h.1, hmarkings, addMarkings_append]
    exact ih h.2 _

theorem readNode_finalMarkings {tag : TagSource} (short : Bool) (hplace : d.markedPlace = none)
    (hname : tag.name.bytes = bytesOf "finalmarkings") (hcontent : ∀ n ∈ content, IsMarking n) :
    (d.goTo .net).readNode (.element tag short content) =
      .ok ((d.addMarkings (markingsOf (.element tag short content))).goTo .net) := by
  have hopen : (d.goTo .net).opened tag.read = .ok (d.inFinal .finalMarkings) := by
    have hd : d.inFinal .finalMarkings = d.goTo .finalMarkings := by
      rw [inFinal, ← hplace]
      rfl
    rw [hd]
    exact (opened_of_name (tag.name_read.trans hname) (by decide)).trans rfl
  have hread := foldlM_finalMarkingsContent hcontent d
  rw [← foldlM_eventsFrom fun n hn ↦ IsMarking.isQuiet (hcontent n hn)] at hread
  rw [readNode_element short hopen hread, hname, closed_finalmarkings, markingsOf,
    contentOf?_element hname, if_pos rfl]
  dsimp only [inFinal, goTo, addMarkings]
  rw [← hplace]
  rfl

end FinalMarkings

end PetriAlign.Pnml.Draft
