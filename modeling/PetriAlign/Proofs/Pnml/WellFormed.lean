import PetriAlign.Proofs.Pnml.Resolved

/-!
# Nets that are read

Whatever a document looks like, a net that is read of it fits together: arcs join places and
transitions, final and silent marks are about declared nodes, and the counts of the final marking
stand on the places as well. The reader meets misplaced and repeated elements in any order, so what
is said of silent marks is an invariant of each of its steps.
-/

namespace PetriAlign

/-- The parts of the net fit together. -/
structure Net.IsWellFormed (net : Net) : Prop extends net.IsResolved where
  /-- A place of the final marking has the count of the last pair about it. -/
  final_place : ∀ mark ∈ net.final, ∃ p count, net.place? mark.1 = some p ∧
    Pnml.lastCount? net.final mark.1 = some count ∧ p.final = some count
  invisible_mem : ∀ id, net.invisible.contains id = true → id ∈ net.transitionIds
  /-- Only a transition without a name may be without a label. -/
  label : ∀ t ∈ net.transitions, t.label = "" → t.name = ""

namespace Pnml

open Xml (Event Tag)

namespace Draft

variable {d d' : Draft} {tag : Tag}

/-- Every silent mark is on a transition that was declared before. -/
def SilentDeclared (d : Draft) : Prop :=
  ∀ id, d.invisible.contains id = true → id ∈ d.transitions.map (·.id)

/-- The same transitions are declared, and the same ones are silent. -/
def SameTransitions (d d' : Draft) : Prop :=
  d'.transitions.map (·.id) = d.transitions.map (·.id) ∧ d'.invisible = d.invisible

/-- If silent marks are on declared transitions, they still are after what is read next. -/
def Keeps (d : Draft) (next : Except ParseError Draft) : Prop :=
  ∀ d', next = .ok d' → d.SilentDeclared → d'.SilentDeclared

theorem Keeps.of_same {next : Except ParseError Draft}
    (h : ∀ d', next = .ok d' → d.SameTransitions d') : d.Keeps next := by
  intro d' hnext hd
  unfold SilentDeclared
  rw [(h d' hnext).1, (h d' hnext).2]
  exact hd

theorem Keeps.ok (h : d.SameTransitions d') : d.Keeps (.ok d') :=
  .of_same fun _ hnext ↦ Except.ok.inj hnext ▸ h

theorem Keeps.ite {c : Prop} [Decidable c] {next other : Except ParseError Draft}
    (h : d.Keeps next) (h' : d.Keeps other) : d.Keeps (if c then next else other) := by
  split
  · exact h
  · exact h'

theorem SameTransitions.ite {c : Prop} [Decidable c] {next other : Draft}
    (h : d.SameTransitions next) (h' : d.SameTransitions other) :
    d.SameTransitions (if c then next else other) := by
  split
  · exact h
  · exact h'

/-! ## Start tags -/

theorem sameTransitions_goFrom (d : Draft) (old new : Position) :
    d.SameTransitions (d.goFrom old new) := by
  unfold goFrom
  split <;> exact ⟨rfl, rfl⟩

theorem sameTransitions_openPlace (h : d.openPlace tag = .ok d') : d.SameTransitions d' := by
  unfold openPlace at h
  split at h <;>
  · simp only [bind_eq_ok_iff] at h
    obtain ⟨place, -, heq⟩ := h
    cases heq
    exact ⟨rfl, rfl⟩

theorem sameTransitions_openArc (h : d.openArc tag = .ok d') : d.SameTransitions d' := by
  simp only [openArc, bind_eq_ok_iff] at h
  obtain ⟨source, -, target, -, heq⟩ := h
  cases heq
  exact ⟨rfl, rfl⟩

theorem sameTransitions_openName (d : Draft) : d.SameTransitions d.openName := by
  unfold openName
  split <;> exact ⟨rfl, rfl⟩

theorem sameTransitions_openKind (d : Draft) : d.SameTransitions d.openKind := by
  unfold openKind
  split <;> exact ⟨rfl, rfl⟩

theorem sameTransitions_openMarking (d : Draft) : d.SameTransitions d.openMarking := by
  unfold openMarking
  split <;> exact ⟨rfl, rfl⟩

theorem keeps_openTransition (d : Draft) (tag : Tag) : d.Keeps (d.openTransition tag) := by
  intro d' h hd
  simp only [openTransition, bind_eq_ok_iff] at h
  obtain ⟨id, -, heq⟩ := h
  cases heq
  intro silent hsilent
  exact List.mem_cons_of_mem _ (hd silent hsilent)

/-- A silent mark is put on the transition that was declared last. -/
theorem keeps_openToolSpecific (d : Draft) (tag : Tag) :
    d.Keeps (.ok (d.openToolSpecific tag)) := by
  intro d' h hd
  cases h
  unfold openToolSpecific
  split
  case h_2 => exact hd
  case h_1 t rest htransitions =>
    split
    case isFalse => exact hd
    case isTrue =>
      intro silent hsilent
      dsimp only at hsilent ⊢
      rw [Table.contains, Table.get?_insert] at hsilent
      split at hsilent
      case isTrue heq =>
        rw [htransitions, ← heq]
        exact List.mem_cons_self
      case isFalse => exact hd silent hsilent

theorem keeps_opened (d : Draft) (tag : Tag) : d.Keeps (d.opened tag) := by
  unfold opened
  refine .ite (.ok ⟨rfl, rfl⟩) ?_
  refine .ite (.ok ⟨rfl, rfl⟩) ?_
  refine .ite (.ok ⟨rfl, rfl⟩) ?_
  refine .ite (.of_same fun _ ↦ sameTransitions_openPlace) ?_
  refine .ite (keeps_openTransition d tag) ?_
  refine .ite (.of_same fun _ ↦ sameTransitions_openArc) ?_
  refine .ite (.ok (sameTransitions_goFrom d _ _)) ?_
  refine .ite (keeps_openToolSpecific d tag) ?_
  refine .ite (.ok (sameTransitions_goFrom d _ _)) ?_
  refine .ite (.ok (sameTransitions_goFrom d _ _)) ?_
  refine .ite (.ok (sameTransitions_openKind d)) ?_
  refine .ite (.ok (sameTransitions_goFrom d _ _)) ?_
  refine .ite (.ok ⟨rfl, rfl⟩) ?_
  refine .ite (.ok (sameTransitions_openMarking d)) ?_
  exact .ite (.ok (sameTransitions_openName d)) (.ok ⟨rfl, rfl⟩)

/-! ## End tags and texts -/

theorem sameTransitions_closePlace (d : Draft) : d.SameTransitions d.closePlace := by
  unfold closePlace
  split <;> exact ⟨rfl, rfl⟩

theorem sameTransitions_closeCount (d : Draft) : d.SameTransitions d.closeCount := by
  unfold closeCount
  split <;> exact ⟨rfl, rfl⟩

theorem sameTransitions_closeKind (d : Draft) : d.SameTransitions d.closeKind := by
  unfold closeKind
  split <;> exact ⟨rfl, rfl⟩

theorem sameTransitions_closeName (d : Draft) : d.SameTransitions d.closeName := by
  unfold closeName
  split <;> exact ⟨rfl, rfl⟩

theorem sameTransitions_closed (d : Draft) (name : Bytes) : d.SameTransitions (d.closed name) := by
  unfold closed
  refine .ite (sameTransitions_closePlace d) ?_
  refine .ite ⟨rfl, rfl⟩ ?_
  refine .ite ⟨rfl, rfl⟩ ?_
  refine .ite (sameTransitions_closeCount d) ?_
  refine .ite (sameTransitions_closeCount d) ?_
  refine .ite (sameTransitions_closeKind d) ?_
  refine .ite (sameTransitions_goFrom d _ _) ?_
  refine .ite ⟨rfl, rfl⟩ ?_
  refine .ite (sameTransitions_goFrom d _ _) ?_
  refine .ite (sameTransitions_goFrom d _ _) ?_
  exact .ite (sameTransitions_closeName d) ⟨rfl, rfl⟩

theorem sameTransitions_changePlace {change : Place → Except ParseError Place}
    (h : d.changePlace change = .ok d') : d.SameTransitions d' := by
  unfold changePlace at h
  split at h
  case h_1 =>
    cases h
    exact ⟨rfl, rfl⟩
  case h_2 =>
    obtain ⟨p, -, rfl⟩ := exists_of_map_eq_ok h
    exact ⟨rfl, rfl⟩

/-- A text changes a transition, but not its id. -/
theorem sameTransitions_changeTransition {change : Transition → Except ParseError Transition}
    (hchange : ∀ t t', change t = .ok t' → t'.id = t.id)
    (h : d.changeTransition change = .ok d') : d.SameTransitions d' := by
  unfold changeTransition at h
  split at h
  case h_1 =>
    cases h
    exact ⟨rfl, rfl⟩
  case h_2 t rest htransitions =>
    obtain ⟨t', ht', rfl⟩ := exists_of_map_eq_ok h
    refine ⟨?_, rfl⟩
    rw [htransitions, List.map_cons, List.map_cons, hchange t t' ht']

theorem sameTransitions_markPlace {written : String} (h : d.markPlace written = .ok d') :
    d.SameTransitions d' := by
  unfold markPlace at h
  split at h
  case h_2 =>
    cases h
    exact ⟨rfl, rfl⟩
  case h_1 =>
    split at h
    case isTrue =>
      obtain ⟨count, -, rfl⟩ := exists_of_map_eq_ok h
      exact ⟨rfl, rfl⟩
    case isFalse =>
      cases h
      exact ⟨rfl, rfl⟩

theorem sameTransitions_texted {text : String} (h : d.texted text = .ok d') :
    d.SameTransitions d' := by
  unfold texted at h
  split at h
  case h_1 => cases h; exact ⟨rfl, rfl⟩
  case h_2 => exact sameTransitions_changePlace h
  case h_3 => exact sameTransitions_changePlace h
  case h_4 => exact sameTransitions_changePlace h
  case h_5 => exact sameTransitions_changePlace h
  case h_6 =>
    refine sameTransitions_changeTransition (fun t t' ht ↦ ?_) h
    cases ht
    rfl
  case h_7 =>
    refine sameTransitions_changeTransition (fun t t' ht ↦ ?_) h
    cases ht
    rfl
  case h_8 =>
    refine sameTransitions_changeTransition (fun t t' ht ↦ ?_) h
    obtain ⟨kind, -, rfl⟩ := exists_of_map_eq_ok ht
    rfl
  case h_9 => exact sameTransitions_markPlace h
  case h_10 => cases h; exact ⟨rfl, rfl⟩
  case h_11 => cases h; exact ⟨rfl, rfl⟩

/-! ## Whole documents -/

/-- Each event keeps silent marks on declared transitions, wherever the reader is. -/
theorem keeps_step (d : Draft) (event : Event) : d.Keeps (d.step event) := by
  cases event with
  | opening tag => exact keeps_opened d tag
  | empty tag =>
    intro d' h hd
    obtain ⟨inside, hinside, rfl⟩ := exists_of_map_eq_ok h
    have hopened := keeps_opened d tag inside hinside hd
    exact Keeps.ok (sameTransitions_closed inside tag.name) _ rfl hopened
  | closing name => exact .ok (sameTransitions_closed d name)
  | text raw =>
    refine .of_same fun d' h ↦ ?_
    obtain ⟨text, -, htext⟩ := bind_eq_ok_iff.1 h
    exact sameTransitions_texted htext

theorem silentDeclared_of_foldlM {events : List Event}
    (h : events.foldlM Draft.step {} = .ok d) : d.SilentDeclared := by
  have hstart : SilentDeclared {} := fun id hid ↦ nomatch hid
  exact foldlM_induction (fun d event d' hd hstep ↦ keeps_step d event d' hstep hd) hstart h

end Draft

variable {net : Net} {d : Document}

/-- The first place with an id is the one that takes the count of the final marking. -/
theorem find?_withFinal {final : List (String × UInt64)} {seen : List String} {id : String}
    (h : id ∉ seen) (places : List Place) :
    (withFinal final seen places).find? (·.id = id) =
      (places.find? (·.id = id)).map fun p ↦
        { p with final := (lastCount? final id).or p.final } := by
  induction places generalizing seen with
  | nil => rfl
  | cons p places ih =>
    rw [withFinal]
    by_cases hid : p.id = id
    · subst hid
      rw [if_neg h, List.find?_cons_of_pos (by simp), List.find?_cons_of_pos (by simp)]
      rfl
    · have hseen : id ∉ p.id :: seen := by
        rw [List.mem_cons, not_or]
        exact ⟨Ne.symm hid, h⟩
      have hhead : (if p.id ∈ seen then p
          else { p with final := (lastCount? final p.id).or p.final }).id ≠ id := by
        split <;> exact hid
      rw [List.find?_cons_of_neg (by simpa using hhead),
        List.find?_cons_of_neg (by simpa using hid), ih hseen]

theorem exists_lastCount? {final : List (String × UInt64)} {mark : String × UInt64}
    (h : mark ∈ final) : ∃ count, lastCount? final mark.1 = some count := by
  unfold lastCount?
  cases hfind : final.reverse.find? (·.1 = mark.1) with
  | none =>
    have hne := List.find?_eq_none.1 hfind mark (List.mem_reverse.2 h)
    simp at hne
  | some last => exact ⟨last.2, rfl⟩

namespace Draft.ResolvesTo

variable {draft : Draft}

theorem final_place (h : draft.ResolvesTo net) {mark : String × UInt64} (hmark : mark ∈ net.final) :
    ∃ p count, net.place? mark.1 = some p ∧ lastCount? net.final mark.1 = some count ∧
      p.final = some count := by
  obtain ⟨count, hcount⟩ := exists_lastCount? hmark
  have hplace : net.place? mark.1 = (draft.places.reverse.find? (·.id = mark.1)).map fun p ↦
      { p with final := (lastCount? net.final mark.1).or p.final } := by
    rw [← find?_withFinal List.not_mem_nil, ← h.places]
    rfl
  have hdeclared := Net.isSome_place?_iff.2 (h.isResolved.final_mem mark hmark)
  rw [hplace, Option.isSome_map] at hdeclared
  obtain ⟨p, hp⟩ := Option.isSome_iff_exists.1 hdeclared
  rw [hp, hcount] at hplace
  exact ⟨_, count, hplace, hcount, rfl⟩

theorem transitionIds (h : draft.ResolvesTo net) :
    net.transitionIds = (draft.transitions.map (·.id)).reverse := by
  have hid : (fun t ↦ (fillLabel t).id) = Transition.id := by
    funext t
    unfold fillLabel
    split <;> rfl
  rw [Net.transitionIds, h.transitions, List.map_map, ← List.map_reverse]
  exact congrArg (List.map · draft.transitions.reverse) hid

theorem isWellFormed (h : draft.ResolvesTo net) (hsilent : draft.SilentDeclared) :
    net.IsWellFormed where
  toIsResolved := h.isResolved
  final_place _ hmark := h.final_place hmark
  invisible_mem id hid := by
    rw [h.transitionIds, List.mem_reverse]
    rw [h.invisible] at hid
    exact hsilent id hid
  label t ht hlabel := by
    rw [h.transitions] at ht
    obtain ⟨u, -, rfl⟩ := List.mem_map.1 ht
    unfold fillLabel at hlabel ⊢
    split at hlabel
    case isTrue hempty =>
      rw [if_pos hempty]
      exact hlabel
    case isFalse hlabelled => exact absurd hlabel hlabelled

end Draft.ResolvesTo

theorem readAccepting_eq_ok_iff :
    readAccepting d = .ok net ↔ read d = .ok net ∧ net.final ≠ [] := by
  simp only [readAccepting, bind_eq_ok_iff]
  constructor
  · rintro ⟨other, hread, h⟩
    split at h
    case isTrue => cases h
    case isFalse hfinal =>
      cases h
      exact ⟨hread, fun hnil ↦ hfinal (List.isEmpty_iff.2 hnil)⟩
  · rintro ⟨hread, hfinal⟩
    refine ⟨net, hread, ?_⟩
    rw [if_neg (mt List.isEmpty_iff.1 hfinal)]
    rfl

/-- Every net that is read is well-formed, and a net that has to have a final marking is read as any
net is. -/
theorem isWellFormed_of_read (d : Document) (net : Net) :
    (read d = .ok net → net.IsWellFormed) ∧
      (readAccepting d = .ok net ↔ read d = .ok net ∧ net.final ≠ []) := by
  refine ⟨fun h ↦ ?_, readAccepting_eq_ok_iff⟩
  obtain ⟨draft, hdraft, hresolves⟩ := exists_draft_of_read h
  exact hresolves.isWellFormed (Draft.silentDeclared_of_foldlM hdraft)

/-- A net that declares a place twice, asks for two final counts on it and has a silent transition
without a name. -/
def repeated : Net where
  places := [⟨"p", "p", 1, none, .model⟩, ⟨"p", "p", 0, none, .model⟩]
  transitions := [⟨"t", "", "", .model⟩]
  arcs := [⟨"a", "p", "t"⟩]
  final := [("p", 1), ("p", 2)]
  invisible := .ofIds ["t"]

/-- Of the two final counts the place takes the last one. -/
theorem isWellFormed_of_read_repeated :
    read (.ofText (write repeated)) = .ok (readBack repeated) ∧
    (readBack repeated).IsWellFormed ∧
    readAccepting (.ofText (write repeated)) = .ok (readBack repeated) ∧
    ((readBack repeated).place? "p").bind (·.final) = some 2 := by
  have hread : read (.ofText (write repeated)) = .ok (readBack repeated) :=
    read_write_eq_ok_iff.2 ⟨⟨by decide, by decide⟩, rfl⟩
  have hfinal : (readBack repeated).final ≠ [] := by decide
  obtain ⟨hwellFormed, haccepting⟩ := isWellFormed_of_read (.ofText (write repeated))
    (readBack repeated)
  exact ⟨hread, hwellFormed hread, haccepting.2 ⟨hread, hfinal⟩, by decide +kernel⟩

end Pnml

end PetriAlign
