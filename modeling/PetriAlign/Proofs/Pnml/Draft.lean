import PetriAlign.Proofs.Pnml.Elements

/-!
# Written nets read back

The events of a written net, read from the first one on, leave a draft that holds every node, arc
and pair of the final marking of the net, each as it is read back.
-/

namespace PetriAlign.Pnml

open Xml (Markup trimmed writtenTag bytesOf IsName)

namespace Draft

variable {d : Draft} {tag : Xml.Tag}

/-! ## Declarations -/

theorem reads_places (d : Draft) (ps : List Place) :
    Reads (d.goTo .net) (ps.map placeMarkup)
      ({ d with places := (ps.map readPlace).reverse ++ d.places }.goTo .net) := by
  induction ps generalizing d with
  | nil => exact reads_nil _
  | cons p ps ih =>
    rw [List.map_cons, List.map_cons, List.reverse_cons, List.append_assoc]
    exact (reads_placeMarkup d p).cons (ih _)

/-- The silent transitions of a draft after these transitions. -/
def markInvisible (invisible : IdSet) (marked : IdSet) (ts : List Transition) : IdSet :=
  ts.foldl (fun marked t ↦ if invisible.contains t.id then marked.insert t.id () else marked) marked

theorem reads_transitions (d : Draft) (invisible : IdSet) (ts : List Transition) :
    Reads (d.goTo .net) (ts.map (transitionMarkup invisible))
      ({ d with
        transitions := (ts.map readTransition).reverse ++ d.transitions
        invisible := markInvisible invisible d.invisible ts }.goTo .net) := by
  induction ts generalizing d with
  | nil => exact reads_nil _
  | cons t ts ih =>
    rw [List.map_cons, List.map_cons, List.reverse_cons, List.append_assoc]
    exact (reads_transitionMarkup d invisible t).cons (ih _)

theorem reads_arcs (d : Draft) (as : List Arc) :
    Reads (d.goTo .net) (as.map arcMarkup)
      ({ d with arcs := (as.map (DraftArc.mk · none)).reverse ++ d.arcs }.goTo .net) := by
  induction as generalizing d with
  | nil => exact reads_nil _
  | cons a as ih =>
    rw [List.map_cons, List.map_cons, List.reverse_cons, List.append_assoc]
    exact (reads_arcMarkup d a).cons (ih _)

theorem reads_pageMarkup (d : Draft) (net : Net) :
    Reads (d.goTo .net) [pageMarkup net]
      ({ d with
        places := (net.places.map readPlace).reverse ++ d.places
        transitions := (net.transitions.map readTransition).reverse ++ d.transitions
        arcs := (net.arcs.map (DraftArc.mk · none)).reverse ++ d.arcs
        invisible := markInvisible net.invisible d.invisible net.transitions }.goTo .net) := by
  have hopen : (d.goTo .net).opened (writtenTag "page" [("id", "n0")]) = .ok (d.goTo .net) := rfl
  have hplaces := reads_places d net.places
  have hnodes := hplaces.append (reads_transitions _ net.invisible net.transitions)
  exact reads_element hopen (hnodes.append (reads_arcs _ net.arcs))

/-! ## The final marking -/

/-- The draft inside the first final marking. -/
def inMarking (d : Draft) : Draft :=
  { d with markings := 1, markedPlace := none, position := .marking }

/-- The draft at this place of the first final marking. -/
def atMark (d : Draft) (place : String) : Draft :=
  { d with markings := 1, markedPlace := some place, position := .markingPlace }

theorem position_goTo (position : Position) : (d.goTo position).position = position := rfl

theorem position_inMarking : d.inMarking.position = .marking := rfl

theorem position_atMark (place : String) : (d.atMark place).position = .markingPlace := rfl

theorem reads_markMarkup (d : Draft) (mark : String × UInt64) :
    Reads d.inMarking [markMarkup mark] { d with final := mark :: d.final }.inMarking := by
  have hkeys := Xml.isName_keys [("idref", mark.1)]
    (show ∀ key ∈ ["idref"], IsName key by decide)
  have hopen : d.inMarking.opened (writtenTag "place" [("idref", mark.1)]) =
      .ok (d.atMark mark.1) := by
    rw [opened_place (Xml.name_writtenTag (by decide) hkeys), openPlace,
      if_pos position_inMarking, required, Xml.value?_writtenTag (by decide) hkeys (by decide)]
    rfl
  have htext : (d.atMark mark.1).readText (Text.showCount mark.2) =
      .ok ({ d with final := mark :: d.final }.atMark mark.1) := by
    rw [readText_showCount]
    unfold texted markPlace atMark
    dsimp only
    rw [if_pos rfl, readCount_showCount]
    rfl
  have hinner : Reads (d.atMark mark.1) [.text "text" (Text.showCount mark.2)]
      ({ d with final := mark :: d.final }.atMark mark.1) := reads_text rfl htext
  have hmark := reads_element hopen hinner
  rw [closed_place, closePlace, if_pos (position_atMark _)] at hmark
  exact hmark

theorem reads_marks (d : Draft) (final : List (String × UInt64)) :
    Reads d.inMarking (final.map markMarkup)
      { d with final := final.reverse ++ d.final }.inMarking := by
  induction final generalizing d with
  | nil => exact reads_nil _
  | cons mark final ih =>
    rw [List.map_cons, List.reverse_cons, List.append_assoc]
    exact (reads_markMarkup d mark).cons (ih _)

theorem closed_marking : d.closed (bytesOf "marking") = d.goFrom .marking .finalMarkings := rfl

theorem closed_finalmarkings : d.closed (bytesOf "finalmarkings") = d.goTo .net := rfl

/-- The final marking is read after the declarations, when none has been read before. -/
theorem reads_finalMarkup (d : Draft) (final : List (String × UInt64)) (hd : d.markings = 0)
    (hplace : d.markedPlace = none) :
    ∃ markings, Reads (d.goTo .net) (finalMarkup final)
      ({ d with final := final.reverse ++ d.final, markings := markings }.goTo .net) := by
  unfold finalMarkup
  cases final with
  | nil => exact ⟨d.markings, reads_nil _⟩
  | cons mark final =>
    have hlist : (d.goTo .net).opened (writtenTag "finalmarkings" []) =
        .ok (d.goTo .finalMarkings) := rfl
    have hmarking : (d.goTo .finalMarkings).opened (writtenTag "marking" []) = .ok d.inMarking := by
      have hopen : (d.goTo .finalMarkings).opened (writtenTag "marking" []) =
          .ok (d.goTo .finalMarkings).openMarking := rfl
      rw [hopen, openMarking, if_pos (position_goTo _)]
      dsimp only [goTo, inMarking]
      rw [hd, hplace]
    have hfinal := reads_element hlist
      (reads_element hmarking (reads_marks d (mark :: final)))
    rw [closed_marking, closed_finalmarkings, goFrom, if_pos position_inMarking] at hfinal
    refine ⟨1, ?_⟩
    rw [if_neg (by simp), hplace]
    exact hfinal

/-! ## The document -/

/-- What is read of a written net, up to the number of final markings. -/
def ofNet (net : Net) (markings : Nat) : Draft where
  position := .net
  isPnml := true
  id := writtenId net
  name := trimmed net.name
  places := (net.places.map readPlace).reverse
  transitions := (net.transitions.map readTransition).reverse
  arcs := (net.arcs.map (DraftArc.mk · none)).reverse
  final := net.final.reverse
  invisible := markInvisible net.invisible ∅ net.transitions
  markings := markings

theorem opened_net (h : tag.name = bytesOf "net") :
    d.opened tag = .ok { d with id := (tag.value? "id").getD "", position := .net } := by
  unfold opened
  rw [h]
  rfl

theorem closed_net : d.closed (bytesOf "net") = d := rfl

theorem closed_pnml : d.closed (bytesOf "pnml") = d := rfl

/-- The name of a net is written if it is not empty. -/
theorem reads_netName (d : Draft) (hd : d.name = "") (name : String) :
    Reads (d.goTo .net) (if name = "" then [] else [labelled "name" name])
      ({ d with name := trimmed name }.goTo .net) := by
  split
  case isTrue h =>
    have hempty : trimmed name = d.name := by
      rw [h, hd]
      rfl
    rw [hempty]
    exact reads_nil _
  case isFalse h =>
    have hopen : (d.goTo .net).opened (writtenTag "name" []) = .ok (d.goTo .netName) := rfl
    have htext : (d.goTo .netName).readText name =
        .ok ({ d with name := trimmed name }.goTo .netName) := by
      unfold readText
      split
      case isTrue hblank =>
        rw [hblank, ← hd]
      case isFalse => rfl
    exact reads_labelled hopen htext

theorem reads_document (net : Net) : ∃ markings,
    Reads {} [.element "pnml" [] [netMarkup net]] (ofNet net markings) := by
  let attributes := [("id", writtenId net),
    ("type", "http://www.pnml.org/version-2009/grammar/pnmlcoremodel")]
  let start : Draft := { isPnml := true, id := writtenId net }
  have hkeys := Xml.isName_keys attributes (show ∀ key ∈ ["id", "type"], IsName key by decide)
  have hpnml : opened {} (writtenTag "pnml" []) = .ok { isPnml := true, position := .document } :=
    rfl
  have hnet : opened { isPnml := true, position := .document } (writtenTag "net" attributes) =
      .ok (start.goTo .net) := by
    rw [opened_net (Xml.name_writtenTag (by decide) hkeys),
      Xml.value?_writtenTag (by decide) hkeys (by decide)]
    rfl
  have hname := reads_netName start rfl net.name
  have hnodes := hname.append (reads_pageMarkup { start with name := trimmed net.name } net)
  obtain ⟨markings, hfinal⟩ := reads_finalMarkup { start with
    name := trimmed net.name
    places := (net.places.map readPlace).reverse ++ []
    transitions := (net.transitions.map readTransition).reverse ++ []
    arcs := (net.arcs.map (DraftArc.mk · none)).reverse ++ []
    invisible := markInvisible net.invisible ∅ net.transitions } net.final rfl rfl
  have hroot := reads_element hpnml (reads_element hnet (hnodes.append hfinal))
  rw [closed_net, closed_pnml] at hroot
  simp only [start, List.append_nil] at hroot
  exact ⟨markings, hroot⟩

end Draft

end PetriAlign.Pnml
