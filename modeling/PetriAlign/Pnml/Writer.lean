import PetriAlign.Net.Basic
import PetriAlign.Xml.Markup

/-!
# Writing PNML

Besides what the format asks for, places carry their final counts and kinds, and transitions their
labels and kinds, so that a product is read back as it was.
-/

namespace PetriAlign.Pnml

open Xml (Markup)

/-- An element with one text in it. -/
def labelled (name text : String) : Markup := .element name [] [.text "text" text]

def placeMarkup (p : Place) : Markup :=
  .element "place" [("id", p.id)]
    ([labelled "name" p.name, labelled "initialMarking" (Text.showCount p.initial)] ++
      (p.final.map fun n ↦ labelled "finalMarking" (Text.showCount n)).toList ++
      [labelled "type" p.kind.tag])

/-- The mark of a silent transition. -/
def invisibleMark (id : String) : Markup :=
  .empty "toolspecific"
    [("tool", "ProM"), ("version", "6.4"), ("activity", "$invisible$"), ("localNodeID", id)]

def transitionMarkup (invisible : IdSet) (t : Transition) : Markup :=
  .element "transition" [("id", t.id)]
    ([labelled "name" t.name, labelled "origname" t.label, labelled "type" t.kind.tag] ++
      if invisible.contains t.id then [invisibleMark t.id] else [])

def arcMarkup (a : Arc) : Markup :=
  .element "arc" [("id", a.id), ("source", a.source), ("target", a.target)] [labelled "name" a.id]

def markMarkup (mark : String × UInt64) : Markup :=
  .element "place" [("idref", mark.1)] [.text "text" (Text.showCount mark.2)]

def finalMarkup (final : List (String × UInt64)) : List Markup :=
  if final.isEmpty then []
  else [.element "finalmarkings" [] [.element "marking" [] (final.map markMarkup)]]

def pageMarkup (net : Net) : Markup :=
  .element "page" [("id", "n0")]
    (net.places.map placeMarkup ++ net.transitions.map (transitionMarkup net.invisible) ++
      net.arcs.map arcMarkup)

/-- The id of the net in the document. -/
def writtenId (net : Net) : String := if net.id = "" then "net" else net.id

def netMarkup (net : Net) : Markup :=
  .element "net"
    [("id", writtenId net),
      ("type", "http://www.pnml.org/version-2009/grammar/pnmlcoremodel")]
    ((if net.name = "" then [] else [labelled "name" net.name]) ++ [pageMarkup net] ++
      finalMarkup net.final)

/-- The document that describes the net. -/
def write (net : Net) : String :=
  .ofList (Markup.document (.element "pnml" [] [netMarkup net]))

end PetriAlign.Pnml
