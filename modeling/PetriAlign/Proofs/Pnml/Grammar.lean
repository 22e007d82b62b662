import PetriAlign.Proofs.Pnml.Resolved
import PetriAlign.Proofs.Xml.Source

/-!
# The grammar of nets

Which element trees describe a net, and the net that such a tree describes. Declarations stand in
any order, on pages or not, and so do the labels of a declaration. Elements with other names may
stand between all of these, as long as there is no text in them.
-/

namespace PetriAlign

/-- The value of the attribute of this name. -/
def Xml.TagSource.value? (tag : Xml.TagSource) (name : String) : Option String :=
  (tag.attribute? name).map Xml.Attribute.valueOrRaw

namespace Pnml

open Xml (Node Source TagSource bytesOf)

/-! ## Elements and labels -/

/-- The names of elements that mean something. -/
def keywords : List String :=
  ["pnml", "net", "page", "place", "transition", "arc", "name", "initialMarking", "finalMarking",
    "type", "origname", "toolspecific", "inscription", "finalmarkings", "marking"]

/-- The content of an element with this name. -/
def contentOf? (name : String) : Node → Option (List Node)
  | .element tag _ content => if tag.name.bytes = bytesOf name then some content else none
  | .text _ | .comment _ | .instruction _ => none

/-- What may stand between two elements: white space, comments, processing instructions, and
elements that mean nothing and have nothing else in them. -/
inductive IsFiller : Node → Prop
  | blank {raw : { bytes : Bytes // 0x3C ∉ bytes }} (hblank : ∀ b ∈ raw.1, Xml.isSpace b = true) :
      IsFiller (.text raw)
  | comment (body : { bytes : Bytes // ¬ bytesOf "-->" <:+: bytes }) : IsFiller (.comment body)
  | instruction (body : { bytes : Bytes // ¬ bytesOf "?>" <:+: 0x3F :: bytes }) :
      IsFiller (.instruction body)
  | element {tag : TagSource} {short : Bool} {content : List Node}
      (hname : ∀ name ∈ keywords, tag.name.bytes ≠ bytesOf name)
      (hcontent : ∀ n ∈ content, IsFiller n) : IsFiller (.element tag short content)

/-- A text of at most one piece, which stands for something. -/
inductive IsPiece : List Node → Prop
  | nil : IsPiece []
  | text {raw : { bytes : Bytes // 0x3C ∉ bytes }}
      (htext : (Xml.textOf (Text.strip Xml.isSpace raw.1)).isOk = true) : IsPiece [.text raw]

/-- What a text of one piece stands for, if it is not blank. -/
def pieceText? : List Node → Option String
  | [.text raw] =>
    let stripped := Text.strip Xml.isSpace raw.1
    if stripped = [] then none else (Xml.textOf stripped).toOption
  | _ => none

/-- The content of a label: one `text` of one piece among fillers. -/
inductive IsLabelContent : List Node → Prop
  | intro {before after : List Node} {tag : TagSource} {short : Bool} {piece : List Node}
      (hbefore : ∀ n ∈ before, IsFiller n) (hname : tag.name.bytes = bytesOf "text")
      (hpiece : IsPiece piece) (hafter : ∀ n ∈ after, IsFiller n) :
      IsLabelContent (before ++ .element tag short piece :: after)

/-- The text of a label, if it is not blank. -/
def labelText? (content : List Node) : Option String :=
  content.findSome? fun n ↦ (contentOf? "text" n).bind pieceText?

/-- The text of the label with this name. -/
def label? (name : String) (content : List Node) : Option String :=
  (content.findSome? (contentOf? name)).bind labelText?

/-- A sort of label. -/
structure Field where
  name : String
  /-- Whether a label may have this text. -/
  accepts : String → Bool

inductive Field.IsLabel (field : Field) : Node → Prop
  | intro {tag : TagSource} {short : Bool} {content : List Node}
      (hname : tag.name.bytes = bytesOf field.name) (hlabel : IsLabelContent content)
      (htext : ∀ text ∈ labelText? content, field.accepts text = true) :
      field.IsLabel (.element tag short content)

/-- Labels of these sorts, at most one of each, in any order among other nodes. -/
structure HoldsLabels (fields : List Field) (other : Node → Prop) (content : List Node) : Prop where
  forall_node : ∀ n ∈ content, other n ∨ ∃ field ∈ fields, field.IsLabel n
  at_most_one : ∀ field ∈ fields, (content.filterMap (contentOf? field.name)).length ≤ 1

/-! ## Declarations -/

def countOf? (text : String) : Option UInt64 :=
  Text.readCount? (Text.strip Text.isBlank text.toList)

def placeKindOf? (text : String) : Option PlaceKind := PlaceKind.ofTag? (Text.trim text)

def transitionKindOf? (text : String) : Option TransitionKind :=
  TransitionKind.ofTag? (Text.trim text)

def placeFields : List Field :=
  [⟨"name", fun _ ↦ true⟩, ⟨"initialMarking", fun text ↦ (countOf? text).isSome⟩,
    ⟨"finalMarking", fun text ↦ (countOf? text).isSome⟩,
    ⟨"type", fun text ↦ (placeKindOf? text).isSome⟩]

/-- The place with what these labels say about it. -/
def placeWith (p : Place) (content : List Node) : Place :=
  { p with
    name := (label? "name" content).getD p.name
    initial := ((label? "initialMarking" content).bind countOf?).getD p.initial
    final := ((label? "finalMarking" content).bind countOf?).or p.final
    kind := ((label? "type" content).bind placeKindOf?).getD p.kind }

/-- The place that is declared here. Its name is its id if nothing else is said. -/
def placeOf? : Node → Option Place
  | .element tag _ content =>
    if tag.name.bytes = bytesOf "place" then
      (tag.value? "id").map fun id ↦ placeWith ⟨id, id, 0, none, .model⟩ content
    else none
  | .text _ | .comment _ | .instruction _ => none

def transitionFields : List Field :=
  [⟨"name", fun _ ↦ true⟩, ⟨"origname", fun _ ↦ true⟩,
    ⟨"type", fun text ↦ (transitionKindOf? text).isSome⟩]

/-- What a transition may hold besides labels. -/
inductive IsToolNote : Node → Prop
  | filler {n : Node} (hfiller : IsFiller n) : IsToolNote n
  | element {tag : TagSource} {short : Bool} {content : List Node}
      (hname : tag.name.bytes = bytesOf "toolspecific") (hcontent : ∀ n ∈ content, IsFiller n) :
      IsToolNote (.element tag short content)

/-- Whether a tool says here that a transition is silent. -/
def isSilentNote : Node → Bool
  | .element tag _ _ =>
    tag.name.bytes = bytesOf "toolspecific" && tag.value? "activity" = some "$invisible$"
  | .text _ | .comment _ | .instruction _ => false

/-- The transition with what these labels say about it. -/
def transitionWith (t : Transition) (content : List Node) : Transition :=
  { t with
    name := (label? "name" content).getD t.name
    label := (label? "origname" content).getD t.label
    kind := ((label? "type" content).bind transitionKindOf?).getD t.kind }

/-- The transition that is declared here, before an empty label is filled in. -/
def transitionOf? : Node → Option Transition
  | .element tag _ content =>
    if tag.name.bytes = bytesOf "transition" then
      (tag.value? "id").map fun id ↦ transitionWith ⟨id, "", "", .model⟩ content
    else none
  | .text _ | .comment _ | .instruction _ => none

/-- The id of the transition that is declared here, if a tool says that it is silent. -/
def silentId? : Node → Option String
  | .element tag _ content =>
    if tag.name.bytes = bytesOf "transition" ∧ content.any isSilentNote then tag.value? "id"
    else none
  | .text _ | .comment _ | .instruction _ => none

def arcFields : List Field := [⟨"inscription", fun text ↦ Text.trim text = "1"⟩]

/-- The arc that is declared here. Its id is that of its ends together if nothing else is said. -/
def arcOf? : Node → Option Arc
  | .element tag _ _ =>
    if tag.name.bytes = bytesOf "arc" then do
      let source ← tag.value? "source"
      let target ← tag.value? "target"
      return ⟨(tag.value? "id").getD (source ++ target), source, target⟩
    else none
  | .text _ | .comment _ | .instruction _ => none

/-! ## The final marking -/

/-- A place with its count in a final marking. -/
inductive IsMark : Node → Prop
  | filler {n : Node} (hfiller : IsFiller n) : IsMark n
  | element {tag : TagSource} {short : Bool} {content : List Node}
      (hname : tag.name.bytes = bytesOf "place") (hid : (tag.value? "idref").isSome)
      (hlabel : IsLabelContent content)
      (hcount : ∀ text ∈ labelText? content, (countOf? text).isSome) :
      IsMark (.element tag short content)

def markOf? : Node → Option (String × UInt64)
  | .element tag _ content =>
    if tag.name.bytes = bytesOf "place" then do
      let place ← tag.value? "idref"
      let text ← labelText? content
      let count ← countOf? text
      return (place, count)
    else none
  | .text _ | .comment _ | .instruction _ => none

inductive IsMarking : Node → Prop
  | filler {n : Node} (hfiller : IsFiller n) : IsMarking n
  | element {tag : TagSource} {short : Bool} {content : List Node}
      (hname : tag.name.bytes = bytesOf "marking") (hcontent : ∀ n ∈ content, IsMark n) :
      IsMarking (.element tag short content)

/-- The markings in this node, if it is a list of final markings. -/
def markingsOf (n : Node) : List (List (String × UInt64)) :=
  (((contentOf? "finalmarkings" n).getD []).filterMap (contentOf? "marking")).map
    (·.filterMap markOf?)

/-! ## Nets -/

/-- What a net or a page holds. -/
inductive IsItem : Node → Prop
  | filler {n : Node} (hfiller : IsFiller n) : IsItem n
  | place {tag : TagSource} {short : Bool} {content : List Node}
      (hname : tag.name.bytes = bytesOf "place") (hid : (tag.value? "id").isSome)
      (hcontent : HoldsLabels placeFields IsFiller content) : IsItem (.element tag short content)
  | transition {tag : TagSource} {short : Bool} {content : List Node}
      (hname : tag.name.bytes = bytesOf "transition") (hid : (tag.value? "id").isSome)
      (hcontent : HoldsLabels transitionFields IsToolNote content) :
      IsItem (.element tag short content)
  | arc {tag : TagSource} {short : Bool} {content : List Node}
      (hname : tag.name.bytes = bytesOf "arc") (hsource : (tag.value? "source").isSome)
      (htarget : (tag.value? "target").isSome)
      (hcontent : HoldsLabels arcFields IsFiller content) : IsItem (.element tag short content)
  | finalMarkings {tag : TagSource} {short : Bool} {content : List Node}
      (hname : tag.name.bytes = bytesOf "finalmarkings") (hcontent : ∀ n ∈ content, IsMarking n) :
      IsItem (.element tag short content)
  | page {tag : TagSource} {short : Bool} {content : List Node}
      (hname : tag.name.bytes = bytesOf "page") (hcontent : ∀ n ∈ content, IsItem n) :
      IsItem (.element tag short content)

mutual

/-- A node, or the nodes on it if it is a page. -/
def unpaged : Node → List Node
  | .element tag short content =>
    if tag.name.bytes = bytesOf "page" then unpagedAll content else [.element tag short content]
  | .text raw => [.text raw]
  | .comment body => [.comment body]
  | .instruction body => [.instruction body]

/-- These nodes in document order, with those on pages in place of the pages. -/
def unpagedAll : List Node → List Node
  | [] => []
  | n :: rest => unpaged n ++ unpagedAll rest

end

/-- The first of the final markings among these nodes. -/
def finalOf (nodes : List Node) : List (String × UInt64) :=
  (nodes.flatMap markingsOf).head?.getD []

def netFields : List Field := [⟨"name", fun _ ↦ true⟩]

/-- The net that an element describes. -/
def netOf (tag : TagSource) (content : List Node) : Net :=
  let nodes := unpagedAll content
  { id := (tag.value? "id").getD ""
    name := (label? "name" content).getD ""
    places := withFinal (finalOf nodes) [] (nodes.filterMap placeOf?)
    transitions := (nodes.filterMap transitionOf?).map fillLabel
    arcs := nodes.filterMap arcOf?
    final := finalOf nodes
    invisible := .ofIds (nodes.filterMap silentId?) }

/-- A document with one net, in which every arc joins a declared place and a declared transition
and the final marking is about declared places. -/
structure Describes (s : Source) (tag : TagSource) (content : List Node) : Prop where
  root : s.tag.name.bytes = bytesOf "pnml"
  net : ∃ before short after, s.content = before ++ .element tag short content :: after ∧
    (∀ n ∈ before, IsFiller n) ∧ ∀ n ∈ after, IsFiller n
  name : tag.name.bytes = bytesOf "net"
  holds : HoldsLabels netFields IsItem content
  resolved : (netOf tag content).IsResolved

end Pnml

end PetriAlign
