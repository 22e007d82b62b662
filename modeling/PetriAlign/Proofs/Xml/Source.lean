import PetriAlign.Proofs.Xml.Markup

/-!
# Documents as trees

An element tree with everything that is free in writing it down: white space in tags, the quotation
marks of attributes, one tag or two for an element without content, and text, comments and
processing instructions anywhere between tags. The parts carry what keeps them apart in the bytes,
so every tree can be written.
-/

namespace PetriAlign.Xml

/-! ## Tags -/

abbrev Space := { bytes : Bytes // ∀ b ∈ bytes, isSpace b = true }

def Space.empty : Space := ⟨[], nofun⟩

/-- The bytes that divide markup: exclamation and question marks, quotation marks, slashes, equals
signs and angle brackets. -/
def isDivider (b : UInt8) : Bool :=
  [0x21, 0x22, 0x27, 0x2F, 0x3C, 0x3D, 0x3E, 0x3F].contains b

/-- The name of an element or an attribute. -/
structure Name where
  bytes : Bytes
  ne_nil : bytes ≠ []
  plain : ∀ b ∈ bytes, isSpace b = false ∧ isDivider b = false

/-- The name of which this is the text. -/
def Name.ofText (s : String)
    (h : bytesOf s ≠ [] ∧ (bytesOf s).all (fun b ↦ !isSpace b && !isDivider b) = true) : Name where
  bytes := bytesOf s
  ne_nil := h.1
  plain b hb := by simpa using List.all_eq_true.1 h.2 b hb

inductive QuotationMark
  | single
  | double
  deriving DecidableEq

namespace QuotationMark

def byte : QuotationMark → UInt8
  | single => 0x27
  | double => 0x22

/-- The state of a tag while the mark is open. -/
def quote : QuotationMark → Quote
  | single => .single
  | double => .double

end QuotationMark

/-- An attribute with the white space before it and around its equals sign. -/
structure AttributeSource where
  before : Space
  name : Name
  afterName : Space
  beforeValue : Space
  mark : QuotationMark
  value : Bytes
  before_ne_nil : before.1 ≠ []
  mark_notMem : mark.byte ∉ value

namespace AttributeSource

variable (a : AttributeSource)

/-- The attribute that is read. -/
def read : Attribute := ⟨a.name.bytes, a.value⟩

def quoted : Bytes := a.mark.byte :: (a.value ++ [a.mark.byte])

def bytes : Bytes :=
  a.before.1 ++ (a.name.bytes ++ (a.afterName.1 ++ 0x3D :: (a.beforeValue.1 ++ a.quoted)))

/-- The attribute of this name for a text, with one blank before it. -/
def ofText (name : Name) (text : String) : AttributeSource where
  before := ⟨[0x20], List.forall_mem_singleton.2 rfl⟩
  name := name
  afterName := .empty
  beforeValue := .empty
  mark := .double
  value := Utf8.encodeChars (escape text)
  before_ne_nil := List.cons_ne_nil _ _
  mark_notMem := notMem_encodeChars_escape (c := '\x22') rfl (by decide) text

end AttributeSource

/-- A start tag without its brackets. No two attributes have one name. -/
structure TagSource where
  name : Name
  attributes : List AttributeSource
  after : Space
  nodup : (attributes.map (·.name.bytes)).Nodup

namespace TagSource

/-- A tag with nothing but a name. -/
def plain (name : Name) : TagSource := ⟨name, [], .empty, .nil⟩

variable (tag : TagSource)

/-- What follows the name. -/
def attributePart : Bytes := tag.attributes.flatMap AttributeSource.bytes ++ tag.after.1

def content : Bytes := tag.name.bytes ++ tag.attributePart

/-- The tag that is read. -/
def read : Tag := ⟨tag.content⟩

/-- The attribute of this name. -/
def attribute? (name : String) : Option Attribute :=
  (tag.attributes.map (·.read)).find? (·.name = bytesOf name)

end TagSource

/-! ## Trees -/

inductive Node
  /-- Text without an opening bracket. -/
  | text (raw : { bytes : Bytes // 0x3C ∉ bytes })
  | comment (body : { bytes : Bytes // ¬ bytesOf "-->" <:+: bytes })
  | instruction (body : { bytes : Bytes // ¬ bytesOf "?>" <:+: 0x3F :: bytes })
  /-- An element, written as one tag if that is asked for and there is no content. -/
  | element (tag : TagSource) (short : Bool) (content : List Node)

namespace Node

mutual

def bytes : Node → Bytes
  | text raw => raw.1
  | comment body => bytesOf "<!--" ++ (body.1 ++ bytesOf "-->")
  | instruction body => bytesOf "<?" ++ (body.1 ++ bytesOf "?>")
  | element tag short content =>
    0x3C :: (tag.content ++
      if short && content.isEmpty then [0x2F, 0x3E]
      else 0x3E :: (bytesAll content ++ 0x3C :: 0x2F :: (tag.name.bytes ++ [0x3E])))

def bytesAll : List Node → Bytes
  | [] => []
  | n :: rest => n.bytes ++ bytesAll rest

end

end Node

/-- The event of a text, if anything is left of it without the white space at its ends. -/
def rawEvents (raw : Bytes) : List Event :=
  if Text.strip isSpace raw = [] then [] else [.text (Text.strip isSpace raw)]

namespace Node

mutual

/-- The events of an element. -/
def events : Node → List Event
  | element tag short content =>
    if short && content.isEmpty then [.empty tag.read]
    else .opening tag.read :: (eventsFrom [] content ++ [.closing tag.name.bytes])
  | text _ | comment _ | instruction _ => []

/-- The events of a sequence of nodes after a text: what follows the text without markup between
belongs to it. -/
def eventsFrom (before : Bytes) : List Node → List Event
  | [] => rawEvents before
  | n :: rest =>
    match n with
    | text raw => eventsFrom (before ++ raw.1) rest
    | _ => rawEvents before ++ (n.events ++ eventsFrom [] rest)

end

/-- What stands outside the root element: white space, comments and processing instructions. -/
def IsOutside : Node → Prop
  | text raw => ∀ b ∈ raw.1, isSpace b = true
  | comment _ | instruction _ => True
  | element .. => False

theorem isOutside_nil : ∀ n ∈ ([] : List Node), n.IsOutside := nofun

end Node

/-- A document with one root element. -/
structure Source where
  /-- Whether it begins with a byte order mark. -/
  marked : Bool := false
  prolog : List Node := []
  tag : TagSource
  short : Bool := false
  content : List Node
  epilog : List Node := []
  prolog_isOutside : ∀ n ∈ prolog, n.IsOutside
  epilog_isOutside : ∀ n ∈ epilog, n.IsOutside

namespace Source

variable (s : Source)

def root : Node := .element s.tag s.short s.content

def document : Document where
  bytes := (if s.marked then [0xEF, 0xBB, 0xBF] else []) ++
    (Node.bytesAll s.prolog ++ (s.root.bytes ++ Node.bytesAll s.epilog))

end Source

end PetriAlign.Xml
