import PetriAlign.Document
import PetriAlign.Text.Search
import PetriAlign.Xml.Error

/-!
# XML documents as events

A document is read as a sequence of tags and texts. Comments, processing instructions, character
data sections and document types are checked for their ends and left out. Names of end tags are
checked against the open elements; elements may stay open at the end, and text may stand anywhere.
Bytes are compared as they are, so a document need not be UTF-8 where nobody looks.
-/

namespace PetriAlign.Xml

def isSpace (b : UInt8) : Bool := b = 0x20 || b = 0x09 || b = 0x0A || b = 0x0D

/-- What stands between the angle brackets of a start tag, without the slash of an empty one. -/
structure Tag where
  content : Bytes
  deriving DecidableEq, Repr

namespace Tag

def name (tag : Tag) : Bytes := tag.content.takeWhile (!isSpace ·)

/-- What follows the name. -/
def attributePart (tag : Tag) : Bytes := tag.content.dropWhile (!isSpace ·)

end Tag

inductive Event
  | opening (tag : Tag)
  /-- A tag that opens and closes an element without content. -/
  | empty (tag : Tag)
  | closing (name : Bytes)
  /-- Text between tags, without the white space at its ends. It is never empty. -/
  | text (raw : Bytes)
  deriving DecidableEq, Repr

/-- Which quotation mark is open. -/
inductive Quote
  | none
  | single
  | double
  deriving DecidableEq

/-- Whether a quotation mark is open after this byte. -/
def Quote.after (quote : Quote) (b : UInt8) : Quote :=
  match quote with
  | none => if b = 0x27 then single else if b = 0x22 then double else none
  | single => if b = 0x27 then none else single
  | double => if b = 0x22 then none else double

/-- The bytes before and after the first `>` outside quotation marks; `before` is reversed. -/
def tagFrom (quote : Quote) (before : Bytes) : Bytes → Option (Bytes × Bytes)
  | [] => none
  | b :: rest =>
    if quote = .none ∧ b = 0x3E then some (before.reverse, rest)
    else tagFrom (quote.after b) (b :: before) rest

/-- The bytes before and after the first `>` that closes as many brackets as were opened. -/
def balancedFrom (depth : Nat) (before : Bytes) : Bytes → Option (Bytes × Bytes)
  | [] => none
  | b :: rest =>
    if b = 0x3E then
      match depth with
      | 0 => some (before.reverse, rest)
      | d + 1 => balancedFrom d (b :: before) rest
    else balancedFrom (if b = 0x3C then depth + 1 else depth) (b :: before) rest

/-- The first thing in what is left of a document. -/
inductive Piece
  /-- Nothing follows but this text, if it is not empty. -/
  | last (text : Bytes)
  /-- The input ends inside this markup. -/
  | unclosed (what : Malformed)
  | refused (error : Error)
  /-- Markup that makes no event. -/
  | skipped (rest : Bytes)
  | event (event : Event) (rest : Bytes)

def stripEnd (bytes : Bytes) : Bytes := (bytes.reverse.dropWhile isSpace).reverse

def bytesOf (s : String) : Bytes := s.toList.map fun c ↦ .ofNat c.toNat

def lowerByte (b : UInt8) : UInt8 := if 0x41 ≤ b ∧ b ≤ 0x5A then b + 0x20 else b

/-- Reads a processing instruction from its first question mark on. -/
def instructionPiece (bytes : Bytes) : Piece :=
  match Text.cut (bytesOf "?>") bytes with
  | none => .unclosed .instruction
  | some ([], _) => .refused (.malformed .instruction)
  | some (_, rest) => .skipped rest

/-- Reads a comment from its first dash on. Its two opening and two closing dashes are apart. -/
def commentPiece (bytes : Bytes) : Piece :=
  match Text.cut (bytesOf "-->") (bytes.drop 2) with
  | none => .unclosed .comment
  | some (_, rest) =>
    if (bytesOf "--").isPrefixOf bytes then .skipped rest else .refused (.malformed .comment)

/-- Reads a character data section from its first square bracket on. -/
def cdataPiece (bytes : Bytes) : Piece :=
  match Text.cut (bytesOf "]]>") bytes with
  | none => .unclosed .cdata
  | some (content, rest) =>
    if (bytesOf "[CDATA[").isPrefixOf content then .skipped rest
    else .refused (.malformed .cdata)

/-- Reads a document type from the first letter of its keyword on. -/
def doctypePiece (bytes : Bytes) : Piece :=
  match balancedFrom 0 [] bytes with
  | none => .unclosed .doctype
  | some (content, rest) =>
    if (bytesOf "doctype").isPrefixOf (content.map lowerByte) then
      if (content.drop 7).all isSpace then .refused (.illFormed .unnamedDoctype)
      else .skipped rest
    else .refused (.malformed .doctype)

/-- Reads what follows `<!`. -/
def declarationPiece (bytes : Bytes) : Piece :=
  match bytes with
  | [] => .unclosed .unknownMarkup
  | b :: _ =>
    if b = 0x5B then cdataPiece bytes
    else if b = 0x2D then commentPiece bytes
    else if b = 0x44 ∨ b = 0x64 then doctypePiece bytes
    else .refused (.malformed .unknownMarkup)

/-- The name in an end tag: white space after it does not count. -/
def closingName (content : Bytes) : Bytes :=
  if content.all isSpace then content else stripEnd content

/-- Reads an end tag from after its slash. -/
def closingPiece (bytes : Bytes) : Piece :=
  match tagFrom .none [] bytes with
  | none => .unclosed .tag
  | some (content, rest) => .event (.closing (closingName content)) rest

/-- The event of a tag that is not an end tag. -/
def openingEvent (content : Bytes) : Event :=
  if content.getLast? = some 0x2F then .empty ⟨content.dropLast⟩ else .opening ⟨content⟩

/-- Reads a start tag from its name on. -/
def openingPiece (bytes : Bytes) : Piece :=
  match tagFrom .none [] bytes with
  | none => .unclosed .tag
  | some (content, rest) => .event (openingEvent content) rest

/-- Reads what follows `<`. -/
def markupPiece (bytes : Bytes) : Piece :=
  match bytes with
  | [] => .unclosed .tag
  | b :: rest =>
    if b = 0x21 then declarationPiece rest
    else if b = 0x2F then closingPiece rest
    else if b = 0x3F then instructionPiece bytes
    else openingPiece bytes

/-- Reads what follows the white space between two events. -/
def pieceOf (bytes : Bytes) : Piece :=
  match bytes with
  | [] => .last []
  | b :: rest =>
    if b = 0x3C then markupPiece rest
    else
      match bytes.dropWhile (· ≠ 0x3C) with
      | [] => .last (stripEnd bytes)
      | after => .event (.text (stripEnd (bytes.takeWhile (· ≠ 0x3C)))) after

/-- What is left of the document after the piece. -/
def Piece.rest? : Piece → Option Bytes
  | skipped rest | event _ rest => some rest
  | _ => none

theorem length_cutFrom {pattern before bytes left right : Bytes}
    (h : Text.cutFrom pattern before bytes = some (left, right)) :
    right.length + pattern.length ≤ bytes.length := by
  induction bytes generalizing before with
  | nil =>
    simp only [Text.cutFrom, List.isEmpty_iff] at h
    split at h <;> simp_all
  | cons b bytes ih =>
    simp only [Text.cutFrom] at h
    split at h
    · rename_i hp
      have hl := (List.isPrefixOf_iff_prefix.1 hp).length_le
      simp only [Option.some.injEq, Prod.mk.injEq] at h
      rw [← h.2, List.length_drop]
      omega
    · have := ih h
      simp only [List.length_cons]
      omega

theorem length_tagFrom {quote : Quote} {before bytes left right : Bytes}
    (h : tagFrom quote before bytes = some (left, right)) : right.length < bytes.length := by
  induction bytes generalizing quote before with
  | nil => simp [tagFrom] at h
  | cons b bytes ih =>
    simp only [tagFrom] at h
    split at h
    · simp_all
    · have := ih h
      simp only [List.length_cons]
      omega

theorem length_balancedFrom {depth : Nat} {before bytes left right : Bytes}
    (h : balancedFrom depth before bytes = some (left, right)) : right.length < bytes.length := by
  induction bytes generalizing depth before with
  | nil => simp [balancedFrom] at h
  | cons b bytes ih =>
    simp only [balancedFrom] at h
    split at h
    · split at h
      · simp_all
      · have := ih h
        simp only [List.length_cons]
        omega
    · have := ih h
      simp only [List.length_cons]
      omega

theorem length_dropWhile_le {α : Type} (p : α → Bool) (xs : List α) :
    (xs.dropWhile p).length ≤ xs.length :=
  (List.dropWhile_sublist p).length_le

theorem length_openingPiece {bytes rest : Bytes} (h : (openingPiece bytes).rest? = some rest) :
    rest.length < bytes.length := by
  unfold openingPiece at h
  split at h
  · simp [Piece.rest?] at h
  · rename_i heq
    simp only [Piece.rest?, Option.some.injEq] at h
    exact h ▸ length_tagFrom heq

theorem length_closingPiece {bytes rest : Bytes} (h : (closingPiece bytes).rest? = some rest) :
    rest.length < bytes.length := by
  unfold closingPiece at h
  split at h
  · simp [Piece.rest?] at h
  · rename_i heq
    simp only [Piece.rest?, Option.some.injEq] at h
    exact h ▸ length_tagFrom heq

theorem length_instructionPiece {bytes rest : Bytes}
    (h : (instructionPiece bytes).rest? = some rest) : rest.length < bytes.length := by
  unfold instructionPiece at h
  split at h
  · simp [Piece.rest?] at h
  · simp [Piece.rest?] at h
  · rename_i heq
    have := length_cutFrom heq
    simp only [Piece.rest?, Option.some.injEq] at h
    subst h
    simp only [bytesOf] at this
    exact Nat.lt_of_lt_of_le (by simp) this

theorem length_declarationPiece {bytes rest : Bytes}
    (h : (declarationPiece bytes).rest? = some rest) : rest.length ≤ bytes.length := by
  unfold declarationPiece at h
  split at h
  · simp [Piece.rest?] at h
  · split at h
    · unfold cdataPiece at h
      split at h
      · simp [Piece.rest?] at h
      · rename_i heq
        have := length_cutFrom heq
        split at h <;> simp only [Piece.rest?, Option.some.injEq, reduceCtorEq] at h
        subst h
        omega
    · split at h
      · unfold commentPiece at h
        split at h
        · simp [Piece.rest?] at h
        · rename_i heq
          have := length_cutFrom heq
          rw [List.length_drop] at this
          split at h <;> simp only [Piece.rest?, Option.some.injEq, reduceCtorEq] at h
          subst h
          omega
      · split at h
        · unfold doctypePiece at h
          split at h
          · simp [Piece.rest?] at h
          · rename_i heq
            have := length_balancedFrom heq
            split at h
            · split at h <;> simp only [Piece.rest?, Option.some.injEq, reduceCtorEq] at h
              subst h
              omega
            · simp [Piece.rest?] at h
        · simp [Piece.rest?] at h

/-- Every piece that is not the last one takes at least one byte. -/
theorem length_pieceOf {bytes rest : Bytes} (h : (pieceOf bytes).rest? = some rest) :
    rest.length < bytes.length := by
  unfold pieceOf at h
  split at h
  · simp [Piece.rest?] at h
  · rename_i b tail
    split at h
    · unfold markupPiece at h
      split at h
      · simp [Piece.rest?] at h
      · split at h
        · have := length_declarationPiece h
          simp only [List.length_cons]
          omega
        · split at h
          · have := length_closingPiece h
            simp only [List.length_cons]
            omega
          · split at h
            · have := length_instructionPiece h
              simp only [List.length_cons] at this ⊢
              omega
            · have := length_openingPiece h
              simp only [List.length_cons] at this ⊢
              omega
    · rename_i hb
      split at h
      · simp [Piece.rest?] at h
      · simp only [Piece.rest?, Option.some.injEq] at h
        subst h
        have := length_dropWhile_le (· ≠ (0x3C : UInt8)) tail
        simp only [List.dropWhile_cons, ne_eq, hb, not_false_eq_true, decide_true, if_true,
          List.length_cons]
        exact Nat.lt_succ_of_le this

/-- The events of a document up to where reading stops, and the error it stops with. -/
structure Stream where
  events : List Event := []
  stop : Option Error := none
  deriving DecidableEq, Repr

namespace Stream

def add (event : Event) (s : Stream) : Stream := { s with events := event :: s.events }

end Stream

/-- Reads on with the names of the open elements, the innermost first. A fault in the document
takes the place of everything that would need a byte after the last one. -/
def streamFrom (fault : Option ReadFault) (opened : List Bytes) (bytes : Bytes) : Stream :=
  match _h : pieceOf (bytes.dropWhile isSpace) with
  | .last text =>
    match fault with
    | some f => { stop := some (.read f) }
    | none => { events := if text.isEmpty then [] else [.text text] }
  | .unclosed what => { stop := some ((fault.map Error.read).getD (.malformed what)) }
  | .refused error => { stop := some error }
  | .skipped rest => streamFrom fault opened rest
  | .event (.opening tag) rest => (streamFrom fault (tag.name :: opened) rest).add (.opening tag)
  | .event (.closing name) rest =>
    match opened with
    | [] => { stop := some (.illFormed (.unmatchedEnd (Utf8.decodeOrEmpty name))) }
    | expected :: others =>
      if name = expected then (streamFrom fault others rest).add (.closing name)
      else
        { stop := some (.illFormed
            (.mismatchedEnd (Utf8.decodeOrEmpty expected) (Utf8.decodeOrEmpty name))) }
  | .event event rest => (streamFrom fault opened rest).add event
termination_by bytes.length
decreasing_by
  all_goals
    have hlt : rest.length < (bytes.dropWhile isSpace).length :=
      length_pieceOf (by rw [_h]; rfl)
    have hle := length_dropWhile_le isSpace bytes
    omega

/-- The bytes after a byte order mark, if there is one. -/
def dropByteOrderMark : Bytes → Bytes
  | 0xEF :: 0xBB :: 0xBF :: rest => rest
  | bytes => bytes

def stream (d : Document) : Stream := streamFrom d.fault [] (dropByteOrderMark d.bytes)

end PetriAlign.Xml
