import PetriAlign.Proofs.Xml.Piece

/-!
# Written documents as events

A document that is written from a tree is read as the events of the tree: a tag for each element and
the text between its tags, without the white space at its ends.
-/

namespace PetriAlign.Xml

open Markup (renderTag renderEnd newLine)

/-! ## The events of a tree -/

/-- The events of a text: none if nothing is left of it. -/
def textEvents (content : String) : List Event :=
  if trimmed content = "" then [] else [.text (Utf8.encodeChars (escape (trimmed content)))]

namespace Markup

mutual

/-- The events of an element. -/
def events : Markup → List Event
  | element name attributes content =>
    .opening (writtenTag name attributes) :: (eventsAll content ++ [.closing (bytesOf name)])
  | text name content =>
    .opening (writtenTag name []) :: (textEvents content ++ [.closing (bytesOf name)])
  | empty name attributes => [.empty (writtenTag name attributes)]

def eventsAll : List Markup → List Event
  | [] => []
  | m :: rest => m.events ++ eventsAll rest

end

mutual

/-- All names of the tree are made of letters. -/
def WellNamed : Markup → Prop
  | element name attributes content =>
    IsName name ∧ (∀ a ∈ attributes, IsName a.1) ∧ AllWellNamed content
  | text name _ => IsName name
  | empty name attributes => IsName name ∧ ∀ a ∈ attributes, IsName a.1

def AllWellNamed : List Markup → Prop
  | [] => True
  | m :: rest => m.WellNamed ∧ AllWellNamed rest

end

theorem allWellNamed_iff {ms : List Markup} : AllWellNamed ms ↔ ∀ m ∈ ms, m.WellNamed := by
  induction ms with
  | nil => exact ⟨fun _ _ hm ↦ absurd hm List.not_mem_nil, fun _ ↦ trivial⟩
  | cons m ms ih => rw [AllWellNamed, ih, List.forall_mem_cons]

end Markup

/-! ## One event of a stream -/

section Stream

variable {opened : List Bytes} {bytes rest : Bytes}

/-- The stream with more events before it. -/
def Stream.addAll (events : List Event) (s : Stream) : Stream :=
  { s with events := events ++ s.events }

theorem Stream.addAll_append (events events' : List Event) (s : Stream) :
    s.addAll (events ++ events') = (s.addAll events').addAll events := by
  rw [addAll, addAll, addAll, List.append_assoc]

/-- The open elements after an event, if it fits those before. -/
def openAfter : Event → List Bytes → Option (List Bytes)
  | .opening tag, opened => some (tag.name :: opened)
  | .closing _, [] => none
  | .closing name, expected :: others => if name = expected then some others else none
  | _, opened => some opened

/-- A stream begins with its first piece. -/
theorem streamFrom_event {event : Event} {opened' : List Bytes}
    (h : pieceOf (bytes.dropWhile isSpace) = .event event rest)
    (hopened : openAfter event opened = some opened') :
    streamFrom none opened bytes = (streamFrom none opened' rest).addAll [event] := by
  rw [streamFrom, h]
  cases event with
  | opening tag =>
    cases hopened
    rfl
  | empty tag =>
    cases hopened
    rfl
  | text raw =>
    cases hopened
    rfl
  | closing name =>
    cases opened with
    | nil => cases hopened
    | cons expected others =>
      rw [openAfter] at hopened
      split at hopened
      case isTrue heq =>
        cases hopened
        exact if_pos heq
      case isFalse => cases hopened

theorem streamFrom_skipped (h : pieceOf (bytes.dropWhile isSpace) = .skipped rest) :
    streamFrom none opened bytes = streamFrom none opened rest := by
  rw [streamFrom, h]

/-- White space before the rest of a document does not matter. -/
theorem streamFrom_congr (h : bytes.dropWhile isSpace = rest.dropWhile isSpace) :
    streamFrom none opened bytes = streamFrom none opened rest := by
  rw [streamFrom, h]
  conv_rhs => rw [streamFrom]

end Stream

/-! ## Whole trees -/

theorem strip_encodeChars_escape (s : String) :
    Text.strip isSpace (Utf8.encodeChars (escape s)) = Utf8.encodeChars (escape (trimmed s)) := by
  rw [escape, strip_escape, escape, trimmed, String.toList_ofList]

theorem encodeChars_escape_eq_nil {s : String} : Utf8.encodeChars (escape s) = [] ↔ s = "" := by
  constructor
  · intro h
    cases hs : s.toList with
    | nil => exact String.toList_eq_nil_iff.1 hs
    | cons c cs =>
      rw [escape, hs, List.flatMap_cons, Utf8.encodeChars_append, List.append_eq_nil_iff] at h
      exact absurd h.1 (encodeChars_escapeChar_ne_nil c)
  · rintro rfl
    rfl

/-- Escaped text before a tag is read as its events. -/
theorem streamFrom_escape (opened : List Bytes) (content : String) (rest : Bytes) :
    streamFrom none opened (Utf8.encodeChars (escape content) ++ 0x3C :: rest) =
      (streamFrom none opened (0x3C :: rest)).addAll (textEvents content) := by
  have hempty : trimmed content = "" ↔
      (Utf8.encodeChars (escape content)).dropWhile isSpace = [] := by
    rw [← encodeChars_escape_eq_nil, ← strip_encodeChars_escape, Text.strip_eq_nil_iff]
  unfold textEvents
  split
  case isTrue h =>
    apply streamFrom_congr
    rw [List.dropWhile_append, hempty.1 h]
    rfl
  case isFalse h =>
    cases hdrop : (Utf8.encodeChars (escape content)).dropWhile isSpace with
    | nil => exact absurd (hempty.2 hdrop) h
    | cons b bs =>
      have hopen : 0x3C ∉ b :: bs := by
        intro hmem
        rw [← hdrop] at hmem
        exact notMem_encodeChars_escape (c := '<') rfl (by decide) content
          ((List.dropWhile_sublist isSpace).mem hmem)
      have hstrip : stripEnd (b :: bs) = Utf8.encodeChars (escape (trimmed content)) := by
        rw [← strip_encodeChars_escape, Text.strip, hdrop]
        rfl
      apply streamFrom_event _ rfl
      rw [List.dropWhile_append, hdrop, ← hstrip]
      exact pieceOf_text hopen

theorem dropWhile_newLine (depth : Nat) (rest : Bytes) :
    (Utf8.encodeChars (newLine depth) ++ 0x3C :: rest).dropWhile isSpace = 0x3C :: rest := by
  have hspace : ∀ b ∈ Utf8.encodeChars (newLine depth), isSpace b = true := by
    intro b hb
    rw [newLine, Utf8.encodeChars_cons, List.mem_append] at hb
    rcases hb with hb | hb
    · obtain rfl := List.mem_singleton.1 hb
      rfl
    · obtain ⟨c, hc, hb⟩ := List.mem_flatMap.1 hb
      obtain rfl := List.eq_of_mem_replicate hc
      obtain rfl := List.mem_singleton.1 hb
      rfl
  exact Text.dropWhile_until hspace (by decide)

/-- The end tag of an open element. -/
theorem streamFrom_renderEnd {name : String} (hname : IsName name) (opened : List Bytes)
    (space rest : Bytes)
    (hspace : ∀ rest, (space ++ 0x3C :: rest).dropWhile isSpace = 0x3C :: rest) :
    streamFrom none (bytesOf name :: opened)
        (space ++ 0x3C :: 0x2F :: (bytesOf name ++ 0x3E :: rest)) =
      (streamFrom none opened rest).addAll [.closing (bytesOf name)] := by
  apply streamFrom_event
  · rw [hspace, pieceOf_closing hname]
  · exact if_pos rfl

theorem encodeChars_renderEnd {name : String} (hname : IsName name) (rest : Bytes) :
    Utf8.encodeChars (renderEnd name) ++ rest = 0x3C :: 0x2F :: (bytesOf name ++ 0x3E :: rest) := by
  rw [renderEnd, List.cons_append, List.cons_append, Utf8.encodeChars_cons, Utf8.encodeChars_cons,
    Utf8.encodeChars_append, hname.encodeChars_eq, List.append_assoc, List.append_assoc,
    List.append_assoc]
  rfl

/-- The start tag of an element that is written on a line of its own. -/
theorem streamFrom_renderTag {name : String} {attributes : List (String × String)}
    (hname : IsName name) (hattributes : ∀ a ∈ attributes, IsName a.1) (opened : List Bytes)
    (depth : Nat) (rest : Bytes) :
    streamFrom none opened (Utf8.encodeChars (newLine depth) ++
        0x3C :: (Utf8.encodeChars (renderTag name attributes) ++ 0x3E :: rest)) =
      (streamFrom none (bytesOf name :: opened) rest).addAll
        [.opening (writtenTag name attributes)] := by
  rw [← name_writtenTag hname hattributes]
  apply streamFrom_event _ rfl
  rw [dropWhile_newLine, pieceOf_opening hname hattributes]
  rfl

namespace Markup

mutual

/-- A written element is read as its events, whatever follows it. -/
theorem streamFrom_render (m : Markup) (h : m.WellNamed) (depth : Nat) (opened : List Bytes)
    (rest : Bytes) : streamFrom none opened (Utf8.encodeChars (m.render depth) ++ rest) =
      (streamFrom none opened rest).addAll m.events := by
  match m with
  | element name attributes content =>
    obtain ⟨hname, hattributes, hcontent⟩ := h
    have hbytes : Utf8.encodeChars ((element name attributes content).render depth) ++ rest =
        Utf8.encodeChars (newLine depth) ++
          0x3C :: (Utf8.encodeChars (renderTag name attributes) ++
            0x3E :: (Utf8.encodeChars (renderAll (depth + 1) content) ++
              (Utf8.encodeChars (newLine depth) ++
                0x3C :: 0x2F :: (bytesOf name ++ 0x3E :: rest)))) := by
      rw [render, ← encodeChars_renderEnd hname]
      simp only [Utf8.encodeChars_append, Utf8.encodeChars_cons, List.append_assoc]
      rfl
    rw [hbytes, streamFrom_renderTag hname hattributes, streamFrom_renderAll content hcontent,
      streamFrom_renderEnd hname opened _ rest (dropWhile_newLine depth), ← Stream.addAll_append,
      ← Stream.addAll_append]
    rfl
  | text name content =>
    have hname : IsName name := h
    have hbytes : Utf8.encodeChars ((text name content).render depth) ++ rest =
        Utf8.encodeChars (newLine depth) ++
          0x3C :: (Utf8.encodeChars (renderTag name []) ++
            0x3E :: (Utf8.encodeChars (escape content) ++
              0x3C :: 0x2F :: (bytesOf name ++ 0x3E :: rest))) := by
      rw [render, ← encodeChars_renderEnd hname, renderTag, List.flatMap_nil, List.append_nil]
      simp only [Utf8.encodeChars_append, Utf8.encodeChars_cons, List.append_assoc]
      rfl
    have hend := streamFrom_renderEnd hname opened [] rest fun _ ↦ rfl
    rw [hbytes, streamFrom_renderTag hname (fun _ ha ↦ absurd ha List.not_mem_nil),
      streamFrom_escape, ← List.nil_append (0x3C :: 0x2F :: _), hend, ← Stream.addAll_append,
      ← Stream.addAll_append]
    rfl
  | empty name attributes =>
    obtain ⟨hname, hattributes⟩ := h
    have hbytes : Utf8.encodeChars ((empty name attributes).render depth) ++ rest =
        Utf8.encodeChars (newLine depth) ++
          0x3C :: (Utf8.encodeChars (renderTag name attributes) ++ 0x2F :: 0x3E :: rest) := by
      rw [render]
      simp only [Utf8.encodeChars_append, Utf8.encodeChars_cons, List.append_assoc]
      rfl
    rw [hbytes]
    apply streamFrom_event _ rfl
    rw [dropWhile_newLine, pieceOf_empty hname hattributes]
    rfl

theorem streamFrom_renderAll (ms : List Markup) (h : AllWellNamed ms) (depth : Nat)
    (opened : List Bytes) (rest : Bytes) :
    streamFrom none opened (Utf8.encodeChars (renderAll depth ms) ++ rest) =
      (streamFrom none opened rest).addAll (eventsAll ms) := by
  match ms with
  | [] => rfl
  | m :: ms =>
    rw [renderAll, Utf8.encodeChars_append, List.append_assoc, streamFrom_render m h.1,
      streamFrom_renderAll ms h.2, ← Stream.addAll_append]
    rfl

end

/-- A written document has the events of its tree and no fault. -/
theorem stream_document {root : Markup} (h : root.WellNamed) :
    stream (.ofText (.ofList (document root))) = { events := root.events } := by
  have hdeclaration : Utf8.encodeChars "<?xml version=\"1.0\" encoding=\"UTF-8\"?>".toList =
      0x3C :: 0x3F ::
        (0x78 :: bytesOf "ml version=\"1.0\" encoding=\"UTF-8\"" ++ [0x3F, 0x3E]) := by
    decide +kernel
  have hbytes : Utf8.encodeChars (document root) =
      0x3C :: 0x3F :: (0x78 :: bytesOf "ml version=\"1.0\" encoding=\"UTF-8\"" ++
        0x3F :: 0x3E :: Utf8.encodeChars (root.render 0)) := by
    refine (Utf8.encodeChars_append _ _).trans ?_
    rw [hdeclaration]
    generalize bytesOf "ml version=\"1.0\" encoding=\"UTF-8\"" = declaration
    simp only [List.cons_append, List.append_assoc, List.nil_append]
  have hpiece : pieceOf ((Utf8.encodeChars (document root)).dropWhile isSpace) =
      .skipped (Utf8.encodeChars (root.render 0)) := by
    rw [hbytes, List.dropWhile_cons_of_neg (by decide)]
    exact pieceOf_instruction (by decide) (by decide +kernel) _
  have hmark : dropByteOrderMark (Utf8.encodeChars (document root)) =
      Utf8.encodeChars (document root) := by
    rw [hbytes]
    rfl
  have hend : streamFrom none [] [] = {} := by
    rw [streamFrom]
    rfl
  have hrender := streamFrom_render root h 0 [] []
  rw [List.append_nil, hend] at hrender
  rw [stream, Document.ofText, Utf8.encode, String.toList_ofList, hmark, streamFrom_skipped hpiece,
    hrender, Stream.addAll, List.append_nil]

end Markup

end PetriAlign.Xml
