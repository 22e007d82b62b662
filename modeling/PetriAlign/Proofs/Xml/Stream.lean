import PetriAlign.Proofs.Xml.Scan

/-!
# Trees read as events

A document that is written from a tree is read as the events of its root element, whatever is free
in writing it down. Text reaches to the next tag, so the text before a sequence of nodes is carried
along until markup comes.
-/

namespace PetriAlign.Xml

variable {opened : List Bytes}

theorem Stream.addAll_nil (s : Stream) : s.addAll [] = s := rfl

/-- What is left of a text that is not white space. -/
theorem strip_of_dropWhile {raw : Bytes} (h : 0x3C ∉ raw) {b : UInt8} {bs : Bytes}
    (hdrop : raw.dropWhile isSpace = b :: bs) :
    0x3C ∉ b :: bs ∧ Text.strip isSpace raw = stripEnd (b :: bs) := by
  constructor
  · intro hmem
    rw [← hdrop] at hmem
    exact h ((List.dropWhile_sublist isSpace).mem hmem)
  · rw [Text.strip, hdrop]
    rfl

/-- Text before markup is read as its event. -/
theorem streamFrom_raw {raw : Bytes} (h : 0x3C ∉ raw) (rest : Bytes) :
    streamFrom none opened (raw ++ 0x3C :: rest) =
      (streamFrom none opened (0x3C :: rest)).addAll (rawEvents raw) := by
  unfold rawEvents
  cases hdrop : raw.dropWhile isSpace with
  | nil =>
    rw [if_pos (Text.strip_eq_nil_iff.2 hdrop)]
    apply streamFrom_congr
    rw [List.dropWhile_append, hdrop]
    rfl
  | cons b bs =>
    obtain ⟨hopen, hstrip⟩ := strip_of_dropWhile h hdrop
    rw [if_neg (by simp [Text.strip_eq_nil_iff, hdrop])]
    apply streamFrom_event _ rfl
    rw [List.dropWhile_append, hdrop, hstrip]
    exact pieceOf_text hopen

/-- The text after the last tag is the last event. -/
theorem streamFrom_last {raw : Bytes} (h : 0x3C ∉ raw) :
    streamFrom none opened raw = { events := rawEvents raw } := by
  unfold rawEvents
  rw [streamFrom]
  cases hdrop : raw.dropWhile isSpace with
  | nil =>
    rw [if_pos (Text.strip_eq_nil_iff.2 hdrop)]
    rfl
  | cons b bs =>
    obtain ⟨hopen, hstrip⟩ := strip_of_dropWhile h hdrop
    have hne : Text.strip isSpace raw ≠ [] := by simp [Text.strip_eq_nil_iff, hdrop]
    rw [pieceOf_last hopen, ← hstrip, if_neg hne]
    dsimp only
    rw [if_neg (mt List.isEmpty_iff.1 hne)]

/-- Markup that begins with this piece. -/
theorem streamFrom_bracket {event : Event} {after rest : Bytes}
    (h : pieceOf (0x3C :: after) = .event event rest) {opened' : List Bytes}
    (hopened : openAfter event opened = some opened') :
    streamFrom none opened (0x3C :: after) = (streamFrom none opened' rest).addAll [event] :=
  streamFrom_event h hopened

namespace Node

/-- Everything but text begins with a bracket. -/
def IsMarkup : Node → Prop
  | text _ => False
  | _ => True

theorem exists_bytes_eq {n : Node} (h : n.IsMarkup) : ∃ after, n.bytes = 0x3C :: after := by
  cases n with
  | text raw => cases h
  | comment body => exact ⟨_, rfl⟩
  | instruction body => exact ⟨_, rfl⟩
  | element tag short content => exact ⟨_, rfl⟩

theorem eventsFrom_text (before : Bytes) (raw : { bytes : Bytes // 0x3C ∉ bytes })
    (rest : List Node) :
    eventsFrom before (.text raw :: rest) = eventsFrom (before ++ raw.1) rest := by
  rw [eventsFrom]

theorem eventsFrom_markup {n : Node} (h : n.IsMarkup) (before : Bytes) (rest : List Node) :
    eventsFrom before (n :: rest) = rawEvents before ++ (n.events ++ eventsFrom [] rest) := by
  cases n with
  | text raw => cases h
  | comment body => rfl
  | instruction body => rfl
  | element tag short content => rfl

mutual

/-- Markup is read as its events, whatever follows it. -/
theorem streamFrom_markup (n : Node) (h : n.IsMarkup) (opened : List Bytes) (rest : Bytes) :
    streamFrom none opened (n.bytes ++ rest) = (streamFrom none opened rest).addAll n.events := by
  match n with
  | .comment body =>
    rw [bytes, events, Stream.addAll_nil]
    exact streamFrom_skipped (pieceOf_comment body.2 rest)
  | .instruction body =>
    rw [bytes, events, Stream.addAll_nil]
    exact streamFrom_skipped (pieceOf_processing body.2 rest)
  | .element tag short content =>
    rw [bytes, events, List.cons_append, List.append_assoc]
    split
    case isTrue => exact streamFrom_bracket (tag.pieceOf_short rest) rfl
    case isFalse =>
      have hclosing : openAfter (.closing tag.name.bytes) (tag.read.name :: opened) = some opened :=
        if_pos tag.name_read.symm
      simp only [List.cons_append, List.append_assoc, List.nil_append]
      rw [streamFrom_bracket (tag.pieceOf_opening _) rfl, ← List.nil_append (bytesAll content ++ _),
        streamFrom_nodes content List.not_mem_nil,
        streamFrom_bracket (tag.name.pieceOf_closing rest) hclosing, ← Stream.addAll_append,
        ← Stream.addAll_append]
      rfl

/-- A sequence of nodes after a text is read as its events, if markup follows it. -/
theorem streamFrom_nodes (nodes : List Node) {before : Bytes} (hbefore : 0x3C ∉ before)
    (opened : List Bytes) (rest : Bytes) :
    streamFrom none opened (before ++ (bytesAll nodes ++ 0x3C :: rest)) =
      (streamFrom none opened (0x3C :: rest)).addAll (eventsFrom before nodes) := by
  match nodes with
  | [] =>
    rw [bytesAll, eventsFrom]
    exact streamFrom_raw hbefore rest
  | n :: nodes =>
    by_cases hn : n.IsMarkup
    · obtain ⟨after, hafter⟩ := exists_bytes_eq hn
      rw [bytesAll, eventsFrom_markup hn, List.append_assoc, hafter, List.cons_append,
        streamFrom_raw hbefore, ← List.cons_append, ← hafter, streamFrom_markup n hn,
        ← List.nil_append (bytesAll nodes ++ _), streamFrom_nodes nodes List.not_mem_nil,
        ← Stream.addAll_append, ← Stream.addAll_append, List.append_assoc]
    · cases n with
      | text raw =>
        have hmore : 0x3C ∉ before ++ raw.1 := fun h ↦ (List.mem_append.1 h).elim hbefore raw.2
        rw [bytesAll, bytes, eventsFrom_text, ← streamFrom_nodes nodes hmore]
        simp only [List.append_assoc]
      | _ => exact absurd trivial hn

end

/-- A sequence of nodes at the end of a document is read as its events. -/
theorem streamFrom_nodes_last (nodes : List Node) {before : Bytes} (hbefore : 0x3C ∉ before)
    (opened : List Bytes) : streamFrom none opened (before ++ bytesAll nodes) =
      { events := eventsFrom before nodes } := by
  induction nodes generalizing before with
  | nil =>
    rw [bytesAll, List.append_nil]
    exact streamFrom_last hbefore
  | cons n nodes ih =>
    by_cases hn : n.IsMarkup
    · obtain ⟨after, hafter⟩ := exists_bytes_eq hn
      have hnodes := ih List.not_mem_nil
      rw [List.nil_append] at hnodes
      rw [bytesAll, eventsFrom_markup hn, hafter, List.cons_append, streamFrom_raw hbefore,
        ← List.cons_append, ← hafter, streamFrom_markup n hn, hnodes]
      rfl
    · cases n with
      | text raw =>
        have hmore : 0x3C ∉ before ++ raw.1 := fun h ↦ (List.mem_append.1 h).elim hbefore raw.2
        rw [bytesAll, bytes, eventsFrom_text, ← ih hmore, List.append_assoc]
      | _ => exact absurd trivial hn

/-- What stands outside the root element is no event. -/
theorem streamFrom_outside {nodes : List Node} (h : ∀ n ∈ nodes, n.IsOutside) (rest : Bytes) :
    streamFrom none opened (bytesAll nodes ++ rest) = streamFrom none opened rest := by
  induction nodes with
  | nil => rfl
  | cons n nodes ih =>
    rw [List.forall_mem_cons] at h
    rw [bytesAll, List.append_assoc, ← ih h.2]
    cases n with
    | text raw =>
      apply streamFrom_congr
      exact List.dropWhile_append_of_pos h.1
    | comment body => exact streamFrom_markup (.comment body) trivial _ _
    | instruction body => exact streamFrom_markup (.instruction body) trivial _ _
    | element tag short content => exact h.1.elim

/-- A byte order mark is no white space and no markup. -/
theorem head?_outside {nodes : List Node} (h : ∀ n ∈ nodes, n.IsOutside) (rest : Bytes) :
    (bytesAll nodes ++ 0x3C :: rest).head? ≠ some 0xEF := by
  induction nodes with
  | nil => exact fun hhead ↦ absurd (Option.some.inj hhead) (by decide)
  | cons n nodes ih =>
    rw [List.forall_mem_cons] at h
    rw [bytesAll, List.append_assoc]
    cases n with
    | text raw =>
      cases hraw : raw.1 with
      | nil =>
        rw [bytes, hraw]
        exact ih h.2
      | cons b bs =>
        have hb : isSpace b = true := h.1 b (hraw ▸ List.mem_cons_self)
        rw [bytes, hraw]
        exact fun hhead ↦ ne_of_isSpace hb (by decide) (Option.some.inj hhead)
    | comment body => exact fun hhead ↦ absurd (Option.some.inj hhead) (by decide)
    | instruction body => exact fun hhead ↦ absurd (Option.some.inj hhead) (by decide)
    | element tag short content => exact h.1.elim

end Node

/-! ## Reading nodes -/

/-- Where the text between nodes changes nothing, they are read one after the other. -/
theorem Node.foldlM_eventsFrom {ε σ : Type} {f : σ → Event → Except ε σ} {p : Bytes → Prop}
    (hnil : p []) (happend : ∀ raw raw', p raw → p raw' → p (raw ++ raw'))
    (hraw : ∀ raw, p raw → ∀ s, (rawEvents raw).foldlM f s = .ok s) {nodes : List Node}
    (hnodes : ∀ raw, .text raw ∈ nodes → p raw.1) {before : Bytes} (hbefore : p before) (s : σ) :
    (eventsFrom before nodes).foldlM f s = nodes.foldlM (fun s n ↦ n.events.foldlM f s) s := by
  induction nodes generalizing s before with
  | nil =>
    rw [eventsFrom]
    exact hraw before hbefore s
  | cons n nodes ih =>
    have ih' {before : Bytes} (hbefore : p before) (s : σ) :=
      ih (fun raw h ↦ hnodes raw (List.mem_cons_of_mem n h)) hbefore s
    by_cases hn : n.IsMarkup
    · rw [eventsFrom_markup hn, List.foldlM_append, hraw before hbefore]
      change (n.events ++ eventsFrom [] nodes).foldlM f s = _
      rw [List.foldlM_append, List.foldlM_cons]
      exact bind_congr (ih' hnil)
    · cases n with
      | text raw => exact ih' (happend _ _ hbefore (hnodes raw List.mem_cons_self)) s
      | _ => exact absurd trivial hn

/-! ## Documents -/

namespace Source

variable (s : Source)

theorem dropByteOrderMark_document : dropByteOrderMark s.document.bytes =
    Node.bytesAll s.prolog ++ (s.root.bytes ++ Node.bytesAll s.epilog) := by
  unfold document
  cases s.marked with
  | true => rfl
  | false =>
    obtain ⟨after, hafter⟩ := Node.exists_bytes_eq (n := s.root) trivial
    have hhead := Node.head?_outside s.prolog_isOutside (after ++ Node.bytesAll s.epilog)
    rw [← List.cons_append, ← hafter] at hhead
    unfold dropByteOrderMark
    split
    case h_1 heq =>
      have heq' : Node.bytesAll s.prolog ++ (s.root.bytes ++ Node.bytesAll s.epilog) = _ := heq
      rw [heq'] at hhead
      exact absurd rfl hhead
    case h_2 => rfl

/-- A document is read as the events of its root element, without a fault. -/
theorem stream_document : stream s.document = { events := s.root.events } := by
  have hend : streamFrom none [] [] = {} := by
    rw [streamFrom]
    rfl
  have hepilog : streamFrom none [] (Node.bytesAll s.epilog) = {} := by
    rw [← List.append_nil (Node.bytesAll s.epilog),
      Node.streamFrom_outside s.epilog_isOutside, hend]
  rw [stream, dropByteOrderMark_document, document, Node.streamFrom_outside s.prolog_isOutside,
    Node.streamFrom_markup s.root trivial, hepilog, Stream.addAll, List.append_nil]

end Source

end PetriAlign.Xml
