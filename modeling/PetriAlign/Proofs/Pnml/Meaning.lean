import PetriAlign.Proofs.Pnml.Declarations

/-!
# The net of a document

A document of the grammar is read as the net that it describes. A page leaves the reader where a
declaration does, so what is declared is the same with and without pages.
-/

namespace PetriAlign.Pnml

open Xml (Node Source TagSource writtenTag bytesOf)

variable {n : Node} {content : List Node}

namespace Draft

variable {d : Draft}

/-! ## Items -/

/-- The draft after this node, if it is a declaration or a list of final markings. -/
def declare (d : Draft) (n : Node) : Draft :=
  { d.addMarkings (markingsOf n) with
    places := (placeOf? n).toList ++ d.places
    transitions := (transitionOf? n).toList ++ d.transitions
    arcs := (draftArcOf? n).toList ++ d.arcs
    invisible := (silentId? n).elim d.invisible (d.invisible.insert · ()) }

theorem declare_eq_self (h : ∀ name ∈ ["place", "transition", "arc", "finalmarkings"],
    contentOf? name n = none) (d : Draft) : d.declare n = d := by
  simp only [List.forall_mem_cons] at h
  obtain ⟨hplace, htransition, harc, hfinal, -⟩ := h
  have hmarkings : markingsOf n = [] := by
    rw [markingsOf, hfinal]
    rfl
  rw [declare, hmarkings, addMarkings_nil]
  cases n with
  | element tag short content =>
    simp only [contentOf?, ite_eq_right_iff, reduceCtorEq, imp_false] at hplace htransition harc
    simp [placeOf?, transitionOf?, draftArcOf?, arcOf?, silentId?, hplace, htransition, harc]
  | _ => rfl

section Element

variable {tag : TagSource} (short : Bool)

theorem markingsOf_of_ne (h : tag.name.bytes ≠ bytesOf "finalmarkings") :
    markingsOf (.element tag short content) = [] := by
  rw [markingsOf, contentOf?, if_neg h]
  rfl

theorem declare_place (hname : tag.name.bytes = bytesOf "place") (d : Draft) :
    d.declare (.element tag short content) = { d with
      places := (placeOf? (.element tag short content)).toList ++ d.places } := by
  rw [declare, markingsOf_of_ne short (by rw [hname]; decide), addMarkings_nil]
  simp +decide [transitionOf?, draftArcOf?, arcOf?, silentId?, hname]

theorem declare_transition (hname : tag.name.bytes = bytesOf "transition") (d : Draft) :
    d.declare (.element tag short content) = { d with
      transitions := (transitionOf? (.element tag short content)).toList ++ d.transitions
      invisible := (silentId? (.element tag short content)).elim d.invisible
        (d.invisible.insert · ()) } := by
  rw [declare, markingsOf_of_ne short (by rw [hname]; decide), addMarkings_nil]
  simp +decide [placeOf?, draftArcOf?, arcOf?, hname]

theorem declare_arc (hname : tag.name.bytes = bytesOf "arc") (d : Draft) :
    d.declare (.element tag short content) = { d with
      arcs := (draftArcOf? (.element tag short content)).toList ++ d.arcs } := by
  rw [declare, markingsOf_of_ne short (by rw [hname]; decide), addMarkings_nil]
  simp +decide [placeOf?, transitionOf?, silentId?, hname]

theorem declare_finalMarkings (hname : tag.name.bytes = bytesOf "finalmarkings") (d : Draft) :
    d.declare (.element tag short content) =
      d.addMarkings (markingsOf (.element tag short content)) := by
  rw [declare]
  simp +decide [placeOf?, transitionOf?, draftArcOf?, arcOf?, silentId?, hname, addMarkings]

theorem unpaged_of_ne (h : tag.name.bytes ≠ bytesOf "page") :
    unpaged (.element tag short content) = [.element tag short content] := by
  rw [unpaged, if_neg h]

end Element

theorem markedPlace_foldl_declare (nodes : List Node) (d : Draft) :
    (nodes.foldl declare d).markedPlace = d.markedPlace := by
  induction nodes generalizing d with
  | nil => rfl
  | cons n nodes ih => exact ih (d.declare n)

theorem isQuiet_of_isItem (h : IsItem n) : IsQuiet n := by
  cases h with
  | filler hfiller => exact hfiller.isQuiet
  | _ => trivial

theorem unpaged_filler (h : IsFiller n) : unpaged n = [n] := by
  cases h with
  | element hname _ => exact unpaged_of_ne _ (hname "page" (by decide))
  | _ => rw [unpaged]

/-- An item is read as the declarations in it, with no trace of pages. -/
theorem readNode_item (h : IsItem n) (hd : d.markedPlace = none) :
    (d.goTo .net).readNode n = .ok (((unpaged n).foldl declare d).goTo .net) := by
  induction h generalizing d with
  | @filler n hfiller =>
    have hdeclare : d.declare n = d := by
      apply declare_eq_self
      intro name hname
      exact hfiller.contentOf?_eq (by revert name; decide)
    rw [readNode_filler hfiller, unpaged_filler hfiller, List.foldl_cons, hdeclare]
    rfl
  | @place tag short content hname hid hcontent =>
    rw [readNode_place short hname hid hcontent, unpaged_of_ne short (by rw [hname]; decide),
      List.foldl_cons, declare_place short hname]
    rfl
  | @transition tag short content hname hid hcontent =>
    rw [readNode_transition short hname hid hcontent,
      unpaged_of_ne short (by rw [hname]; decide), List.foldl_cons, declare_transition short hname]
    rfl
  | @arc tag short content hname hsource htarget hcontent =>
    rw [readNode_arc short hname hsource htarget hcontent,
      unpaged_of_ne short (by rw [hname]; decide), List.foldl_cons, declare_arc short hname]
    rfl
  | @finalMarkings tag short content hname hcontent =>
    rw [readNode_finalMarkings short hd hname hcontent,
      unpaged_of_ne short (by rw [hname]; decide), List.foldl_cons,
      declare_finalMarkings short hname]
    rfl
  | @page tag short content hname hcontent ih =>
    have hopen : (d.goTo .net).opened tag.read = .ok (d.goTo .net) :=
      (opened_of_name (tag.name_read.trans hname) (by decide)).trans rfl
    have hread : content.foldlM readNode (d.goTo .net) =
        .ok (((unpagedAll content).foldl declare d).goTo .net) := by
      clear hopen
      induction content generalizing d with
      | nil => rfl
      | cons n content ihContent =>
        rw [List.forall_mem_cons] at hcontent ih
        rw [List.foldlM_cons, ih.1 hd, unpagedAll, List.foldl_append]
        exact ihContent hcontent.2 ih.2 ((markedPlace_foldl_declare _ d).trans hd)
    rw [← foldlM_eventsFrom fun n hn ↦ isQuiet_of_isItem (hcontent n hn)] at hread
    rw [readNode_element short hopen hread, hname, unpaged, if_pos hname]
    rfl

/-! ## What was declared -/

section Declared

variable (nodes : List Node) (d : Draft)

theorem header_foldl_declare : (nodes.foldl declare d).isPnml = d.isPnml ∧
    (nodes.foldl declare d).id = d.id ∧ (nodes.foldl declare d).name = d.name := by
  induction nodes generalizing d with
  | nil => exact ⟨rfl, rfl, rfl⟩
  | cons n nodes ih => exact ih (d.declare n)

/-- What each node adds at the front stands in reverse in the end. -/
theorem foldl_declare_eq {α : Type} (get : Draft → List α) (of? : Node → Option α)
    (h : ∀ d n, get (d.declare n) = (of? n).toList ++ get d) :
    get (nodes.foldl declare d) = (nodes.filterMap of?).reverse ++ get d := by
  induction nodes generalizing d with
  | nil => rfl
  | cons n nodes ih =>
    rw [List.foldl_cons, ih, h, List.filterMap_cons]
    cases of? n <;> simp

theorem invisible_foldl_declare : (nodes.foldl declare d).invisible =
    (nodes.filterMap silentId?).foldl (fun ids id ↦ ids.insert id ()) d.invisible := by
  induction nodes generalizing d with
  | nil => rfl
  | cons n nodes ih =>
    rw [List.foldl_cons, ih, declare, List.filterMap_cons]
    cases silentId? n <;> rfl

theorem foldl_addMarkings : (nodes.foldl declare d).final =
    (d.addMarkings (nodes.flatMap markingsOf)).final ∧
      (nodes.foldl declare d).markings = (d.addMarkings (nodes.flatMap markingsOf)).markings := by
  induction nodes generalizing d with
  | nil =>
    rw [List.flatMap_nil, addMarkings_nil]
    exact ⟨rfl, rfl⟩
  | cons n nodes ih =>
    rw [List.foldl_cons, List.flatMap_cons, addMarkings_append]
    exact ih (d.declare n)

theorem foldl_declare_named (name : String) : nodes.foldl declare { d with name := name } =
    { nodes.foldl declare d with name := name } := by
  induction nodes generalizing d with
  | nil => rfl
  | cons n nodes ih => exact ih (d.declare n)

end Declared

/-! ## The net -/

theorem contentOf?_name_of_isItem (h : IsItem n) : contentOf? "name" n = none := by
  cases h with
  | filler hfiller => exact hfiller.contentOf?_eq (by decide)
  | place hname | transition hname | arc hname | finalMarkings hname | page hname =>
    rw [contentOf?_element hname, if_neg (by decide)]

/-- A node in a net is read as the declarations in it, or as the name of the net. -/
theorem readNode_inNet (h : IsItem n ∨ ∃ field ∈ netFields, field.IsLabel n)
    (hd : d.markedPlace = none) : (d.goTo .net).readNode n =
      .ok (((unpaged n).foldl declare
        { d with name := (label? "name" [n]).getD d.name }).goTo .net) := by
  rcases h with hitem | ⟨field, hfield, hlabel⟩
  · have hnone : label? "name" [n] = none := label?_cons_of_none (contentOf?_name_of_isItem hitem)
    rw [readNode_item hitem hd, hnone]
    rfl
  · obtain rfl := List.mem_singleton.1 hfield
    have hread : (d.goTo .net).readNode n = .ok (({ d with
        name := (label? "name" [n]).getD d.name }.goTo .netName).closed (bytesOf "name")) := by
      refine readNode_label hlabel (by decide) rfl (fun hnone ↦ ?_) fun text _ hlabels ↦ ?_
      · rw [hnone]
        rfl
      · rw [hlabels, if_pos rfl]
        rfl
    have hdeclare (d : Draft) : (unpaged n).foldl declare d = d := by
      cases hlabel with
      | @intro tag short label hname _ _ =>
        have hself : ∀ name ∈ ["place", "transition", "arc", "finalmarkings"],
            contentOf? name (.element tag short label) = none := by
          intro name hmem
          rw [contentOf?_element hname, if_neg]
          revert name
          decide
        rw [unpaged_of_ne short (by rw [hname]; decide), List.foldl_cons, declare_eq_self hself]
        rfl
    rw [hread, hdeclare]
    rfl

theorem foldlM_netContent (h : HoldsLabels netFields IsItem content) (hd : d.markedPlace = none) :
    content.foldlM readNode (d.goTo .net) = .ok (((unpagedAll content).foldl declare
      { d with name := (label? "name" content).getD d.name }).goTo .net) := by
  induction content generalizing d with
  | nil => rfl
  | cons n content ih =>
    obtain ⟨hrest, hapart⟩ := h.of_cons
    have hname := apply_label?_cons (hapart _ List.mem_cons_self)
      (fun text? name ↦ text?.getD name) (fun _ ↦ rfl) d.name
    let named : Draft := { d with name := (label? "name" [n]).getD d.name }
    have hplace : ((unpaged n).foldl declare named).markedPlace = none :=
      (markedPlace_foldl_declare _ named).trans hd
    rw [List.foldlM_cons, readNode_inNet (h.forall_node n List.mem_cons_self) hd]
    refine (ih hrest hplace).trans ?_
    rw [(header_foldl_declare _ named).2.2, ← foldl_declare_named, unpagedAll, List.foldl_append,
      hname]

/-! ## The document -/

/-- The draft of a document, read to its end. -/
def ofDocument (tag : TagSource) (content : List Node) : Draft :=
  ((unpagedAll content).foldl declare
    { isPnml := true
      id := (tag.value? "id").getD ""
      name := (label? "name" content).getD "" }).goTo .net

theorem readNode_root {s : Source} {tag : TagSource} (h : Describes s tag content) :
    readNode {} s.root = .ok (ofDocument tag content) := by
  obtain ⟨before, short, after, hcontent, hbefore, hafter⟩ := h.net
  let start : Draft := { isPnml := true, id := (tag.value? "id").getD "" }
  have hpnml : opened {} s.tag.read = .ok { isPnml := true, position := .document } :=
    (opened_of_name (s.tag.name_read.trans h.root) (by decide)).trans rfl
  have hopen : opened { isPnml := true, position := .document } tag.read =
      .ok (start.goTo .net) := by
    rw [opened_net (tag.name_read.trans h.name), tag.value?_read]
    rfl
  have hnet : readNode { isPnml := true, position := .document } (.element tag short content) =
      .ok (ofDocument tag content) := by
    have hread := foldlM_netContent (d := start) h.holds rfl
    rw [← foldlM_eventsFrom (h.holds.isQuiet fun _ h ↦ isQuiet_of_isItem h)] at hread
    rw [readNode_element short hopen hread, h.name, closed_net]
    rfl
  have hquiet : ∀ n ∈ s.content, IsQuiet n := by
    rw [hcontent]
    exact List.forall_mem_append.2 ⟨fun n hn ↦ (hbefore n hn).isQuiet,
      List.forall_mem_cons.2 ⟨trivial, fun n hn ↦ (hafter n hn).isQuiet⟩⟩
  have hread : (Node.eventsFrom [] s.content).foldlM step
      { isPnml := true, position := .document } = .ok (ofDocument tag content) := by
    rw [foldlM_eventsFrom hquiet, hcontent, List.foldlM_append,
      foldlM_eq_ok fun n hn ↦ readNode_filler (hbefore n hn) _]
    change List.foldlM readNode _ (.element tag short content :: after) = _
    rw [List.foldlM_cons, hnet]
    exact foldlM_eq_ok fun n hn ↦ readNode_filler (hafter n hn) _
  rw [Source.root, readNode_element s.short hpnml hread, h.root, closed_pnml]

/-! ## Resolving -/

theorem trim_weight_of_isItem (h : IsItem n) : ∀ m ∈ unpaged n, ∀ a, draftArcOf? m = some a →
    ∀ weight, a.weight = some weight → Text.trim weight = "1" := by
  induction h with
  | @filler n hfiller =>
    rw [unpaged_filler hfiller, List.forall_mem_singleton]
    intro a ha
    cases hfiller with
    | element hname _ => simp [draftArcOf?, arcOf?, hname "arc" (by decide)] at ha
    | _ => cases ha
  | @place tag short content hname | @transition tag short content hname
  | @finalMarkings tag short content hname =>
    rw [unpaged_of_ne short (by rw [hname]; decide), List.forall_mem_singleton]
    intro a ha
    simp +decide [draftArcOf?, arcOf?, hname] at ha
  | @arc tag short content hname hsource htarget hcontent =>
    rw [unpaged_of_ne short (by rw [hname]; decide), List.forall_mem_singleton]
    intro a ha weight hweight
    obtain ⟨arc, -, rfl⟩ := Option.map_eq_some_iff.1 ha
    exact trim_inscription hcontent hweight
  | @page tag short content hname hcontent ih =>
    rw [unpaged, if_pos hname]
    clear hcontent
    induction content with
    | nil => exact fun m hm ↦ absurd hm List.not_mem_nil
    | cons n content ihContent =>
      rw [List.forall_mem_cons] at ih
      rw [unpagedAll, List.forall_mem_append]
      exact ⟨ih.1, ihContent ih.2⟩

theorem trim_weight_of_holds (h : HoldsLabels netFields IsItem content) :
    ∀ m ∈ unpagedAll content, ∀ a, draftArcOf? m = some a →
      ∀ weight, a.weight = some weight → Text.trim weight = "1" := by
  induction content with
  | nil => exact fun m hm ↦ absurd hm List.not_mem_nil
  | cons n content ih =>
    rw [unpagedAll, List.forall_mem_append]
    refine ⟨?_, ih h.of_cons.1⟩
    rcases h.forall_node n List.mem_cons_self with hitem | ⟨field, hfield, hlabel⟩
    · exact trim_weight_of_isItem hitem
    · obtain rfl := List.mem_singleton.1 hfield
      cases hlabel with
      | @intro tag short label hname _ _ =>
        rw [unpaged_of_ne short (by rw [hname]; decide), List.forall_mem_singleton]
        intro a ha
        simp +decide [draftArcOf?, arcOf?, hname] at ha

/-- An arc of weight one that joins a place and a transition is resolved to itself. -/
theorem resolve_eq_ok {net : Net} {a : DraftArc}
    (hweight : ∀ weight, a.weight = some weight → Text.trim weight = "1")
    (hjoins : net.Joins a.arc) :
    a.resolve net.placeIds net.transitionIds = .ok a.arc := by
  have hfilter : a.weight.filter (Text.trim · ≠ "1") = none := by
    cases hw : a.weight with
    | none => rfl
    | some weight => simp [hweight weight hw]
  have hmk := resolve_mk net a.arc
  rw [if_pos hjoins] at hmk
  rw [DraftArc.resolve, hfilter]
  exact hmk

theorem map_arc_draftArcOf? (nodes : List Node) :
    (nodes.filterMap draftArcOf?).map (·.arc) = nodes.filterMap arcOf? := by
  rw [List.map_filterMap]
  congr 1
  funext n
  cases n with
  | element tag short content =>
    rw [draftArcOf?, Option.map_map]
    cases arcOf? (.element tag short content) <;> rfl
  | _ => rfl

theorem placeIds_netOf (tag : TagSource) (content : List Node) : (netOf tag content).placeIds =
    ((unpagedAll content).filterMap placeOf?).map (·.id) :=
  map_withFinal (fun _ _ ↦ rfl) _ _ _

theorem resolve_ofDocument {tag : TagSource} (holds : HoldsLabels netFields IsItem content)
    (resolved : (netOf tag content).IsResolved) :
    (ofDocument tag content).resolve = .ok (netOf tag content) := by
  let start : Draft := {
    isPnml := true
    id := (tag.value? "id").getD ""
    name := (label? "name" content).getD "" }
  let nodes := unpagedAll content
  obtain ⟨hpnml, hid, hname⟩ := header_foldl_declare nodes start
  have hplaces := foldl_declare_eq nodes start (·.places) placeOf? fun _ _ ↦ rfl
  have htransitions := foldl_declare_eq nodes start (·.transitions) transitionOf? fun _ _ ↦ rfl
  have harcs := foldl_declare_eq nodes start (·.arcs) draftArcOf? fun _ _ ↦ rfl
  have hinvisible : (nodes.foldl declare start).invisible =
      .ofIds (nodes.filterMap silentId?) := by
    rw [invisible_foldl_declare, IdSet.ofIds, Table.ofList, List.foldl_map]
  have hfinal : (nodes.foldl declare start).final = (finalOf nodes).reverse := by
    rw [(foldl_addMarkings nodes start).1]
    exact List.append_nil _
  have hresolve : (nodes.filterMap draftArcOf?).mapM (DraftArc.resolve
      (netOf tag content).placeIds (netOf tag content).transitionIds) =
        .ok (nodes.filterMap arcOf?) := by
    rw [← map_arc_draftArcOf?]
    apply mapM_eq_ok
    intro a ha
    obtain ⟨m, hm, ha'⟩ := List.mem_filterMap.1 ha
    refine resolve_eq_ok (trim_weight_of_holds holds m hm a ha') (resolved.joins a.arc ?_)
    change a.arc ∈ nodes.filterMap arcOf?
    rw [← map_arc_draftArcOf?]
    exact List.mem_map.2 ⟨a, ha, rfl⟩
  have hmarks : (finalOf nodes).find? (·.1 ∉ (nodes.filterMap placeOf?).map (·.id)) = none := by
    rw [← placeIds_netOf tag content, List.find?_eq_none]
    intro mark hmark
    simpa using resolved.final_mem mark hmark
  have hset := foldlM_setFinal (nodes.filterMap placeOf?) (finalOf nodes)
  rw [hmarks] at hset
  rw [placeIds_netOf] at hresolve
  change (nodes.foldl declare start).resolve = _
  dsimp only [start] at hplaces htransitions harcs
  rw [List.append_nil] at hplaces htransitions harcs
  unfold resolve
  rw [hpnml, if_neg (show ¬ (!start.isPnml) = true from Bool.noConfusion)]
  dsimp only [header]
  rw [hid, hname, hinvisible, hplaces, htransitions, harcs, hfinal, List.reverse_reverse,
    List.reverse_reverse, List.reverse_reverse, List.reverse_reverse]
  change ((nodes.filterMap draftArcOf?).mapM (DraftArc.resolve
    ((nodes.filterMap placeOf?).map (·.id)) (netOf tag content).transitionIds) >>= _) = _
  rw [hresolve]
  change (finalOf nodes).foldlM setFinal (nodes.filterMap placeOf?) >>= _ = _
  rw [hset, foldl_setFirst]
  rfl

end Draft

/-- A document that describes a net is read as this net. -/
theorem read_eq_netOf {s : Source} {tag : TagSource} (h : Describes s tag content) :
    read s.document = .ok (netOf tag content) := by
  have hdraft : s.root.events.foldlM Draft.step {} = .ok (Draft.ofDocument tag content) :=
    Draft.readNode_root h
  rw [read, s.stream_document, ofStream]
  dsimp only
  rw [hdraft]
  exact Draft.resolve_ofDocument h.holds h.resolved

/-! ## A document in an unusual order -/

section Scattered

/-- An element with these attributes. -/
def scatteredTag (name : Xml.Name) (attributes : List (Xml.Name × String))
    (h : (attributes.map (·.1.bytes)).Nodup) : TagSource where
  name := name
  attributes := attributes.map fun a ↦ .ofText a.1 a.2
  after := .empty
  nodup := by
    rw [List.map_map]
    exact h

def scatteredLabel (name : Xml.Name) (raw : { bytes : Bytes // 0x3C ∉ bytes }) : Node :=
  .element (.plain name) false
    [.element (.plain (.ofText "graphics" (by decide))) true [],
      .element (.plain (.ofText "text" (by decide))) false [.text raw]]

theorem isFiller_graphics (short : Bool) :
    IsFiller (.element (.plain (.ofText "graphics" (by decide))) short []) :=
  .element (show ∀ name ∈ keywords, bytesOf "graphics" ≠ bytesOf name by decide) nofun

theorem isLabel_scatteredLabel {field : Field} {name : Xml.Name}
    {raw : { bytes : Bytes // 0x3C ∉ bytes }} (hname : name.bytes = bytesOf field.name)
    (htext : (Xml.textOf (Text.strip Xml.isSpace raw.1)).isOk = true)
    (haccepts : ∀ text ∈ pieceText? [.text raw], field.accepts text = true) :
    field.IsLabel (scatteredLabel name raw) := by
  let graphics : TagSource := .plain (.ofText "graphics" (by decide))
  let text : TagSource := .plain (.ofText "text" (by decide))
  have hcontent :
      IsLabelContent ([.element graphics true []] ++ [.element text false [.text raw]]) :=
    .intro (List.forall_mem_singleton.2 (isFiller_graphics true)) rfl (.text htext) nofun
  have hgiven : labelText? [.element graphics true [], .element text false [.text raw]] =
      pieceText? [.text raw] := by
    rw [labelText?, List.findSome?_cons, (isFiller_graphics true).text?_eq]
    exact List.findSome?_singleton
  exact .intro hname hcontent (hgiven ▸ haccepts)

theorem isLabelContent_piece {tag : TagSource} {short : Bool} {piece : List Node}
    (hname : tag.name.bytes = bytesOf "text") (hpiece : IsPiece piece) :
    IsLabelContent [.element tag short piece] :=
  @IsLabelContent.intro [] [] tag short piece nofun hname hpiece nofun

def scatteredFinal : Node :=
  .element (.plain (.ofText "finalmarkings" (by decide))) false
    [.element (.plain (.ofText "marking" (by decide))) false
      [.element (scatteredTag (.ofText "place" (by decide))
          [(.ofText "idref" (by decide), "p1")] (by decide)) false
        [.element (.plain (.ofText "text" (by decide))) false
          [.text ⟨bytesOf "1", by decide⟩]]]]

theorem isItem_scatteredFinal : IsItem scatteredFinal := by
  have htext : IsPiece [.text ⟨bytesOf "1", by decide⟩] := .text (by decide +kernel)
  refine .finalMarkings rfl (List.forall_mem_singleton.2 (.element rfl ?_))
  refine List.forall_mem_singleton.2 (.element rfl (by decide +kernel) ?_ (by decide +kernel))
  exact isLabelContent_piece rfl htext

def scatteredArc : Node :=
  .element (scatteredTag (.ofText "arc" (by decide))
      [(.ofText "source" (by decide), "p0"), (.ofText "target" (by decide), "t0")]
      (by decide)) false
    [scatteredLabel (.ofText "inscription" (by decide)) ⟨bytesOf " 1 ", by decide⟩]

theorem isItem_scatteredArc : IsItem scatteredArc := by
  refine .arc rfl (by decide +kernel) (by decide +kernel) ⟨?_, by decide +kernel⟩
  refine List.forall_mem_singleton.2 (.inr ⟨_, List.mem_singleton_self _, ?_⟩)
  exact isLabel_scatteredLabel rfl (by decide +kernel) (by decide +kernel)

def scatteredTransition : Node :=
  .element (scatteredTag (.ofText "transition" (by decide))
      [(.ofText "id" (by decide), "t0")] (by decide)) false
    [.element (scatteredTag (.ofText "toolspecific" (by decide))
        [(.ofText "activity" (by decide), "$invisible$")] (by decide)) true [],
      scatteredLabel (.ofText "name" (by decide)) ⟨bytesOf "skip", by decide⟩]

theorem isItem_scatteredTransition : IsItem scatteredTransition := by
  refine .transition rfl (by decide +kernel)
    ⟨List.forall_mem_cons.2 ⟨?note, ?label⟩, by decide +kernel⟩
  case note => exact .inl (.element rfl nofun)
  case label =>
    refine List.forall_mem_singleton.2 (.inr ⟨_, List.mem_cons_self, ?_⟩)
    exact isLabel_scatteredLabel rfl (by decide +kernel) fun _ _ ↦ rfl

def scatteredPlace : Node :=
  .element (scatteredTag (.ofText "place" (by decide))
      [(.ofText "id" (by decide), "p0")] (by decide)) false
    [scatteredLabel (.ofText "initialMarking" (by decide)) ⟨bytesOf "2", by decide⟩,
      scatteredLabel (.ofText "name" (by decide)) ⟨bytesOf "a &amp; b", by decide⟩]

theorem isItem_scatteredPlace : IsItem scatteredPlace := by
  refine .place rfl (by decide +kernel) ⟨List.forall_mem_cons.2 ⟨?count, ?name⟩, by decide +kernel⟩
  case count =>
    refine .inr ⟨_, List.mem_cons_of_mem _ List.mem_cons_self, ?_⟩
    exact isLabel_scatteredLabel rfl (by decide +kernel) (by decide +kernel)
  case name =>
    refine List.forall_mem_singleton.2 (.inr ⟨_, List.mem_cons_self, ?_⟩)
    exact isLabel_scatteredLabel rfl (by decide +kernel) fun _ _ ↦ rfl

/-- The final marking before the places, an arc before its ends, and a page on a page. -/
def scattered : List Node :=
  [scatteredFinal, scatteredArc, .text ⟨bytesOf " ", by decide⟩,
    .element (.plain (.ofText "page" (by decide))) false
      [scatteredTransition, .comment ⟨bytesOf " inner ", by decide +kernel⟩,
        .element (.plain (.ofText "page" (by decide))) false [scatteredPlace]],
    scatteredLabel (.ofText "name" (by decide)) ⟨bytesOf "example", by decide⟩,
    .element (scatteredTag (.ofText "place" (by decide))
      [(.ofText "id" (by decide), "p1")] (by decide)) true []]

theorem holds_scattered : HoldsLabels netFields IsItem scattered where
  forall_node := by
    have hpage : IsItem scattered[3] :=
      .page rfl (List.forall_mem_cons.2 ⟨isItem_scatteredTransition,
        List.forall_mem_cons.2 ⟨.filler (.comment _), List.forall_mem_singleton.2
          (.page rfl (List.forall_mem_singleton.2 isItem_scatteredPlace))⟩⟩)
    have hname : Field.IsLabel ⟨"name", fun _ ↦ true⟩ scattered[4] :=
      isLabel_scatteredLabel rfl (by decide +kernel) fun _ _ ↦ rfl
    have hsink : IsItem scattered[5] :=
      .place rfl (by decide +kernel) ⟨nofun, by decide +kernel⟩
    simp only [scattered, List.forall_mem_cons]
    exact ⟨.inl isItem_scatteredFinal, .inl isItem_scatteredArc,
      .inl (.filler (.blank (List.all_eq_true.1 rfl))),
      .inl hpage, .inr ⟨_, List.mem_singleton_self _, hname⟩, .inl hsink, nofun⟩
  at_most_one := by decide +kernel

def scatteredNet : TagSource :=
  scatteredTag (.ofText "net" (by decide)) [(.ofText "id" (by decide), "n")] (by decide)

def scatteredDocument : Source where
  tag := .plain (.ofText "pnml" (by decide))
  content := [.text ⟨bytesOf " ", by decide⟩, .element scatteredNet false scattered]
  prolog_isOutside := Node.isOutside_nil
  epilog_isOutside := Node.isOutside_nil

theorem describes_scattered : Describes scatteredDocument scatteredNet scattered where
  root := rfl
  net := ⟨[.text ⟨bytesOf " ", by decide⟩], false, [], rfl,
    List.forall_mem_singleton.2 (.blank (List.all_eq_true.1 rfl)), nofun⟩
  name := rfl
  holds := holds_scattered
  resolved := ⟨by decide +kernel, by decide +kernel⟩

theorem read_eq_netOf_scattered : Describes scatteredDocument scatteredNet scattered ∧
    read scatteredDocument.document = .ok
      { id := "n", name := "example",
        places := [⟨"p0", "a & b", 2, none, .model⟩, ⟨"p1", "p1", 0, some 1, .model⟩],
        transitions := [⟨"t0", "skip", "skip", .model⟩], arcs := [⟨"p0t0", "p0", "t0"⟩],
        final := [("p1", 1)], invisible := .ofIds ["t0"] } := by
  refine ⟨describes_scattered, ?_⟩
  rw [read_eq_netOf describes_scattered]
  decide +kernel

end Scattered

end PetriAlign.Pnml
