import Mathlib.Data.List.Forall2
import PetriAlign.Dot.Drawing
import PetriAlign.Proofs.Dot.Quoted
import PetriAlign.Proofs.Text.ByteLines

/-!
# The quoted strings of a drawing

Labels and the name of a net are escaped, ids are put between quotation marks as they are. So the
quoted strings of the DOT text of a net are the texts that they are meant to be if and only if all
ids of nodes and ends of arcs are quotable.
-/

namespace PetriAlign

open Dot

/-! ## The texts of a drawing -/

namespace Drawing

/-- The strings in the constant attributes of a node. -/
def nodeStyle : List String := ["filled,solid", "Courier-Bold"]

def placeTexts (p : Place) : List String := p.id :: placeLabel p :: nodeStyle

def transitionTexts (t : Transition) : List String := t.id :: t.label :: nodeStyle

def sideTexts (net : Net) (side : PlaceKind) (kinds : List TransitionKind) : List String :=
  (net.places.filter (·.kind = side)).flatMap placeTexts ++
    (net.transitions.filter (·.kind ∈ kinds)).flatMap transitionTexts

def arcTexts (a : Arc) : List String := [a.source, a.target]

end Drawing

open Drawing

/-- The texts that stand between quotation marks in the drawing of a net: its name, the ids and
labels of the log side, of the model side and of the synchronous moves, and the ends of the arcs. -/
def Net.drawnTexts (net : Net) : List String :=
  (if net.id = "" then "net" else net.id) ::
    (sideTexts net .log [.log] ++ sideTexts net .model [.model, .tau] ++
      (net.transitions.filter (·.kind = .sync)).flatMap transitionTexts ++
        net.arcs.flatMap arcTexts)

/-- Whether all ids in the drawing of a net can stand between quotation marks as they are. -/
structure Net.HasQuotableIds (net : Net) : Prop where
  places : ∀ p ∈ net.places, IsQuotable p.id.toList
  transitions : ∀ t ∈ net.transitions, IsQuotable t.id.toList
  arcs : ∀ a ∈ net.arcs, IsQuotable a.source.toList ∧ IsQuotable a.target.toList

/-! ## Attributes, statements and lines -/

namespace Dot

variable {found : List String} {p : Prop}

/-- An attribute whose name has no marks yields what its value does. -/
theorem yields_attribute {name : String} {v : Value} (hname : '\x22' ∉ name.toList)
    (hv : Yields v.render.toList found True) :
    Yields (renderAttribute (name, v)).toList found True := by
  rw [renderAttribute, String.toList_append, String.toList_append, List.append_assoc]
  exact .plain_append hname (.plain_append (by decide) hv)

theorem yields_intercalate {sep : List Char} (hsep : '\x22' ∉ sep) {parts : List (List Char)}
    {founds : List (List String)}
    (h : List.Forall₂ (fun part found ↦ Yields part found True) parts founds) :
    Yields (sep.intercalate parts) founds.flatten True := by
  induction h with
  | nil => exact .nil
  | cons hpart hparts ih =>
    cases hparts with
    | nil =>
      rw [List.intercalate_singleton, List.flatten_singleton]
      exact hpart
    | cons =>
      rw [List.intercalate_cons_cons, List.flatten_cons]
      exact ((hpart.append_plain hsep).append ih).congr (and_self_iff)

theorem yields_attributes {as : Attributes} {founds : List (List String)}
    (h : List.Forall₂ (fun a found ↦ Yields (renderAttribute a).toList found True) as founds) :
    Yields (renderAttributes as).toList founds.flatten True := by
  rw [renderAttributes, String.toList_append, String.toList_append, String.toList_intercalate,
    List.map_map]
  have hparts : Yields (" ".toList.intercalate (as.map (String.toList ∘ renderAttribute)))
      founds.flatten True :=
    yields_intercalate (by decide) (List.forall₂_map_left_iff.2 h)
  exact (Yields.plain_append (by decide) hparts).append_plain (by decide)

/-- A node yields its id and what its attributes yield. -/
theorem yields_node {id : String} {as : Attributes}
    (has : Yields (renderAttributes as).toList found True) :
    Yields (Statement.node (.quoted id) as).render.toList (id :: found)
      (IsQuotable id.toList) := by
  rw [Statement.render, String.toList_append]
  exact ((yields_quoted id).append has).congr (iff_of_eq (and_true _))

/-- An edge yields its two ends and what its attributes yield. -/
theorem yields_edge {source target : String} {as : Attributes}
    (has : Yields (renderAttributes as).toList found True) :
    Yields (Statement.edge (.quoted source) (.quoted target) as).render.toList
      (source :: target :: found) (IsQuotable source.toList ∧ IsQuotable target.toList) := by
  simp only [Statement.render, String.toList_append]
  have hsource := (yields_quoted source).append_plain (show '\x22' ∉ " -> ".toList by decide)
  have hends := hsource.append (yields_quoted target)
  have htarget := hends.append_plain (show '\x22' ∉ " ".toList by decide)
  exact (htarget.append has).congr (iff_of_eq (and_true _))

/-- Lines, each with its end. -/
def joinLines (lines : List String) : List Char := lines.flatMap (·.toList ++ ['\n'])

theorem joinLines_append (lines lines' : List String) :
    joinLines (lines ++ lines') = joinLines lines ++ joinLines lines' := List.flatMap_append

theorem toList_render (g : Graph) : g.render.toList =
    joinLines (g.header :: g.items.flatMap Item.lines) ++ ['\x7d'] := by
  have hlast : (g.header :: g.items.flatMap Item.lines ++ ["\x7d"]).map String.toList =
      (g.header :: g.items.flatMap Item.lines).map String.toList ++ [['\x7d']] := List.map_append
  rw [Graph.render, String.toList_intercalate, hlast, Text.intercalate_append_cons,
    List.intercalate_singleton, List.flatMap_map]
  rfl

/-- An indented line for each element yields what its statement does. -/
theorem yields_joinLines {α : Type} {xs : List α} {f : α → Statement} {g : α → List String}
    {r : α → Prop} {indent : String} (hindent : '\x22' ∉ indent.toList)
    (h : ∀ x ∈ xs, Yields (f x).render.toList (g x) (r x)) :
    Yields (joinLines (xs.map fun x ↦ indent ++ (f x).render)) (xs.flatMap g)
      (∀ x ∈ xs, r x) := by
  rw [joinLines, List.flatMap_map]
  refine .flatMap fun x hx ↦ ?_
  rw [String.toList_append]
  exact (Yields.plain_append hindent (h x hx)).append_plain (by decide)

/-- A line without marks. -/
theorem yields_plainLine {line : String} {lines : List String} (hline : '\x22' ∉ line.toList)
    (h : Yields (joinLines lines) found p) : Yields (joinLines (line :: lines)) found p := by
  rw [joinLines, List.flatMap_cons, List.append_assoc]
  exact .plain_append hline (.plain_append (by decide) h)

end Dot

namespace Drawing

variable (fired : String → Bool)

theorem yields_nodeAttributes {label shape fill : String} (hshape : '\x22' ∉ shape.toList)
    (hfill : '\x22' ∉ fill.toList) :
    Yields (renderAttributes (nodeAttributes label shape fill)).toList (label :: nodeStyle)
      True := by
  have hstyle (s : String) (hs : IsQuotable s.toList) :
      Yields (Value.quoted s).render.toList [s] True :=
    (yields_quoted s).congr (iff_true_intro hs)
  refine @yields_attributes _ [[label], [], ["filled,solid"], [], ["Courier-Bold"]] ?_
  refine .cons ?_ (.cons ?_ (.cons ?_ (.cons ?_ (.cons ?_ .nil))))
  · exact yields_attribute (by decide) (yields_label label)
  · exact yields_attribute (by decide) (.plain hshape)
  · exact yields_attribute (by decide) (hstyle _ (by decide))
  · exact yields_attribute (by decide) (.plain hfill)
  · exact yields_attribute (by decide) (hstyle _ (by decide))

theorem notMem_color (kind : TransitionKind) : '\x22' ∉ kind.color.toList := by
  cases kind <;> decide

theorem yields_placeNode (p : Place) :
    Yields (placeNode p).render.toList (placeTexts p) (IsQuotable p.id.toList) := by
  apply yields_node
  apply yields_nodeAttributes
  · split <;> decide
  · cases p.kind <;> decide

theorem yields_transitionNode (t : Transition) :
    Yields (transitionNode fired t).render.toList (transitionTexts t) (IsQuotable t.id.toList) := by
  apply yields_node
  apply yields_nodeAttributes
  · decide
  · split
    · decide
    · exact notMem_color t.kind

theorem yields_arcEdge (net : Net) (a : Arc) :
    Yields (arcEdge fired net a).render.toList (arcTexts a)
      (IsQuotable a.source.toList ∧ IsQuotable a.target.toList) := by
  have hcolor : '\x22' ∉ (arcColor fired net a).toList := by
    unfold arcColor
    split
    · split
      · decide
      · exact notMem_color _
    · decide
  apply yields_edge
  refine @yields_attributes _ [[], []] (.cons ?_ (.cons ?_ .nil))
  · exact yields_attribute (by decide) (.plain (by decide))
  · exact yields_attribute (by decide) (.plain hcolor)

/-- What the nodes of one side have to satisfy. -/
def SideQuotable (net : Net) (side : PlaceKind) (kinds : List TransitionKind) : Prop :=
  (∀ p ∈ net.places.filter (·.kind = side), IsQuotable p.id.toList) ∧
    ∀ t ∈ net.transitions.filter (·.kind ∈ kinds), IsQuotable t.id.toList

theorem yields_sideNodes (net : Net) (side : PlaceKind) (kinds : List TransitionKind)
    {indent : String} (hindent : '\x22' ∉ indent.toList) :
    Yields (joinLines ((sideNodes fired net side kinds).map (indent ++ ·.render)))
      (sideTexts net side kinds) (SideQuotable net side kinds) := by
  rw [sideNodes, List.map_append, List.map_map, List.map_map, joinLines_append]
  exact (yields_joinLines hindent fun p _ ↦ yields_placeNode p).append
    (yields_joinLines hindent fun t _ ↦ yields_transitionNode fired t)

theorem yields_cluster {name : String} {nodes : List Statement} {found : List String} {p : Prop}
    (hname : '\x22' ∉ name.toList)
    (h : Yields (joinLines (nodes.map ("    " ++ ·.render))) found p) :
    Yields (joinLines (cluster name nodes).lines) found p := by
  have hlines : (cluster name nodes).lines =
      ("  subgraph " ++ name ++ " \x7b") ::
        ("    " ++ (Statement.setting "style" (.plain "invis")).render) ::
          (nodes.map ("    " ++ ·.render) ++ ["  \x7d"]) := rfl
  rw [hlines]
  apply yields_plainLine
  · simp [hname]
  · apply yields_plainLine
    · decide
    · rw [joinLines_append]
      exact h.append_plain (by decide)

theorem flatMap_lines_statement (statements : List Statement) :
    (statements.map Item.statement).flatMap Item.lines = statements.map ("  " ++ ·.render) := by
  rw [List.flatMap_map]
  exact List.map_eq_flatMap.symm

theorem yields_header (net : Net) :
    Yields ((Drawing.net fired net).header.toList ++ ['\n'])
      [if net.id = "" then "net" else net.id] True := by
  have hname := yields_label (if net.id = "" then "net" else net.id)
  have hheader : (Drawing.net fired net).header.toList = "strict digraph ".toList ++
      (Value.label (if net.id = "" then "net" else net.id)).render.toList ++ " \x7b".toList := by
    simp [Graph.header, Drawing.net]
  rw [hheader]
  exact ((Yields.plain_append (by decide) hname).append_plain (by decide)).append_plain (by decide)

/-- The cluster of the log side, which is left out if it has no nodes. -/
def logItems (net : Net) : List Item :=
  if (sideNodes fired net .log [.log]).isEmpty then []
  else [cluster "cluster_log" (sideNodes fired net .log [.log])]

theorem yields_logItems (net : Net) :
    Yields (joinLines ((logItems fired net).flatMap Item.lines)) (sideTexts net .log [.log])
      (SideQuotable net .log [.log]) := by
  have hnodes := yields_sideNodes fired net .log [.log] (show '\x22' ∉ "    ".toList by decide)
  unfold logItems
  split
  case isTrue hempty =>
    rwa [List.isEmpty_iff.1 hempty] at hnodes
  case isFalse =>
    rw [List.flatMap_singleton]
    exact yields_cluster (by decide) hnodes

theorem flatMap_lines_items (net : Net) : (Drawing.net fired net).items.flatMap Item.lines =
    "  rankdir=LR" ::
      ((logItems fired net).flatMap Item.lines ++
        (cluster "cluster_model" (sideNodes fired net .model [.model, .tau])).lines ++
        (net.transitions.filter (·.kind = .sync)).map
          (fun t ↦ "  " ++ (transitionNode fired t).render) ++
        net.arcs.map fun a ↦ "  " ++ (arcEdge fired net a).render) := by
  have hleft : leftToRight.lines = ["  rankdir=LR"] := by decide +kernel
  simp only [Drawing.net, List.flatMap_cons, List.flatMap_append, flatMap_lines_statement, hleft]
  simp only [List.map_append, List.map_map, List.append_assoc, List.cons_append, List.nil_append]
  rfl

theorem hasQuotableIds_iff (net : Net) : net.HasQuotableIds ↔
    ((SideQuotable net .log [.log] ∧ SideQuotable net .model [.model, .tau]) ∧
      ∀ t ∈ net.transitions.filter (·.kind = .sync), IsQuotable t.id.toList) ∧
    ∀ a ∈ net.arcs, IsQuotable a.source.toList ∧ IsQuotable a.target.toList := by
  simp only [SideQuotable, List.mem_filter, decide_eq_true_eq]
  constructor
  · intro h
    exact ⟨⟨⟨⟨fun p hp ↦ h.places p hp.1, fun t ht ↦ h.transitions t ht.1⟩,
      fun p hp ↦ h.places p hp.1, fun t ht ↦ h.transitions t ht.1⟩,
      fun t ht ↦ h.transitions t ht.1⟩, h.arcs⟩
  · rintro ⟨⟨⟨⟨hlogPlaces, hlogMoves⟩, hplaces, hmoves⟩, hsync⟩, harcs⟩
    refine ⟨fun p hp ↦ ?_, fun t ht ↦ ?_, harcs⟩
    · cases hkind : p.kind with
      | model => exact hplaces p ⟨hp, hkind⟩
      | log => exact hlogPlaces p ⟨hp, hkind⟩
    · cases hkind : t.kind with
      | model => exact hmoves t ⟨ht, by simp [hkind]⟩
      | log => exact hlogMoves t ⟨ht, by simp [hkind]⟩
      | sync => exact hsync t ⟨ht, hkind⟩
      | tau => exact hmoves t ⟨ht, by simp [hkind]⟩

/-- The drawing of a net yields its texts exactly if its ids are quotable. -/
theorem yields_net (net : Net) :
    Yields (Drawing.net fired net).render.toList net.drawnTexts net.HasQuotableIds := by
  have hlog := yields_logItems fired net
  have hmodel := yields_cluster (show '\x22' ∉ "cluster_model".toList by decide)
    (yields_sideNodes fired net .model [.model, .tau] (by decide))
  have hindent : '\x22' ∉ "  ".toList := by decide
  have hsync := yields_joinLines hindent
    fun t (_ : t ∈ net.transitions.filter (·.kind = .sync)) ↦ yields_transitionNode fired t
  have harcs := yields_joinLines hindent fun a (_ : a ∈ net.arcs) ↦ yields_arcEdge fired net a
  have hbody := ((hlog.append hmodel).append hsync).append harcs
  rw [← joinLines_append, ← joinLines_append, ← joinLines_append] at hbody
  have hlines := yields_plainLine (show '\x22' ∉ "  rankdir=LR".toList by decide) hbody
  rw [← flatMap_lines_items, ← hasQuotableIds_iff] at hlines
  rw [toList_render]
  exact (((yields_header fired net).append hlines).append_plain (by decide)).congr
    (iff_of_eq (true_and _))

end Drawing

namespace Net

theorem strings_render_iff (fired : String → Bool) (net : Net) :
    strings (Drawing.net fired net).render.toList = some net.drawnTexts ↔ net.HasQuotableIds := by
  have hyields := yields_net fired net [] []
  rwa [List.append_nil, List.append_nil, strings_nil, and_iff_left rfl] at hyields

/-- Reading the DOT text of a net finds the quoted strings that are meant, exactly if every id of a
node and every end of an arc is quotable. Names and labels may be anything. -/
theorem strings_dot_iff (net : Net) (fired : Option FiredCounts) :
    strings (net.dot fired).toList = some net.drawnTexts ↔ net.HasQuotableIds := by
  rw [dot, strings_render_iff]

/-- A net with a quotation mark in the id of its place. -/
def markedId : Net where
  id := "net"
  places := [⟨"p\x220", "p\x220", 0, none, .model⟩]

/-- The quotation mark in an id ends the string of the id. -/
theorem not_forall_strings_dot :
    ¬ ∀ (net : Net) (fired : Option FiredCounts),
      strings (net.dot fired).toList = some net.drawnTexts := by
  intro h
  have hread := h markedId none
  rw [dot, strings_render_iff] at hread
  exact absurd (hread.places _ (List.mem_singleton_self _)) (by decide)

end Net

end PetriAlign
