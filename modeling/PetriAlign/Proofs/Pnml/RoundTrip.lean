import Mathlib.Data.List.Induction
import PetriAlign.Proofs.Net.Counts
import PetriAlign.Proofs.Pnml.Draft

/-!
# The round trip through PNML

A written net is read without a fault in the markup. What is read is the net itself up to blanks at
the ends of names, unless an arc does not join a place and a transition or the final marking names
an undeclared place.
-/

namespace PetriAlign

/-- The entries with these keys. -/
def Table.restrict {α : Type} (t : Table α) (keys : List String) : Table α :=
  ⟨t.entries.filter (·.1 ∈ keys), t.sorted.filter _⟩

namespace Net

variable (net : Net)

/-- Whether the arc joins a declared place and a declared transition. -/
def Joins (a : Arc) : Prop :=
  (a.source ∈ net.placeIds ∧ a.target ∈ net.transitionIds) ∨
    (a.source ∈ net.transitionIds ∧ a.target ∈ net.placeIds)

instance (a : Arc) : Decidable (net.Joins a) := inferInstanceAs (Decidable (_ ∨ _))

/-- What is wrong with an arc that does not: an undeclared end, the source before the target, or
ends of the same sort. -/
def arcFault (a : Arc) : ParseError :=
  if a.source ∉ net.placeIds ++ net.transitionIds then .unknownEnd a.id a.source
  else if a.target ∉ net.placeIds ++ net.transitionIds then .unknownEnd a.id a.target
  else .badArc a.id

end Net

namespace Pnml

open Xml (Markup trimmed IsName)

/-! ## What is read back -/

/-- The count of the last pair with this id. -/
def lastCount? (final : List (String × UInt64)) (id : String) : Option UInt64 :=
  (final.reverse.find? (·.1 = id)).map (·.2)

/-- The places with the final marking put on them: the first place with an id takes the last count
for that id. The ids in `seen` have had their place. -/
def withFinal (final : List (String × UInt64)) (seen : List String) : List Place → List Place
  | [] => []
  | p :: rest =>
    (if p.id ∈ seen then p else { p with final := (lastCount? final p.id).or p.final }) ::
      withFinal final (p.id :: seen) rest

/-- The transition with its label: an empty one is filled in with the name. -/
def labelTransition (t : Transition) : Transition :=
  { t with
    name := trimmed t.name
    label := if trimmed t.label = "" then trimmed t.name else trimmed t.label }

/-- The net that is read when this net was written. -/
def readBack (net : Net) : Net where
  id := if net.id = "" then "net" else net.id
  name := trimmed net.name
  places := withFinal net.final [] (net.places.map readPlace)
  transitions := net.transitions.map labelTransition
  arcs := net.arcs
  final := net.final
  invisible := net.invisible.restrict net.transitionIds

/-! ## Arcs -/

theorem resolve_mk (net : Net) (a : Arc) :
    DraftArc.resolve net.placeIds net.transitionIds ⟨a, none⟩ =
      if net.Joins a then .ok a else .error (net.arcFault a) := by
  have hfault : Arc.fault? net.placeIds net.transitionIds a =
      if net.Joins a then none else some (net.arcFault a) := by
    unfold Arc.fault? Net.arcFault Net.Joins
    by_cases hsp : a.source ∈ net.placeIds <;> by_cases hst : a.source ∈ net.transitionIds <;>
      by_cases htp : a.target ∈ net.placeIds <;> by_cases htt : a.target ∈ net.transitionIds <;>
      simp [hsp, hst, htp, htt]
  rw [DraftArc.resolve, hfault]
  by_cases h : net.Joins a
  · rw [if_pos h, if_pos h]
    rfl
  · rw [if_neg h, if_neg h]
    rfl

/-- The first arc that joins no place and transition is the error. -/
theorem mapM_resolve (net : Net) (arcs : List Arc) :
    (arcs.map (DraftArc.mk · none)).mapM (DraftArc.resolve net.placeIds net.transitionIds) =
      match arcs.find? (¬ net.Joins ·) with
      | some a => .error (net.arcFault a)
      | none => .ok arcs := by
  induction arcs with
  | nil => rfl
  | cons a arcs ih =>
    rw [List.map_cons, List.mapM_cons, resolve_mk, ih]
    by_cases h : net.Joins a
    · rw [if_pos h, List.find?_cons_of_neg (by simp [h])]
      cases arcs.find? (¬ net.Joins ·) <;> rfl
    · rw [if_neg h, List.find?_cons_of_pos (by simp [h])]
      rfl

/-! ## The final marking -/

/-- Puts a count on the first place with this id, if there is one. -/
def setFirst (mark : String × UInt64) : List Place → List Place
  | [] => []
  | p :: rest =>
    if p.id = mark.1 then { p with final := some mark.2 } :: rest else p :: setFirst mark rest

theorem ids_setFirst (mark : String × UInt64) (places : List Place) :
    (setFirst mark places).map (·.id) = places.map (·.id) := by
  induction places with
  | nil => rfl
  | cons p places ih =>
    unfold setFirst
    split
    · rfl
    · rw [List.map_cons, ih, List.map_cons]

theorem setFinal_eq (places : List Place) (mark : String × UInt64) :
    setFinal places mark =
      if mark.1 ∈ places.map (·.id) then .ok (setFirst mark places)
      else .error (.unknownFinalPlace mark.1) := by
  induction places with
  | nil => rfl
  | cons p places ih =>
    rw [setFinal, setFirst, ih, List.map_cons]
    by_cases h : p.id = mark.1
    · rw [if_pos h, if_pos h, if_pos (by simp [h])]
    · rw [if_neg h, if_neg h]
      by_cases hrest : mark.1 ∈ places.map (·.id)
      · rw [if_pos hrest, if_pos (List.mem_cons_of_mem _ hrest)]
        rfl
      · rw [if_neg hrest, if_neg]
        · rfl
        · rw [List.mem_cons, not_or]
          exact ⟨Ne.symm h, hrest⟩

/-- The first pair about an undeclared place is the error. -/
theorem foldlM_setFinal (places : List Place) (final : List (String × UInt64)) :
    final.foldlM setFinal places =
      match final.find? (·.1 ∉ places.map (·.id)) with
      | some mark => .error (.unknownFinalPlace mark.1)
      | none => .ok (final.foldl (fun places mark ↦ setFirst mark places) places) := by
  induction final generalizing places with
  | nil => rfl
  | cons mark final ih =>
    rw [List.foldlM_cons, setFinal_eq]
    by_cases h : mark.1 ∈ places.map (·.id)
    · rw [if_pos h, List.find?_cons_of_neg (by simpa using h), ← ids_setFirst mark places]
      exact ih (setFirst mark places)
    · rw [if_neg h, List.find?_cons_of_pos (by simpa using h)]
      rfl

theorem lastCount?_concat (final : List (String × UInt64)) (mark : String × UInt64) (id : String) :
    lastCount? (final ++ [mark]) id = if mark.1 = id then some mark.2 else lastCount? final id := by
  unfold lastCount?
  rw [List.reverse_append, List.reverse_singleton, List.singleton_append, List.find?_cons]
  by_cases h : mark.1 = id <;> simp [h]

/-- One more pair is put on the first place with its id, unless that had its place before. -/
theorem withFinal_concat (final : List (String × UInt64)) (mark : String × UInt64)
    (seen : List String) (places : List Place) :
    withFinal (final ++ [mark]) seen places =
      if mark.1 ∈ seen then withFinal final seen places
      else setFirst mark (withFinal final seen places) := by
  induction places generalizing seen with
  | nil =>
    rw [withFinal, withFinal]
    exact (ite_self _).symm
  | cons p places ih =>
    have htail := ih (p.id :: seen)
    simp only [List.mem_cons] at htail
    rw [withFinal, withFinal, lastCount?_concat, htail]
    by_cases hp : mark.1 = p.id
    · have hdone : mark.1 = p.id ∨ mark.1 ∈ seen := .inl hp
      rw [if_pos hdone, if_pos hp, ← hp]
      by_cases hseen : mark.1 ∈ seen
      · rw [if_pos hseen, if_pos hseen, if_pos hseen]
      · rw [if_neg hseen, if_neg hseen, if_neg hseen, setFirst, if_pos rfl]
        rfl
    · rw [if_neg hp]
      by_cases hseen : mark.1 ∈ seen
      · have hdone : mark.1 = p.id ∨ mark.1 ∈ seen := .inr hseen
        rw [if_pos hdone, if_pos hseen]
      · have hid : (if p.id ∈ seen then p
            else { p with final := (lastCount? final p.id).or p.final }).id ≠ mark.1 := by
          split <;> exact Ne.symm hp
        rw [if_neg (not_or.2 ⟨hp, hseen⟩), if_neg hseen, setFirst, if_neg hid]

theorem withFinal_nil (seen : List String) (places : List Place) :
    withFinal [] seen places = places := by
  induction places generalizing seen with
  | nil => rfl
  | cons p places ih =>
    rw [withFinal, ih]
    split <;> rfl

theorem foldl_setFirst (places : List Place) (final : List (String × UInt64)) :
    final.foldl (fun places mark ↦ setFirst mark places) places = withFinal final [] places := by
  induction final using List.reverseRecOn with
  | nil => exact (withFinal_nil [] places).symm
  | append_singleton final mark ih =>
    rw [List.foldl_append, List.foldl_cons, List.foldl_nil, ih, withFinal_concat,
      if_neg List.not_mem_nil]

/-! ## Silent transitions -/

theorem get?_restrict {α : Type} (t : Table α) (keys : List String) (key : String) :
    (t.restrict keys).get? key = if key ∈ keys then t.get? key else none := by
  have hlookup (entries : List (String × α)) : Table.lookup key (entries.filter (·.1 ∈ keys)) =
      if key ∈ keys then Table.lookup key entries else none := by
    induction entries with
    | nil => exact (ite_self _).symm
    | cons e entries ih =>
      obtain ⟨k, v⟩ := e
      rw [List.filter_cons, Table.lookup]
      by_cases hk : k = key
      · subst hk
        by_cases hmem : k ∈ keys
        · simp [hmem, Table.lookup]
        · simpa [hmem] using ih
      · rw [if_neg hk, ← ih]
        split
        · rw [Table.lookup, if_neg hk]
        · rfl
  exact hlookup t.entries

theorem get?_markInvisible (invisible marked : IdSet) (ts : List Transition) (key : String) :
    (Draft.markInvisible invisible marked ts).get? key =
      if key ∈ ts.map (·.id) ∧ invisible.contains key then some () else marked.get? key := by
  induction ts generalizing marked with
  | nil => rw [if_neg fun h ↦ absurd h.1 List.not_mem_nil, Draft.markInvisible, List.foldl_nil]
  | cons t ts ih =>
    unfold Draft.markInvisible at ih ⊢
    have hnext :
        Table.get? (if invisible.contains t.id then marked.insert t.id () else marked) key =
        if t.id = key ∧ invisible.contains key then some () else marked.get? key := by
      by_cases hid : t.id = key
      · subst hid
        by_cases h : invisible.contains t.id <;> simp [h, Table.get?_insert]
      · split <;> simp [Table.get?_insert, hid]
    rw [List.foldl_cons, ih, hnext]
    simp only [List.map_cons, List.mem_cons, eq_comm (a := key)]
    by_cases hrest : key ∈ ts.map (·.id) <;> by_cases hid : t.id = key <;>
      by_cases h : invisible.contains key <;> simp [hrest, hid, h]

/-- The transitions that are read as silent are the declared ones of those that were. -/
theorem markInvisible_eq (invisible : IdSet) (ts : List Transition) :
    Draft.markInvisible invisible ∅ ts = invisible.restrict (ts.map (·.id)) := by
  apply Table.ext_get?
  intro key
  rw [get?_markInvisible, get?_restrict, Table.get?_empty, Table.contains]
  cases hkey : invisible.get? key with
  | none => simp
  | some u => simp

/-! ## The document -/

theorem wellNamed_labelled {name : String} (h : IsName name) (content : String) :
    (labelled name content).WellNamed :=
  ⟨h, Xml.isName_keys _ (by decide), show IsName "text" by decide, trivial⟩

theorem wellNamed_placeMarkup (p : Place) : (placeMarkup p).WellNamed := by
  refine ⟨by decide, Xml.isName_keys _ (show ∀ key ∈ ["id"], IsName key by decide), ?_⟩
  rw [Markup.allWellNamed_iff, List.forall_mem_append, List.forall_mem_append,
    List.forall_mem_cons, List.forall_mem_singleton, List.forall_mem_singleton]
  refine ⟨⟨⟨wellNamed_labelled (by decide) _, wellNamed_labelled (by decide) _⟩, ?_⟩,
    wellNamed_labelled (by decide) _⟩
  cases p.final with
  | none => exact fun _ h ↦ absurd h List.not_mem_nil
  | some n => exact List.forall_mem_singleton.2 (wellNamed_labelled (by decide) _)

theorem wellNamed_transitionMarkup (invisible : IdSet) (t : Transition) :
    (transitionMarkup invisible t).WellNamed := by
  refine ⟨by decide, Xml.isName_keys _ (show ∀ key ∈ ["id"], IsName key by decide), ?_⟩
  rw [Markup.allWellNamed_iff, List.forall_mem_append, List.forall_mem_cons, List.forall_mem_cons,
    List.forall_mem_singleton]
  refine ⟨⟨wellNamed_labelled (by decide) _, wellNamed_labelled (by decide) _,
    wellNamed_labelled (by decide) _⟩, ?_⟩
  split
  · refine List.forall_mem_singleton.2 ⟨by decide, Xml.isName_keys _ ?_⟩
    exact show ∀ key ∈ ["tool", "version", "activity", "localNodeID"], IsName key by decide
  · exact fun _ h ↦ absurd h List.not_mem_nil

theorem wellNamed_arcMarkup (a : Arc) : (arcMarkup a).WellNamed :=
  ⟨by decide, Xml.isName_keys _ (show ∀ key ∈ ["id", "source", "target"], IsName key by decide),
    wellNamed_labelled (by decide) _, trivial⟩

theorem wellNamed_pageMarkup (net : Net) : (pageMarkup net).WellNamed := by
  refine ⟨by decide, Xml.isName_keys _ (show ∀ key ∈ ["id"], IsName key by decide), ?_⟩
  rw [Markup.allWellNamed_iff, List.forall_mem_append, List.forall_mem_append,
    List.forall_mem_map, List.forall_mem_map, List.forall_mem_map]
  exact ⟨⟨fun p _ ↦ wellNamed_placeMarkup p, fun t _ ↦ wellNamed_transitionMarkup _ t⟩,
    fun a _ ↦ wellNamed_arcMarkup a⟩

theorem wellNamed_finalMarkup (final : List (String × UInt64)) :
    ∀ m ∈ finalMarkup final, m.WellNamed := by
  unfold finalMarkup
  split
  · exact fun _ h ↦ absurd h List.not_mem_nil
  · have hmarks : Markup.AllWellNamed (final.map markMarkup) := by
      rw [Markup.allWellNamed_iff, List.forall_mem_map]
      intro mark _
      exact ⟨by decide, Xml.isName_keys _ (show ∀ key ∈ ["idref"], IsName key by decide),
        show IsName "text" by decide, trivial⟩
    refine List.forall_mem_singleton.2 ⟨by decide, Xml.isName_keys _ (by decide), ?_, trivial⟩
    exact ⟨by decide, Xml.isName_keys _ (by decide), hmarks⟩

theorem wellNamed_document (net : Net) :
    (Markup.element "pnml" [] [netMarkup net]).WellNamed := by
  refine ⟨by decide, Xml.isName_keys _ (by decide), ⟨by decide, ?_, ?_⟩, trivial⟩
  · exact Xml.isName_keys _ (show ∀ key ∈ ["id", "type"], IsName key by decide)
  · rw [Markup.allWellNamed_iff, List.forall_mem_append, List.forall_mem_append,
      List.forall_mem_singleton]
    refine ⟨⟨?_, wellNamed_pageMarkup net⟩, wellNamed_finalMarkup net.final⟩
    split
    · exact fun _ h ↦ absurd h List.not_mem_nil
    · exact List.forall_mem_singleton.2 (wellNamed_labelled (by decide) _)

theorem fillLabel_readTransition (t : Transition) :
    fillLabel (readTransition t) = labelTransition t := by
  unfold fillLabel readTransition labelTransition
  dsimp only
  split <;> rfl

/-- The draft of a written net is resolved to the net read back, or to the first fault. -/
theorem resolve_ofNet (net : Net) (markings : Nat) :
    (Draft.ofNet net markings).resolve =
      match net.arcs.find? (¬ net.Joins ·) with
      | some a => .error (net.arcFault a)
      | none =>
        match net.final.find? (·.1 ∉ net.placeIds) with
        | some mark => .error (.unknownFinalPlace mark.1)
        | none => .ok (readBack net) := by
  have hplaces : (net.places.map readPlace).map (·.id) = net.placeIds := List.map_map
  have hfill : (net.transitions.map readTransition).map fillLabel =
      net.transitions.map labelTransition := by
    have hcomp : fillLabel ∘ readTransition = labelTransition := by
      funext t
      exact fillLabel_readTransition t
    rw [List.map_map, hcomp]
  have hids : (net.transitions.map labelTransition).map (·.id) = net.transitionIds := List.map_map
  unfold Draft.resolve
  dsimp only [Draft.ofNet]
  rw [List.reverse_reverse, List.reverse_reverse, List.reverse_reverse, List.reverse_reverse,
    hfill, hids, hplaces, mapM_resolve, foldlM_setFinal, hplaces, foldl_setFirst,
    markInvisible_eq]
  cases net.arcs.find? (¬ net.Joins ·) with
  | some a => rfl
  | none =>
    cases net.final.find? (·.1 ∉ net.placeIds) with
    | some mark => rfl
    | none => rfl

/-- What is read of a written net: the fault of its first arc that joins no place and transition,
else the first place of the final marking that is undeclared, else the net read back. -/
theorem read_write (net : Net) :
    read (.ofText (write net)) =
      match net.arcs.find? (¬ net.Joins ·) with
      | some a => .error (net.arcFault a)
      | none =>
        match net.final.find? (·.1 ∉ net.placeIds) with
        | some mark => .error (.unknownFinalPlace mark.1)
        | none => .ok (readBack net) := by
  obtain ⟨markings, hreads⟩ := Draft.reads_document net
  have hdraft := Draft.reads_singleton.1 hreads
  rw [read, write, Markup.stream_document (wellNamed_document net), ofStream]
  dsimp only
  rw [hdraft, ← resolve_ofNet net markings]
  rfl

end Pnml

end PetriAlign
