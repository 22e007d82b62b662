import Mathlib.Data.List.Basic
import Mathlib.Data.List.Perm.Subperm
import PetriAlign.Proofs.Net.Takes
import PetriAlign.Proofs.StateGraph.Exactness

/-!
# State graphs under two limits

Two searches of one net meet the same markings in the same order. The one with the lower limit stops
adding states earlier and keeps all that it has, so its graph is the part of the larger graph
between the states that were found first.
-/

namespace PetriAlign

namespace StateGraph

/-- The states once a marking is met: a new one is added while there is room. -/
def addWithin (limit : Nat) (states : List Marking) (m : Marking) : List Marking :=
  if m ∈ states ∨ limit ≤ states.length then states else states ++ [m]

variable {net : Net} {limit limit' : Nat} {states : List Marking} {m : Marking}

theorem addWithin_of_le (h : limit ≤ states.length) : addWithin limit states m = states :=
  if_pos (.inr h)

theorem addWithin_of_lt (h : states.length < limit) (h' : states.length < limit') :
    addWithin limit states m = addWithin limit' states m := by
  unfold addWithin
  simp only [Nat.not_le.2 h, Nat.not_le.2 h', or_false]

theorem prefix_addWithin (limit : Nat) (states : List Marking) (m : Marking) :
    states <+: addWithin limit states m := by
  unfold addWithin
  split
  · exact List.prefix_rfl
  · exact List.prefix_append _ _

theorem length_addWithin_le (h : states.length < limit) :
    (addWithin limit states m).length ≤ limit := by
  unfold addWithin
  split
  · exact Nat.le_of_lt h
  · rw [List.length_append, List.length_singleton]
    exact h

theorem take_eq_of_prefix {states' : List Marking} {n : Nat} (h : states <+: states')
    (hn : n ≤ states.length) : states'.take n = states.take n := by
  obtain ⟨more, rfl⟩ := h
  exact List.take_append_of_le_length hn

/-- The first states are the same under both limits. -/
theorem addWithin_take (hlimit : limit ≤ limit') (hne : states ≠ []) (m : Marking) :
    addWithin limit (states.take (max limit 1)) m =
      (addWithin limit' states m).take (max limit 1) := by
  have hpos : 0 < states.length := List.length_pos_iff.2 hne
  by_cases hfull : max limit 1 ≤ states.length
  · have hlength : (states.take (max limit 1)).length = max limit 1 :=
      List.length_take_of_le hfull
    rw [addWithin_of_le (by omega), take_eq_of_prefix (prefix_addWithin limit' states m) hfull]
  · have hroom : states.length < limit := by omega
    have hroom' : states.length < limit' := by omega
    have hlength : (addWithin limit states m).length ≤ limit := length_addWithin_le hroom
    rw [List.take_of_length_le (by omega), ← addWithin_of_lt hroom hroom',
      List.take_of_length_le (by omega)]

namespace Search

variable {visited visited' : List Visit} {s s' r r' : Search} {source : Nat}

/-! ## Two searches in step -/

/-- What a visit does to the states. -/
theorem Explored.states_visit (h : Explored net limit visited s) (source : Nat) (m : Marking)
    (t : Transition) : (Search.visit net limit source m s t).states.toList =
      (net.step? t.id m).elim s.states.toList (addWithin limit s.states.toList) := by
  unfold Search.visit Net.step?
  split
  case isFalse => rfl
  case isTrue =>
    cases net.fire t.id m with
    | none => rfl
    | some next =>
      dsimp only [Option.elim_some]
      have hnumber := h.numbers next
      unfold addWithin
      split
      case h_1 target htarget =>
        rw [htarget] at hnumber
        have hmem : next ∈ s.states.toList := List.isSome_idxOf?.1 (hnumber ▸ rfl)
        rw [if_pos (.inl hmem)]
        rfl
      case h_2 hnew =>
        rw [hnew] at hnumber
        have hnotin : next ∉ s.states.toList := List.idxOf?_eq_none_iff.1 hnumber.symm
        simp only [hnotin, false_or, Array.length_toList]
        split
        · rfl
        · rw [addEdge, addState, Array.toList_push]

theorem Explored.states_ne_nil (h : Explored net limit visited s) : s.states.toList ≠ [] := by
  obtain ⟨hlt, -⟩ := Array.getElem?_eq_some_iff.1 h.initial
  rw [← List.length_pos_iff, Array.length_toList]
  exact hlt

/-- The first states of a search, as many as there may be under a lower limit. -/
def Begins (limit : Nat) (s s' : Search) : Prop :=
  s.states.toList = s'.states.toList.take (max limit 1)

theorem Begins.visit (hbegins : Begins limit s s') (hlimit : limit ≤ limit')
    (h : Explored net limit visited s) (h' : Explored net limit' visited' s') (source : Nat)
    (m : Marking) (t : Transition) :
    Begins limit (Search.visit net limit source m s t) (Search.visit net limit' source m s' t) := by
  unfold Begins at hbegins ⊢
  rw [h.states_visit, h'.states_visit, hbegins]
  cases net.step? t.id m with
  | none => rfl
  | some next => exact addWithin_take hlimit h'.states_ne_nil next

theorem Begins.subset (hbegins : Begins limit s s') : s.states.toList ⊆ s'.states.toList := by
  rw [hbegins]
  exact List.take_subset _ _

theorem Begins.foldl_visit (hbegins : Begins limit s s') (hlimit : limit ≤ limit')
    (h : Explored net limit visited s) (h' : Explored net limit' visited' s')
    (hm : m ∈ s.states.toList) {ts : List Transition} (hts : ∀ t ∈ ts, t ∈ net.transitions) :
    Begins limit (ts.foldl (Search.visit net limit source m) s)
      (ts.foldl (Search.visit net limit' source m) s') := by
  induction ts generalizing visited visited' s s' with
  | nil => exact hbegins
  | cons t ts ih =>
    rw [List.forall_mem_cons] at hts
    have hnext := hbegins.visit hlimit h h' source m t
    have hm' := hbegins.subset hm
    exact ih hnext (h.visit hm hts.1) (h'.visit hm' hts.1) ((prefix_visit t).subset hm) hts.2

theorem prefix_of_stops (h : Stops net limit source s r) :
    s.states.toList <+: r.states.toList := by
  induction h with
  | done => exact List.prefix_rfl
  | expand _ _ ih => exact (prefix_foldl_visit _).trans ih

/-- A state of the smaller search has the same number in the larger one. -/
theorem Begins.getElem? (hbegins : Begins limit s s') (hm : s.states[source]? = some m) :
    s'.states[source]? = some m := by
  rw [← Array.getElem?_toList] at hm ⊢
  rw [hbegins] at hm
  obtain ⟨hlt, hget⟩ := List.getElem?_eq_some_iff.1 hm
  rw [List.length_take] at hlt
  rw [← hm, List.getElem?_take_of_lt (by omega)]

/-- Two searches that begin alike stay so until they stop. The larger one may go on after the
smaller one has stopped: then the smaller one is full, and nothing more is begun. -/
theorem Begins.of_stops (hbegins : Begins limit s s') (hlimit : limit ≤ limit')
    (h : Explored net limit (visits net (s.states.toList.take source)) s)
    (h' : Explored net limit' (visits net (s'.states.toList.take source)) s')
    (hstops : Stops net limit source s r) (hstops' : Stops net limit' source s' r') :
    Begins limit r r' := by
  induction hstops generalizing s' with
  | @done source s hnone =>
    by_cases hfull : max limit 1 ≤ s'.states.toList.length
    · rw [Begins, take_eq_of_prefix (prefix_of_stops hstops') hfull]
      exact hbegins
    · have hsame : s.states = s'.states := by
        rw [← Array.toList_inj, hbegins, List.take_of_length_le (by omega)]
      cases hstops' with
      | done => exact hbegins
      | expand hm => rw [← hsame, hnone] at hm; cases hm
  | @expand source m s r hm _ ih =>
    have hm' := hbegins.getElem? hm
    cases hstops' with
    | done hnone => rw [hm'] at hnone; cases hnone
    | expand hother hrest =>
      obtain rfl : m = _ := Option.some.inj (hm'.symm.trans hother)
      have hmem : m ∈ s.states.toList := Array.mem_toList_iff.2 (Array.mem_of_getElem? hm)
      exact ih (hbegins.foldl_visit hlimit h h' hmem fun _ ht ↦ ht) (h.expand hm) (h'.expand hm')
        hrest

end Search

/-! ## Edges between the first states -/

theorem idxOf?_take (states : List Marking) (n : Nat) (m : Marking) :
    (states.take n).idxOf? m = (states.idxOf? m).filter (· < n) := by
  unfold List.idxOf?
  rw [List.findIdx?_take]
  cases states.findIdx? (· == m) with
  | none => rfl
  | some i => by_cases hi : i < n <;> simp [Option.guard, Option.filter, hi]

/-- Whether both ends of an edge are among the first `n` states. -/
def IsWithin (n : Nat) (e : StateEdge) : Prop := e.source < n ∧ e.target < n

instance (n : Nat) (e : StateEdge) : Decidable (IsWithin n e) :=
  inferInstanceAs (Decidable (_ ∧ _))

theorem filter_edge? (states : List Marking) {n : Nat} {v : Visit} (h : v.source < n) :
    (v.edge? net states).filter (IsWithin n) = v.edge? net (states.take n) := by
  unfold Visit.edge?
  cases v.next? net with
  | none => rfl
  | some next =>
    rw [Option.bind_some, Option.bind_some, idxOf?_take]
    cases states.idxOf? next with
    | none => rfl
    | some target => by_cases ht : target < n <;> simp [Option.filter, IsWithin, h, ht]

theorem filter_edge?_of_le (states : List Marking) {n : Nat} {v : Visit} (h : n ≤ v.source) :
    (v.edge? net states).filter (IsWithin n) = none := by
  unfold Visit.edge?
  cases v.next? net with
  | none => rfl
  | some next =>
    rw [Option.bind_some]
    cases states.idxOf? next with
    | none => rfl
    | some target => simp [Option.filter, IsWithin, Nat.not_lt.2 h]

/-- The first states are visited first. -/
theorem exists_visits_eq (net : Net) (states : List Marking) (n : Nat) :
    ∃ rest, visits net states = visits net (states.take n) ++ rest ∧
      (∀ v ∈ visits net (states.take n), v.source < n) ∧ ∀ v ∈ rest, n ≤ v.source := by
  refine ⟨((states.drop n).zipIdx (states.take n).length).flatMap fun state ↦
    net.transitions.map (.mk state.2 state.1), ?_, ?_, ?_⟩
  · conv_lhs => rw [← List.take_append_drop n states]
    rw [visits, List.zipIdx_append, List.flatMap_append, Nat.zero_add]
    rfl
  · intro v hv
    obtain ⟨hlt, -⟩ := List.getElem?_eq_some_iff.1 (mem_visits.1 hv).1
    rw [List.length_take] at hlt
    omega
  · intro v hv
    obtain ⟨state, hstate, hv⟩ := List.mem_flatMap.1 hv
    obtain ⟨t, -, rfl⟩ := List.mem_map.1 hv
    obtain ⟨hle, hlt, -⟩ := List.mem_zipIdx hstate
    rw [List.length_take, List.length_drop] at hlt
    rw [List.length_take] at hle
    dsimp only
    omega

/-- The firings between the first states are the firings between all states that stay there. -/
theorem firingEdges_take (net : Net) (states : List Marking) (n : Nat) :
    net.firingEdges (states.take n) = (net.firingEdges states).filter (IsWithin n) := by
  obtain ⟨rest, hvisits, hfirst, hrest⟩ := exists_visits_eq net states n
  have hkept : (visits net (states.take n)).filterMap
        (fun v ↦ (v.edge? net states).filter (IsWithin n)) = net.firingEdges (states.take n) :=
    List.filterMap_congr fun v hv ↦ filter_edge? states (hfirst v hv)
  have hdropped : rest.filterMap (fun v ↦ (v.edge? net states).filter (IsWithin n)) = [] :=
    List.filterMap_eq_nil_iff.2 fun v hv ↦ filter_edge?_of_le states (hrest v hv)
  rw [Net.firingEdges, Net.firingEdges, List.filter_filterMap, hvisits, List.filterMap_append,
    hkept, hdropped, List.append_nil]
  rfl

/-! ## The two graphs -/

/-- The states under the lower limit are the first ones under the higher limit. -/
theorem states_stateGraph_of_le (net : Net) (h : limit ≤ limit') :
    (net.stateGraph limit).states.toList =
      (net.stateGraph limit').states.toList.take (max limit 1) := by
  obtain ⟨s, hstops, hs⟩ := (isExact_stateGraph net limit).stops
  obtain ⟨s', hstops', hs'⟩ := (isExact_stateGraph net limit').stops
  have hstart : Search.Begins limit (.start net.initialMarking) (.start net.initialMarking) := by
    have hone : (Search.start net.initialMarking).states.toList = [net.initialMarking] := rfl
    rw [Search.Begins, hone, List.take_of_length_le]
    exact Nat.le_max_right _ _
  rw [hs, hs']
  exact hstart.of_stops h (Search.explored_start net limit) (Search.explored_start net limit')
    hstops hstops'

/-- A complete graph has all states that any graph of the net has. -/
theorem subset_of_complete (h : (net.stateGraph limit).complete = true) (limit' : Nat) :
    (net.stateGraph limit').states.toList ⊆ (net.stateGraph limit).states.toList := by
  intro m hm
  rw [(isExact_stateGraph net limit).states_of_complete h]
  exact (isExact_stateGraph net limit').reachable m hm

theorem complete_of_le (hlimit : limit ≤ limit') (h : (net.stateGraph limit).complete = true) :
    (net.stateGraph limit').complete = true := by
  rw [(isExact_stateGraph net limit).complete_iff] at h
  obtain ⟨⟨ms, hlength, hms⟩, hoverflow⟩ := h
  rw [(isExact_stateGraph net limit').complete_iff]
  exact ⟨⟨ms, by omega, hms⟩, hoverflow⟩

theorem eq_of_toList {g g' : StateGraph} (hstates : g.states.toList = g'.states.toList)
    (hedges : g.edges.toList = g'.edges.toList) (hcomplete : g.complete = g'.complete) :
    g = g' := by
  obtain ⟨states, edges, complete⟩ := g
  obtain rfl := Array.toList_inj.1 hstates
  obtain rfl := Array.toList_inj.1 hedges
  obtain rfl := hcomplete
  rfl

/-- A higher limit extends a state graph: its states are the first states of the larger graph, and
its edges those of the larger graph between them, in the same order. A complete graph stays as it
is. -/
theorem stateGraph_of_le (net : Net) {limit limit' : Nat} (h : limit ≤ limit') :
    (net.stateGraph limit).states.size = min (max limit 1) (net.stateGraph limit').states.size ∧
    (net.stateGraph limit).states.toList =
      (net.stateGraph limit').states.toList.take (net.stateGraph limit).states.size ∧
    (net.stateGraph limit).edges.toList = (net.stateGraph limit').edges.toList.filter
      (IsWithin (net.stateGraph limit).states.size) ∧
    ((net.stateGraph limit).complete = true →
      (net.stateGraph limit').complete = true ∧ net.stateGraph limit' = net.stateGraph limit) := by
  have hexact := isExact_stateGraph net limit
  have hexact' := isExact_stateGraph net limit'
  have hstates := states_stateGraph_of_le net h
  have hsize : (net.stateGraph limit).states.size =
      min (max limit 1) (net.stateGraph limit').states.size := by
    rw [← Array.length_toList, hstates, List.length_take, Array.length_toList]
  have htake : (net.stateGraph limit).states.toList =
      (net.stateGraph limit').states.toList.take (net.stateGraph limit).states.size := by
    rw [hsize, hstates, ← Array.length_toList, List.take_eq_take_min]
  refine ⟨hsize, htake, ?_, fun hcomplete ↦ ?_⟩
  · rw [hexact.edges, hexact'.edges, ← firingEdges_take, ← htake]
  · have hcomplete' := complete_of_le h hcomplete
    have hlength := (List.subperm_of_subset hexact'.nodup
      (subset_of_complete hcomplete limit')).length_le
    rw [Array.length_toList, Array.length_toList] at hlength
    have hsame : (net.stateGraph limit).states.toList = (net.stateGraph limit').states.toList := by
      rw [htake, List.take_of_length_le hlength]
    have hedges : (net.stateGraph limit).edges.toList = (net.stateGraph limit').edges.toList := by
      rw [hexact.edges, hexact'.edges, hsame]
    exact ⟨hcomplete', eq_of_toList hsame.symm hedges.symm (hcomplete'.trans hcomplete.symm)⟩

/-- The graph of a payment under a limit of two is the part of its whole graph between the first two
states. -/
theorem stateGraph_of_le_payment : 2 ≤ 3 ∧
    (payment.stateGraph 2).states.size = min 2 (payment.stateGraph 3).states.size ∧
    (payment.stateGraph 2).edges.toList = (payment.stateGraph 3).edges.toList.filter
      (IsWithin (payment.stateGraph 2).states.size) := by
  have hle : 2 ≤ 3 := by decide
  obtain ⟨hsize, -, hedges, -⟩ := stateGraph_of_le payment hle
  exact ⟨hle, hsize, hedges⟩

end StateGraph

end PetriAlign
