import Mathlib.Data.List.Basic
import Mathlib.Data.List.Perm.Subperm
import PetriAlign.Proofs.StateGraph.Search

/-!
# State graphs and reachable markings

The states of a state graph are different reachable markings, numbered as they are found, and its
edges are all firings between them. The graph is complete exactly if the reachable markings fit into
the limit and no enabled transition overflows a place in one of them; its states are then all
reachable markings.
-/

namespace PetriAlign

/-- The firings between these states, by source and then in declaration order. -/
def Net.firingEdges (net : Net) (states : List Marking) : List StateEdge :=
  (StateGraph.visits net states).filterMap (StateGraph.Visit.edge? net states)

/-- There are at most `n` reachable markings. -/
def Net.ReachesAtMost (net : Net) (n : Nat) : Prop :=
  ∃ ms : List Marking, ms.length ≤ n ∧ ∀ m, net.Reachable m → m ∈ ms

/-- In no reachable marking does an enabled transition overflow a place. -/
def Net.NeverOverflows (net : Net) : Prop :=
  ∀ m, net.Reachable m → ∀ t ∈ net.transitions, net.canFire t.id m = true →
    ∃ next, net.fire t.id m = some next

namespace StateGraph

open Search

/-- The graph is what a search of the net finds within the limit. -/
structure IsExact (g : StateGraph) (net : Net) (limit : Nat) : Prop where
  /-- The search comes to its end, with no limit on how many states it expands. -/
  stops : ∃ s, Stops net limit 0 (.start net.initialMarking) s ∧
    g = ⟨s.states, s.edges, s.complete⟩
  size_le : g.states.size ≤ max limit 1
  nodup : g.states.toList.Nodup
  initial : g.states[0]? = some net.initialMarking
  reachable : ∀ m ∈ g.states.toList, net.Reachable m
  /-- Each state but the initial one is numbered when the first edge into it is added. -/
  order : NumberedInOrder g.edges.toList g.states.size
  edge_iff : ∀ e, e ∈ g.edges.toList ↔ ∃ m m' t, g.states[e.source]? = some m ∧
    g.states[e.target]? = some m' ∧ t ∈ net.transitions ∧ net.canFire t.id m = true ∧
    net.fire t.id m = some m' ∧ e.transition = t.id ∧ e.label = t.label ∧ e.kind = t.kind
  /-- The edges stand in the order of their sources, and from one source in declaration order. -/
  edges : g.edges.toList = net.firingEdges g.states.toList
  complete_iff : g.complete = true ↔ net.ReachesAtMost (max limit 1) ∧ net.NeverOverflows
  states_of_complete : g.complete = true → ∀ m, m ∈ g.states.toList ↔ net.Reachable m

variable {net : Net} {states : List Marking}

theorem mem_visits {v : Visit} : v ∈ visits net states ↔
    states[v.source]? = some v.marking ∧ v.transition ∈ net.transitions := by
  simp only [visits, List.mem_flatMap, List.mem_map, List.mem_zipIdx_iff_getElem?]
  constructor
  · rintro ⟨state, hstate, t, ht, rfl⟩
    exact ⟨hstate, ht⟩
  · rintro ⟨hstate, ht⟩
    exact ⟨(v.marking, v.source), hstate, v.transition, ht, rfl⟩

theorem idxOf?_eq_some_iff (hstates : states.Nodup) {m : Marking} {i : Nat} :
    states.idxOf? m = some i ↔ states[i]? = some m := by
  rw [List.idxOf?_eq_some_iff]
  constructor
  · rintro ⟨hlt, hget, -⟩
    rw [List.getElem?_eq_getElem hlt, hget]
  · intro hm
    obtain ⟨hlt, hget⟩ := List.getElem?_eq_some_iff.1 hm
    refine ⟨hlt, hget, fun j hj heq ↦ ?_⟩
    have hij : j = i := (hstates.getElem_inj_iff).1 (heq.trans hget.symm)
    omega

/-- The edges are the firings that lead from one state to another. -/
theorem mem_firingEdges_iff (hstates : states.Nodup) {e : StateEdge} :
    e ∈ net.firingEdges states ↔ ∃ m m' t, states[e.source]? = some m ∧
      states[e.target]? = some m' ∧ t ∈ net.transitions ∧ net.canFire t.id m = true ∧
      net.fire t.id m = some m' ∧ e.transition = t.id ∧ e.label = t.label ∧ e.kind = t.kind := by
  have hstep (t : Transition) (m m' : Marking) : net.step? t.id m = some m' ↔
      net.canFire t.id m = true ∧ net.fire t.id m = some m' := by
    unfold Net.step?
    split <;> simp_all
  simp only [Net.firingEdges, List.mem_filterMap, mem_visits, Visit.edge?, Option.bind_eq_some_iff,
    Option.map_eq_some_iff, idxOf?_eq_some_iff hstates, Visit.next?, hstep]
  constructor
  · rintro ⟨v, ⟨hsource, ht⟩, next, ⟨hcan, hfire⟩, target, htarget, rfl⟩
    exact ⟨v.marking, next, v.transition, hsource, htarget, ht, hcan, hfire, rfl, rfl, rfl⟩
  · rintro ⟨m, m', t, hsource, htarget, ht, hcan, hfire, hid, hlabel, hkind⟩
    refine ⟨⟨e.source, m, t⟩, ⟨hsource, ht⟩, m', ⟨hcan, hfire⟩, e.target, htarget, ?_⟩
    rw [← hid, ← hlabel, ← hkind]

namespace Search

variable {limit : Nat} {s : Search}

/-- A search that left nothing out has found every reachable marking. -/
theorem Explored.mem_of_complete (h : Explored net limit (visits net s.states.toList) s)
    (hcomplete : s.complete = true) {m : Marking} (hm : net.Reachable m) :
    m ∈ s.states.toList := by
  have hkept := h.complete.1 hcomplete
  apply Net.Reachable.induction ?_ ?_ hm
  · rw [Array.mem_toList_iff]
    exact Array.mem_of_getElem? h.initial
  · intro m m' t hm ht hstep
    obtain ⟨source, hsource⟩ := List.getElem?_of_mem hm
    have hv := hkept ⟨source, m, t⟩ (mem_visits.2 ⟨hsource, ht⟩)
    exact (Visit.kept_iff (v := ⟨source, m, t⟩) hstep).1 hv

theorem Explored.mem_iff_of_complete (h : Explored net limit (visits net s.states.toList) s)
    (hcomplete : s.complete = true) (m : Marking) : m ∈ s.states.toList ↔ net.Reachable m :=
  ⟨h.reachable m, h.mem_of_complete hcomplete⟩

/-- A search that left nothing out met no overflow, and the reachable markings are its states. -/
theorem Explored.bounds_of_complete (h : Explored net limit (visits net s.states.toList) s)
    (hcomplete : s.complete = true) :
    net.ReachesAtMost (max limit 1) ∧ net.NeverOverflows := by
  constructor
  · exact ⟨s.states.toList, h.size_le, fun m ↦ h.mem_of_complete hcomplete⟩
  · intro m hm t ht hcan
    obtain ⟨source, hsource⟩ := List.getElem?_of_mem (h.mem_of_complete hcomplete hm)
    have hv := h.complete.1 hcomplete ⟨source, m, t⟩ (mem_visits.2 ⟨hsource, ht⟩)
    obtain ⟨next, -, hfire⟩ := hv hcan
    exact ⟨next, hfire⟩

/-- If nothing overflows and all reachable markings fit in, the search leaves nothing out. -/
theorem Explored.complete_of_bounds (h : Explored net limit (visits net s.states.toList) s)
    (hcount : net.ReachesAtMost (max limit 1)) (hoverflow : net.NeverOverflows) :
    s.complete = true := by
  obtain ⟨ms, hlength, hms⟩ := hcount
  rw [h.complete]
  intro v hv hcan
  obtain ⟨hsource, ht⟩ := mem_visits.1 hv
  have hreach := h.reachable _ (List.mem_of_getElem? hsource)
  obtain ⟨next, hfire⟩ := hoverflow _ hreach _ ht hcan
  have hnext : v.next? net = some next := by
    rw [Visit.next?_of_fire hcan, hfire]
  refine ⟨next, ?_, hfire⟩
  by_contra hnotin
  -- A state that was left out makes one reachable marking more than there is room for.
  have hfull : limit ≤ s.states.size := by
    by_contra hroom
    exact hnotin (h.room (Nat.not_le.1 hroom) v hv next hnext)
  have hpos : 0 < s.states.size := (Array.getElem?_eq_some_iff.1 h.initial).1
  have hsubset : next :: s.states.toList ⊆ ms := by
    apply List.cons_subset.2
    exact ⟨hms next (hreach.step ht hnext), fun m hm ↦ hms m (h.reachable m hm)⟩
  have hmore := (List.subperm_of_subset (List.nodup_cons.2 ⟨hnotin, h.nodup⟩) hsubset).length_le
  rw [List.length_cons, Array.length_toList] at hmore
  omega

end Search

/-- The state graph of a net has at most `limit` states, but at least the initial one: different
reachable markings, numbered as they are found, with all firings between them as edges. It is
complete exactly if no reachable marking is left out and no enabled transition overflows. -/
theorem isExact_stateGraph (net : Net) (limit : Nat) :
    (net.stateGraph limit).IsExact net limit := by
  let first := start net.initialMarking
  have hstart : Explored net limit (visits net (first.states.toList.take 0)) first :=
    explored_start net limit
  have hstops : Stops net limit 0 first (run net limit (max limit 1) 0 first) :=
    stops_run hstart (by omega)
  have hexplored := hstart.of_stops hstops
  have hnodup : (net.stateGraph limit).states.toList.Nodup := hexplored.nodup
  exact {
    stops := ⟨_, hstops, rfl⟩
    size_le := hexplored.size_le
    nodup := hnodup
    initial := hexplored.initial
    reachable := hexplored.reachable
    order := hexplored.order
    edge_iff := by
      intro e
      have hedges : (net.stateGraph limit).edges.toList =
          net.firingEdges (net.stateGraph limit).states.toList := hexplored.edges
      rw [hedges, mem_firingEdges_iff hnodup]
      simp only [Array.getElem?_toList]
    edges := hexplored.edges
    complete_iff := ⟨hexplored.bounds_of_complete,
      fun ⟨hcount, hoverflow⟩ ↦ hexplored.complete_of_bounds hcount hoverflow⟩
    states_of_complete := hexplored.mem_iff_of_complete }

end StateGraph

end PetriAlign
