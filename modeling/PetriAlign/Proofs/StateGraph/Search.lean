import Mathlib.Data.List.Basic
import Mathlib.Data.List.Nodup
import PetriAlign.Proofs.Net.Firing
import PetriAlign.StateGraph

/-!
# The search for states

A search visits states and transitions in a fixed order. `Explored` says what is known after some
visits: the states are different reachable markings within the limit, the edges are those of the
visits between states, and a marking that was left out is left out for good. Each visit keeps this,
and the search stops with every state visited under every transition.
-/

namespace PetriAlign

namespace StateGraph

/-- A transition that is tried in the marking of state `source`. -/
structure Visit where
  source : Nat
  marking : Marking
  transition : Transition

namespace Visit

/-- The marking that the visit leads to. -/
def next? (net : Net) (v : Visit) : Option Marking := net.step? v.transition.id v.marking

/-- The edge of the visit, if its transition fires and leads to a state. -/
def edge? (net : Net) (states : List Marking) (v : Visit) : Option StateEdge :=
  (v.next? net).bind fun next ↦ (states.idxOf? next).map fun target ↦
    ⟨v.source, target, v.transition.id, v.transition.label, v.transition.kind⟩

/-- Nothing is left out: if the transition is enabled, it fires and leads to a state. -/
def Kept (net : Net) (states : List Marking) (v : Visit) : Prop :=
  net.canFire v.transition.id v.marking = true →
    ∃ next ∈ states, net.fire v.transition.id v.marking = some next

end Visit

/-- The visits of all states, each under every transition in declaration order. -/
def visits (net : Net) (states : List Marking) : List Visit :=
  states.zipIdx.flatMap fun state ↦ net.transitions.map (.mk state.2 state.1)

/-- States are numbered as edges lead to them, after the initial one. -/
inductive NumberedInOrder : List StateEdge → Nat → Prop
  | start : NumberedInOrder [] 1
  | known {edges : List StateEdge} {n : Nat} {e : StateEdge} :
    NumberedInOrder edges n → e.target < n → NumberedInOrder (edges ++ [e]) n
  | new {edges : List StateEdge} {n : Nat} {e : StateEdge} :
    NumberedInOrder edges n → e.target = n → NumberedInOrder (edges ++ [e]) (n + 1)

theorem idxOf?_concat (states : List Marking) (next m : Marking) :
    (states ++ [next]).idxOf? m =
      (states.idxOf? m).or (if next = m then some states.length else none) := by
  simp only [List.idxOf?, List.findIdx?_append, List.findIdx?_singleton, beq_iff_eq]
  congr 1
  split <;> simp

theorem idxOf?_concat_of_mem {states : List Marking} {m : Marking} (h : m ∈ states)
    (next : Marking) : (states ++ [next]).idxOf? m = states.idxOf? m := by
  rw [idxOf?_concat]
  cases hm : states.idxOf? m with
  | none => exact absurd h (List.idxOf?_eq_none_iff.1 hm)
  | some i => rfl

namespace Search

/-- What is known of a search after some visits. -/
structure Explored (net : Net) (limit : Nat) (visited : List Visit) (s : Search) : Prop where
  numbers : ∀ m, s.numbers[m]? = s.states.toList.idxOf? m
  nodup : s.states.toList.Nodup
  size_le : s.states.size ≤ max limit 1
  initial : s.states[0]? = some net.initialMarking
  reachable : ∀ m ∈ s.states.toList, net.Reachable m
  edges : s.edges.toList = visited.filterMap (Visit.edge? net s.states.toList)
  order : NumberedInOrder s.edges.toList s.states.size
  /-- While there is room, every marking that was met is a state. -/
  room : s.states.size < limit → ∀ v ∈ visited, ∀ next, v.next? net = some next →
    next ∈ s.states.toList
  complete : s.complete = true ↔ ∀ v ∈ visited, v.Kept net s.states.toList

variable {net : Net} {limit : Nat} {visited : List Visit} {s : Search} {v : Visit}
  {next : Marking}

theorem explored_start (net : Net) (limit : Nat) :
    Explored net limit [] (.start net.initialMarking) where
  numbers m := by
    simp only [start, Std.HashMap.getElem?_insert, Std.HashMap.getElem?_empty, List.idxOf?,
      List.findIdx?_singleton]
  nodup := List.nodup_singleton _
  size_le := Nat.le_max_right _ _
  initial := rfl
  reachable m hm := by
    rw [List.mem_singleton.1 hm]
    exact Net.reachable_initialMarking
  edges := rfl
  order := .start
  room _ v hv := absurd hv List.not_mem_nil
  complete := ⟨fun _ v hv ↦ absurd hv List.not_mem_nil, fun _ ↦ rfl⟩

/-! ## One visit -/

theorem Visit.next?_of_fire (hcan : net.canFire v.transition.id v.marking = true) :
    v.next? net = net.fire v.transition.id v.marking := by
  rw [Visit.next?, Net.step?, if_pos hcan]

theorem Visit.kept_iff (hnext : v.next? net = some next) {states : List Marking} :
    v.Kept net states ↔ next ∈ states := by
  unfold Visit.next? Net.step? at hnext
  split at hnext
  case isTrue hcan => simp [Visit.Kept, hcan, hnext]
  case isFalse => cases hnext

theorem Visit.edge?_of_next? (hnext : v.next? net = some next) (states : List Marking) :
    v.edge? net states = (states.idxOf? next).map fun target ↦
      ⟨v.source, target, v.transition.id, v.transition.label, v.transition.kind⟩ := by
  rw [Visit.edge?, hnext, Option.bind_some]

theorem filterMap_concat (f : Visit → Option StateEdge) (visited : List Visit) (v : Visit) :
    (visited ++ [v]).filterMap f = visited.filterMap f ++ (f v).toList := by
  rw [List.filterMap_append]
  cases hv : f v with
  | none => rw [List.filterMap_cons_none hv, List.filterMap_nil, Option.toList_none]
  | some e => rw [List.filterMap_cons_some hv, List.filterMap_nil, Option.toList_some]

/-- A visit that finds no new state, by what it does to the edges and to the flag. -/
theorem Explored.extend (h : Explored net limit visited s) {s' : Search}
    (hstates : s'.states = s.states) (hnumbers : s'.numbers = s.numbers)
    (hedges : s'.edges.toList = s.edges.toList ++ (v.edge? net s.states.toList).toList)
    (horder : NumberedInOrder s'.edges.toList s.states.size)
    (hroom : s.states.size < limit → ∀ next, v.next? net = some next → next ∈ s.states.toList)
    (hcomplete : s'.complete = true ↔ s.complete = true ∧ v.Kept net s.states.toList) :
    Explored net limit (visited ++ [v]) s' where
  numbers := by
    rw [hnumbers, hstates]
    exact h.numbers
  nodup := hstates ▸ h.nodup
  size_le := hstates ▸ h.size_le
  initial := hstates ▸ h.initial
  reachable := hstates ▸ h.reachable
  edges := by
    rw [hedges, hstates, h.edges, filterMap_concat]
  order := hstates ▸ horder
  room := by
    rw [hstates]
    intro hlt
    rw [List.forall_mem_append, List.forall_mem_singleton]
    exact ⟨h.room hlt, hroom hlt⟩
  complete := by
    rw [hcomplete, h.complete, hstates, List.forall_mem_append, List.forall_mem_singleton]

/-- The transition is not enabled. -/
theorem Explored.disabled (h : Explored net limit visited s)
    (hcan : net.canFire v.transition.id v.marking = false) :
    Explored net limit (visited ++ [v]) s := by
  have hnext : v.next? net = none := by
    rw [Visit.next?, Net.step?, hcan]
    rfl
  have hedge : v.edge? net s.states.toList = none := by
    rw [Visit.edge?, hnext]
    rfl
  refine h.extend rfl rfl ?_ h.order ?_ ?_
  · rw [hedge, Option.toList_none, List.append_nil]
  · intro _ next hsome
    rw [hnext] at hsome
    cases hsome
  · have hkept : v.Kept net s.states.toList := by
      intro htrue
      rw [hcan] at htrue
      cases htrue
    exact (and_iff_left hkept).symm

/-- The transition is enabled, but a place cannot hold another token. -/
theorem Explored.overflow (h : Explored net limit visited s)
    (hcan : net.canFire v.transition.id v.marking = true)
    (hfire : net.fire v.transition.id v.marking = none) :
    Explored net limit (visited ++ [v]) s.truncate := by
  have hnext : v.next? net = none := by
    rw [Visit.next?_of_fire hcan, hfire]
  have hedge : v.edge? net s.states.toList = none := by
    rw [Visit.edge?, hnext]
    rfl
  refine h.extend rfl rfl ?_ h.order ?_ ?_
  · rw [hedge, Option.toList_none, List.append_nil]
    rfl
  · intro _ next hsome
    rw [hnext] at hsome
    cases hsome
  · have hkept : ¬ v.Kept net s.states.toList := by
      intro hkept
      obtain ⟨next, -, hsome⟩ := hkept hcan
      rw [hfire] at hsome
      cases hsome
    simp [truncate, hkept]

/-- The transition leads to a state. -/
theorem Explored.known (h : Explored net limit visited s) (hnext : v.next? net = some next)
    {target : Nat} (htarget : s.numbers[next]? = some target) :
    Explored net limit (visited ++ [v]) (s.addEdge v.source target v.transition) := by
  rw [h.numbers] at htarget
  have hmem : next ∈ s.states.toList := by
    rw [← List.isSome_idxOf?, htarget]
    rfl
  have hedge := Visit.edge?_of_next? hnext s.states.toList
  rw [htarget, Option.map_some] at hedge
  refine h.extend rfl rfl ?_ ?_ ?_ ?_
  · rw [hedge, addEdge, Array.toList_push]
    rfl
  · rw [addEdge, Array.toList_push]
    refine h.order.known ?_
    obtain ⟨hlt, -⟩ := List.idxOf?_eq_some_iff.1 htarget
    exact hlt
  · intro _ other hother
    rw [hnext] at hother
    cases hother
    exact hmem
  · exact (and_iff_left ((Visit.kept_iff hnext).2 hmem)).symm

/-- The transition leads to a new marking, but there is no room for it. -/
theorem Explored.dropped (h : Explored net limit visited s) (hnext : v.next? net = some next)
    (hnew : s.numbers[next]? = none) (hfull : limit ≤ s.states.size) :
    Explored net limit (visited ++ [v]) s.truncate := by
  rw [h.numbers] at hnew
  have hedge := Visit.edge?_of_next? hnext s.states.toList
  rw [hnew, Option.map_none] at hedge
  refine h.extend rfl rfl ?_ h.order ?_ ?_
  · rw [hedge, Option.toList_none, List.append_nil]
    rfl
  · intro hlt
    exact absurd hfull (Nat.not_le.2 hlt)
  · have hkept : ¬ v.Kept net s.states.toList := by
      rw [Visit.kept_iff hnext]
      exact List.idxOf?_eq_none_iff.1 hnew
    simp [truncate, hkept]

/-- With room left, what was known of earlier visits does not change with a new state. -/
theorem Explored.kept_concat (h : Explored net limit visited s) (hroom : s.states.size < limit)
    (hv : v ∈ visited) (next : Marking) :
    v.Kept net (s.states.toList ++ [next]) ↔ v.Kept net s.states.toList := by
  cases hsome : v.next? net with
  | none =>
    apply imp_congr_right
    intro hcan
    rw [Visit.next?_of_fire hcan] at hsome
    simp [hsome]
  | some other =>
    have hmem := h.room hroom v hv other hsome
    rw [Visit.kept_iff hsome, Visit.kept_iff hsome]
    exact iff_of_true (List.mem_append_left _ hmem) hmem

theorem Explored.edge?_concat (h : Explored net limit visited s) (hroom : s.states.size < limit)
    (hv : v ∈ visited) (next : Marking) :
    v.edge? net (s.states.toList ++ [next]) = v.edge? net s.states.toList := by
  cases hsome : v.next? net with
  | none =>
    rw [Visit.edge?, Visit.edge?, hsome]
    rfl
  | some other =>
    have hmem := h.room hroom v hv other hsome
    rw [Visit.edge?_of_next? hsome, Visit.edge?_of_next? hsome, idxOf?_concat_of_mem hmem]

/-- The transition leads to a new state. -/
theorem Explored.found (h : Explored net limit visited s)
    (hv : v.marking ∈ s.states.toList) (ht : v.transition ∈ net.transitions)
    (hnext : v.next? net = some next) (hnew : s.numbers[next]? = none)
    (hroom : s.states.size < limit) :
    Explored net limit (visited ++ [v])
      ((s.addState next).addEdge v.source s.states.size v.transition) := by
  rw [h.numbers] at hnew
  have hnotin : next ∉ s.states.toList := List.idxOf?_eq_none_iff.1 hnew
  have hstates : ((s.addState next).addEdge v.source s.states.size v.transition).states.toList =
      s.states.toList ++ [next] := by
    rw [addEdge, addState, Array.toList_push]
  have hlast : (s.states.toList ++ [next]).idxOf? next = some s.states.size := by
    rw [idxOf?_concat, hnew, if_pos rfl, Option.none_or, Array.length_toList]
  have hedge := Visit.edge?_of_next? hnext (s.states.toList ++ [next])
  rw [hlast, Option.map_some] at hedge
  have hsize : ((s.addState next).addEdge v.source s.states.size v.transition).states.size =
      s.states.size + 1 := by
    rw [addEdge, addState, Array.size_push]
  exact {
    numbers := by
      intro m
      rw [hstates, addEdge, addState, Std.HashMap.getElem?_insert, h.numbers, idxOf?_concat,
        Array.length_toList]
      by_cases hm : next = m
      · subst hm
        rw [hnew]
        simp
      · simp [hm]
    nodup := by
      rw [hstates]
      rw [← List.concat_eq_append]
      exact h.nodup.concat hnotin
    size_le := by
      rw [hsize]
      omega
    initial := by
      have hpos : 0 < s.states.size := (Array.getElem?_eq_some_iff.1 h.initial).1
      rw [addEdge, addState, Array.getElem?_push_lt hpos, ← Array.getElem?_eq_getElem hpos]
      exact h.initial
    reachable := by
      rw [hstates, List.forall_mem_append, List.forall_mem_singleton]
      exact ⟨h.reachable, (h.reachable _ hv).step ht hnext⟩
    edges := by
      have hold : visited.filterMap (Visit.edge? net (s.states.toList ++ [next])) =
          visited.filterMap (Visit.edge? net s.states.toList) :=
        List.filterMap_congr fun u hu ↦ h.edge?_concat hroom hu next
      rw [hstates, filterMap_concat, hold, hedge, ← h.edges, addEdge, Array.toList_push]
      rfl
    order := by
      rw [hsize, addEdge, Array.toList_push]
      exact h.order.new rfl
    room := by
      intro _
      rw [hstates, List.forall_mem_append, List.forall_mem_singleton]
      refine ⟨fun u hu other hother ↦ ?_, fun other hother ↦ ?_⟩
      · exact List.mem_append_left _ (h.room hroom u hu other hother)
      · rw [hnext] at hother
        cases hother
        exact List.mem_append_right _ (List.mem_singleton_self _)
    complete := by
      have hkept : v.Kept net (s.states.toList ++ [next]) :=
        (Visit.kept_iff hnext).2 (List.mem_append_right _ (List.mem_singleton_self _))
      rw [hstates, List.forall_mem_append, List.forall_mem_singleton, and_iff_left hkept]
      refine h.complete.trans (forall₂_congr fun u hu ↦ ?_)
      exact (h.kept_concat hroom hu next).symm }

/-- A visit keeps what is known. -/
theorem Explored.visit (h : Explored net limit visited s) {source : Nat} {m : Marking}
    {t : Transition} (hm : m ∈ s.states.toList) (ht : t ∈ net.transitions) :
    Explored net limit (visited ++ [⟨source, m, t⟩]) (visit net limit source m s t) := by
  unfold Search.visit
  split
  case isFalse hcan => exact h.disabled (Bool.not_eq_true _ ▸ hcan)
  case isTrue hcan =>
    have hnext := Visit.next?_of_fire (v := ⟨source, m, t⟩) hcan
    split
    case h_1 hfire => exact h.overflow hcan hfire
    case h_2 next hfire =>
      rw [hfire] at hnext
      split
      case h_1 target htarget => exact h.known hnext htarget
      case h_2 hnew =>
        dsimp only
        split
        case isTrue hfull => exact h.dropped hnext hnew hfull
        case isFalse hroom => exact h.found hm ht hnext hnew (Nat.not_le.1 hroom)

/-! ## The whole search -/

variable {source : Nat} {m : Marking}

/-- States stay where they are. -/
theorem prefix_visit (t : Transition) :
    s.states.toList <+: (visit net limit source m s t).states.toList := by
  unfold visit
  split
  case isFalse => exact List.prefix_rfl
  case isTrue =>
    split
    case h_1 => exact List.prefix_rfl
    case h_2 next _ =>
      split
      case h_1 => exact List.prefix_rfl
      case h_2 =>
        dsimp only
        split
        case isTrue => exact List.prefix_rfl
        case isFalse =>
          rw [addEdge, addState, Array.toList_push]
          exact List.prefix_append _ _

theorem prefix_foldl_visit (ts : List Transition) :
    s.states.toList <+: (ts.foldl (visit net limit source m) s).states.toList := by
  induction ts generalizing s with
  | nil => exact List.prefix_rfl
  | cons t ts ih => exact (prefix_visit t).trans ih

/-- The visits of one state keep what is known. -/
theorem Explored.foldl_visit (h : Explored net limit visited s) (hm : m ∈ s.states.toList)
    {ts : List Transition} (hts : ∀ t ∈ ts, t ∈ net.transitions) :
    Explored net limit (visited ++ ts.map (.mk source m))
      (ts.foldl (Search.visit net limit source m) s) := by
  induction ts generalizing visited s with
  | nil =>
    rw [List.map_nil, List.append_nil]
    exact h
  | cons t ts ih =>
    rw [List.forall_mem_cons] at hts
    have hfirst : Explored net limit (visited ++ [⟨source, m, t⟩])
        (Search.visit net limit source m s t) := h.visit hm hts.1
    have hmore := ih hfirst ((prefix_visit t).subset hm) hts.2
    rwa [List.append_assoc] at hmore

theorem visits_take_succ {states : List Marking} (hm : states[source]? = some m) :
    visits net (states.take (source + 1)) =
      visits net (states.take source) ++ net.transitions.map (.mk source m) := by
  obtain ⟨hlt, hget⟩ := List.getElem?_eq_some_iff.1 hm
  have hlen : (states.take source).length = source := by
    rw [List.length_take]
    omega
  rw [List.take_add_one, hm, visits, List.zipIdx_append, List.flatMap_append, hlen, Nat.zero_add]
  simp [visits]

/-- The search from state `source` on, with no limit on how many states it expands, stops with
this result. -/
inductive Stops (net : Net) (limit : Nat) : Nat → Search → Search → Prop
  | done {source : Nat} {s : Search} : s.states[source]? = none → Stops net limit source s s
  | expand {source : Nat} {m : Marking} {s s' : Search} : s.states[source]? = some m →
    Stops net limit (source + 1) (net.transitions.foldl (visit net limit source m) s) s' →
    Stops net limit source s s'

/-- What is known once state `source` has been expanded as well. -/
theorem Explored.expand (h : Explored net limit (visits net (s.states.toList.take source)) s)
    (hm : s.states[source]? = some m) :
    let s' := net.transitions.foldl (Search.visit net limit source m) s
    Explored net limit (visits net (s'.states.toList.take (source + 1))) s' := by
  intro s'
  have hget : s.states.toList[source]? = some m := by
    rw [Array.getElem?_toList, hm]
  have hlt : source + 1 ≤ s.states.toList.length := (List.getElem?_eq_some_iff.1 hget).1
  have hprefix : s.states.toList <+: s'.states.toList := prefix_foldl_visit _
  have htake : s'.states.toList.take (source + 1) = s.states.toList.take (source + 1) := by
    obtain ⟨more, hmore⟩ := hprefix
    rw [← hmore, List.take_append_of_le_length hlt]
  rw [htake, visits_take_succ hget]
  exact h.foldl_visit (List.mem_of_getElem? hget) fun _ ht ↦ ht

/-- A search that stops has visited every state under every transition. -/
theorem Explored.of_stops {s' : Search}
    (h : Explored net limit (visits net (s.states.toList.take source)) s)
    (hstops : Stops net limit source s s') :
    Explored net limit (visits net s'.states.toList) s' := by
  induction hstops with
  | done hnone =>
    have hle := Array.getElem?_eq_none_iff.1 hnone
    rwa [List.take_of_length_le hle] at h
  | expand hm _ ih => exact ih (h.expand hm)

/-- With as many expansions as there can be states the search stops by itself. -/
theorem stops_run {fuel : Nat}
    (h : Explored net limit (visits net (s.states.toList.take source)) s)
    (hfuel : max limit 1 ≤ source + fuel) :
    Stops net limit source s (run net limit fuel source s) := by
  induction fuel generalizing source s with
  | zero =>
    have hsize := h.size_le
    apply Stops.done
    rw [Array.getElem?_eq_none_iff]
    omega
  | succ fuel ih =>
    rw [run]
    split
    case h_1 hnone => exact .done hnone
    case h_2 m hm => exact .expand hm (ih (h.expand hm) (by omega))

end Search

end StateGraph

end PetriAlign
