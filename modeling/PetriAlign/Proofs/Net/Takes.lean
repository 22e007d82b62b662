import Mathlib.Algebra.Group.Nat.Defs
import PetriAlign.Net.Classify
import PetriAlign.Proofs.Net.Counts

/-!
# Firing with one token for each arc

The strict firing rule as arithmetic on counts: a transition needs a token for each arc from a
place, and leaves a token for each arc to it. A run chains such firings.
-/

namespace PetriAlign

namespace Net

variable (net : Net)

/-- The number of arcs from one node to another. -/
def arcCount (source target : String) : Nat :=
  net.arcs.countP fun a ↦ a.source = source && a.target = target

/-- Every arc joins a declared place and a declared transition, and no two places and no place and
transition share an id. -/
structure WellJoined : Prop where
  places_nodup : net.placeIds.Nodup
  apart : ∀ id ∈ net.placeIds, id ∉ net.transitionIds
  joined : ∀ a ∈ net.arcs, (a.source ∈ net.placeIds ∧ a.target ∈ net.transitionIds) ∨
    (a.source ∈ net.transitionIds ∧ a.target ∈ net.placeIds)

/-- Firing `t` with one token for each arc turns the counts of `m` into those of `m'`. -/
def Takes (t : Transition) (m m' : Marking) : Prop :=
  ∀ p ∈ net.placeIds,
    net.arcCount p t.id ≤ (m.count p).toNat ∧
    (m.count p).toNat - net.arcCount p t.id + net.arcCount t.id p < 2 ^ 64 ∧
    (m'.count p).toNat = (m.count p).toNat - net.arcCount p t.id + net.arcCount t.id p

instance (t : Transition) (m m' : Marking) : Decidable (net.Takes t m m') :=
  inferInstanceAs (Decidable (∀ p ∈ net.placeIds, _))

/-- The markings have the same counts on the places of the net. -/
def Agree (m m' : Marking) : Prop := ∀ p ∈ net.placeIds, m.count p = m'.count p

/-- The part of a marking on the places of the net, without empty entries. -/
def part (m : Marking) : Marking :=
  .ofList ((net.placeIds.map fun p ↦ (p, m.count p)).filter (0 < ·.2))

/-- The transition that explains a change: the first one of its kind that takes one marking to the
other. -/
def explainer? (kind : TransitionKind) (m m' : Marking) : Option Transition :=
  net.transitions.find? fun t ↦ t.kind = kind ∧ net.Takes t m m'

/-- Both transitions change each count by the same amount. -/
def SameEffect (t u : Transition) : Prop :=
  ∀ p ∈ net.placeIds,
    net.arcCount t.id p + net.arcCount p u.id = net.arcCount u.id p + net.arcCount p t.id

instance (t u : Transition) : Decidable (net.SameEffect t u) :=
  inferInstanceAs (Decidable (∀ p ∈ net.placeIds, _))

/-- A run with the marking after each firing. -/
inductive Run : Marking → List (Transition × Marking) → Marking → Prop
  | nil (m : Marking) : Run m [] m
  | cons {t : Transition} {m m' m'' : Marking} {rest : List (Transition × Marking)} :
    t ∈ net.transitions → net.Takes t m m' → Run m' rest m'' → Run m ((t, m') :: rest) m''

variable {net}

theorem count_preset (p id : String) : (net.preset id).count p = net.arcCount p id := by
  rw [preset, arcCount, List.count, List.countP_map, List.countP_filter]
  rfl

theorem count_postset (id p : String) : (net.postset id).count p = net.arcCount id p := by
  rw [postset, arcCount, List.count, List.countP_map, List.countP_filter]
  congr 1
  funext a
  simp [beq_eq_decide, Bool.and_comm]

theorem takes_congr {t : Transition} {m m' n n' : Marking} (h : net.Agree m n)
    (h' : net.Agree m' n') : net.Takes t m m' ↔ net.Takes t n n' := by
  apply forall₂_congr
  intro p hp
  rw [h p hp, h' p hp]

theorem count_part (hnet : net.placeIds.Nodup) {p : String} (hp : p ∈ net.placeIds)
    (m : Marking) : (net.part m).count p = m.count p := by
  have hkeys : ((net.placeIds.map fun p ↦ (p, m.count p)).map (·.1)).Nodup := by
    rw [List.map_map]
    exact hnet.map fun _ _ heq ↦ heq
  have hnodup : (((net.placeIds.map fun p ↦ (p, m.count p)).filter (0 < ·.2)).map (·.1)).Nodup :=
    hkeys.sublist (List.filter_sublist.map _)
  unfold part
  rw [Marking.count, Table.get?_ofList, Table.lookup_reverse hnodup]
  by_cases hzero : m.count p = 0
  · rw [Table.lookup_eq_none_iff.2]
    · exact hzero.symm
    · intro hmem
      obtain ⟨e, he, rfl⟩ := List.mem_map.1 hmem
      obtain ⟨hmem, hpos⟩ := List.mem_filter.1 he
      obtain ⟨q, -, rfl⟩ := List.mem_map.1 hmem
      rw [decide_eq_true_iff, hzero] at hpos
      exact absurd hpos (UInt64.lt_irrefl 0)
  · have hlookup : Table.lookup p ((net.placeIds.map fun p ↦ (p, m.count p)).filter (0 < ·.2)) =
        some (m.count p) := by
      rw [Table.lookup_eq_some_iff hnodup, List.mem_filter, decide_eq_true_iff]
      exact ⟨List.mem_map_of_mem hp, UInt64.pos_iff_ne_zero.2 hzero⟩
    rw [hlookup]
    rfl

theorem agree_part (hnet : net.placeIds.Nodup) (m : Marking) : net.Agree (net.part m) m :=
  fun _ hp ↦ count_part hnet hp m

theorem part_congr {m m' : Marking} (h : net.Agree m m') : net.part m = net.part m' := by
  unfold part
  rw [List.map_congr_left fun p hp ↦ congrArg (Prod.mk p) (h p hp)]

theorem sameEffect_of_takes {t u : Transition} {m m' : Marking} (ht : net.Takes t m m')
    (hu : net.Takes u m m') : net.SameEffect t u := by
  intro p hp
  obtain ⟨htin, -, htout⟩ := ht p hp
  obtain ⟨huin, -, huout⟩ := hu p hp
  omega

/-- Each firing of a run starts from the marking after the firing before it. -/
theorem Run.takes {m m' : Marking} {run : List (Transition × Marking)} (h : net.Run m run m')
    {s : Nat} {t : Transition} {after : Marking} (hs : run[s]? = some (t, after)) :
    t ∈ net.transitions ∧
      ∃ before, (m :: run.map (·.2))[s]? = some before ∧ net.Takes t before after := by
  induction h generalizing s with
  | nil m => simp at hs
  | cons hmem htakes hrest ih =>
    cases s with
    | zero =>
      rw [List.getElem?_cons_zero, Option.some_inj, Prod.mk.injEq] at hs
      obtain ⟨rfl, rfl⟩ := hs
      exact ⟨hmem, _, rfl, htakes⟩
    | succ s =>
      rw [List.getElem?_cons_succ] at hs
      exact ih hs

end Net

/-- A model that checks silently and then pays. -/
def payment : Net where
  places := [⟨"start", "start", 1, none, .model⟩, ⟨"ready", "ready", 0, none, .model⟩,
    ⟨"end", "end", 0, some 1, .model⟩]
  transitions := [⟨"check", silentName, "tau check", .tau⟩, ⟨"t1", "pay", "pay", .model⟩]
  arcs := [⟨"a1", "start", "check"⟩, ⟨"a2", "check", "ready"⟩, ⟨"a3", "ready", "t1"⟩,
    ⟨"a4", "t1", "end"⟩]
  final := [("end", 1)]

theorem payment_wellJoined : payment.WellJoined where
  places_nodup := by decide
  apart := by decide
  joined := by decide

end PetriAlign
