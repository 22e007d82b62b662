import PetriAlign.Json.Records
import PetriAlign.Proofs.Json.Printed
import PetriAlign.Proofs.Net.Counts

/-!
# Nets written as JSON

A net is read back from its JSON text, whatever its texts and counts are, and whatever the order in
which its invisible transitions are written. Without them the text is that of a net that has none.
-/

namespace PetriAlign

namespace Json

variable {α : Type} {read : Json → Option α} {toJson : α → Json}

/-! ## Values that are written -/

theorem isWritten_ofCount (n : UInt64) : IsWritten (.ofCount n) := .ofNat n.toNat

theorem isWritten_option (h : ∀ x, IsWritten (toJson x)) (x : Option α) :
    IsWritten (.option toJson x) := by
  cases x with
  | none => exact .null
  | some x => exact h x

theorem isWritten_list (h : ∀ x, IsWritten (toJson x)) (xs : List α) :
    IsWritten (.list toJson xs) := by
  apply IsWritten.array
  intro j hj
  obtain ⟨x, -, rfl⟩ := List.mem_map.1 hj
  exact h x

theorem isWritten_pair {first second : Json} (h : IsWritten first) (h' : IsWritten second) :
    IsWritten (.pair first second) :=
  .array (List.forall_mem_cons.2 ⟨h, List.forall_mem_singleton.2 h'⟩)

theorem isWritten_record {members : List (String × Json)} (h : ∀ m ∈ members, IsWritten m.2) :
    IsWritten (.record members) := by
  apply IsWritten.object
  · intro m hm
    obtain ⟨m, -, rfl⟩ := List.mem_map.1 hm
    exact ⟨m.1, rfl⟩
  · intro m hm
    obtain ⟨m, hmem, rfl⟩ := List.mem_map.1 hm
    exact h m hmem

/-! ## Values that are read -/

theorem mapM_eq_some {β : Type} {f : α → Option β} {g : α → β} {xs : List α}
    (h : ∀ x ∈ xs, f x = some (g x)) : xs.mapM f = some (xs.map g) := by
  induction xs with
  | nil => rfl
  | cons x xs ih =>
    rw [List.forall_mem_cons] at h
    rw [List.mapM_cons, h.1, ih h.2]
    rfl

theorem list?_list (h : ∀ x, read (toJson x) = some x) (xs : List α) :
    (list toJson xs).list? read = some xs := by
  rw [list, list?, List.mapM_map, mapM_eq_some (f := read ∘ toJson) (g := id) fun x _ ↦ h x,
    List.map_id]

theorem tag?_ofText (s : String) : (ofText s).tag? = some s := text?_ofText s

/-- Where no key is repeated, the member with a key is found by looking it up. -/
theorem member?_of_nodup {members : List (String × Json)} (h : (members.map (·.1)).Nodup)
    (name : String) : member? members name = some (Table.lookup name members) := by
  induction members with
  | nil => rfl
  | cons m members ih =>
    obtain ⟨hm, hmembers⟩ := List.nodup_cons.1 h
    rw [Table.lookup, member?]
    by_cases hname : m.1 = name
    · have hnone : members.filter (·.1 = name) = [] := by
        rw [List.filter_eq_nil_iff]
        intro m' hm' heq
        rw [decide_eq_true_iff, ← hname] at heq
        exact hm (List.mem_map.2 ⟨m', hm', heq⟩)
      rw [List.filter_cons_of_pos (by simpa using hname), hnone, if_pos hname]
    · rw [List.filter_cons_of_neg (by simpa using hname), if_neg hname]
      exact ih hmembers

/-- Where the keys are the names in order, but for some missing ones at their end, the fields are
the members in order. -/
theorem fields?_record {members : List (String × Json)} {names : List String}
    (missing : List String) (hnames : names = members.map (·.1) ++ missing) (h : names.Nodup) :
    (record members).fields? names =
      some ⟨false, members.map (fun m ↦ some m.2) ++ missing.map fun _ ↦ none⟩ := by
  rw [hnames, List.nodup_append] at h
  obtain ⟨hkeys, -, hmissing⟩ := h
  have hread : (members.map fun m ↦ (escape m.1, m.2)).mapM
      (fun m ↦ (unescape? m.1).map fun key ↦ (key, m.2)) = some members := by
    rw [List.mapM_map, mapM_eq_some (g := id), List.map_id]
    intro m _
    rw [Function.comp_apply, unescape?_escape]
    rfl
  have hfound : ∀ m ∈ members, Table.lookup m.1 members = some m.2 := by
    intro m hm
    exact (Table.lookup_eq_some_iff hkeys).2 hm
  have hnone : ∀ name ∈ missing, Table.lookup name members = none := by
    intro name hname
    exact Table.lookup_eq_none_iff.2 fun hmem ↦ hmissing name hmem name hname rfl
  rw [record, fields?, hread]
  change (names.mapM (member? members) >>= _) = _
  rw [mapM_eq_some fun name _ ↦ member?_of_nodup hkeys name, hnames, List.map_append, List.map_map,
    List.map_congr_left hnone, List.map_congr_left (f := _ ∘ _) hfound]
  rfl

end Json

open Json

/-! ## Records of a net -/

theorem PlaceKind.ofJson?_toJson (kind : PlaceKind) : ofJson? kind.toJson = some kind := by
  rw [ofJson?, toJson, tag?_ofText, Option.bind_some, ofTag?_tag]

theorem TransitionKind.ofJson?_toJson (kind : TransitionKind) :
    ofJson? kind.toJson = some kind := by
  rw [ofJson?, toJson, tag?_ofText, Option.bind_some, ofTag?_tag]

theorem readCountJson?_countJson (pair : String × UInt64) :
    readCountJson? (countJson pair) = some pair := by
  rw [readCountJson?, countJson, Json.pair, pair?, text?_ofText, count?_ofCount]
  rfl

theorem option?_count (n : Option UInt64) : (option ofCount n).option? count? = some n := by
  cases n with
  | none => rfl
  | some n =>
    change (ofCount n).count?.map some = _
    rw [count?_ofCount]
    rfl

theorem Place.ofJson?_toJson (p : Place) : ofJson? p.toJson = some p := by
  refine Option.bind_eq_some_iff.2 ⟨_, fields?_record [] rfl (by decide), ?_⟩
  refine Option.bind_eq_some_iff.2 ⟨p.id, text?_ofText p.id, ?_⟩
  refine Option.bind_eq_some_iff.2 ⟨p.name, text?_ofText p.name, ?_⟩
  refine Option.bind_eq_some_iff.2 ⟨p.initial, count?_ofCount p.initial, ?_⟩
  refine Option.bind_eq_some_iff.2 ⟨p.final, option?_count p.final, ?_⟩
  exact Option.bind_eq_some_iff.2 ⟨p.kind, p.kind.ofJson?_toJson, rfl⟩

theorem Transition.ofJson?_toJson (t : Transition) : ofJson? t.toJson = some t := by
  refine Option.bind_eq_some_iff.2 ⟨_, fields?_record [] rfl (by decide), ?_⟩
  refine Option.bind_eq_some_iff.2 ⟨t.id, text?_ofText t.id, ?_⟩
  refine Option.bind_eq_some_iff.2 ⟨t.name, text?_ofText t.name, ?_⟩
  refine Option.bind_eq_some_iff.2 ⟨t.label, text?_ofText t.label, ?_⟩
  exact Option.bind_eq_some_iff.2 ⟨t.kind, t.kind.ofJson?_toJson, rfl⟩

theorem Arc.ofJson?_toJson (a : Arc) : ofJson? a.toJson = some a := by
  refine Option.bind_eq_some_iff.2 ⟨_, fields?_record [] rfl (by decide), ?_⟩
  refine Option.bind_eq_some_iff.2 ⟨a.id, text?_ofText a.id, ?_⟩
  refine Option.bind_eq_some_iff.2 ⟨a.source, text?_ofText a.source, ?_⟩
  exact Option.bind_eq_some_iff.2 ⟨a.target, text?_ofText a.target, rfl⟩

theorem isWritten_countJson (pair : String × UInt64) : IsWritten (countJson pair) :=
  isWritten_pair (.ofText pair.1) (isWritten_ofCount pair.2)

theorem Place.isWritten_toJson (p : Place) : IsWritten p.toJson := by
  apply isWritten_record
  simp only [List.forall_mem_cons]
  exact ⟨.ofText _, .ofText _, isWritten_ofCount _, isWritten_option isWritten_ofCount _,
    .ofText _, nofun⟩

theorem Transition.isWritten_toJson (t : Transition) : IsWritten t.toJson := by
  apply isWritten_record
  simp only [List.forall_mem_cons]
  exact ⟨.ofText _, .ofText _, .ofText _, .ofText _, nofun⟩

theorem Arc.isWritten_toJson (a : Arc) : IsWritten a.toJson := by
  apply isWritten_record
  simp only [List.forall_mem_cons]
  exact ⟨.ofText _, .ofText _, .ofText _, nofun⟩

/-! ## Sets of ids -/

namespace IdSet

theorem lookup_eq_ite (id : String) (entries : List (String × Unit)) :
    Table.lookup id entries = if id ∈ entries.map (·.1) then some () else none := by
  split
  case isTrue hmem =>
    cases hlookup : Table.lookup id entries with
    | none => exact absurd hmem (Table.lookup_eq_none_iff.1 hlookup)
    | some => rfl
  case isFalse hmem => exact Table.lookup_eq_none_iff.2 hmem

/-- A set is filled from its ids in any order. -/
theorem ofIds_of_perm {ids : List String} {s : IdSet} (h : ids.Perm s.keys) : ofIds ids = s := by
  apply Table.ext_get?
  intro id
  have hmem : id ∈ ((ids.map fun id ↦ (id, ())).reverse.map (·.1)) ↔ id ∈ s.entries.map (·.1) := by
    rw [List.map_reverse, List.mem_reverse, List.map_map]
    exact (List.map_id ids).symm ▸ h.mem_iff
  rw [ofIds, Table.get?_ofList, Table.get?, lookup_eq_ite, lookup_eq_ite]
  simp only [hmem]

end IdSet

/-! ## Nets -/

namespace Net

/-- A net as JSON, with its invisible transitions in the order of a list. -/
def toJsonWith (net : Net) (ids : List String) : Json :=
  .record (net.members ++ [("invisible_transitions", .list .ofText ids)])

/-- A net is read from its fields, of which the last may be missing. -/
theorem ofJson?_of_fields {net : Net} {j : Json} (last : Option Json) (ids : List String)
    (hj : j.fields? fieldNames = some ⟨false, net.members.map (fun m ↦ some m.2) ++ [last]⟩)
    (hlast : last.elim (some []) (list? text?) = some ids) :
    ofJson? j = some { net with invisible := .ofIds ids } := by
  refine Option.bind_eq_some_iff.2 ⟨_, hj, ?_⟩
  refine Option.bind_eq_some_iff.2 ⟨net.id, text?_ofText net.id, ?_⟩
  refine Option.bind_eq_some_iff.2 ⟨net.name, text?_ofText net.name, ?_⟩
  refine Option.bind_eq_some_iff.2 ⟨net.places, list?_list Place.ofJson?_toJson net.places, ?_⟩
  refine Option.bind_eq_some_iff.2
    ⟨net.transitions, list?_list Transition.ofJson?_toJson net.transitions, ?_⟩
  refine Option.bind_eq_some_iff.2 ⟨net.arcs, list?_list Arc.ofJson?_toJson net.arcs, ?_⟩
  refine Option.bind_eq_some_iff.2 ⟨net.final, list?_list readCountJson?_countJson net.final, ?_⟩
  refine Option.bind_eq_some_iff.2 ⟨ids, ?_, rfl⟩
  rw [← hlast]
  cases last <;> rfl

theorem ofJson?_toJsonWith (net : Net) (ids : List String) :
    ofJson? (net.toJsonWith ids) = some { net with invisible := .ofIds ids } :=
  ofJson?_of_fields (some (.list .ofText ids)) ids (fields?_record [] rfl (by decide))
    (list?_list text?_ofText ids)

theorem ofJson?_members (net : Net) :
    ofJson? (.record net.members) = some { net with invisible := ∅ } :=
  ofJson?_of_fields none [] (fields?_record ["invisible_transitions"] rfl (by decide)) rfl

theorem isWritten_members (net : Net) : ∀ m ∈ net.members, IsWritten m.2 := by
  simp only [members, List.forall_mem_cons]
  exact ⟨.ofText _, .ofText _, isWritten_list Place.isWritten_toJson _,
    isWritten_list Transition.isWritten_toJson _, isWritten_list Arc.isWritten_toJson _,
    isWritten_list isWritten_countJson _, nofun⟩

/-- A net is read back from its text, whatever the order in which its invisible transitions are
written; without them the text is read as a net that has none. -/
theorem read_toJson (net : Net) :
    Json.read ofJson? (.ofText net.toJson.text) = .ok net ∧
      (∀ ids : List String, ids.Perm net.invisible.keys →
        Json.read ofJson? (.ofText (net.toJsonWith ids).text) = .ok net) ∧
      Json.read ofJson? (.ofText (Json.record net.members).text) =
        .ok { net with invisible := ∅ } := by
  have hwith (ids : List String) (h : ids.Perm net.invisible.keys) :
      Json.read ofJson? (.ofText (net.toJsonWith ids).text) = .ok net := by
    apply read_text
    · apply isWritten_record
      rw [List.forall_mem_append]
      exact ⟨net.isWritten_members, List.forall_mem_singleton.2 (isWritten_list .ofText ids)⟩
    · rw [ofJson?_toJsonWith, IdSet.ofIds_of_perm h]
  refine ⟨hwith _ (.refl _), hwith, ?_⟩
  exact read_text (isWritten_record net.isWritten_members) net.ofJson?_members

/-- A net with repeated ids, the largest count, and texts that cannot be written as they are. -/
def awkward : Net where
  name := "a \x22net\x22\n"
  places := [⟨"p", "\\", 18446744073709551615, none, .model⟩,
    ⟨"p", "\x01", 9007199254740993, some 18446744073709551615, .log⟩]
  transitions := [⟨"t", "τ", "t", .tau⟩, ⟨"t", "MODEL", "", .model⟩, ⟨"u", "LOG", "😀", .log⟩,
    ⟨"v", "SYNC", "\t/", .sync⟩]
  arcs := [⟨"a", "p", "t"⟩, ⟨"a", "nowhere", ""⟩]
  final := [("p", 0), ("p", 18446744073709551615)]
  invisible := .ofIds ["t", "u", "x\x22"]

theorem read_toJson_awkward :
    ["x\x22", "t", "u"].Perm awkward.invisible.keys ∧
      Json.read ofJson? (.ofText (awkward.toJsonWith ["x\x22", "t", "u"]).text) = .ok awkward ∧
      Json.read ofJson? (.ofText (Json.record awkward.members).text) =
        .ok { awkward with invisible := ∅ } := by
  have hperm : ["x\x22", "t", "u"].Perm awkward.invisible.keys := by decide
  obtain ⟨-, horder, hnone⟩ := read_toJson awkward
  exact ⟨hperm, horder _ hperm, hnone⟩

end Net

end PetriAlign
