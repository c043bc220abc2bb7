import Mathlib.Data.List.Nodup
import TripleQuery.Graph.Registry
import TripleQuery.Proofs.SortedMap

/-!
Registries as calls change them one after another, whether these succeed or fail. The list of
descriptors and the two indexes change together: an index has the positions of all names, or links,
and nothing else. So no name and no link is taken twice, and a lookup finds what is in the list.
A call makes all of its tests before its first change, and leaves nothing behind when it fails.
-/

namespace TripleQuery

/-! ### Indexes of a list -/

namespace SortedMap

variable {κ α : Type} [Ord κ] [DecidableEq κ]

/-- The map has the position of each of the keys, and nothing else. -/
def Indexes (m : SortedMap κ Nat) (keys : List κ) : Prop :=
  ∀ key i, m.get? key = some i ↔ keys[i]? = some key

variable {m : SortedMap κ Nat} {keys : List κ} {key : κ}

theorem indexes_empty : (∅ : SortedMap κ Nat).Indexes [] := by
  intro key i
  rw [List.getElem?_nil]
  exact iff_of_false (fun found => by cases found) (fun found => by cases found)

theorem Indexes.isSome_iff (indexes : m.Indexes keys) :
    (m.get? key).isSome = true ↔ key ∈ keys := by
  rw [Option.isSome_iff_exists, List.mem_iff_getElem?]
  exact exists_congr fun i => indexes key i

/-- A key has one position only. -/
theorem Indexes.nodup (indexes : m.Indexes keys) : keys.Nodup := by
  rw [List.nodup_iff_getElem?_ne_getElem?]
  intro i j less inside same
  obtain ⟨key, here⟩ : ∃ key, keys[j]? = some key := ⟨_, List.getElem?_eq_getElem inside⟩
  have first := (indexes key i).mpr (same.trans here)
  rw [(indexes key j).mpr here] at first
  exact Nat.ne_of_gt less (Option.some.inj first)

theorem Indexes.lt_of_mem_values [Std.TransOrd κ] (indexes : m.Indexes keys) {i : Nat}
    (member : i ∈ m.values) : i < keys.length := by
  obtain ⟨key, found⟩ := mem_values_iff.mp member
  exact (List.getElem?_eq_some_iff.mp ((indexes key i).mp found)).1

/-- A lookup by way of the index is a search of the list. -/
theorem Indexes.find? {l : List α} {f : α → κ} (indexes : m.Indexes (l.map f)) (key : κ) :
    ((m.get? key).bind fun i => l[i]?) = l.find? fun a => decide (f a = key) := by
  have at_position : ∀ a, ((m.get? key).bind fun i => l[i]?) = some a ↔ a ∈ l ∧ f a = key := by
    intro a
    simp only [Option.bind_eq_some_iff, indexes key, List.getElem?_map, Option.map_eq_some_iff]
    constructor
    · rintro ⟨i, ⟨b, there, same⟩, here⟩
      cases here.symm.trans there
      exact ⟨List.mem_of_getElem? here, same⟩
    · rintro ⟨member, same⟩
      obtain ⟨i, here⟩ := List.mem_iff_getElem?.mp member
      exact ⟨i, ⟨a, here, same⟩, here⟩
  cases found : l.find? fun a => decide (f a = key) with
  | some a =>
    have same := List.find?_some found
    exact (at_position a).mpr ⟨List.mem_of_find?_eq_some found, of_decide_eq_true same⟩
  | none =>
    refine Option.eq_none_iff_forall_ne_some.mpr fun a here => ?_
    obtain ⟨member, same⟩ := (at_position a).mp here
    exact List.find?_eq_none.mp found a member (decide_eq_true same)

/-- A key that is new is put at the end. -/
theorem Indexes.push [Std.TransOrd κ] [Std.LawfulEqOrd κ] (indexes : m.Indexes keys)
    (new : key ∉ keys) : (m.insert key keys.length).Indexes (keys ++ [key]) := by
  intro other i
  by_cases same : key = other
  · subst same
    rw [get?_insert_self, Option.some.injEq]
    constructor
    · rintro rfl
      exact List.getElem?_concat_length
    · intro here
      rcases Nat.lt_or_ge i keys.length with earlier | later
      · rw [List.getElem?_append_left earlier] at here
        exact absurd (List.mem_of_getElem? here) new
      · rw [List.getElem?_append_right later, List.getElem?_singleton] at here
        split at here
        · omega
        · cases here
  · rw [get?_insert_of_ne m same, indexes other i]
    rcases Nat.lt_or_ge i keys.length with earlier | later
    · rw [List.getElem?_append_left earlier]
    · rw [List.getElem?_append_right later, List.getElem?_eq_none later, List.getElem?_singleton]
      split
      · exact iff_of_false (fun found => by cases found) fun found => same (Option.some.inj found)
      · exact Iff.rfl

end SortedMap

namespace Registry

/-! ### Calls -/

/-- Fails if the registry, as it is by then, meets the test. -/
def refuseIf (test : Registry → Bool) (fault : Fault) : EStateM Fault Registry Unit := do
  if test (← get) then throw fault

/-- Registers a descriptor in place, in one collection after the other. -/
def enroll (d : Descriptor) : EStateM Fault Registry Unit := do
  refuseIf (fun _ => Text.isBlank d.name) .namelessProperty
  refuseIf (fun r => (r.byName.get? d.name).isSome) (.nameTaken d.name)
  refuseIf (fun r => (r.byLink.get? d.link).isSome) (.linkTaken d.link)
  let position := (← get).descriptors.length
  modify fun r => { r with byName := r.byName.insert d.name position }
  modify fun r => { r with byLink := r.byLink.insert d.link position }
  modify fun r => { r with descriptors := r.descriptors ++ [d] }

/-- What a call answers, and the registry that it leaves. -/
def attempt (r : Registry) (d : Descriptor) : Except Fault Unit × Registry :=
  match (enroll d).run r with
  | .ok _ later => (.ok (), later)
  | .error fault later => (.error fault, later)

/-- One call after another, each with its answer, and the registry that the last one leaves. -/
def attemptAll (r : Registry) : List Descriptor → List (Descriptor × Except Fault Unit) × Registry
  | [] => ([], r)
  | d :: rest =>
    let (outcome, later) := r.attempt d
    let (log, last) := later.attemptAll rest
    ((d, outcome) :: log, last)

/-- The descriptors that calls have registered. -/
def accepted (log : List (Descriptor × Except Fault Unit)) : List Descriptor :=
  log.filterMap fun (d, outcome) => outcome.toOption.map fun _ => d

/-- The descriptor has a name, and neither its name nor its link is taken. -/
def Admissible (taken : List Descriptor) (d : Descriptor) : Prop :=
  Text.isBlank d.name = false ∧ d.name ∉ taken.map Descriptor.name ∧
    d.link ∉ taken.map Descriptor.link

/-- The indexes and the list belong together, and no name is blank. -/
structure Consistent (r : Registry) : Prop where
  names : r.byName.Indexes (r.descriptors.map Descriptor.name)
  links : r.byLink.Indexes (r.descriptors.map Descriptor.link)
  named : ∀ d ∈ r.descriptors, Text.isBlank d.name = false

variable {r : Registry} {d : Descriptor}

theorem run_refuseIf (test : Registry → Bool) (fault : Fault)
    (next : EStateM Fault Registry Unit) :
    (refuseIf test fault >>= fun _ => next).run r =
      if test r then .error fault r else next.run r := by
  have tested : refuseIf test fault r = if test r then .error fault r else .ok () r := by
    show (if test r then throw fault else pure () : EStateM Fault Registry Unit) r = _
    split
    · rfl
    · rfl
  show EStateM.bind _ _ r = _
  rw [EStateM.bind, tested]
  cases test r with
  | true => rfl
  | false => rfl

/-- No change is made before the last test. -/
theorem run_enroll : (enroll d).run r =
    match r.register d with
    | .ok later => .ok () later
    | .error fault => .error fault r := by
  rw [enroll, run_refuseIf, run_refuseIf, run_refuseIf, register]
  split
  · rfl
  · split
    · rfl
    · split
      · rfl
      · rfl

theorem attempt_of_ok {later : Registry} (registered : r.register d = .ok later) :
    r.attempt d = (.ok (), later) := by
  rw [attempt, run_enroll, registered]

/-- A call that fails has changed nothing. -/
theorem attempt_of_error {fault : Fault} (refused : r.register d = .error fault) :
    r.attempt d = (.error fault, r) := by
  rw [attempt, run_enroll, refused]

/-! ### What a call does -/

section Calls

variable (consistent : r.Consistent)

include consistent

/-- No index leads past the end of the list. -/
theorem Consistent.lt_of_mem_values :
    ∀ i ∈ r.byName.values ++ r.byLink.values, i < r.descriptors.length := by
  intro i member
  rcases List.mem_append.mp member with name | link
  · exact List.length_map Descriptor.name ▸ consistent.names.lt_of_mem_values name
  · exact List.length_map Descriptor.link ▸ consistent.links.lt_of_mem_values link

/-- An admissible descriptor is added at the end; any other is a fault of configuration. -/
theorem Consistent.register_cases (d : Descriptor) :
    (Admissible r.descriptors d ∧ r.register d =
      .ok { r with
        descriptors := r.descriptors ++ [d]
        byName := r.byName.insert d.name r.descriptors.length
        byLink := r.byLink.insert d.link r.descriptors.length }) ∨
    (¬ Admissible r.descriptors d ∧
      ∃ fault, fault.category = .configuration ∧ r.register d = .error fault) := by
  rw [register]
  cases blank : Text.isBlank d.name with
  | true =>
    refine .inr ⟨fun admissible => ?_, _, rfl, rfl⟩
    cases blank.symm.trans admissible.1
  | false =>
    cases name : (r.byName.get? d.name).isSome with
    | true =>
      exact .inr
        ⟨fun admissible => admissible.2.1 (consistent.names.isSome_iff.mp name), _, rfl, rfl⟩
    | false =>
      cases link : (r.byLink.get? d.link).isSome with
      | true =>
        exact .inr
          ⟨fun admissible => admissible.2.2 (consistent.links.isSome_iff.mp link), _, rfl, rfl⟩
      | false =>
        refine .inl ⟨⟨blank, fun taken => ?_, fun taken => ?_⟩, rfl⟩
        · rw [consistent.names.isSome_iff.mpr taken] at name
          cases name
        · rw [consistent.links.isSome_iff.mpr taken] at link
          cases link

theorem Consistent.register_ok_iff (d : Descriptor) :
    (∃ later, r.register d = .ok later) ↔ Admissible r.descriptors d := by
  rcases consistent.register_cases d with ⟨admissible, added⟩ | ⟨not_admissible, _, _, refused⟩
  · exact iff_of_true ⟨_, added⟩ admissible
  · refine iff_of_false ?_ not_admissible
    rintro ⟨later, ended⟩
    cases ended.symm.trans refused

theorem Consistent.category_of_error {fault : Fault} (failed : r.register d = .error fault) :
    fault.category = .configuration := by
  rcases consistent.register_cases d with ⟨_, added⟩ | ⟨_, _, kind, refused⟩
  · cases failed.symm.trans added
  · cases failed.symm.trans refused
    exact kind

theorem Consistent.register {later : Registry} (registered : r.register d = .ok later) :
    later.Consistent := by
  rcases consistent.register_cases d with ⟨⟨named, name, link⟩, added⟩ | ⟨_, _, _, refused⟩
  · cases registered.symm.trans added
    have names := consistent.names.push name
    have links := consistent.links.push link
    rw [List.length_map] at names links
    refine ⟨?_, ?_, fun other member => ?_⟩
    · rw [List.map_append]
      exact names
    · rw [List.map_append]
      exact links
    · rcases List.mem_append.mp member with old | new
      · exact consistent.named other old
      · exact List.mem_singleton.mp new ▸ named
  · cases registered.symm.trans refused

theorem Consistent.attempt (d : Descriptor) : (r.attempt d).2.Consistent := by
  cases called : r.register d with
  | ok later => exact attempt_of_ok called ▸ consistent.register called
  | error fault => exact attempt_of_error called ▸ consistent

/-! ### What any calls lead to -/

omit consistent in
theorem attemptAll_cons (d : Descriptor) (rest : List Descriptor) : r.attemptAll (d :: rest) =
    ((d, (r.attempt d).1) :: ((r.attempt d).2.attemptAll rest).1,
      ((r.attempt d).2.attemptAll rest).2) := rfl

theorem Consistent.attemptAll (calls : List Descriptor) : (r.attemptAll calls).2.Consistent := by
  induction calls generalizing r with
  | nil => exact consistent
  | cons d rest ih => exact ih (consistent.attempt d)

theorem Consistent.descriptors_attemptAll (calls : List Descriptor) :
    (r.attemptAll calls).2.descriptors = r.descriptors ++ accepted (r.attemptAll calls).1 := by
  induction calls generalizing r with
  | nil => exact (List.append_nil _).symm
  | cons d rest ih =>
    have later := ih (consistent.attempt d)
    rw [attemptAll_cons]
    rcases consistent.register_cases d with ⟨_, added⟩ | ⟨_, _, _, refused⟩
    · rw [attempt_of_ok added] at later ⊢
      exact later.trans (List.append_assoc _ _ _)
    · rw [attempt_of_error refused] at later ⊢
      exact later

end Calls

theorem map_fst_attemptAll (calls : List Descriptor) :
    (r.attemptAll calls).1.map Prod.fst = calls := by
  induction calls generalizing r with
  | nil => rfl
  | cons d rest ih => exact congrArg (d :: ·) ih

theorem consistent_empty (target : Option Term) : ({ empty with target } : Registry).Consistent :=
  ⟨SortedMap.indexes_empty, SortedMap.indexes_empty, fun _ member => absurd member List.not_mem_nil⟩

/-- Whatever calls were made, in whatever order, the list holds what was accepted, no name and no
link of it twice and no name blank, and a lookup is a search of the list, as no index leads past
its end. A further call succeeds just for an admissible descriptor, and otherwise leaves the
registry as it was. -/
theorem lookup_after (target : Option Term) (calls : List Descriptor) :
    let log := (({ empty with target } : Registry).attemptAll calls).1
    let r := (({ empty with target } : Registry).attemptAll calls).2
    (log.map Prod.fst = calls ∧ r.descriptors = accepted log) ∧
    (r.descriptors.map Descriptor.name).Nodup ∧ (r.descriptors.map Descriptor.link).Nodup ∧
    (∀ d ∈ r.descriptors, Text.isBlank d.name = false) ∧
    (∀ name, r.findName? name = r.descriptors.find? fun d => decide (d.name = name)) ∧
    (∀ link, r.findLink? link = r.descriptors.find? fun d => decide (d.link = link)) ∧
    (∀ i ∈ r.byName.values ++ r.byLink.values, i < r.descriptors.length) ∧
    ∀ d, ((∃ later, r.register d = .ok later) ↔ Admissible r.descriptors d) ∧
      (∀ later, r.register d = .ok later → r.attempt d = (.ok (), later)) ∧
      ∀ fault, r.register d = .error fault →
        fault.category = .configuration ∧ r.attempt d = (.error fault, r) := by
  intro log r
  have start := consistent_empty target
  have consistent : r.Consistent := start.attemptAll calls
  refine ⟨⟨map_fst_attemptAll calls, start.descriptors_attemptAll calls⟩, consistent.names.nodup,
    consistent.links.nodup, consistent.named, consistent.names.find?, consistent.links.find?,
    consistent.lt_of_mem_values, fun d => ⟨consistent.register_ok_iff d, ?_, ?_⟩⟩
  · intro later registered
    exact attempt_of_ok registered
  · intro fault refused
    exact ⟨consistent.category_of_error refused, attempt_of_error refused⟩

end Registry

end TripleQuery
