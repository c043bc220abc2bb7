import TripleQuery.Ownership.Statements
import TripleQuery.Proofs.Graph.Traversal
import TripleQuery.Proofs.Graph.Linked
import TripleQuery.Proofs.Source.Answers

/-!
The statements below a node and at a node, as sets. In a graph they are what edges between known
nodes state; in a source they are the statements held whose subject the walk comes upon.
-/

namespace TripleQuery

/-! ### Statements of a graph -/

namespace Graph

/-- What an edge states of one of its values, if both of its ends are known. -/
structure States (g : Graph) (e : EdgeId) (value : NodeId) (t : Triple) : Prop where
  mem_values : value ∈ g.values e
  subject : g.identifier? (g.owner e) = some t.subject
  predicate : g.link e = t.predicate
  object : g.identifier? value = some t.object

variable {g : Graph} (linked : g.Linked)

include linked

theorem mem_ownSteps {n value : NodeId} {t : Triple} :
    (t, value) ∈ g.ownSteps n ↔ ∃ e, g.owner e = n ∧ g.States e value t := by
  unfold ownSteps
  split
  · rename_i unknown
    refine iff_of_false List.not_mem_nil fun found => ?_
    obtain ⟨e, rfl, states⟩ := found
    cases unknown.symm.trans states.subject
  · rename_i subject known
    simp only [List.mem_flatMap, List.mem_filterMap, Option.map_eq_some_iff]
    constructor
    · intro found
      obtain ⟨e, property, v, member, object, named, pair⟩ := found
      cases pair
      obtain ⟨_, owner⟩ := (linked.mem_properties n e).mp property
      exact ⟨e, owner, member, owner ▸ known, rfl, named⟩
    · intro found
      obtain ⟨e, rfl, states⟩ := found
      have property := (linked.mem_properties _ e).mpr ⟨lt_of_mem_values states.mem_values, rfl⟩
      refine ⟨e, property, value, states.mem_values, t.object, states.object, ?_⟩
      rw [states.predicate, Option.some.inj (known.symm.trans states.subject)]

theorem mem_ownStatements {n : NodeId} {t : Triple} :
    t ∈ (g.ownSteps n).map Prod.fst ↔ ∃ e value, g.owner e = n ∧ g.States e value t := by
  constructor
  · intro found
    obtain ⟨⟨_, value⟩, step, rfl⟩ := List.mem_map.mp found
    obtain ⟨e, owner, states⟩ := (mem_ownSteps linked).mp step
    exact ⟨e, value, owner, states⟩
  · intro found
    obtain ⟨e, value, owner, states⟩ := found
    exact List.mem_map.mpr ⟨(t, value), (mem_ownSteps linked).mpr ⟨e, owner, states⟩, rfl⟩

omit linked in
/-- What an edge states of a value that stands for a term. -/
def toward (g : Graph) (object : Term) (e : EdgeId) : Option Triple :=
  (g.identifier? (g.owner e)).map fun subject => ⟨subject, g.link e, object⟩

section Values

omit linked

variable {value : NodeId} {object : Term} (known : g.identifier? value = some object)

include known

theorem toward_eq_some_iff {e : EdgeId} (member : value ∈ g.values e) {t : Triple} :
    g.toward object e = some t ↔ g.States e value t := by
  rw [toward, Option.map_eq_some_iff]
  constructor
  · rintro ⟨subject, named, rfl⟩
    exact ⟨member, named, rfl, known⟩
  · intro states
    refine ⟨t.subject, states.subject, ?_⟩
    rw [states.predicate, Option.some.inj (known.symm.trans states.object)]

variable {edges : List EdgeId} (values : ∀ e ∈ edges, value ∈ g.values e)

include values

theorem mem_filterMap_toward {t : Triple} :
    t ∈ edges.filterMap (g.toward object) ↔ ∃ e ∈ edges, g.States e value t := by
  rw [List.mem_filterMap]
  exact exists_congr fun e => and_congr_right fun member =>
    toward_eq_some_iff known (values e member)

omit values in
theorem mem_ownerTriples (linked : g.Linked) {t : Triple} :
    t ∈ g.ownerTriples value object ↔ ∃ e, g.States e value t := by
  have values : ∀ e ∈ g.owners value, value ∈ g.values e := fun e => (linked.mem_owners value e).mp
  refine (mem_filterMap_toward known values).trans (exists_congr fun e => ?_)
  exact and_iff_right_of_imp fun states => (linked.mem_owners value e).mpr states.mem_values

/-- Edges that state different things of a value make up as many statements. -/
theorem nodup_filterMap_toward (once : edges.Nodup)
    (apart : ∀ e ∈ edges, ∀ f ∈ edges, ∀ t, g.States e value t → g.States f value t → e = f) :
    (edges.filterMap (g.toward object)).Nodup := by
  refine List.pairwise_filterMap.mpr (once.imp_of_mem fun {e f} here there different => ?_)
  rintro t stated _ also rfl
  exact different (apart e here f there t ((toward_eq_some_iff known (values e here)).mp stated)
    ((toward_eq_some_iff known (values f there)).mp also))

omit known values in
theorem length_filterMap_toward (owned : ∀ e ∈ edges, g.isDefined (g.owner e) = true) :
    (edges.filterMap (g.toward object)).length = edges.length := by
  rw [List.length_filterMap_eq_countP, List.countP_eq_length]
  intro e member
  rw [toward, Option.isSome_map]
  exact owned e member

end Values

/-! ### Below a node -/

omit linked in
/-- Zero or more edges between known nodes. -/
def KnownBelow (g : Graph) : NodeId → NodeId → Prop :=
  Traversal.Leads fun n => (g.ownSteps n).map Prod.snd

theorem mem_ownValues {n value : NodeId} :
    value ∈ (g.ownSteps n).map Prod.snd ↔ ∃ e t, g.owner e = n ∧ g.States e value t := by
  constructor
  · intro found
    obtain ⟨⟨t, _⟩, step, rfl⟩ := List.mem_map.mp found
    obtain ⟨e, owner, states⟩ := (mem_ownSteps linked).mp step
    exact ⟨e, t, owner, states⟩
  · intro found
    obtain ⟨e, t, owner, states⟩ := found
    exact List.mem_map.mpr ⟨(t, value), (mem_ownSteps linked).mpr ⟨e, owner, states⟩, rfl⟩

theorem mem_nodeIds_of_ownValues : ∀ a ∈ g.nodeIds, ∀ b ∈ (g.ownSteps a).map Prod.snd,
    b ∈ g.nodeIds := by
  intro a _ b step
  obtain ⟨e, _, _, states⟩ := (mem_ownValues linked).mp step
  exact List.mem_range.mpr (linked.value_lt e b states.mem_values)

theorem mem_descendantTrail {start : NodeId} (inside : start < g.nodes.length) {t : Triple} :
    t ∈ g.descendantTrail start true ↔
      ∃ e value, g.KnownBelow start (g.owner e) ∧ g.States e value t := by
  rw [descendantTrail, if_pos rfl, Traversal.trailFrom_perm.mem_iff, List.mem_flatMap]
  simp only [Traversal.mem_order_iff (mem_nodeIds_of_ownValues linked), mem_ownStatements linked]
  constructor
  · intro found
    obtain ⟨_, ⟨_, below⟩, e, value, rfl, states⟩ := found
    exact ⟨e, value, below, states⟩
  · intro found
    obtain ⟨e, value, below, states⟩ := found
    exact ⟨g.owner e, ⟨List.mem_range.mpr inside, below⟩, e, value, rfl, states⟩

end Graph

/-! ### Statements of a source -/

namespace Source

@[simp] theorem accepts_about {subject : Term} {t : Triple} :
    (about subject).accepts t = true ↔ t.subject = subject := by
  simp [about, Pattern.accepts, Slot.accepts, eq_comm]

@[simp] theorem accepts_leadingTo {object : Term} {t : Triple} :
    (leadingTo object).accepts t = true ↔ t.object = object := by
  simp [leadingTo, Pattern.accepts, Slot.accepts, eq_comm]

/-- A statement held leads on to its object, unless that is a literal. -/
def LeadsOn (held : SortedSet Triple) (x y : Term) : Prop :=
  y.isLiteral = false ∧ ∃ row ∈ held, row.subject = x ∧ row.object = y

/-- Zero or more statements, none of which leads to a term that was `seen`. -/
def TermsPast (held : SortedSet Triple) (seen : SortedSet Term) : Term → Term → Prop :=
  Relation.ReflTransGen fun x y => LeadsOn held x y ∧ y ∉ seen

def TermsBelow (held : SortedSet Triple) : Term → Term → Prop :=
  Relation.ReflTransGen (LeadsOn held)

variable {s : Source} {held : SortedSet Triple}

theorem termsPast_empty {x y : Term} : TermsPast held ∅ x y ↔ TermsBelow held x y := by
  have same : (fun x y => LeadsOn held x y ∧ y ∉ (∅ : SortedSet Term)) = LeadsOn held := by
    funext x y
    exact propext (and_iff_left (SortedSet.not_mem_empty y))
  rw [TermsPast, same]
  rfl

theorem mem_onward {rows : SortedSet Triple} {seen : SortedSet Term} {subject t : Term}
    (exactly : ∀ row, row ∈ rows ↔ row ∈ held ∧ row.subject = subject) :
    t ∈ onward rows seen ↔ LeadsOn held subject t ∧ t ∉ seen := by
  simp only [onward, List.mem_filter, List.mem_map, SortedSet.mem_toList, exactly, Bool.and_eq_true,
    Bool.not_eq_true', decide_eq_true_eq]
  constructor
  · intro found
    obtain ⟨⟨row, ⟨member, about⟩, object⟩, plain, fresh⟩ := found
    exact ⟨⟨plain, row, member, about, object⟩, fresh⟩
  · intro found
    obtain ⟨⟨plain, row, member, about, object⟩, fresh⟩ := found
    exact ⟨⟨row, ⟨member, about⟩, object⟩, plain, fresh⟩

/-- What is pending leads to the first of it and to whatever is then pending, past that one. -/
theorem termsPast_visit {seen : SortedSet Term} {subject : Term} {rest next : List Term}
    (new : subject ∉ seen)
    (ahead : ∀ x, x ∈ next ↔ LeadsOn held subject x ∧ x ∉ seen.insert subject) {y : Term} :
    (∃ x ∈ subject :: rest, x ∉ seen ∧ TermsPast held seen x y) ↔
      y = subject ∨ ∃ x ∈ next ++ rest, x ∉ seen.insert subject ∧
        TermsPast held (seen.insert subject) x y := by
  have fresh : ∀ z, z ∉ seen.insert subject → z ∉ seen := fun z outside old =>
    outside (SortedSet.mem_insert.mpr (.inr old))
  have fresh_of_ne : ∀ z, z ∉ seen → z ≠ subject → z ∉ seen.insert subject := fun z old other =>
    fun member => (SortedSet.mem_insert.mp member).elim other old
  constructor
  · intro found
    obtain ⟨x, waiting, unseen, leads⟩ := found
    induction leads with
    | refl =>
      by_cases first : x = subject
      · exact .inl first
      · have later := (List.mem_cons.mp waiting).resolve_left first
        exact .inr ⟨x, List.mem_append_right _ later, fresh_of_ne x unseen first, .refl⟩
    | @tail y z _ step ih =>
      obtain ⟨step, z_unseen⟩ := step
      by_cases again : z = subject
      · exact .inl again
      have past := fresh_of_ne z z_unseen again
      rcases ih with rfl | ⟨w, pending, w_past, leads⟩
      · exact .inr ⟨z, List.mem_append_left _ ((ahead z).mpr ⟨step, past⟩), past, .refl⟩
      · exact .inr ⟨w, pending, w_past, leads.tail ⟨step, past⟩⟩
  · have weaken : ∀ {x}, TermsPast held (seen.insert subject) x y → TermsPast held seen x y :=
      fun leads => Relation.ReflTransGen.mono
        (fun _ z both => ⟨both.1, fresh z both.2⟩) _ _ leads
    rintro (rfl | ⟨x, pending, past, leads⟩)
    · exact ⟨y, List.mem_cons_self, new, .refl⟩
    · rcases List.mem_append.mp pending with child | old
      · exact ⟨subject, List.mem_cons_self, new,
          .head ⟨((ahead x).mp child).1, fresh x past⟩ (weaken leads)⟩
      · exact ⟨x, List.mem_cons_of_mem _ old, fresh x past, weaken leads⟩

section Answers

variable (answers : s.AnswersIn none held)

include answers

theorem triples_about (subject : Term) :
    s.triples (about subject) none = .ok (held.filter (about subject).accepts) :=
  answers .plain _ rfl fun _ => rfl

theorem triples_leadingTo (object : Term) :
    s.triples (leadingTo object) none = .ok (held.filter (leadingTo object).accepts) :=
  answers .plain _ rfl fun _ => rfl

/-- The walk comes upon the statements whose subject is reached from a pending term without
entering a term seen before. -/
theorem statementsBelow_exact (start : Term) (seen : SortedSet Term) (pending : List Term)
    (inside : ∀ t ∈ pending, t ∈ start :: s.names) :
    ∃ found, s.statementsBelow start seen pending inside = .ok found ∧ ∀ t, t ∈ found ↔
      t ∈ held ∧ ∃ x ∈ pending, x ∉ seen ∧ TermsPast held seen x t.subject := by
  fun_induction statementsBelow s start seen pending inside with
  | case1 => exact ⟨∅, rfl, fun t => by simp⟩
  | case2 seen subject rest _ old inside ih =>
    obtain ⟨found, answer, exactly⟩ := ih
    refine ⟨found, answer, fun t => ?_⟩
    simp [exactly, old]
  | case3 seen subject rest _ new fault failed =>
    cases failed.symm.trans (triples_about answers subject)
  | case4 seen subject rest _ new rows asked inside ih =>
    obtain ⟨found, answer, exactly⟩ := ih
    have about_subject : ∀ row, row ∈ rows ↔ row ∈ held ∧ row.subject = subject := by
      intro row
      cases asked.symm.trans (triples_about answers subject)
      rw [SortedSet.mem_filter, accepts_about]
    refine ⟨rows ∪ found, by rw [answer]; rfl, fun t => ?_⟩
    have ahead : ∀ x, x ∈ (onward rows (seen.insert subject)).reverse ↔
        LeadsOn held subject x ∧ x ∉ seen.insert subject := fun x => by
      rw [List.mem_reverse, mem_onward about_subject]
    rw [termsPast_visit new ahead, SortedSet.mem_union, about_subject, exactly, and_or_left]

theorem descendants_exact (start : Term) :
    ∃ found, s.descendants start true = .ok found ∧
      ∀ t, t ∈ found ↔ t ∈ held ∧ TermsBelow held start t.subject := by
  obtain ⟨found, answer, exactly⟩ := statementsBelow_exact answers start ∅ [start]
    fun _ ht => List.mem_singleton.mp ht ▸ List.mem_cons_self
  refine ⟨found, (if_pos rfl).trans answer, fun t => ?_⟩
  rw [exactly]
  simp [termsPast_empty]

end Answers

end Source

end TripleQuery
