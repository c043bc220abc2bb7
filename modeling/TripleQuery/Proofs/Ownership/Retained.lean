import TripleQuery.Proofs.Ownership.Sharing
import TripleQuery.Proofs.Ownership.Statements
import TripleQuery.Proofs.Store.Memory

/-!
Legends whose references are counted in a source. The source counts the statements it holds, but
the walk spends one of them for each edge of a known node, be it saved or not. So what something
outside refers to is a legend for certain only where each edge to it from below the start has a
statement of its own.
-/

namespace TripleQuery

namespace Graph

variable {g : Graph} {s : Source} {held : SortedSet Triple} {start v : NodeId}

/-- How many statements held lead to a node. -/
def heldReferences (g : Graph) (held : SortedSet Triple) (n : NodeId) : Nat :=
  match g.identifier? n with
  | none => 0
  | some identifier => (held.filter (Source.leadingTo identifier).accepts).size

theorem heldReferences_of_known {n : NodeId} {identifier : Term}
    (known : g.identifier? n = some identifier) :
    g.heldReferences held n = (held.filter (Source.leadingTo identifier).accepts).size := by
  rw [heldReferences, known]

theorem referenceCount_source (answers : s.AnswersIn none held) (n : NodeId) :
    g.referenceCount (some s) n = .ok (g.heldReferences held n : Int) := by
  show (match g.identifier? n with | none => _ | some _ => _) = _
  unfold heldReferences
  cases g.identifier? n with
  | none => rfl
  | some identifier =>
    show Except.map _ (s.count _ none) = _
    rw [Source.count, Source.triples_leadingTo answers]
    rfl

/-- The edges to a node from known nodes, at or below a start. -/
def knownEdges (g : Graph) (start v : NodeId) : List EdgeId :=
  (g.owners v).filter fun e => decide (g.owner e ∈ (g.entered start).filter g.isDefined)

theorem mem_knownEdges (linked : g.Linked) (other : v ≠ start) {e : EdgeId} :
    e ∈ g.knownEdges start v ↔
      v ∈ g.values e ∧ g.Below start (g.owner e) ∧ g.isDefined (g.owner e) = true := by
  simp only [knownEdges, List.mem_filter, decide_eq_true_eq, linked.mem_owners,
    mem_entered linked]
  refine and_congr_right fun value => and_congr_left fun _ => and_iff_right_of_imp fun below => ?_
  exact mem_nodeIds_of_below linked other ((below_iff linked other).mpr ⟨e, value, below⟩)

/-- Legends are the nodes below the start that more statements lead to than edges of known nodes
from below it. -/
theorem mem_legends_source (tidy : g.Tidy) (answers : s.AnswersIn none held) (start : NodeId) :
    ∃ legends, g.legends start (some s) = .ok legends ∧ ∀ v, v ∈ legends ↔
      v ≠ start ∧ g.Below start v ∧ (g.knownEdges start v).length < g.heldReferences held v := by
  have linked := tidy.toLinked
  obtain ⟨legends, answer, exactly⟩ := legends_counted (referenceCount_source answers) start
  refine ⟨legends, answer, fun v => ?_⟩
  rw [exactly]
  by_cases other : v = start
  · simp [other, meetings_start]
  · have spent : g.spendings (some s) v (g.edgesBelow start) = (g.knownEdges start v).length :=
      spendings_edgesBelow linked tidy.toDistinct other (some s)
    rw [meetings_ne_zero_iff linked tidy.toDistinct other, spent, Int.ofNat_lt,
      and_iff_right (show v ≠ start from other)]

/-! ### Outside references -/

/-- Each edge to a node from below a start has a statement held of its own. -/
structure StatedApart (g : Graph) (held : SortedSet Triple) (start v : NodeId) : Prop where
  held : ∀ e t, g.Below start (g.owner e) → g.States e v t → t ∈ held
  apart : ∀ e f t, g.Below start (g.owner e) → g.Below start (g.owner f) → g.States e v t →
    g.States f v t → e = f

/-- The statements of the edges from below are held, and that of the outsider is none of them. -/
theorem StatedApart.length_lt (tidy : g.Tidy) (other : v ≠ start) {row : Triple}
    (member : row ∈ held) (leads : g.identifier? v = some row.object)
    (outside : ∀ n, g.Below start n → g.identifier? n ≠ some row.subject)
    (apart : g.StatedApart held start v) :
    (g.knownEdges start v).length < g.heldReferences held v := by
  have linked := tidy.toLinked
  have inside := fun e => (mem_knownEdges linked other (e := e)).mp
  have values : ∀ e ∈ g.knownEdges start v, v ∈ g.values e := fun e known => (inside e known).1
  have known_owners : ∀ e ∈ g.knownEdges start v, g.isDefined (g.owner e) = true :=
    fun e known => (inside e known).2.2
  have stated := fun t => mem_filterMap_toward leads values (t := t)
  have once : ((g.knownEdges start v).filterMap (g.toward row.object)).Nodup := by
    refine nodup_filterMap_toward leads values ((tidy.toDistinct.owners v).filter _) ?_
    intro e here f there t
    exact apart.apart e f t (inside e here).2.1 (inside f there).2.1
  have new : row ∉ (g.knownEdges start v).filterMap (g.toward row.object) := by
    intro old
    obtain ⟨e, known, states⟩ := (stated row).mp old
    exact outside _ (inside e known).2.1 states.subject
  have subset : row :: (g.knownEdges start v).filterMap (g.toward row.object) ⊆
      (held.filter (Source.leadingTo row.object).accepts).toList := by
    intro t found
    rw [SortedSet.mem_toList, SortedSet.mem_filter, Source.accepts_leadingTo]
    rcases List.mem_cons.mp found with rfl | found
    · exact ⟨member, rfl⟩
    · obtain ⟨e, known, states⟩ := (stated t).mp found
      have same := Option.some.inj (states.object.symm.trans leads)
      exact ⟨apart.held e t (inside e known).2.1 states, same⟩
  have count := (List.nodup_cons.mpr ⟨new, once⟩).length_le_of_subset subset
  rw [List.length_cons, length_filterMap_toward known_owners] at count
  rwa [heldReferences_of_known leads]

/-- A known node below the start that a statement held of something outside refers to is a legend,
provided that the edges to it from below the start are all saved, each as a statement of its own. -/
theorem mem_legends_of_outside {operations : List Operation}
    (made : Graph.empty.KnowsAll operations) (answers : s.AnswersIn none held) :
    let g := Graph.empty.after operations
    v ≠ start → g.Below start v → ∀ row ∈ held, g.identifier? v = some row.object →
      (∀ n, g.Below start n → g.identifier? n ≠ some row.subject) →
      g.StatedApart held start v →
      ∃ legends, g.legends start (some s) = .ok legends ∧ v ∈ legends := by
  intro g other below row member leads outside apart
  have tidy : g.Tidy := tidy_after made
  obtain ⟨legends, answer, exactly⟩ := mem_legends_source tidy answers start
  have shared := apart.length_lt tidy other member leads outside
  exact ⟨legends, answer, (exactly v).mpr ⟨other, below, shared⟩⟩

end Graph

namespace Sample

/-- A dog and its owner. -/
def owning : List Graph.Operation :=
  [.addDefined (.iri "rex"), .addDefined (.iri "ann"), .relate 0 (.iri "owner") 1]

def ownedDog : Graph := Graph.empty.after owning

theorem made_ownedDog : Graph.empty.KnowsAll owning := by decide

theorem tidy_ownedDog : ownedDog.Tidy := Graph.tidy_after made_ownedDog

def friendship : Triple := ⟨.iri "bob", .iri "knows", .iri "ann"⟩

def ownership : Triple := ⟨.iri "rex", .iri "owner", .iri "ann"⟩

theorem below_ownedDog : ownedDog.Below 0 1 := .single (by decide)

theorem outside_ownedDog (n : NodeId) (below : ownedDog.Below 0 n) :
    ownedDog.identifier? n ≠ some friendship.subject := by
  have inside : ∀ m < ownedDog.nodes.length,
      ownedDog.identifier? m ≠ some friendship.subject := by
    decide
  exact inside n (Graph.lt_of_below tidy_ownedDog.toLinked (by decide) below)

/-- The only edge states who owns the dog. -/
theorem states_ownedDog {e : EdgeId} {t : Triple} (states : ownedDog.States e 1 t) :
    e = 0 ∧ t = ownership := by
  have first : e = 0 := Nat.lt_one_iff.mp (Graph.lt_of_mem_values states.mem_values)
  subst first
  refine ⟨rfl, ?_⟩
  obtain ⟨subject, predicate, object⟩ := t
  cases states.subject
  cases states.predicate
  cases states.object
  rfl

theorem ann_mem_legends : ∃ legends, ownedDog.legends 0
    (some ((Store.Memory.empty false).extend [friendship, ownership] none).source) = .ok legends ∧
      1 ∈ legends := by
  refine Graph.mem_legends_of_outside made_ownedDog
    (Store.Memory.answersIn_extend_empty false _) (by decide) below_ownedDog friendship
    (by decide) rfl outside_ownedDog ?_
  refine ⟨fun e t _ states => ?_, fun e f t _ _ here there => ?_⟩
  · rw [(states_ownedDog states).2]
    decide
  · rw [(states_ownedDog here).1, (states_ownedDog there).1]

/-- That the dog has an owner was not saved, and so following the edge spends the reference of the
friend. -/
theorem ann_not_mem_legends :
    (1 : NodeId) ≠ 0 ∧ ownedDog.Below 0 1 ∧ ownedDog.identifier? 1 = some friendship.object ∧
      friendship ∈ ((Store.Memory.empty false).extend [friendship] none).statementsIn none ∧
      (∀ n, ownedDog.Below 0 n → ownedDog.identifier? n ≠ some friendship.subject) ∧
      ∃ legends, ownedDog.legends 0
        (some ((Store.Memory.empty false).extend [friendship] none).source) = .ok legends ∧
          1 ∉ legends := by
  refine ⟨by decide, below_ownedDog, rfl, by decide, outside_ownedDog, ?_⟩
  have answers := Store.Memory.answersIn_extend_empty false [friendship]
  obtain ⟨legends, answer, exactly⟩ := Graph.mem_legends_source tidy_ownedDog answers 0
  refine ⟨legends, answer, fun shared => ?_⟩
  have spent : 0 ∈ ownedDog.knownEdges 0 1 :=
    (Graph.mem_knownEdges tidy_ownedDog.toLinked (by decide)).mpr ⟨by decide, .refl, rfl⟩
  have counted : ownedDog.heldReferences
      (((Store.Memory.empty false).extend [friendship] none).statementsIn none) 1 = 1 := by
    decide
  have left := ((exactly 1).mp shared).2.2
  have met := List.length_pos_of_mem spent
  omega

end Sample

end TripleQuery
