import TripleQuery.Proofs.Ownership.Retained
import TripleQuery.Proofs.Store.Refinement

/-!
Sources that mirror a graph: they hold what its edges state and nothing else. Whatever is read of
ownership from such a source is what the graph itself gives, as long as nothing in the graph stands
for two things at once.
-/

namespace TripleQuery

namespace Graph

/-- A graph of known nodes, each of them a term of its own, whose edges state different things, and
the statements that record it. -/
structure Recorded (g : Graph) (held : SortedSet Triple) : Prop where
  known : ∀ n < g.nodes.length, g.isDefined n = true
  distinct : ∀ m < g.nodes.length, ∀ n < g.nodes.length, g.identifier? m = g.identifier? n → m = n
  apart : ∀ e < g.edges.length, ∀ f < g.edges.length, g.owner e = g.owner f ∧ g.link e = g.link f →
    ∀ value ∈ g.values e, value ∈ g.values f → e = f
  plain : ∀ e < g.edges.length, ∀ t ∈ g.identifier? (g.owner e), t.isLiteral = false
  exactly : ∀ t, t ∈ held ↔ ∃ e value, g.States e value t

/-- Reading from the source comes to the same result as reading from the graph. -/
def ReadAlike {α : Type} (read : Option Source → Except Fault α) (s : Source) : Prop :=
  ∃ result, read none = .ok result ∧ read (some s) = .ok result

variable {g : Graph} {s : Source} {held : SortedSet Triple} {start n : NodeId} {x : Term}

theorem identifier_of_isDefined (known : g.isDefined n = true) : ∃ x, g.identifier? n = some x :=
  Option.isSome_iff_exists.mp known

namespace Recorded

variable (recorded : g.Recorded held) (tidy : g.Tidy)

include recorded tidy

theorem owner_eq (inside : n < g.nodes.length) (named : g.identifier? n = some x) {e : EdgeId}
    {value : NodeId} {t : Triple} (states : g.States e value t) : g.owner e = n ↔ t.subject = x := by
  have owner_inside := tidy.toLinked.owner_lt e (lt_of_mem_values states.mem_values)
  constructor
  · rintro rfl
    exact Option.some.inj (states.subject.symm.trans named)
  · rintro rfl
    exact recorded.distinct _ owner_inside n inside (states.subject.trans named.symm)

theorem value_eq (inside : n < g.nodes.length) (named : g.identifier? n = some x) {e : EdgeId}
    {value : NodeId} {t : Triple} (states : g.States e value t) : value = n ↔ t.object = x := by
  have value_inside := tidy.toLinked.value_lt e value states.mem_values
  constructor
  · rintro rfl
    exact Option.some.inj (states.object.symm.trans named)
  · rintro rfl
    exact recorded.distinct _ value_inside n inside (states.object.trans named.symm)

/-- What a node states of itself are the statements about it. -/
theorem states_own_iff (inside : n < g.nodes.length) (named : g.identifier? n = some x)
    {t : Triple} :
    (∃ e value, g.owner e = n ∧ g.States e value t) ↔ t ∈ held ∧ t.subject = x := by
  rw [recorded.exactly]
  constructor
  · intro found
    obtain ⟨e, value, owner, states⟩ := found
    exact ⟨⟨e, value, states⟩, (recorded.owner_eq tidy inside named states).mp owner⟩
  · intro found
    obtain ⟨⟨e, value, states⟩, subject⟩ := found
    exact ⟨e, value, (recorded.owner_eq tidy inside named states).mpr subject, states⟩

/-- What is stated of a node are the statements that lead to it. -/
theorem states_of_iff (inside : n < g.nodes.length) (named : g.identifier? n = some x)
    {t : Triple} : (∃ e, g.States e n t) ↔ t ∈ held ∧ t.object = x := by
  rw [recorded.exactly]
  constructor
  · intro found
    obtain ⟨e, states⟩ := found
    exact ⟨⟨e, n, states⟩, (recorded.value_eq tidy inside named states).mp rfl⟩
  · intro found
    obtain ⟨⟨e, value, states⟩, object⟩ := found
    obtain rfl := (recorded.value_eq tidy inside named states).mpr object
    exact ⟨e, states⟩

theorem ownStatements_eq (inside : n < g.nodes.length) (named : g.identifier? n = some x) :
    SortedSet.ofList ((g.ownSteps n).map Prod.fst) =
      held.filter (Source.about x).accepts := by
  apply SortedSet.ext
  intro t
  rw [SortedSet.mem_ofList, mem_ownStatements tidy.toLinked, SortedSet.mem_filter,
    Source.accepts_about, recorded.states_own_iff tidy inside named]

/-! ### Descendants and references -/

/-- Nothing goes on from a literal, so that every known way down is a way through statements. -/
theorem termsBelow_of_knownBelow (named : g.identifier? start = some x)
    (below : g.KnownBelow start n) {y : Term} (reached : g.identifier? n = some y)
    (plain : y.isLiteral = false) : Source.TermsBelow held x y := by
  induction below generalizing y with
  | refl =>
    cases named.symm.trans reached
    exact .refl
  | @tail a b _ step ih =>
    obtain ⟨e, t, rfl, states⟩ := (mem_ownValues tidy.toLinked).mp step
    cases reached.symm.trans states.object
    have owner_plain := recorded.plain e (lt_of_mem_values states.mem_values) _ states.subject
    have member := (recorded.exactly t).mpr ⟨e, b, states⟩
    exact (ih states.subject owner_plain).tail ⟨plain, t, member, rfl, rfl⟩

theorem knownBelow_of_termsBelow (inside : start < g.nodes.length)
    (named : g.identifier? start = some x) {y : Term} (below : Source.TermsBelow held x y) :
    ∃ n < g.nodes.length, g.KnownBelow start n ∧ g.identifier? n = some y := by
  induction below with
  | refl => exact ⟨start, inside, .refl, named⟩
  | tail _ step ih =>
    obtain ⟨n, n_inside, leads, reached⟩ := ih
    obtain ⟨_, row, member, subject, rfl⟩ := step
    obtain ⟨e, value, owner, states⟩ :=
      (recorded.states_own_iff tidy n_inside reached).mpr ⟨member, subject⟩
    have next := (mem_ownValues tidy.toLinked).mpr ⟨e, row, owner, states⟩
    exact ⟨value, tidy.toLinked.value_lt e value states.mem_values, leads.tail next, states.object⟩

theorem mem_descendantTrail_iff (inside : start < g.nodes.length)
    (named : g.identifier? start = some x) {t : Triple} :
    t ∈ g.descendantTrail start true ↔ t ∈ held ∧ Source.TermsBelow held x t.subject := by
  rw [mem_descendantTrail tidy.toLinked inside]
  constructor
  · intro found
    obtain ⟨e, value, below, states⟩ := found
    have plain := recorded.plain e (lt_of_mem_values states.mem_values) _ states.subject
    exact ⟨(recorded.exactly t).mpr ⟨e, value, states⟩,
      recorded.termsBelow_of_knownBelow tidy named below states.subject plain⟩
  · intro found
    obtain ⟨member, below⟩ := found
    obtain ⟨n, n_inside, leads, reached⟩ :=
      recorded.knownBelow_of_termsBelow tidy inside named below
    obtain ⟨e, value, rfl, states⟩ :=
      (recorded.states_own_iff tidy n_inside reached).mpr ⟨member, rfl⟩
    exact ⟨e, value, leads, states⟩

variable (answers : s.AnswersIn none held)

include answers

theorem descendants_alike (inside : start < g.nodes.length) (transitive : Bool) :
    ReadAlike (g.descendants start transitive) s := by
  obtain ⟨x, named⟩ := identifier_of_isDefined (recorded.known start inside)
  refine ⟨.ofList (g.descendantTrail start transitive), rfl, ?_⟩
  have asked : g.descendants start transitive (some s) = s.descendants x transitive := by
    rw [Graph.descendants, named]
  rw [asked]
  cases transitive with
  | false =>
    show s.triples (Source.about x) none = .ok (.ofList ((g.ownSteps start).map Prod.fst))
    rw [Source.triples_about answers, recorded.ownStatements_eq tidy inside named]
  | true =>
    obtain ⟨found, answer, exactly⟩ := Source.descendants_exact answers x
    rw [answer]
    refine congrArg Except.ok (SortedSet.ext fun t => ?_)
    rw [exactly, SortedSet.mem_ofList, recorded.mem_descendantTrail_iff tidy inside named]

theorem references_alike (inside : start < g.nodes.length) :
    ReadAlike (g.references start) s := by
  obtain ⟨x, named⟩ := identifier_of_isDefined (recorded.known start inside)
  refine ⟨.ofList ((g.ownSteps start).map Prod.fst ++ g.ownerTriples start x), ?_, ?_⟩
  · simp only [references, named]
  · have asked : g.references start (some s) =
        Answer.unite [s.triples (Source.leadingTo x) none, s.triples (Source.about x) none] := by
      simp only [references, named]
    rw [asked, Source.triples_leadingTo answers, Source.triples_about answers]
    refine congrArg Except.ok (SortedSet.ext fun t => ?_)
    simp only [SortedSet.mem_union, SortedSet.not_mem_empty, or_false, SortedSet.mem_ofList,
      List.mem_append, mem_ownStatements tidy.toLinked, mem_ownerTriples named tidy.toLinked,
      recorded.states_own_iff tidy inside named, recorded.states_of_iff tidy inside named,
      SortedSet.mem_filter, Source.accepts_leadingTo, Source.accepts_about]
    exact or_comm

/-! ### Legends and heroes -/

omit answers in
/-- There are as many statements that lead to a node as edges. -/
theorem heldReferences_eq (inside : n < g.nodes.length) :
    g.heldReferences held n = (g.owners n).length := by
  obtain ⟨x, named⟩ := identifier_of_isDefined (recorded.known n inside)
  have values : ∀ e ∈ g.owners n, n ∈ g.values e := fun e => (tidy.toLinked.mem_owners n e).mp
  have owner_inside : ∀ e ∈ g.owners n, g.owner e < g.nodes.length := fun e owned =>
    tidy.toLinked.owner_lt e (lt_of_mem_values (values e owned))
  have once : (g.ownerTriples n x).Nodup := by
    refine nodup_filterMap_toward named values (tidy.toDistinct.owners n) ?_
    intro e here f there t states also
    have owner := recorded.distinct _ (owner_inside e here) _ (owner_inside f there)
      (states.subject.trans also.subject.symm)
    have link := states.predicate.trans also.predicate.symm
    exact recorded.apart e (lt_of_mem_values states.mem_values) f
      (lt_of_mem_values also.mem_values) ⟨owner, link⟩ n states.mem_values also.mem_values
  have rows : ∀ t, t ∈ g.ownerTriples n x ↔ t ∈ held.filter (Source.leadingTo x).accepts := by
    intro t
    rw [mem_ownerTriples named tidy.toLinked, recorded.states_of_iff tidy inside named,
      SortedSet.mem_filter, Source.accepts_leadingTo]
  calc g.heldReferences held n
      = (held.filter (Source.leadingTo x).accepts).size := heldReferences_of_known named
    _ = (g.ownerTriples n x).length := (SortedSet.perm_toList once rows).length_eq.symm
    _ = (g.owners n).length :=
        length_filterMap_toward fun e owned => recorded.known _ (owner_inside e owned)

theorem legends_alike (start : NodeId) : ReadAlike (g.legends start) s := by
  have linked := tidy.toLinked
  obtain ⟨legends, answer, exactly⟩ := g.legends_eq start
  obtain ⟨others, also, counted⟩ := mem_legends_source tidy answers start
  refine ⟨legends, answer, also.trans (congrArg Except.ok (SortedSet.ext fun v => ?_))⟩
  rw [counted, exactly]
  by_cases other : v = start
  · simp [other, meetings_start]
  rw [meetings_ne_zero_iff linked tidy.toDistinct other, and_iff_right other]
  refine and_congr_right fun below => ?_
  obtain ⟨e, value, _⟩ := (below_iff linked other).mp below
  have inside := tidy.toLinked.value_lt e v value
  have all_known : (g.entered start).filter g.isDefined = g.entered start :=
    List.filter_eq_self.mpr fun n entered =>
      recorded.known n (mem_nodeIds.mp (Traversal.mem_free_of_mem_order entered))
  rw [meetings_edgesBelow linked tidy.toDistinct other, knownEdges, all_known,
    recorded.heldReferences_eq tidy inside]

theorem heroes_alike (inside : start < g.nodes.length) : ReadAlike (g.heroes start) s := by
  have linked := tidy.toLinked
  obtain ⟨legends, answer, also⟩ := recorded.legends_alike tidy answers start
  have same : ∀ n ∈ g.heroNodes start legends, g.ownTriples (some s) n = g.ownTriples none n := by
    intro n hero
    have n_inside := lt_of_below linked inside ((mem_heroNodes linked).mp hero).below
    obtain ⟨x, named⟩ := identifier_of_isDefined (recorded.known n n_inside)
    rw [ownTriples_of_known named, ownTriples_none, Source.triples_about answers,
      recorded.ownStatements_eq tidy n_inside named]
  have agree : g.heroesAmong start (some s) legends = g.heroesAmong start none legends := by
    rw [heroesAmong, heroesAmong, List.map_congr_left same]
  have stated : ∃ rows, g.heroesAmong start none legends = .ok rows := by
    rw [heroesAmong, funext g.ownTriples_none]
    exact ⟨_, Answer.unite_map_ok _ _⟩
  obtain ⟨rows, stated⟩ := stated
  refine ⟨rows, ?_, ?_⟩
  · rw [heroes, answer]
    exact stated
  · rw [heroes, also]
    exact agree.trans stated

end Recorded

/-- A source that records a graph gives the same descendants, references, legends and heroes as the
graph. -/
theorem read_alike_of_recorded {operations : List Operation}
    (made : Graph.empty.KnowsAll operations)
    (recorded : (Graph.empty.after operations).Recorded held) (answers : s.AnswersIn none held)
    (inside : start < (Graph.empty.after operations).nodes.length) :
    let g := Graph.empty.after operations
    (∀ transitive, ReadAlike (g.descendants start transitive) s) ∧
      ReadAlike (g.references start) s ∧ ReadAlike (g.legends start) s ∧
      ReadAlike (g.heroes start) s := by
  have tidy := tidy_after made
  exact ⟨recorded.descendants_alike tidy answers inside,
    recorded.references_alike tidy answers inside, recorded.legends_alike tidy answers start,
    recorded.heroes_alike tidy answers inside⟩

/-! ### Saving a graph -/

/-- What the edges of a graph state. -/
def statements (g : Graph) : SortedSet Triple :=
  .ofList (g.nodeIds.flatMap fun n => (g.ownSteps n).map Prod.fst)

theorem mem_statements (linked : g.Linked) {t : Triple} :
    t ∈ g.statements ↔ ∃ e value, g.States e value t := by
  rw [statements, SortedSet.mem_ofList, List.mem_flatMap]
  simp only [mem_ownStatements linked]
  constructor
  · intro found
    obtain ⟨_, _, e, value, _, states⟩ := found
    exact ⟨e, value, states⟩
  · intro found
    obtain ⟨e, value, states⟩ := found
    have inside := linked.owner_lt e (lt_of_mem_values states.mem_values)
    exact ⟨g.owner e, mem_nodeIds.mpr inside, e, value, rfl, states⟩

/-- A new memory store with the statements of a graph. -/
def save (g : Graph) : Store.Memory := (Store.Memory.empty false).extend g.statements.toList none

theorem answersIn_save (g : Graph) : g.save.source.AnswersIn none g.statements := by
  have held : g.save.statementsIn none = g.statements := by
    rw [save, Store.Memory.statementsIn_extend_empty, SortedSet.ofList_toList]
  rw [← held]
  exact Store.Memory.answersIn_extend_empty false _

end Graph

namespace Sample

/-- Two people who know each other, one of them also herself, and a dog. -/
def circling : List Graph.Operation :=
  [.addDefined (.iri "ann"), .addDefined (.iri "bob"), .addDefined (.iri "rex"),
    .addDefined (.text "Ann"), .relate 0 (.iri "knows") 1, .addValue 0 0,
    .relate 1 (.iri "knows") 0, .relate 2 (.iri "owner") 0, .relate 0 (.iri "name") 3]

def circle : Graph := Graph.empty.after circling

theorem made_circle : Graph.empty.KnowsAll circling := by decide

theorem recorded_circle : circle.Recorded circle.statements where
  known := by decide
  distinct := by decide
  apart e here f there same _ _ _ := by
    have different : ∀ e < circle.edges.length, ∀ f < circle.edges.length,
        circle.owner e = circle.owner f ∧ circle.link e = circle.link f → e = f := by
      decide
    exact different e here f there same
  plain := by decide
  exactly _ := Graph.mem_statements (Graph.tidy_after made_circle).toLinked

theorem read_alike_circle :
    (∀ transitive, Graph.ReadAlike (circle.descendants 1 transitive) circle.save.source) ∧
      Graph.ReadAlike (circle.references 1) circle.save.source ∧
      Graph.ReadAlike (circle.legends 1) circle.save.source ∧
      Graph.ReadAlike (circle.heroes 1) circle.save.source :=
  Graph.read_alike_of_recorded made_circle recorded_circle circle.answersIn_save (by decide)

end Sample

end TripleQuery
