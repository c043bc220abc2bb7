import TripleQuery.Proofs.Graph.Component
import TripleQuery.Proofs.Graph.Operations
import TripleQuery.Proofs.Ownership.Statements
import TripleQuery.Proofs.Resolution.Refinement

/-!
Known nodes are not searched for but validated. Such a node resolves to its own term if its source
holds all that is stated around it, between known nodes that edges connect to it, and to nothing if
any of that is missing.
-/

namespace TripleQuery

/-! ### Statements around a node -/

namespace Graph

variable {g : Graph} {start : NodeId} {held : SortedSet Triple}

/-- All that edges state between known nodes connected to the start is held. -/
def Upheld (g : Graph) (start : NodeId) (held : SortedSet Triple) : Prop :=
  ∀ e value t, g.Connected false start (g.owner e) → g.Connected false start value →
    g.States e value t → t ∈ held

theorem triple?_statement {e : EdgeId} {value : NodeId} (member : value ∈ g.values e) {t : Triple} :
    (g.statement e value).triple? = some t ↔ g.States e value t := by
  have ends : (g.statement e value).triple? = some t ↔ ∃ subject,
      g.identifier? (g.owner e) = some subject ∧ ∃ object,
        g.identifier? value = some object ∧ ⟨subject, g.link e, object⟩ = t := by
    simp only [Statement.triple?, statement, identifier?, Option.bind_eq_bind,
      Option.bind_eq_some_iff, Option.pure_def, Option.some.injEq]
  rw [ends]
  constructor
  · rintro ⟨subject, owner, object, named, rfl⟩
    exact ⟨member, owner, rfl, named⟩
  · rintro ⟨_, owner, link, named⟩
    exact ⟨t.subject, owner, t.object, named, by rw [link]⟩

theorem upheld_iff (linked : g.Linked) (inside : start < g.nodes.length)
    (known : g.isDefined start = true) : g.Upheld start held ↔
      ∀ t ∈ (g.componentTrail start false).filterMap Statement.triple?, t ∈ held := by
  have entered : g.admits false start = true := known
  constructor
  · intro upheld t reported
    obtain ⟨statement, reported, made⟩ := List.mem_filterMap.mp reported
    obtain ⟨e, value, member, owner, connected, rfl⟩ :=
      (mem_componentTrail linked inside entered).mp reported
    exact upheld e value t owner connected ((triple?_statement member).mp made)
  · intro each e value t owner connected states
    refine each t (List.mem_filterMap.mpr ⟨g.statement e value, ?_, ?_⟩)
    · exact (mem_componentTrail linked inside entered).mpr
        ⟨e, value, states.mem_values, owner, connected, rfl⟩
    · exact (triple?_statement states.mem_values).mpr states

end Graph

namespace Source

/-! ### Statements of a source -/

theorem containsAll_eq {s : Source} {held : SortedSet Triple}
    (contains : ∀ t, s.contains t none = .ok (decide (t ∈ held))) (ts : List Triple) :
    s.containsAll ts = .ok (decide (∀ t ∈ ts, t ∈ held)) := by
  induction ts with
  | nil => rfl
  | cons t rest ih =>
    rw [containsAll, contains, ih]
    by_cases member : t ∈ held
    · simp only [List.forall_mem_cons, member, true_and]
      rfl
    · simp only [List.forall_mem_cons, member, false_and]
      rfl

variable {s : Source} {allowed : Interval → Prop} {held : Option Term → SortedSet Triple}
  {g : Graph} {start : NodeId}

theorem confirms_iff (answers : s.Answers allowed held) (linked : g.Linked)
    (inside : start < g.nodes.length) (known : g.isDefined start = true) :
    ∃ verdict, s.confirms g start = .ok verdict ∧
      (verdict = true ↔ g.Upheld start (held none)) := by
  have contains := fun t => (answers_withIntervals answers).contains t none
  refine ⟨_, containsAll_eq contains _, ?_⟩
  rw [decide_eq_true_eq, Graph.upheld_iff linked inside known]

theorem resolve_of_known (answers : s.Answers allowed held) (linked : g.Linked)
    (inside : start < g.nodes.length) {identifier : Term}
    (known : g.identifier? start = some identifier) (score : Scorer) :
    (s.resolve g start score = .ok (.singleton identifier) ↔ g.Upheld start (held none)) ∧
      (¬ g.Upheld start (held none) → s.resolve g start score = .ok ∅) := by
  have is_defined : g.isDefined start = true := by rw [Graph.isDefined, known]; rfl
  obtain ⟨verdict, confirmed, exactly⟩ := confirms_iff answers linked inside is_defined
  have resolved : s.resolve g start score =
      .ok (if verdict then .singleton identifier else ∅) := by
    rw [resolve, known]
    dsimp only
    rw [confirmed]
    cases verdict <;> rfl
  rw [resolved, ← exactly]
  cases verdict with
  | true => exact ⟨iff_of_true rfl rfl, fun refused => absurd rfl refused⟩
  | false =>
    refine ⟨iff_of_false (fun same => ?_) Bool.false_ne_true, fun _ => rfl⟩
    have empty : ∅ = SortedSet.singleton identifier := Except.ok.inj same
    exact SortedSet.not_mem_empty identifier (empty ▸ SortedSet.mem_singleton.mpr rfl)

/-- Whatever operations made a graph, and over whatever stores, chosen graphs and merged sources: a
known node resolves to its own term just where all that is stated around it is held, and to nothing
elsewhere. -/
theorem resolve_known_iff (tree : SourceTree) {operations : List Graph.Operation}
    (made : Graph.empty.KnowsAll operations)
    (inside : start < (Graph.empty.after operations).nodes.length) {identifier : Term}
    (known : (Graph.empty.after operations).identifier? start = some identifier)
    (score : Scorer) :
    let g := Graph.empty.after operations
    (tree.source.resolve g start score = .ok (.singleton identifier) ↔
        g.Upheld start (tree.holds none)) ∧
      (¬ g.Upheld start (tree.holds none) → tree.source.resolve g start score = .ok ∅) := by
  have linked := (Graph.tidy_after made).toLinked
  exact resolve_of_known tree.answers linked inside known score

end Source

namespace Sample

/-- Two people who know each other, and two more beyond someone unknown. -/
def meetings : List Graph.Operation :=
  [.addDefined (.iri "ann"), .addDefined (.iri "bob"), .addDefined (.iri "cid"),
    .addDefined (.iri "dan"), .addUnknown, .relate 0 knows 1, .relate 1 knows 0,
    .relate 1 knows 4, .relate 4 knows 2, .relate 2 knows 3]

def introductions : Graph := Graph.empty.after meetings

theorem upheld_ann : introductions.Upheld 0 (.ofList (known ++ described)) := by
  have closed : ∀ e < introductions.edges.length, ∀ value ∈ introductions.values e,
      introductions.admits false (introductions.owner e) = true →
        introductions.admits false value = true →
          (introductions.owner e ∈ [0, 1] ↔ value ∈ [0, 1]) := by
    decide
  have stated : ∀ e < introductions.edges.length, ∀ value ∈ introductions.values e,
      introductions.owner e ∈ [0, 1] → value ∈ [0, 1] →
        ∃ t ∈ known, (introductions.statement e value).triple? = some t := by
    decide
  intro e value t owner connected states
  obtain ⟨other, listed, made⟩ := stated e (Graph.lt_of_mem_values states.mem_values) value
    states.mem_values (owner.mem_region closed rfl (by decide))
    (connected.mem_region closed rfl (by decide))
  cases ((Graph.triple?_statement states.mem_values).mpr states).symm.trans made
  exact SortedSet.mem_ofList.mpr (List.mem_append_left _ listed)

theorem not_upheld_cid : ¬ introductions.Upheld 2 (.ofList (known ++ described)) := by
  intro upheld
  have joins : introductions.Joins 4 2 3 := ⟨rfl, by decide⟩
  have unheld := upheld 4 3 ⟨.iri "cid", knows, .iri "dan"⟩ .refl
    (.single ⟨rfl, 4, .inl joins⟩) ⟨joins.2, rfl, rfl, rfl⟩
  exact absurd unheld (by decide)

end Sample

/-- The records have it that ann and bob know each other, and do not mention that cid knows dan. -/
theorem Source.resolve_introductions :
    Sample.records.source.resolve Sample.introductions 0 Scorer.typeLast =
        .ok (.singleton (.iri "ann")) ∧
      Sample.records.source.resolve Sample.introductions 2 Scorer.typeLast = .ok ∅ := by
  have ann_upheld := Sample.upheld_ann
  have cid_not_upheld := Sample.not_upheld_cid
  rw [← Sample.held_records] at ann_upheld cid_not_upheld
  have made : Graph.empty.KnowsAll Sample.meetings := by decide
  have first : 0 < (Graph.empty.after Sample.meetings).nodes.length := by decide
  have third : 2 < (Graph.empty.after Sample.meetings).nodes.length := by decide
  exact ⟨(resolve_known_iff Sample.records made first rfl Scorer.typeLast).1.mpr ann_upheld,
    (resolve_known_iff Sample.records made third rfl Scorer.typeLast).2 cid_not_upheld⟩

end TripleQuery
