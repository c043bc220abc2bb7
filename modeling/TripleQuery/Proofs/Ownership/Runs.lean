import TripleQuery.Proofs.Graph.Operations
import TripleQuery.Proofs.Ownership.Retained

/-!
Legends and heroes in whatever graph operations lead to. Legends are the nodes below a start that
something not below it refers to. What falls with a start is what the nodes state that are reached
without entering a node to be kept: their edges between known nodes, or what a source answers about
their terms.
-/

namespace TripleQuery

namespace Graph

variable {g : Graph} {s : Source} {start : NodeId} {kept : SortedSet NodeId}

/-- A way from a region that no edge leaves, but to nodes that are avoided, stays in it. -/
theorem LeadsPast.mem_region {avoided : NodeId → Prop} {a b : NodeId}
    (leads : g.LeadsPast avoided a b) (linked : g.Linked) {region : List NodeId}
    (closed : ∀ e < g.edges.length, g.owner e ∈ region → ∀ value ∈ g.values e,
      ¬ avoided value → value ∈ region)
    (inside : a ∈ region) : b ∈ region := by
  induction leads with
  | refl => exact inside
  | tail _ step ih =>
    obtain ⟨e, rfl, value⟩ := (mem_children linked).mp step.1
    exact closed e (lt_of_mem_values value) ih _ value step.2

/-! ### Legends -/

/-- Whatever operations made a graph, the legends are the nodes below the start that are a value of
an edge whose owner is not. -/
theorem legends_after {operations : List Operation} (made : Graph.empty.KnowsAll operations)
    (start : NodeId) :
    let g := Graph.empty.after operations
    ∃ legends, g.legends start none = .ok legends ∧ ∀ v, v ∈ legends ↔
      v ≠ start ∧ g.Below start v ∧ ∃ e, v ∈ g.values e ∧ ¬ g.Below start (g.owner e) := by
  have tidy := tidy_after made
  exact mem_legends tidy.toLinked tidy.toDistinct start

/-! ### What is stated of heroes -/

/-- If each hero has something stated of it, that is what is stated of all of them. -/
theorem heroesAmong_of_stated (linked : g.Linked) {store : Option Source}
    {stated : NodeId → SortedSet Triple}
    (answered : ∀ n, g.LeadsPast (· ∈ kept) start n → g.ownTriples store n = .ok (stated n)) :
    ∃ rows, g.heroesAmong start store kept = .ok rows ∧
      ∀ t, t ∈ rows ↔ ∃ n, g.LeadsPast (· ∈ kept) start n ∧ t ∈ stated n := by
  have each : ∀ n ∈ g.heroNodes start kept, g.ownTriples store n = .ok (stated n) :=
    fun n hero => answered n ((mem_heroNodes linked).mp hero)
  refine ⟨.unions ((g.heroNodes start kept).map stated), ?_, fun t => ?_⟩
  · rw [heroesAmong, List.map_congr_left each, Answer.unite_map_ok]
  · simp only [SortedSet.mem_unions, List.mem_map, ← mem_heroNodes linked]
    simp

theorem heroesAmong_graph (linked : g.Linked) (start : NodeId) (kept : SortedSet NodeId) :
    ∃ rows, g.heroesAmong start none kept = .ok rows ∧ ∀ t, t ∈ rows ↔
      ∃ e value, g.LeadsPast (· ∈ kept) start (g.owner e) ∧ g.States e value t := by
  have answered : ∀ n, g.LeadsPast (· ∈ kept) start n →
      g.ownTriples none n = .ok (.ofList ((g.ownSteps n).map Prod.fst)) :=
    fun n _ => ownTriples_none g n
  obtain ⟨rows, answer, exactly⟩ := heroesAmong_of_stated linked answered
  refine ⟨rows, answer, fun t => ?_⟩
  simp only [exactly, SortedSet.mem_ofList, mem_ownStatements linked]
  constructor
  · intro found
    obtain ⟨_, owned, e, value, rfl, states⟩ := found
    exact ⟨e, value, owned, states⟩
  · intro found
    obtain ⟨e, value, owned, states⟩ := found
    exact ⟨_, owned, e, value, rfl, states⟩

theorem heroesAmong_source (linked : g.Linked) {stated : Term → SortedSet Triple}
    (answered : ∀ n x, g.LeadsPast (· ∈ kept) start n → g.identifier? n = some x →
      s.triples (Source.about x) none = .ok (stated x)) :
    ∃ rows, g.heroesAmong start (some s) kept = .ok rows ∧ ∀ t, t ∈ rows ↔
      ∃ n x, g.LeadsPast (· ∈ kept) start n ∧ g.identifier? n = some x ∧ t ∈ stated x := by
  -- What stands for no term is walked through, but nothing is asked about it.
  have each : ∀ n, g.LeadsPast (· ∈ kept) start n →
      g.ownTriples (some s) n = .ok ((g.identifier? n).elim ∅ stated) := by
    intro n owned
    cases known : g.identifier? n with
    | none => exact ownTriples_of_unknown known (some s)
    | some x => exact (ownTriples_of_known known s).trans (answered n x owned known)
  obtain ⟨rows, answer, exactly⟩ := heroesAmong_of_stated linked each
  refine ⟨rows, answer, fun t => ?_⟩
  rw [exactly]
  refine exists_congr fun n => ?_
  cases g.identifier? n <;> simp

/-- Each known node is a term of its own. -/
def TermsApart (g : Graph) : Prop :=
  ∀ m < g.nodes.length, ∀ n < g.nodes.length,
    g.isDefined m = true → g.identifier? m = g.identifier? n → m = n

/-- A node that is kept states nothing, but for the start. -/
theorem TermsApart.ne_subject (apart : g.TermsApart) (linked : g.Linked) {n : NodeId}
    (inside : n < g.nodes.length) (shared : n ∈ kept) (other : n ≠ start) {e : EdgeId}
    {value : NodeId} {t : Triple} (owned : g.LeadsPast (· ∈ kept) start (g.owner e))
    (states : g.States e value t) : g.identifier? n ≠ some t.subject := by
  intro known
  have owner_inside := linked.owner_lt e (lt_of_mem_values states.mem_values)
  have defined : g.isDefined n = true := by
    rw [isDefined, known]
    rfl
  obtain rfl := apart n inside _ owner_inside defined (known.trans states.subject.symm)
  exact not_mem_legends_of_hero owned other shared

/-- Whatever operations made a graph, and whatever nodes are to be kept: the statements that fall
with the start are those of the edges that belong to it and to what it reaches without entering a
node that is kept, or what a source answers about the terms of these nodes. If different nodes stand
for different terms, none of the graph's own is about a node that is kept, but for the start. -/
theorem heroesAmong_after {operations : List Operation} (made : Graph.empty.KnowsAll operations)
    (start : NodeId) (kept : SortedSet NodeId) :
    let g := Graph.empty.after operations
    let Owned := g.LeadsPast (· ∈ kept) start
    (∃ rows, g.heroesAmong start none kept = .ok rows ∧
      (∀ t, t ∈ rows ↔ ∃ e value, Owned (g.owner e) ∧ g.States e value t) ∧
      (g.TermsApart → ∀ n ∈ kept, n < g.nodes.length → n ≠ start →
        ∀ t ∈ rows, g.identifier? n ≠ some t.subject)) ∧
    ∀ (s : Source) (stated : Term → SortedSet Triple),
      (∀ n x, Owned n → g.identifier? n = some x →
        s.triples (Source.about x) none = .ok (stated x)) →
      ∃ rows, g.heroesAmong start (some s) kept = .ok rows ∧
        ∀ t, t ∈ rows ↔ ∃ n x, Owned n ∧ g.identifier? n = some x ∧ t ∈ stated x := by
  intro g Owned
  have linked : g.Linked := (tidy_after made).toLinked
  refine ⟨?_, fun s stated answered => heroesAmong_source linked answered⟩
  obtain ⟨rows, answer, exactly⟩ := heroesAmong_graph linked start kept
  refine ⟨rows, answer, exactly, ?_⟩
  intro apart n shared inside other t member
  obtain ⟨e, value, owned, states⟩ := (exactly t).mp member
  exact apart.ne_subject linked inside shared other owned states

end Graph

namespace Sample

/-- A dog with its collar and a keeper who is not known by name but knows ann, as bob does. -/
def household : List Graph.Operation :=
  [.addDefined (.iri "rex"), .addUnknown, .addDefined (.iri "ann"), .addDefined (.iri "bob"),
    .addDefined (.blank "collar"), .addDefined (.text "red"),
    .relate 0 (.iri "wears") 4, .relate 4 (.iri "color") 5, .relate 0 (.iri "keeper") 1,
    .relate 1 (.iri "knows") 2, .relate 2 (.iri "pets") 0, .relate 3 (.iri "knows") 2,
    .relate 0 (.iri "has") 4, .relate 0 (.iri "follows") 0]

def home : Graph := Graph.empty.after household

theorem made_household : Graph.empty.KnowsAll household := by decide

theorem linked_home : home.Linked := (Graph.tidy_after made_household).toLinked

theorem below_home {n : NodeId} : home.Below 0 n ↔ n ∈ [0, 1, 2, 4, 5] := by
  constructor
  · intro below
    exact (Graph.leadsPast_start.mpr below).mem_region linked_home (by decide) (by decide)
  · have keeper : home.Below 0 1 := .single (by decide)
    have collar : home.Below 0 4 := .single (by decide)
    intro listed
    simp only [List.mem_cons, List.not_mem_nil, or_false] at listed
    rcases listed with rfl | rfl | rfl | rfl | rfl
    · exact .refl
    · exact keeper
    · exact keeper.tail (by decide)
    · exact collar
    · exact collar.tail (by decide)

/-- Only ann is known to someone who does not belong to the dog. -/
theorem legends_home : Graph.empty.KnowsAll household ∧
    ∃ legends, home.legends 0 none = .ok legends ∧ ∀ v, v ∈ legends ↔ v = 2 := by
  obtain ⟨legends, answer, shared⟩ := Graph.legends_after made_household 0
  refine ⟨made_household, legends, answer, fun v => (shared v).trans ?_⟩
  simp only [show Graph.empty.after household = home from rfl, below_home]
  constructor
  · rintro ⟨_, _, e, value, outside⟩
    have edges : ∀ e < home.edges.length, ∀ v ∈ home.values e,
        home.owner e ∉ [0, 1, 2, 4, 5] → v = 2 := by
      decide
    exact edges e (Graph.lt_of_mem_values value) v value outside
  · rintro rfl
    exact ⟨by decide, by decide, 5, by decide, by decide⟩

/-- With ann and the dog itself to be kept. -/
theorem owned_home {n : NodeId} :
    home.LeadsPast (· ∈ SortedSet.ofList [0, 2]) 0 n ↔ n ∈ [0, 1, 4, 5] := by
  constructor
  · intro owned
    exact owned.mem_region linked_home (by decide) (by decide)
  · have collar : home.LeadsPast (· ∈ SortedSet.ofList [0, 2]) 0 4 := .single (by decide)
    intro listed
    simp only [List.mem_cons, List.not_mem_nil, or_false] at listed
    rcases listed with rfl | rfl | rfl | rfl
    · exact .refl
    · exact .single (by decide)
    · exact collar
    · exact collar.tail (by decide)

def notes : Store.Memory :=
  (Store.Memory.empty false).extend
    [⟨.iri "rex", .iri "name", .text "Rex"⟩, ⟨.iri "ann", .iri "pets", .iri "rex"⟩,
      ⟨.blank "collar", .iri "maker", .iri "bob"⟩]
    none

theorem answersIn_notes : notes.source.AnswersIn none (notes.statementsIn none) :=
  Store.Memory.answersIn_extend_empty false _

/-- Neither what the keeper knows nor what ann pets falls with the dog. -/
theorem heroes_home : Graph.empty.KnowsAll household ∧ home.TermsApart ∧
    (∃ rows, home.heroesAmong 0 none (.ofList [0, 2]) = .ok rows ∧
      rows = .ofList [⟨.iri "rex", .iri "follows", .iri "rex"⟩,
        ⟨.iri "rex", .iri "has", .blank "collar"⟩, ⟨.iri "rex", .iri "wears", .blank "collar"⟩,
        ⟨.blank "collar", .iri "color", .text "red"⟩] ∧
      ∀ t ∈ rows, home.identifier? 2 ≠ some t.subject) ∧
    home.heroesAmong 0 (some notes.source) (.ofList [0, 2]) =
      .ok (.ofList [⟨.iri "rex", .iri "name", .text "Rex"⟩,
        ⟨.blank "collar", .iri "maker", .iri "bob"⟩]) := by
  have apart : home.TermsApart := by
    unfold Graph.TermsApart
    decide
  obtain ⟨⟨rows, answer, exactly, unkept⟩, read⟩ :=
    Graph.heroesAmong_after made_household 0 (.ofList [0, 2])
  obtain ⟨noted, found, stated⟩ := read notes.source _ fun _ x _ _ =>
    Source.triples_about answersIn_notes x
  simp only [show Graph.empty.after household = home from rfl, owned_home] at exactly stated
  refine ⟨made_household, apart, ⟨rows, answer, ?_, ?_⟩, found.trans (congrArg Except.ok ?_)⟩
  · have own : rows = .ofList ([0, 1, 4, 5].flatMap fun n => (home.ownSteps n).map Prod.fst) := by
      apply SortedSet.ext
      intro t
      simp only [exactly, SortedSet.mem_ofList, List.mem_flatMap,
        Graph.mem_ownStatements linked_home]
      grind
    rw [own]
    decide
  · exact unkept apart 2 (by decide) (by decide) (by decide)
  · have read : noted = (notes.statementsIn none).filter fun t : Triple =>
        decide (some t.subject ∈ [0, 1, 4, 5].map home.identifier?) := by
      apply SortedSet.ext
      intro t
      simp only [stated, SortedSet.mem_filter, Source.accepts_about, decide_eq_true_eq,
        List.mem_map]
      grind
    rw [read]
    decide

end Sample

end TripleQuery
