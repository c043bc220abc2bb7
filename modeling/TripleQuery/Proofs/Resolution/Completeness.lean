import TripleQuery.Proofs.Resolution.Refinement

/-!
No answer is lost: whatever assignment of terms to nodes the statements bear out, resolution finds
the term that it gives to the start, on graphs with cycles as well.
-/

namespace TripleQuery

namespace Graph

/-- Terms for all nodes that agree with what is known of them and make every edge a statement. -/
structure Fits (g : Graph) (held : SortedSet Triple) (a : NodeId → Term) : Prop where
  defined : ∀ n ∈ g.nodeIds, ∀ t, g.identifier? n = some t → a n = t
  bounded : ∀ n ∈ g.nodeIds, ∀ bounds, g.token n = .interval bounds → bounds.isBounded = true →
    bounds.contains (a n) = true
  stated : ∀ e < g.edges.length, ∀ value ∈ g.values e,
    (⟨a (g.owner e), g.link e, a value⟩ : Triple) ∈ held

variable {g : Graph} {held : SortedSet Triple} {a : NodeId → Term}

theorem Fits.joins (fits : g.Fits held a) {e : EdgeId} {m n : NodeId} (joins : g.Joins e m n) :
    (⟨a m, g.link e, a n⟩ : Triple) ∈ held := by
  have row := fits.stated e (lt_of_mem_values joins.2) n joins.2
  rw [joins.1] at row
  exact row

theorem isBounded_of_mem_hops (linked : g.Linked) {n next : NodeId} {hop : Hop}
    (step : (hop, next) ∈ g.hops n) {bounds : Interval} (token : g.token next = .interval bounds) :
    bounds.isBounded = true := by
  rcases anchor_or_unknown linked step with anchor | ⟨k, other⟩
  · rw [isAnchor, token] at anchor
    exact anchor
  · rw [token] at other
    cases other

/-- An interval that a value fits into has bounds of one kind. -/
theorem Fits.allowsFrom (fits : g.Fits held a) (linked : g.Linked) (start : NodeId) :
    g.AllowsFrom start Interval.Uniform := by
  intro path member hop inside bounds other
  obtain ⟨before, after, rfl⟩ := List.append_of_mem inside
  obtain ⟨next, step⟩ := ((route_of_mem_paths member).suffix linked).step
  have token := (other_of_mem_hops linked step).symm.trans other
  have known : next ∈ g.nodeIds := List.mem_range.mpr (lt_of_mem_hops linked step)
  have bounded := isBounded_of_mem_hops linked step token
  exact Interval.uniform_of_contains (fits.bounded next known bounds token bounded)

theorem Fits.slot_accepts (fits : g.Fits held a) (linked : g.Linked) {n next : NodeId}
    {hop : Hop} (step : (hop, next) ∈ g.hops n) {below : SortedSet Term}
    (found : ∀ k, g.token next = .unknown k → a next ∈ below) :
    (hop.slot below).accepts (a next) = true := by
  have known : next ∈ g.nodeIds := List.mem_range.mpr (lt_of_mem_hops linked step)
  rw [Hop.slot, other_of_mem_hops linked step]
  cases token : g.token next with
  | term t =>
    have same := fits.defined next known t (by rw [identifier?, token]; rfl)
    exact decide_eq_true same.symm
  | unknown k => exact Slot.accepts_oneOf.mpr (found k token)
  | interval bounds =>
    exact fits.bounded next known bounds token (isBounded_of_mem_hops linked step token)

theorem Fits.mem_solutions_hop (fits : g.Fits held a) (linked : g.Linked)
    {n next : NodeId} {hop : Hop} (step : (hop, next) ∈ g.hops n) {below : SortedSet Term}
    (found : ∀ k, g.token next = .unknown k → a next ∈ below) :
    a n ∈ hop.solutions held below := by
  have accepted := fits.slot_accepts linked step found
  rw [Hop.mem_solutions]
  rcases (mem_hops linked).mp step with ⟨e, joins, _, rfl⟩ | ⟨e, joins, _, rfl⟩
  · exact ⟨_, fits.joins joins, Bool.and_eq_true_iff.mpr ⟨decide_eq_true rfl, accepted⟩, rfl⟩
  · exact ⟨_, fits.joins joins, Bool.and_eq_true_iff.mpr ⟨decide_eq_true rfl, accepted⟩, rfl⟩

/-- Along routes from one node, the term of that node satisfies every branch. -/
theorem Fits.mem_solutions (fits : g.Fits held a) (linked : g.Linked) {n : NodeId}
    {paths : List Path} (inhabited : paths ≠ []) (routes : ∀ path ∈ paths, g.Route n path) :
    a n ∈ (Trie.ofPaths paths).solutions held := by
  induction paths using Path.rests_induction generalizing n with
  | step paths ih =>
    have blank : Trie.ofPaths paths ≠ .leaf := by
      obtain ⟨path, member⟩ := List.exists_mem_of_ne_nil _ inhabited
      obtain ⟨hop, rest, rfl⟩ := List.exists_cons_of_ne_nil (routes path member).ne_nil
      exact Trie.ofPaths_ne_leaf.mpr ⟨hop, Path.rests_ne_nil.mpr ⟨rest, member⟩⟩
    rw [Trie.mem_solutions_ofPaths blank]
    intro hop some_rest
    obtain ⟨rest, member⟩ := Path.rests_ne_nil.mp some_rest
    obtain ⟨next, step⟩ := (routes _ member).step
    refine fits.mem_solutions_hop linked step fun k token => ?_
    -- All paths with this hop go on from the same node, since no other has the unknown.
    refine ih hop some_rest some_rest fun other present => ?_
    have same := other_of_mem_hops linked step
    rw [token] at same
    exact (routes _ (Path.mem_rests.mp present)).onward_of_unknown linked same token

theorem isDefined_of_not_isAnchor {n : NodeId} (unsolved : g.isAnchor n = false) :
    g.isDefined n = false := by
  rw [isAnchor] at unsolved
  rw [isDefined, identifier?]
  cases token : g.token n with
  | term t =>
    rw [token] at unsolved
    cases unsolved
  | unknown k => rfl
  | interval bounds => rfl

end Graph

/-- Ann knows Bob, who is thirty. -/
def Sample.answer : NodeId → Term
  | 0 => .iri "ann"
  | 1 => .iri "bob"
  | 2 => person
  | _ => .integer 30

theorem Sample.answer_fits :
    friends.Fits (records.holds none) answer where
  defined := by
    have checked : ∀ n ∈ friends.nodeIds, (friends.identifier? n).all (answer n = ·) = true := by
      decide
    intro n inside t identifier
    have same := checked n inside
    rw [identifier] at same
    exact of_decide_eq_true same
  bounded := by
    have checked : ∀ n ∈ friends.nodeIds,
        (friends.token n).interval?.all (·.contains (answer n)) = true := by
      decide
    intro n inside bounds token _
    have contained := checked n inside
    rw [token] at contained
    exact contained
  stated := by
    rw [held_records]
    decide

/-- What an assignment gives to the start is found, if there is a path to an anchor at all. -/
theorem Source.mem_resolve_of_fits (tree : SourceTree) {operations : List Graph.Operation}
    (made : Graph.empty.KnowsAll operations) {start : NodeId}
    (unsolved : (Graph.empty.after operations).isAnchor start = false)
    (anchored : (Graph.empty.after operations).paths start ≠ []) (score : Scorer)
    {a : NodeId → Term} (fits : (Graph.empty.after operations).Fits (tree.holds none) a) :
    ∃ found, tree.source.resolve (Graph.empty.after operations) start score = .ok found ∧
      a start ∈ found := by
  have linked := (Graph.tidy_after made).toLinked
  have unknown := Graph.isDefined_of_not_isAnchor unsolved
  have reads := (fits.allowsFrom linked start).reads tree
  refine ⟨_, resolve_of_answers tree.answers linked unknown reads score, ?_⟩
  exact fits.mem_solutions linked anchored fun path => Graph.route_of_mem_paths

theorem Source.ann_mem_resolve :
    ∃ found, Sample.records.source.resolve Sample.friends 0 Scorer.typeLast = .ok found ∧
      .iri "ann" ∈ found :=
  mem_resolve_of_fits Sample.records Sample.made_friends rfl (by decide +kernel) Scorer.typeLast
    Sample.answer_fits

end TripleQuery
