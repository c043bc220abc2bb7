import TripleQuery.Proofs.Path.Legs

/-!
The paths of a graph as routes over its edges. A route follows an edge with every hop, crosses
unknowns only, and ends as soon as it comes to an anchor.
-/

namespace TripleQuery.Graph

variable {g : Graph}

/-! ### Hops along edges -/

theorem mem_hops (linked : g.Linked) {n next : NodeId} {hop : Hop} :
    (hop, next) ∈ g.hops n ↔
      (∃ e, g.Joins e next n ∧ (∀ bounds, g.token next ≠ .interval bounds) ∧
        hop = ⟨g.link e, g.token next, .object, n⟩) ∨
      ∃ e, g.Joins e n next ∧ (g.token next).isCondition = true ∧
        hop = ⟨g.link e, g.token next, .subject, n⟩ := by
  simp only [hops_eq, List.mem_map, mem_legs linked, Prod.mk.injEq]
  constructor
  · intro found
    obtain ⟨⟨e, direction, next⟩, allowed, rfl, rfl⟩ := found
    cases direction with
    | up => exact .inl ⟨e, allowed.1, allowed.2, rfl⟩
    | down => exact .inr ⟨e, allowed.1, isCondition_iff.mpr allowed.2, rfl⟩
  · rintro (⟨e, joins, other, rfl⟩ | ⟨e, joins, condition, rfl⟩)
    · exact ⟨⟨e, .up, next⟩, ⟨joins, other⟩, rfl, rfl⟩
    · exact ⟨⟨e, .down, next⟩, ⟨joins, isCondition_iff.mp condition⟩, rfl, rfl⟩

theorem target_of_mem_hops (linked : g.Linked) {n next : NodeId} {hop : Hop}
    (member : (hop, next) ∈ g.hops n) : hop.target = n := by
  rcases (mem_hops linked).mp member with ⟨e, _, _, rfl⟩ | ⟨e, _, _, rfl⟩ <;> rfl

theorem other_of_mem_hops (linked : g.Linked) {n next : NodeId} {hop : Hop}
    (member : (hop, next) ∈ g.hops n) : hop.other = g.token next := by
  rcases (mem_hops linked).mp member with ⟨e, _, _, rfl⟩ | ⟨e, _, _, rfl⟩ <;> rfl

theorem lt_of_mem_hops (linked : g.Linked) {n next : NodeId} {hop : Hop}
    (member : (hop, next) ∈ g.hops n) : next < g.nodes.length := by
  rcases (mem_hops linked).mp member with ⟨e, joins, _⟩ | ⟨e, joins, _⟩
  · rw [← joins.1]
    exact linked.owner_lt e (lt_of_mem_values joins.2)
  · exact linked.value_lt e next joins.2

theorem anchor_or_unknown (linked : g.Linked) {n next : NodeId} {hop : Hop}
    (member : (hop, next) ∈ g.hops n) : g.isAnchor next = true ∨ ∃ k, g.token next = .unknown k := by
  rw [hops_eq] at member
  obtain ⟨leg, allowed, made⟩ := List.mem_map.mp member
  cases made
  exact ((mem_legs linked).mp allowed).anchor_or_unknown

/-! ### Routes -/

/-- A path from a node along its edges to the first anchor that it meets. -/
inductive Route (g : Graph) : NodeId → Path → Prop where
  | arrive {n next : NodeId} {hop : Hop} (step : (hop, next) ∈ g.hops n)
      (anchor : g.isAnchor next = true) : Route g n [hop]
  | onward {n next : NodeId} {hop : Hop} {rest : Path} (step : (hop, next) ∈ g.hops n)
      (unsolved : g.isAnchor next = false) (route : Route g next rest) : Route g n (hop :: rest)

theorem Route.ne_nil {n : NodeId} {path : Path} (route : g.Route n path) : path ≠ [] := by
  cases route <;> exact List.cons_ne_nil _ _

/-- Where the other end of the first hop is an unknown, the route goes on from there. -/
theorem Route.onward_of_unknown (linked : g.Linked) {n next : NodeId} {hop : Hop}
    {rest : Path} {k : Nat} (route : g.Route n (hop :: rest)) (other : hop.other = .unknown k)
    (token : g.token next = .unknown k) : g.Route next rest := by
  cases route with
  | arrive step anchor =>
    rw [isAnchor, ← other_of_mem_hops linked step, other] at anchor
    cases anchor
  | onward step unsolved route =>
    have same := other_of_mem_hops linked step
    rw [other] at same
    rw [linked.unknown_inj _ _ k token same.symm]
    exact route

theorem Route.step {n : NodeId} {hop : Hop} {rest : Path} (route : g.Route n (hop :: rest)) :
    ∃ next, (hop, next) ∈ g.hops n := by
  cases route with
  | arrive step anchor => exact ⟨_, step⟩
  | onward step unsolved route => exact ⟨_, step⟩

theorem Route.suffix (linked : g.Linked) {n : NodeId} {before after : Path} {hop : Hop}
    (route : g.Route n (before ++ hop :: after)) : g.Route hop.target (hop :: after) := by
  induction before generalizing n with
  | nil =>
    obtain ⟨next, step⟩ := route.step
    rw [target_of_mem_hops linked step]
    exact route
  | cons first rest ih =>
    obtain ⟨x, xs, same⟩ : ∃ x xs, rest ++ hop :: after = x :: xs :=
      List.exists_cons_of_ne_nil (by simp)
    rw [List.cons_append, same] at route
    cases route with
    | onward step unsolved route =>
      rw [← same] at route
      exact ih route

theorem mem_pathsThrough {free : List NodeId} {n : NodeId} {path : Path}
    (unsolved : g.isAnchor n = false) :
    path ∈ g.pathsThrough free n ↔ n ∈ free ∧ ∃ hop next rest, (hop, next) ∈ g.hops n ∧
      rest ∈ g.pathsThrough (free.erase n) next ∧ path = hop :: rest := by
  rw [pathsThrough, unsolved, if_neg Bool.false_ne_true]
  split
  · rename_i inside
    simp only [List.mem_flatMap, List.mem_map, inside, true_and]
    constructor
    · intro found
      obtain ⟨⟨hop, next⟩, step, rest, member, rfl⟩ := found
      exact ⟨hop, next, rest, step, member, rfl⟩
    · intro found
      obtain ⟨hop, next, rest, step, member, rfl⟩ := found
      exact ⟨(hop, next), step, rest, member, rfl⟩
  · rename_i outside
    simp [outside]

theorem route_of_mem_pathsThrough {path : Path} {free : List NodeId} {n : NodeId}
    (unsolved : g.isAnchor n = false) (member : path ∈ g.pathsThrough free n) : g.Route n path := by
  induction path generalizing free n with
  | nil =>
    obtain ⟨_, hop, next, rest, _, _, same⟩ := (mem_pathsThrough unsolved).mp member
    cases same
  | cons first rest ih =>
    obtain ⟨_, hop, next, _, step, further, same⟩ := (mem_pathsThrough unsolved).mp member
    cases same
    cases anchor : g.isAnchor next with
    | true =>
      rw [pathsThrough_anchor anchor, List.mem_singleton] at further
      rw [further]
      exact .arrive step anchor
    | false => exact .onward step anchor (ih anchor further)

/-- No node is the target of two hops of one path. -/
theorem nodup_targets (linked : g.Linked) {path : Path} {free : List NodeId} {n : NodeId}
    (distinct : free.Nodup) (unsolved : g.isAnchor n = false)
    (member : path ∈ g.pathsThrough free n) :
    (path.map Hop.target).Nodup ∧ ∀ x ∈ path.map Hop.target, x ∈ free := by
  induction path generalizing free n with
  | nil => exact ⟨List.nodup_nil, fun x inside => absurd inside List.not_mem_nil⟩
  | cons first rest ih =>
    obtain ⟨inside, hop, next, _, step, further, same⟩ := (mem_pathsThrough unsolved).mp member
    cases same
    rw [List.map_cons, target_of_mem_hops linked step, List.nodup_cons, List.forall_mem_cons]
    have below : (rest.map Hop.target).Nodup ∧ ∀ x ∈ rest.map Hop.target, x ∈ free.erase n := by
      cases anchor : g.isAnchor next with
      | true =>
        rw [pathsThrough_anchor anchor, List.mem_singleton] at further
        rw [further]
        exact ⟨List.nodup_nil, fun x inside => absurd inside List.not_mem_nil⟩
      | false => exact ih (distinct.erase n) anchor further
    refine ⟨⟨?_, below.1⟩, inside, ?_⟩
    · intro again
      have left := below.2 n again
      exact ((List.Nodup.mem_erase_iff distinct).mp left).1 rfl
    · intro x later
      exact List.mem_of_mem_erase (below.2 x later)

theorem isAnchor_of_mem_paths {start : NodeId} {path : Path} (member : path ∈ g.paths start) :
    g.isAnchor start = false := by
  unfold paths at member
  split at member
  · cases member
  · rename_i unsolved
    exact Bool.eq_false_iff.mpr unsolved

theorem mem_pathsThrough_of_mem_paths {start : NodeId} {path : Path}
    (member : path ∈ g.paths start) : path ∈ g.pathsThrough g.nodeIds start := by
  rw [paths, if_neg (by rw [isAnchor_of_mem_paths member]; exact Bool.false_ne_true)] at member
  exact member

theorem route_of_mem_paths {start : NodeId} {path : Path} (member : path ∈ g.paths start) :
    g.Route start path :=
  route_of_mem_pathsThrough (isAnchor_of_mem_paths member) (mem_pathsThrough_of_mem_paths member)

end TripleQuery.Graph
