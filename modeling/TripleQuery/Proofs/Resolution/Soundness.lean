import TripleQuery.Proofs.Graph.Trees
import TripleQuery.Proofs.Resolution.Refinement

/-!
No answer is false where the unknowns around the start form a tree: every term that is found
comes with one assignment that makes all hops of all paths hold. The terms are first chosen place
by place along the paths; in a tree each node has one place.
-/

namespace TripleQuery

/-! ### Terms for the places of paths -/

/-- A term for the root, and what `values` gives to the places behind each first hop. -/
def Path.rooted (root : Term) (values : Hop → Path → Term) : Path → Term
  | [] => root
  | hop :: rest => values hop rest

/-- The hops of the paths hold between the terms of the places that they join. -/
def Path.Valued (held : SortedSet Triple) (paths : List Path) (value : Path → Term) : Prop :=
  ∀ before hop after, before ++ hop :: after ∈ paths →
    value before ∈ hop.solutions held (.singleton (value (before ++ [hop])))

namespace Hop

theorem accepts_unknown {hop : Hop} {k : Nat} (crosses : hop.other = .unknown k)
    {below : SortedSet Term} {row : Triple} :
    hop.accepts below row = true ↔
      row.predicate = hop.predicate ∧ row.get hop.otherPosition ∈ below := by
  rw [accepts, slot, crosses, Bool.and_eq_true, decide_eq_true_eq, Slot.accepts_oneOf]

theorem accepts_known {hop : Hop} (known : ∀ k, hop.other ≠ .unknown k)
    (below below' : SortedSet Term) (row : Triple) :
    hop.accepts below row = hop.accepts below' row := by
  rw [accepts, accepts, slot, slot]
  cases other : hop.other with
  | term t => rfl
  | unknown k => exact absurd other (known k)
  | interval bounds => rfl

end Hop

namespace Graph

variable {g : Graph} {start : NodeId} {held : SortedSet Triple}

theorem Route.eq_nil_of_anchor (linked : g.Linked) {n : NodeId} {hop : Hop} {rest : Path}
    (route : g.Route n (hop :: rest)) (known : ∀ k, hop.other ≠ .unknown k) : rest = [] := by
  cases route with
  | arrive step anchor => rfl
  | onward step unsolved route =>
    rcases anchor_or_unknown linked step with anchor | ⟨k, token⟩
    · rw [unsolved] at anchor
      cases anchor
    · exact absurd ((other_of_mem_hops linked step).trans token) (known k)

/-- One hop: its solution leaves a term to the place behind it, from which the rests go on. -/
theorem exists_valued_behind (linked : g.Linked) {paths : List Path} {n : NodeId}
    (routes : ∀ path ∈ paths, g.Route n path) {hop : Hop} (some_rest : Path.rests hop paths ≠ [])
    {v : Term} (solves : v ∈ hop.solutions held
      ((Trie.ofPaths (Path.rests hop paths)).solutions held))
    (further : ∀ {next : NodeId} {t : Term}, (∀ rest ∈ Path.rests hop paths, g.Route next rest) →
      t ∈ (Trie.ofPaths (Path.rests hop paths)).solutions held →
        ∃ value, value [] = t ∧ Path.Valued held (Path.rests hop paths) value) :
    ∃ value : Path → Term, v ∈ hop.solutions held (.singleton (value [])) ∧
      Path.Valued held (Path.rests hop paths) value := by
  obtain ⟨row, inside, fits, target⟩ := Hop.mem_solutions.mp solves
  by_cases crosses : ∃ k, hop.other = .unknown k
  · obtain ⟨k, other⟩ := crosses
    obtain ⟨rest, present⟩ := Path.rests_ne_nil.mp some_rest
    obtain ⟨next, step⟩ := (routes _ present).step
    have token := (other_of_mem_hops linked step).symm.trans other
    have onward : ∀ rest ∈ Path.rests hop paths, g.Route next rest := by
      intro rest left
      exact (routes _ (Path.mem_rests.mp left)).onward_of_unknown linked other token
    obtain ⟨predicate, found⟩ := (Hop.accepts_unknown other).mp fits
    obtain ⟨value, root, valued⟩ := further onward found
    refine ⟨value, Hop.mem_solutions.mpr ⟨row, inside, ?_, target⟩, valued⟩
    exact (Hop.accepts_unknown other).mpr ⟨predicate, SortedSet.mem_singleton.mpr root.symm⟩
  · have known : ∀ k, hop.other ≠ .unknown k := fun k other => crosses ⟨k, other⟩
    refine ⟨fun _ => v, Hop.mem_solutions.mpr ⟨row, inside, ?_, target⟩, ?_⟩
    · rw [Hop.accepts_known known _ _ row]
      exact fits
    · intro before hop' after left
      have ended := (routes _ (Path.mem_rests.mp left)).eq_nil_of_anchor linked known
      exact absurd ended (by simp)

/-- Every solution of some routes can be continued to terms for all of their places. -/
theorem exists_valued (linked : g.Linked) {paths : List Path} {n : NodeId}
    (routes : ∀ path ∈ paths, g.Route n path) {v : Term}
    (member : v ∈ (Trie.ofPaths paths).solutions held) :
    ∃ value, value [] = v ∧ Path.Valued held paths value := by
  induction paths using Path.rests_induction generalizing n v with
  | step paths ih =>
    have behind : ∀ hop, ∃ value : Path → Term, Path.rests hop paths ≠ [] →
        v ∈ hop.solutions held (.singleton (value [])) ∧
          Path.Valued held (Path.rests hop paths) value := by
      intro hop
      by_cases none : Path.rests hop paths = []
      · exact ⟨fun _ => v, fun some_rest => absurd none some_rest⟩
      have blank : Trie.ofPaths paths ≠ .leaf := Trie.ofPaths_ne_leaf.mpr ⟨hop, none⟩
      have solves := (Trie.mem_solutions_ofPaths blank).mp member hop none
      obtain ⟨value, spec⟩ := exists_valued_behind linked routes none solves
        fun onward found => ih hop none onward found
      exact ⟨value, fun _ => spec⟩
    choose values spec using behind
    refine ⟨Path.rooted v values, rfl, ?_⟩
    intro before hop after there
    cases before with
    | nil =>
      have some_rest := Path.rests_ne_nil.mpr ⟨after, there⟩
      exact (spec hop some_rest).1
    | cons first rest =>
      have some_rest := Path.rests_ne_nil.mpr ⟨_, there⟩
      exact (spec first some_rest).2 rest hop after (Path.mem_rests.mpr there)

/-! ### Terms for nodes -/

/-- Under an assignment of terms to nodes some statement is as the hop says. The value in an
interval may be another one for each hop. -/
def Satisfied (g : Graph) (held : SortedSet Triple) (a : NodeId → Term) (hop : Hop) : Prop :=
  ∃ row ∈ held, row.predicate = hop.predicate ∧ row.get hop.unknown = a hop.target ∧
    match hop.other with
    | .term t => row.get hop.otherPosition = t
    | .interval bounds => bounds.contains (row.get hop.otherPosition) = true
    | .unknown k => ∃ n, g.token n = .unknown k ∧ row.get hop.otherPosition = a n

open Classical in
/-- The term at the place of each node. -/
noncomputable def valueAt (g : Graph) (start : NodeId) (value : Path → Term) (n : NodeId) : Term :=
  if found : ∃ before, g.LeadsTo start before n then value found.choose else default

theorem TreeShaped.valueAt_eq (tree : g.TreeShaped start) (linked : g.Linked)
    (value : Path → Term) {before : Path} {n : NodeId} (leads : g.LeadsTo start before n) :
    g.valueAt start value n = value before := by
  have found : ∃ before, g.LeadsTo start before n := ⟨before, leads⟩
  rw [valueAt, dif_pos found, tree.place_unique linked found.choose_spec leads]

/-- Terms for places become an assignment to nodes, since the paths meet each node in one place. -/
theorem TreeShaped.satisfied (tree : g.TreeShaped start) (linked : g.Linked)
    {value : Path → Term} (valued : Path.Valued held (g.paths start) value) {path : Path}
    (member : path ∈ g.paths start) {hop : Hop} (inside : hop ∈ path) :
    g.Satisfied held (g.valueAt start value) hop := by
  obtain ⟨before, after, rfl⟩ := List.append_of_mem inside
  obtain ⟨row, stated, fits, target⟩ := Hop.mem_solutions.mp (valued before hop after member)
  have here := tree.valueAt_eq linked value ⟨hop, after, member, rfl⟩
  refine ⟨row, stated, ?_, target.trans here.symm, ?_⟩
  · exact of_decide_eq_true (Bool.and_eq_true_iff.mp fits).1
  have accepted := (Bool.and_eq_true_iff.mp fits).2
  have route := (route_of_mem_paths member).suffix linked
  rw [Hop.slot] at accepted
  cases other : hop.other with
  | term t =>
    rw [other] at accepted
    exact (of_decide_eq_true accepted).symm
  | interval bounds =>
    rw [other] at accepted
    exact accepted
  | unknown k =>
    rw [other] at accepted
    have same := SortedSet.mem_singleton.mp (Slot.accepts_oneOf.mp accepted)
    obtain ⟨next, step⟩ := route.step
    have token := (other_of_mem_hops linked step).symm.trans other
    have onward := route.onward_of_unknown linked other token
    obtain ⟨second, rest, rfl⟩ := List.exists_cons_of_ne_nil onward.ne_nil
    refine ⟨next, token, same.trans (tree.valueAt_eq linked value ?_).symm⟩
    exact ⟨second, rest, by simpa using member, onward.target_head linked⟩

end Graph

namespace Sample

theorem around_acquaintance {n : NodeId} (around : acquaintance.Around 0 n) : n = 0 ∨ n = 1 := by
  have unknowns : ∀ m < acquaintance.nodes.length, (acquaintance.token m).unknown?.isSome = true →
      m = 0 ∨ m = 1 := by
    decide
  rcases around.eq_or_unknown with start | ⟨inside, unknown⟩
  · exact .inl start
  · exact unknowns n inside unknown

theorem tree_acquaintance : acquaintance.TreeShaped 0 where
  no_loop n e _ joins := by
    have loops : ∀ e < acquaintance.edges.length,
        acquaintance.owner e ∉ acquaintance.values e := by
      decide
    exact loops e (Graph.lt_of_mem_values joins.2) (joins.1 ▸ joins.2)
  no_parallel a b here there e f first second := by
    have only : ∀ e < acquaintance.edges.length, ∀ a < 2, ∀ b < 2,
        acquaintance.Links e a b → e = 0 := by
      decide
    have small : ∀ {n}, acquaintance.Around 0 n → n < 2 := fun around => by
      rcases around_acquaintance around with rfl | rfl <;> decide
    rw [only e first.lt a (small here) b (small there) first,
      only f second.lt a (small here) b (small there) second]
  acyclic := by
    have single : ((⊥ : SimpleGraph NodeId) ⊔ .edge 0 1).IsAcyclic :=
      SimpleGraph.isAcyclic_bot.sup_edge_of_not_reachable (by simp)
    refine single.anti fun a b adjacent => ?_
    obtain ⟨distinct, here, there, _⟩ := adjacent
    rcases around_acquaintance here with rfl | rfl <;>
      rcases around_acquaintance there with rfl | rfl <;>
      simp_all [SimpleGraph.edge_adj]

end Sample

/-- What is found for the start of a tree comes with an assignment that all paths agree on. -/
theorem Source.exists_assignment_of_mem_resolve (tree : SourceTree)
    {operations : List Graph.Operation} (made : Graph.empty.KnowsAll operations) {start : NodeId}
    (unknown : (Graph.empty.after operations).isDefined start = false)
    (shaped : (Graph.empty.after operations).TreeShaped start)
    (reads : (Graph.empty.after operations).AllowsFrom start tree.Reads) (score : Scorer) :
    let g := Graph.empty.after operations
    ∃ found, tree.source.resolve g start score = .ok found ∧
      ∀ v ∈ found, ∃ a : NodeId → Term, a start = v ∧
        ∀ path ∈ g.paths start, ∀ hop ∈ path, g.Satisfied (tree.holds none) a hop := by
  intro g
  have linked : g.Linked := (Graph.tidy_after made).toLinked
  refine ⟨_, resolve_of_answers tree.answers linked unknown reads score, fun v member => ?_⟩
  obtain ⟨value, root, valued⟩ :=
    Graph.exists_valued linked (fun _ => Graph.route_of_mem_paths) member
  refine ⟨g.valueAt start value, ?_, fun path present hop inside =>
    shaped.satisfied linked valued present inside⟩
  have anchored : g.paths start ≠ [] := by
    intro none
    rw [none] at member
    exact SortedSet.not_mem_empty v member
  obtain ⟨path, present⟩ := List.exists_mem_of_ne_nil _ anchored
  have route := Graph.route_of_mem_paths present
  obtain ⟨hop, rest, rfl⟩ := List.exists_cons_of_ne_nil route.ne_nil
  have leads : g.LeadsTo start [] start := ⟨hop, rest, present, route.target_head linked⟩
  rw [shaped.valueAt_eq linked value leads, root]

theorem Source.exists_assignment_acquaintance :
    Sample.records.asksTable = true ∧
      ∃ found, Sample.records.source.resolve Sample.acquaintance 0 Scorer.typeLast = .ok found ∧
        ∀ v ∈ found, ∃ a : NodeId → Term, a 0 = v ∧
          ∀ path ∈ Sample.acquaintance.paths 0, ∀ hop ∈ path,
            Sample.acquaintance.Satisfied (Sample.records.holds none) a hop :=
  ⟨rfl, exists_assignment_of_mem_resolve Sample.records Sample.made_acquaintance rfl
    Sample.tree_acquaintance (by decide +kernel) Scorer.typeLast⟩

/-! ### Bounds of two kinds -/

namespace Sample

theorem tree_activated : activated.TreeShaped 0 := by
  have single : ∀ e < activated.edges.length, e = 0 := by decide
  have alone : ∀ n, activated.Around 0 n → n = 0 := by
    have unknowns : ∀ m < activated.nodes.length, (activated.token m).unknown?.isSome = true →
        m = 0 := by
      decide
    intro n around
    exact around.eq_or_unknown.elim id fun inside => unknowns n inside.1 inside.2
  refine ⟨fun n e _ joins => ?_, fun a b _ _ e f first second => ?_, ?_⟩
  · have loops : ∀ e < activated.edges.length, activated.owner e ∉ activated.values e := by
      decide
    exact loops e (Graph.lt_of_mem_values joins.2) (joins.1 ▸ joins.2)
  · rw [single e first.lt, single f second.lt]
  · refine (SimpleGraph.isAcyclic_bot (V := NodeId)).anti fun a b adjacent => ?_
    obtain ⟨distinct, here, there, _⟩ := adjacent
    exact absurd ((alone a here).trans (alone b there).symm) distinct

end Sample

/-- Bob is found, though no value between the bounds is stated of anything. -/
theorem Source.not_exists_assignment :
    Graph.empty.KnowsAll Sample.activating ∧ Sample.activated.isDefined 0 = false ∧
      Sample.activated.TreeShaped 0 ∧
      ∃ found, Sample.ledger.source.resolve Sample.activated 0 Scorer.typeLast = .ok found ∧
        ∃ v ∈ found, ¬ ∃ a : NodeId → Term, a 0 = v ∧
          ∀ path ∈ Sample.activated.paths 0, ∀ hop ∈ path,
            Sample.activated.Satisfied (Sample.ledger.holds none) a hop := by
  refine ⟨by decide, rfl, Sample.tree_activated, _, Sample.resolve_activated, _,
    SortedSet.mem_singleton.mpr rfl, ?_⟩
  intro assigned
  obtain ⟨a, _, satisfied⟩ := assigned
  have present : [Sample.activeWithin] ∈ Sample.activated.paths 0 := by
    rw [Sample.paths_activated]
    exact List.mem_singleton_self _
  obtain ⟨row, member, _, _, contained⟩ :=
    satisfied [Sample.activeWithin] present _ (List.mem_singleton_self _)
  have outside : ∀ row ∈ (Sample.ledger.holds none).toList,
      Sample.mixed.contains row.object = false := by
    decide
  have refused := outside row (SortedSet.mem_toList.mpr member)
  exact Bool.false_ne_true (refused.symm.trans contained)

end TripleQuery
