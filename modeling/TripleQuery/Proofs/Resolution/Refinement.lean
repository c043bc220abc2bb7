import TripleQuery.Proofs.Encoding
import TripleQuery.Proofs.Graph.Operations
import TripleQuery.Proofs.Path.Routes
import TripleQuery.Proofs.Resolution.Solutions
import TripleQuery.Proofs.Source.Tree

/-!
Resolution of an unknown node over trees of sources. Narrowing, short cuts and the order of the
hops leave the result of the plain evaluation as it is.

An interval whose bounds are of two kinds contains nothing, and is refused where it is made from its
bounds, but not where it is decoded. A table compares values with each bound for itself and finds
some in it, so that such an interval must not come to a table.
-/

namespace TripleQuery

namespace Graph

variable {g : Graph}

theorem placed_of_mem_hops (linked : g.Linked) {n next : NodeId} {hop : Hop}
    (member : (hop, next) ∈ g.hops n) : hop.Placed := by
  rcases (mem_hops linked).mp member with ⟨e, _, noInterval, rfl⟩ | ⟨e, _, _, rfl⟩
  · exact ⟨Position.noConfusion, fun bounds same => absurd same (noInterval bounds)⟩
  · exact ⟨Position.noConfusion, fun _ _ => rfl⟩

theorem Route.placed (linked : g.Linked) {n : NodeId} {path : Path} (route : g.Route n path) :
    ∀ hop ∈ path, hop.Placed := by
  induction route with
  | arrive step _ =>
    intro hop member
    rw [List.mem_singleton.mp member]
    exact placed_of_mem_hops linked step
  | onward step _ _ ih =>
    exact List.forall_mem_cons.mpr ⟨placed_of_mem_hops linked step, ih⟩

/-- All intervals on the paths from a node are among those allowed. -/
def AllowsFrom (g : Graph) (start : NodeId) (allowed : Interval → Prop) : Prop :=
  ∀ path ∈ g.paths start, ∀ hop ∈ path, hop.Allowed allowed

instance (g : Graph) (start : NodeId) (allowed : Interval → Prop) [DecidablePred allowed] :
    Decidable (g.AllowsFrom start allowed) :=
  inferInstanceAs (Decidable (∀ path ∈ g.paths start, ∀ hop ∈ path, hop.Allowed allowed))

theorem AllowsFrom.reads {start : NodeId} (uniform : g.AllowsFrom start Interval.Uniform)
    (tree : SourceTree) : g.AllowsFrom start tree.Reads :=
  fun path member hop inside bounds other _ => uniform path member hop inside bounds other

end Graph

namespace Source

theorem resolve_of_unknown {s : Source} {g : Graph} {start : NodeId}
    (unknown : g.isDefined start = false) (score : Scorer) :
    s.resolve g start score = s.withIntervals.resolveTrie score (.ofPaths (g.paths start)) := by
  unfold resolve
  split
  · rename_i identifier found
    rw [Graph.isDefined, found] at unknown
    cases unknown
  · rfl

theorem resolve_of_answers {s : Source} {allowed : Interval → Prop}
    {held : Option Term → SortedSet Triple} (answers : s.Answers allowed held) {g : Graph}
    (linked : g.Linked) {start : NodeId} (unknown : g.isDefined start = false)
    (given : g.AllowsFrom start allowed) (score : Scorer) :
    s.resolve g start score = .ok ((Trie.ofPaths (g.paths start)).solutions (held none)) := by
  have placed : ∀ path ∈ g.paths start, ∀ hop ∈ path, hop.Placed := fun path member =>
    (Graph.route_of_mem_paths member).placed linked
  rw [resolve_of_unknown unknown]
  exact resolveTrie_ofPaths (answers_withIntervals answers) rfl score placed given

end Source

/-! ### Two people who know each other -/

namespace Sample

def knows : Term := .iri "knows"

def person : Term := .iri "Person"

def age : Term := .iri "age"

def workingAge : Interval := ⟨some (.integer 17), some (.integer 65)⟩

/-- A person, and someone of working age whom the person knows. -/
def acquainting : List Graph.Operation :=
  [.addUnknown, .addUnknown, .addDefined person, .addInterval workingAge, .relate 0 knows 1,
    .relate 0 Vocabulary.type 2, .relate 1 age 3]

def acquaintance : Graph := Graph.empty.after acquainting

theorem made_acquaintance : Graph.empty.KnowsAll acquainting := by decide

/-- The same where they know each other, which closes a cycle. -/
def befriending : List Graph.Operation := acquainting ++ [.relate 1 knows 0]

def friends : Graph := Graph.empty.after befriending

theorem made_friends : Graph.empty.KnowsAll befriending := by decide

/-- Who knows whom, by the records of the town. -/
def known : List Triple := [⟨.iri "ann", knows, .iri "bob"⟩, ⟨.iri "bob", knows, .iri "ann"⟩]

def described : List Triple :=
  [⟨.iri "ann", Vocabulary.type, person⟩, ⟨.iri "bob", age, .integer 30⟩,
    ⟨.iri "cid", Vocabulary.type, person⟩]

/-- The town's records, as far as they are public, and those of the office. -/
def records : SourceTree :=
  .merge [.subset (.memory true [.extend known (some (.iri "town"))]) (.singleton (.iri "town")),
    .table [.extend described none]]

theorem held_records : records.holds none = .ofList (known ++ described) := by decide

end Sample

/-- The result is the same for every scorer. -/
theorem Source.resolve_eq_solutions (tree : SourceTree) {operations : List Graph.Operation}
    (made : Graph.empty.KnowsAll operations) {start : NodeId}
    (unknown : (Graph.empty.after operations).isDefined start = false)
    (reads : (Graph.empty.after operations).AllowsFrom start tree.Reads) (score : Scorer) :
    tree.source.resolve (Graph.empty.after operations) start score =
      .ok ((Trie.ofPaths ((Graph.empty.after operations).paths start)).solutions
        (tree.holds none)) :=
  resolve_of_answers tree.answers (Graph.tidy_after made).toLinked unknown reads score

theorem Source.resolve_friends :
    Sample.records.asksTable = true ∧
      Sample.records.source.resolve Sample.friends 0 Scorer.typeLast =
        .ok (.singleton (.iri "ann")) := by
  have reads : Sample.friends.AllowsFrom 0 Sample.records.Reads := by decide +kernel
  have found := resolve_eq_solutions Sample.records Sample.made_friends rfl reads Scorer.typeLast
  rw [Sample.held_records] at found
  refine ⟨rfl, found.trans (congrArg Except.ok ?_)⟩
  decide +kernel

/-! ### Bounds of two kinds -/

theorem Source.resolveTrie_single (s : Source) (score : Scorer) (hop : Hop) :
    s.resolveTrie score (.ofPaths [[hop]]) = s.resolveHop hop (.ok ∅) none := by
  have trie : Trie.ofPaths [[hop]] = .branch hop .leaf .leaf := rfl
  rw [trie, resolveTrie]
  simp only [resolveBranches, byScore, List.mergeSort_nil, List.mergeSort_singleton, join,
    Option.getD_none]
  cases s.resolveHop hop (.ok ∅) none with
  | error fault => rfl
  | ok terms =>
    show (if terms.isEmpty then .ok ∅ else .ok terms) = Except.ok terms
    split
    · rename_i nothing
      rw [SortedSet.isEmpty_iff.mp nothing]
    · rfl

namespace Sample

/-- From a truth value to a number. -/
def mixed : Interval := ⟨some (.boolean false), some (.integer 5)⟩

def active : Term := .iri "active"

/-- Something that is active to a degree between the bounds. -/
def activating : List Graph.Operation :=
  [.addUnknown, .addInterval mixed, .relate 0 active 1]

def activated : Graph := Graph.empty.after activating

def ledger : SourceTree := .table [.add ⟨.iri "bob", active, .boolean true⟩ none]

def activeWithin : Hop := ⟨active, .interval mixed, .subject, 0⟩

theorem paths_activated : activated.paths 0 = [[activeWithin]] := by decide +kernel

theorem find_activeWithin : ledger.source.withIntervals.resolveHop activeWithin (.ok ∅) none =
    .ok (.singleton (.iri "bob")) := by
  decide

theorem resolve_activated :
    ledger.source.resolve activated 0 Scorer.typeLast = .ok (.singleton (.iri "bob")) := by
  rw [Source.resolve_of_unknown rfl, paths_activated, Source.resolveTrie_single, find_activeWithin]

end Sample

/-- The table has it that Bob is active, which is no degree between the bounds, and finds him. -/
theorem Source.resolve_ne_solutions :
    Interval.decode? Sample.mixed.encode = some Sample.mixed ∧
      Graph.empty.KnowsAll Sample.activating ∧ Sample.activated.isDefined 0 = false ∧
      Sample.ledger.source.resolve Sample.activated 0 Scorer.typeLast ≠
        .ok ((Trie.ofPaths (Sample.activated.paths 0)).solutions (Sample.ledger.holds none)) := by
  refine ⟨Sample.mixed.decode_encode, by decide, rfl, ?_⟩
  rw [Sample.resolve_activated]
  decide +kernel

end TripleQuery
