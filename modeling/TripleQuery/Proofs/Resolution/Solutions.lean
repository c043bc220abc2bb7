import TripleQuery.Proofs.Resolution.Join
import TripleQuery.Proofs.Source.Answers

/-!
What the hops of a trie ask of the statements that are held, without regard to order or
narrowing, and that the join of a source which answers from those statements comes to it.
-/

namespace TripleQuery

/-! ### Plain evaluation -/

namespace Hop

/-- What a hop asks of its other end, where an unknown stands for one of the terms `below` it. -/
def slot (hop : Hop) (below : SortedSet Term) : Slot :=
  match hop.other with
  | .term term => .exact term
  | .interval bounds => .within bounds
  | .unknown _ => .oneOf below

def accepts (hop : Hop) (below : SortedSet Term) (row : Triple) : Bool :=
  decide (row.predicate = hop.predicate) && (hop.slot below).accepts (row.get hop.otherPosition)

def solutions (hop : Hop) (held : SortedSet Triple) (below : SortedSet Term) : SortedSet Term :=
  .ofList ((held.filter (hop.accepts below)).toList.map fun row => row.get hop.unknown)

theorem mem_solutions {hop : Hop} {held : SortedSet Triple} {below : SortedSet Term} {v : Term} :
    v ∈ hop.solutions held below ↔
      ∃ row ∈ held, hop.accepts below row = true ∧ row.get hop.unknown = v := by
  rw [solutions, SortedSet.mem_ofList, List.mem_map]
  constructor
  · intro found
    obtain ⟨row, member, same⟩ := found
    obtain ⟨inside, fits⟩ := SortedSet.mem_filter.mp member
    exact ⟨row, inside, fits, same⟩
  · intro found
    obtain ⟨row, inside, fits, same⟩ := found
    exact ⟨row, SortedSet.mem_filter.mpr ⟨inside, fits⟩, same⟩

/-- A hop solves for one end of a statement, and an interval stands at an object. -/
def Placed (hop : Hop) : Prop :=
  hop.unknown ≠ .predicate ∧ ∀ bounds, hop.other = .interval bounds → hop.unknown = .subject

/-- An interval at the other end is one of those allowed. -/
def Allowed (hop : Hop) (allowed : Interval → Prop) : Prop :=
  ∀ bounds, hop.other = .interval bounds → allowed bounds

instance (hop : Hop) (allowed : Interval → Prop) [DecidablePred allowed] :
    Decidable (hop.Allowed allowed) :=
  match other : hop.other with
  | .interval bounds =>
    decidable_of_iff (allowed bounds) ⟨fun given _ same => Token.interval.inj (other.symm.trans same) ▸ given,
      fun given => given bounds other⟩
  | .term _ | .unknown _ => isTrue fun _ same => by rw [other] at same; cases same

end Hop

/-- What satisfies every branch of a trie. Nothing does where there is no branch. -/
def Trie.solutions (held : SortedSet Triple) : Trie → SortedSet Term
  | .leaf => ∅
  | .branch hop below beside =>
    let own := hop.solutions held (below.solutions held)
    if beside.isLeaf then own else own ∩ beside.solutions held

/-- How a hop is solved among the statements that are held. -/
def Hop.solver (held : SortedSet Triple) : Solver := fun hop below => hop.solutions held below

theorem Trie.combine_solver (held : SortedSet Triple) (t : Trie) :
    t.combine (Hop.solver held) = t.solutions held := by
  induction t with
  | leaf => rfl
  | branch hop below beside below_ih beside_ih =>
    rw [combine, solutions, below_ih, beside_ih]
    rfl

theorem Trie.mem_solutions_ofPaths {held : SortedSet Triple} {paths : List Path}
    (inhabited : ofPaths paths ≠ leaf) {v : Term} :
    v ∈ (ofPaths paths).solutions held ↔
      ∀ hop, Path.rests hop paths ≠ [] →
        v ∈ hop.solutions held ((ofPaths (Path.rests hop paths)).solutions held) := by
  simp only [← combine_solver]
  exact mem_combine_ofPaths inhabited

/-! ### Queries of hops -/

namespace Source

theorem get_hopPattern {hop : Hop} (placed : hop.Placed) (known : Slot) :
    (hopPattern hop known).get hop.unknown = .any := by
  obtain ⟨predicate, other, unknown, target⟩ := hop
  cases unknown with
  | subject => rfl
  | predicate => exact absurd rfl placed.1
  | object => rfl

theorem interval_of_slot {hop : Hop} {below : SortedSet Term} {bounds : Interval}
    (same : hop.slot below = .within bounds) : hop.other = .interval bounds := by
  unfold Hop.slot at same
  split at same
  · cases same
  · cases same
    assumption
  · cases same

theorem atObject_hopPattern {hop : Hop} (placed : hop.Placed) (below : SortedSet Term) :
    (hopPattern hop (hop.slot below)).AtObject := by
  cases slot : hop.slot below with
  | within bounds =>
    rw [hopPattern, Hop.otherPosition, placed.2 bounds (interval_of_slot slot)]
    exact ⟨rfl, rfl⟩
  | any | exact term | choices terms => exact Pattern.atObject_put ⟨rfl, rfl⟩ _ rfl

theorem allowed_hopPattern {hop : Hop} {allowed : Interval → Prop} (given : hop.Allowed allowed)
    (below : SortedSet Term) : (hopPattern hop (hop.slot below)).Allowed allowed := by
  intro bounds within
  -- The pattern is open but for its predicate and the other end of the hop.
  unfold hopPattern Hop.otherPosition at within
  split at within
  · exact given bounds (interval_of_slot within)
  · cases within
  · cases within

theorem accepts_hopPattern (hop : Hop) (below : SortedSet Term) (row : Triple) :
    (hopPattern hop (hop.slot below)).accepts row = hop.accepts below row := by
  have unset : (⟨.any, .exact hop.predicate, .any⟩ : Pattern).get hop.otherPosition = .any := by
    unfold Hop.otherPosition
    split <;> rfl
  rw [hopPattern, Pattern.accepts_put_of_any unset]
  simp [Hop.accepts, Pattern.accepts, Slot.accepts, eq_comm]

theorem resolveHop_of_anchor {s : Source} {hop : Hop} (anchored : ∀ k, hop.other ≠ .unknown k)
    {below : SortedSet Term} {previous : Option (SortedSet Term)} :
    s.resolveHop hop (.ok below) previous = s.resolveAnchored hop (hop.slot below) previous := by
  rw [resolveHop, Hop.slot]
  cases other : hop.other with
  | term t => rfl
  | interval bounds => rfl
  | unknown k => exact absurd other (anchored k)

theorem resolveHop_of_unknown {s : Source} {hop : Hop} {k : Nat} (other : hop.other = .unknown k)
    {below : SortedSet Term} {previous : Option (SortedSet Term)} :
    s.resolveHop hop (.ok below) previous =
      if below.isEmpty then .ok ∅ else s.targets hop (hopPattern hop (hop.slot below)) := by
  rw [resolveHop, Hop.slot, other]
  rfl

/-! ### Hops over what is held -/

section Answers

variable {s : Source} {allowed : Interval → Prop} {held : Option Term → SortedSet Triple}
  (answers : s.Answers allowed held) (evaluates : s.evaluatesIntervals = true)

include answers evaluates

theorem targets_eq (hop : Hop) {p : Pattern} (placed : p.AtObject) (given : p.Allowed allowed) :
    s.targets hop p =
      .ok (.ofList (((held none).filter p.accepts).toList.map fun row => row.get hop.unknown)) := by
  rw [targets, answers p.mode p none (takes_mode placed fun _ => evaluates) given]
  rfl

theorem targets_hopPattern {hop : Hop} (placed : hop.Placed) (given : hop.Allowed allowed)
    (below : SortedSet Term) :
    s.targets hop (hopPattern hop (hop.slot below)) = .ok (hop.solutions (held none) below) := by
  rw [targets_eq answers evaluates hop (atObject_hopPattern placed below)
      (allowed_hopPattern given below),
    Hop.solutions, SortedSet.filter_congr (accepts_hopPattern hop below)]

omit answers evaluates in
theorem accepts_narrowed {hop : Hop} (placed : hop.Placed) (below known : SortedSet Term)
    (row : Triple) :
    ((hopPattern hop (hop.slot below)).put hop.unknown (.oneOf known)).accepts row = true ↔
      hop.accepts below row = true ∧ row.get hop.unknown ∈ known := by
  rw [Pattern.accepts_put_of_any (get_hopPattern placed _), accepts_hopPattern, Bool.and_eq_true,
    Slot.accepts_oneOf]

omit answers evaluates in
theorem solutions_of_nothing {hop : Hop} {k : Nat} (crosses : hop.other = .unknown k)
    {statements : SortedSet Triple} : hop.solutions statements ∅ = ∅ := by
  refine SortedSet.ext fun v => ⟨fun solves => ?_, fun member => ?_⟩
  · obtain ⟨row, _, fits, _⟩ := Hop.mem_solutions.mp solves
    have accepted := (Bool.and_eq_true_iff.mp fits).2
    rw [Hop.slot, crosses] at accepted
    exact absurd (Slot.accepts_oneOf.mp accepted) (SortedSet.not_mem_empty _)
  · exact absurd member (SortedSet.not_mem_empty v)

theorem resolveHop_settled {hop : Hop} (placed : hop.Placed) (given : hop.Allowed allowed)
    (below : SortedSet Term) : s.resolveHop hop (.ok below) none = .ok (hop.solutions (held none) below) := by
  by_cases crosses : ∃ k, hop.other = .unknown k
  · obtain ⟨k, other⟩ := crosses
    rw [resolveHop_of_unknown other]
    by_cases nothing : below.isEmpty = true
    · rw [if_pos nothing, SortedSet.isEmpty_iff.mp nothing, solutions_of_nothing other]
    · rw [if_neg nothing]
      exact targets_hopPattern answers evaluates placed given below
  · rw [resolveHop_of_anchor fun k other => crosses ⟨k, other⟩]
    exact targets_hopPattern answers evaluates placed given below

/-- Narrowing by what a sibling found leaves out nothing that the sibling allows. -/
theorem resolveAnchored_narrowed {hop : Hop} (placed : hop.Placed) (given : hop.Allowed allowed)
    (below known : SortedSet Term) :
    ∃ found, s.resolveAnchored hop (hop.slot below) (some known) = .ok found ∧
      ∀ v, v ∈ found ↔ v ∈ hop.solutions (held none) below ∧ v ∈ known := by
  have narrow : ((hopPattern hop (hop.slot below)).put hop.unknown (.oneOf known)).AtObject :=
    Pattern.atObject_put (atObject_hopPattern placed below) hop.unknown rfl
  have reads : ((hopPattern hop (hop.slot below)).put hop.unknown (.oneOf known)).Allowed allowed :=
    Pattern.allowed_put (allowed_hopPattern given below) hop.unknown rfl
  refine ⟨_, targets_eq answers evaluates hop narrow reads, fun v => ?_⟩
  rw [SortedSet.mem_ofList, List.mem_map, Hop.mem_solutions]
  constructor
  · intro found
    obtain ⟨row, narrowed, rfl⟩ := found
    obtain ⟨inside, accepted⟩ := SortedSet.mem_filter.mp narrowed
    obtain ⟨fits, kept⟩ := (accepts_narrowed placed below known row).mp accepted
    exact ⟨⟨row, inside, fits, rfl⟩, kept⟩
  · intro given
    obtain ⟨⟨row, inside, fits, rfl⟩, kept⟩ := given
    have accepted := (accepts_narrowed placed below known row).mpr ⟨fits, kept⟩
    exact ⟨row, SortedSet.mem_filter.mpr ⟨inside, accepted⟩, rfl⟩

theorem steady_of_answers {hop : Hop} (placed : hop.Placed) (given : hop.Allowed allowed) :
    s.Steady (Hop.solver (held none)) hop := by
  refine steady_of_narrowed (resolveHop_settled answers evaluates placed given) ?_
  intro anchored below known
  rw [resolveHop_of_anchor anchored]
  exact resolveAnchored_narrowed answers evaluates placed given below known

/-- Whatever the scores are, the resolution of paths comes to their plain evaluation. -/
theorem resolveTrie_ofPaths (score : Scorer) {paths : List Path}
    (placed : ∀ path ∈ paths, ∀ hop ∈ path, hop.Placed)
    (given : ∀ path ∈ paths, ∀ hop ∈ path, hop.Allowed allowed) :
    s.resolveTrie score (.ofPaths paths) = .ok ((Trie.ofPaths paths).solutions (held none)) := by
  rw [← Trie.combine_solver]
  refine resolveTrie_of_steady score fun path member hop inside => ?_
  exact steady_of_answers answers evaluates (placed path member hop inside)
    (given path member hop inside)

end Answers

end Source

end TripleQuery
