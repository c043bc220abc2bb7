import TripleQuery.Proofs.SortedSet
import TripleQuery.Triple

/-!
What stores hold, told without graphs, indexes or rows: a set of quads, each a statement in a
context. A change adds quads or takes some away; stores are measured against what a history of
changes leaves.
-/

namespace TripleQuery.Store

/-- A statement in a graph. No context is the graph without a name. -/
structure Quad where
  context : Option Term
  triple : Triple
  deriving DecidableEq

namespace Quad

instance : Ord Quad where
  compare := compareLex (compareOn context) (compareOn triple)

instance : Std.TransOrd Quad := inferInstanceAs (Std.TransCmp (compareLex _ _))

instance : Std.LawfulEqOrd Quad where
  compare_self := Std.ReflCmp.compare_self
  eq_of_compare {a b} h := by
    obtain ⟨contexts, triples⟩ := Ordering.then_eq_eq.mp h
    cases a
    cases b
    simp only [compareOn] at contexts triples
    rw [Std.LawfulEqOrd.eq_of_compare contexts, Std.LawfulEqOrd.eq_of_compare triples]

/-- Whether a query or a removal in a context reaches the quad; without a context it reaches every
graph. -/
def isIn (q : Quad) (context : Option Term) : Bool := context.all fun c => decide (q.context = some c)

end Quad

inductive Change where
  | add (t : Triple) (context : Option Term)
  | extend (ts : List Triple) (context : Option Term)
  | remove (t : Triple) (context : Option Term)
  deriving DecidableEq

abbrev Quads := SortedSet Quad

namespace Quads

variable {quads : Quads} {t : Triple} {context : Option Term}

/-- The quads of one statement that a removal reaches: one for each graph that holds it. -/
def hits (quads : Quads) (t : Triple) (context : Option Term) : Quads :=
  quads.filter fun q => q.isIn context && decide (q.triple = t)

def change (quads : Quads) : Change → Quads
  | .add t context => quads.insert ⟨context, t⟩
  | .extend ts context => quads.insertMany (ts.map (Quad.mk context))
  | .remove t context => quads.filter fun q => decide (q ∉ quads.hits t context)

/-- What changes leave, from the first to the last. -/
def after (history : List Change) : Quads := history.foldl change ∅

/-- The quads that a change brings in. -/
def broughtBy (quads : Quads) (c : Change) : Quads :=
  (quads.change c).filter fun q => decide (q ∉ quads)

/-- The statements of one graph, or of all graphs together. -/
def statementsIn (quads : Quads) (context : Option Term) : SortedSet Triple :=
  .ofList ((quads.filter fun q => q.isIn context).toList.map Quad.triple)

/-- The names of graphs with a statement. -/
def contexts (quads : Quads) : SortedSet Term := .ofList (quads.toList.filterMap Quad.context)

/-! ### Members -/

theorem mem_hits {q : Quad} :
    q ∈ quads.hits t context ↔ q ∈ quads ∧ q.isIn context = true ∧ q.triple = t := by
  simp [hits]

theorem mem_change_extend {ts : List Triple} {name : Option Term} :
    (⟨name, t⟩ : Quad) ∈ quads.change (.extend ts context) ↔
      (name = context ∧ t ∈ ts) ∨ ⟨name, t⟩ ∈ quads := by
  rw [change, SortedSet.mem_insertMany, List.mem_map]
  refine or_congr_left ⟨?_, ?_⟩
  · rintro ⟨u, given, same⟩
    obtain ⟨rfl, rfl⟩ := Quad.mk.inj same
    exact ⟨rfl, given⟩
  · rintro ⟨rfl, given⟩
    exact ⟨t, given, rfl⟩

theorem mem_change_remove {q : Quad} : q ∈ quads.change (.remove t context) ↔
    q ∈ quads ∧ ¬ (q.isIn context = true ∧ q.triple = t) := by
  rw [change, SortedSet.mem_filter, decide_eq_true_eq, mem_hits]
  exact and_congr_right fun member => by rw [and_iff_right member]

theorem mem_statementsIn :
    t ∈ quads.statementsIn context ↔ ∃ graph, ⟨graph, t⟩ ∈ quads ∧
      (⟨graph, t⟩ : Quad).isIn context = true := by
  simp only [statementsIn, SortedSet.mem_ofList, List.mem_map, SortedSet.mem_toList,
    SortedSet.mem_filter]
  constructor
  · rintro ⟨⟨graph, _⟩, found, rfl⟩
    exact ⟨graph, found⟩
  · rintro ⟨graph, found⟩
    exact ⟨_, found, rfl⟩

theorem mem_contexts {c : Term} : c ∈ quads.contexts ↔ ∃ t, ⟨some c, t⟩ ∈ quads := by
  simp only [contexts, SortedSet.mem_ofList, List.mem_filterMap, SortedSet.mem_toList]
  constructor
  · rintro ⟨⟨_, t⟩, member, rfl⟩
    exact ⟨t, member⟩
  · rintro ⟨t, member⟩
    exact ⟨_, member, rfl⟩

theorem isEmpty_statementsIn : (quads.statementsIn none).isEmpty = quads.isEmpty := by
  rw [Bool.eq_iff_iff, SortedSet.isEmpty_iff_not_mem, SortedSet.isEmpty_iff_not_mem]
  constructor
  · exact fun none q member => none q.triple (mem_statementsIn.mpr ⟨q.context, member, rfl⟩)
  · intro none t stated
    obtain ⟨graph, member, _⟩ := mem_statementsIn.mp stated
    exact none _ member

/-! ### Changes -/

theorem size_change_add :
    (quads.change (.add t context)).size = quads.size + if ⟨context, t⟩ ∈ quads then 0 else 1 := by
  split
  · rename_i member
    rw [change, SortedSet.insert_of_mem member, Nat.add_zero]
  · rename_i absent
    exact SortedSet.size_insert_of_not_mem absent

theorem change_extend_cons (ts : List Triple) : quads.change (.extend (t :: ts) context) =
    (quads.change (.add t context)).change (.extend ts context) := by
  apply SortedSet.ext
  intro q
  simp only [change, SortedSet.mem_insertMany, SortedSet.mem_insert, List.map_cons, List.mem_cons]
  exact or_assoc.trans or_left_comm

end Quads

end TripleQuery.Store
