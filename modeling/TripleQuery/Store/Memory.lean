import TripleQuery.Source.Basic
import TripleQuery.Store.Indexed

/-!
A store of named graphs in memory. The graph without a name stands first.
-/

namespace TripleQuery.Store

structure Memory where
  graphs : SortedMap (Option Term) Indexed
  evaluatesIntervals : Bool

namespace Memory

def empty (evaluatesIntervals : Bool) : Memory := ⟨∅, evaluatesIntervals⟩

instance : Inhabited Memory := ⟨empty false⟩

/-- Whether the statement was new to the graph, and the store that holds it. -/
def add (m : Memory) (t : Triple) (context : Option Term) : Bool × Memory :=
  let (new, graph) := ((m.graphs.get? context).getD ∅).insert t
  (new, { m with graphs := m.graphs.insert context graph })

/-- The graph is there afterwards, also when there is nothing to put into it. -/
def extend (m : Memory) (ts : List Triple) (context : Option Term) : Memory :=
  { m with graphs := m.graphs.insert context (((m.graphs.get? context).getD ∅).extend ts) }

/-- Removes from one graph, or from every graph. Whether the statement was there comes first. -/
def remove (m : Memory) (t : Triple) : Option Term → Bool × Memory
  | some context =>
    match m.graphs.get? (some context) with
    | none => (false, m)
    | some graph =>
      let (found, graph) := graph.erase t
      (found, { m with graphs := m.graphs.insert (some context) graph })
  | none =>
    (m.graphs.values.any fun graph => (graph.erase t).1,
      { m with graphs := m.graphs.mapValues fun graph => (graph.erase t).2 })

def statements (m : Memory) : SortedSet Triple :=
  .ofList (m.graphs.values.flatMap fun graph => graph.triples.toList)

def size (m : Memory) : Nat := m.statements.size

def isEmpty (m : Memory) : Bool := m.graphs.values.all fun graph => graph.triples.isEmpty

def contexts (m : Memory) : List Term :=
  m.graphs.entries.filterMap fun entry => if entry.2.triples.isEmpty then none else entry.1

/-! ### Queries -/

def graphsIn (m : Memory) : Option Term → List Indexed
  | some context => (m.graphs.get? (some context)).toList
  | none => m.graphs.values

theorem mem_values_of_mem_graphsIn {m : Memory} {context : Option Term} {graph : Indexed}
    (h : graph ∈ m.graphsIn context) : graph ∈ m.graphs.values := by
  cases context with
  | none => exact h
  | some context => exact SortedMap.mem_values_of_get? (Option.mem_toList.mp h)

def run (m : Memory) (p : Pattern) (context : Option Term) : Answer :=
  if !m.evaluatesIntervals && p.hasInterval then .error (.intervalRefused p)
  else if p.matchesNothing then .ok ∅
  else .ok (.ofList ((m.graphsIn context).flatMap fun graph => graph.collect p))

def select (m : Memory) (mode : Mode) (p : Pattern) (context : Option Term) : Answer :=
  match mode with
  | .plain => if p.hasChoices then .error (.choicesRefused p) else m.run p context
  | .listed => m.run p context

def names (m : Memory) : List Term :=
  (m.graphs.values.flatMap Indexed.held).flatMap fun t => [t.subject, t.predicate, t.object]

theorem get_mem_names {m : Memory} {p : Pattern} {context : Option Term}
    {rows : SortedSet Triple} (h : m.run p context = .ok rows) {row : Triple} (member : row ∈ rows)
    (i : Position) : row.get i ∈ m.names := by
  unfold run at h
  split at h
  · cases h
  · split at h
    · cases h
      simp at member
    · cases h
      obtain ⟨graph, inside, found⟩ := List.mem_flatMap.mp (SortedSet.mem_ofList.mp member)
      refine List.mem_flatMap.mpr ⟨row, List.mem_flatMap.mpr
        ⟨graph, mem_values_of_mem_graphsIn inside, Indexed.mem_held_of_mem_collect found⟩, ?_⟩
      cases i <;> simp [Triple.get]

theorem bounded_select (m : Memory) : Bounded m.select m.names := by
  intro mode pattern context rows h row member i
  cases mode with
  | listed => exact .inl (get_mem_names h member i)
  | plain =>
    simp only [select] at h
    split at h
    · cases h
    · exact .inl (get_mem_names h member i)

def source (m : Memory) : Source where
  select := m.select
  evaluatesIntervals := m.evaluatesIntervals
  bounded := ⟨m.names, m.bounded_select⟩

end Memory

end TripleQuery.Store
