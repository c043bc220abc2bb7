import TripleQuery.Ownership.Statements

/-!
What falls together with a node, and what is shared. Legends are the nodes below a start that
something besides the start's own subtree still refers to; heroes are the start and every node
below it that is reached without entering a legend.
-/

namespace TripleQuery.Graph

/-! ### Legends

Each edge that is met below the start spends one reference; what has references left is shared. -/

/-- The edges met below a node, each as its owner and its value, in the order of the walk. Edges
back to the start are left out. -/
def edgesBelow (g : Graph) (start : NodeId) : List (NodeId × NodeId) :=
  let next := fun n => (g.children n).filter fun value => decide (value ≠ start)
  (Traversal.order next g.nodeIds [start]).flatMap fun n => (next n).map fun value => (n, value)

/-- How many references to a node there are: edges of the graph, or statements of the source. -/
def referenceCount (g : Graph) (store : Option Source) (n : NodeId) : Except Fault Int :=
  match store with
  | none => .ok (g.owners n).length
  | some s =>
    match g.identifier? n with
    | none => .ok 0
    | some identifier => (s.count (Source.leadingTo identifier) none).map Int.ofNat

/-- A source holds no statement for an edge of an unknown owner, so that following it spends
nothing. -/
def spends (g : Graph) (store : Option Source) (owner : NodeId) : Bool :=
  store.isNone || g.isDefined owner

/-- The references left to each node after some edges. They are counted when a node is first
met. -/
def spendAll (g : Graph) (store : Option Source) (left : SortedMap NodeId Int) :
    List (NodeId × NodeId) → Except Fault (SortedMap NodeId Int)
  | [] => .ok left
  | (owner, value) :: rest => do
    let count ← match left.get? value with
      | some count => .ok count
      | none => g.referenceCount store value
    let spent := if g.spends store owner then 1 else 0
    spendAll g store (left.insert value (count - spent)) rest

def legends (g : Graph) (start : NodeId) (store : Option Source) :
    Except Fault (SortedSet NodeId) := do
  let left ← g.spendAll store ∅ (g.edgesBelow start)
  return .ofList (left.entries.filterMap fun (n, count) => if 0 < count then some n else none)

/-! ### Heroes -/

/-- The heroes in the order of their discovery. The walk goes on from the values of a node last
first. -/
def heroNodes (g : Graph) (start : NodeId) (legends : SortedSet NodeId) : List NodeId :=
  let owned := fun n => (g.children n).filter fun value => decide (value ∉ legends)
  ((Traversal.order (fun n => (owned n).reverse) g.nodeIds [start]).flatMap owned ++
    [start]).eraseDups

def ownTriples (g : Graph) (store : Option Source) (n : NodeId) : Answer :=
  match g.identifier? n, store with
  | some identifier, some s => s.triples (Source.about identifier) none
  | _, _ => .ok (.ofList ((g.ownSteps n).map Prod.fst))

/-- The statements about the heroes, for legends that are known. -/
def heroesAmong (g : Graph) (start : NodeId) (store : Option Source)
    (legends : SortedSet NodeId) : Answer :=
  Answer.unite ((g.heroNodes start legends).map (g.ownTriples store))

def heroes (g : Graph) (start : NodeId) (store : Option Source) : Answer := do
  g.heroesAmong start store (← g.legends start store)

end TripleQuery.Graph
