import TripleQuery.Layer.Stack
import TripleQuery.Graph.Component
import TripleQuery.Path.Enumeration
import TripleQuery.Path.Trie

/-!
Resolution of a node: the terms that a source can put in its place. The paths to the anchors are
folded into a trie, whose branches are joined from the anchors inward.
-/

namespace TripleQuery

/-- Hops with a lower score are resolved first. -/
abbrev Scorer := Hop → Int

def Scorer.typeLast : Scorer := fun hop => if hop.predicate = Vocabulary.type then 1 else 0

namespace Source

def hopPattern (hop : Hop) (known : Slot) : Pattern :=
  (⟨.any, .exact hop.predicate, .any⟩ : Pattern).put hop.otherPosition known

def targets (s : Source) (hop : Hop) (p : Pattern) : Except Fault (SortedSet Term) :=
  (s.select p.mode p none).map fun rows => .ofList (rows.toList.map fun row => row.get hop.unknown)

/-- A hop from an anchor is narrowed to what its last sibling found, if there is one. -/
def resolveAnchored (s : Source) (hop : Hop) (known : Slot) (previous : Option (SortedSet Term)) :
    Except Fault (SortedSet Term) :=
  let p := hopPattern hop known
  s.targets hop (previous.elim p fun found => p.put hop.unknown (.oneOf found))

/-- A hop from an unknown starts at what was found `below` it. -/
def resolveHop (s : Source) (hop : Hop) (below : Except Fault (SortedSet Term))
    (previous : Option (SortedSet Term)) : Except Fault (SortedSet Term) :=
  match hop.other with
  | .unknown _ => do
    let terms ← below
    if terms.isEmpty then return ∅ else s.targets hop (hopPattern hop (.oneOf terms))
  | .term term => s.resolveAnchored hop (.exact term) previous
  | .interval bounds => s.resolveAnchored hop (.within bounds) previous

/-- What satisfies all sibling hops. The first hop that finds nothing ends the join. -/
def join (s : Source) (common previous : Option (SortedSet Term)) :
    List (Hop × Except Fault (SortedSet Term)) → Except Fault (SortedSet Term)
  | [] => .ok (common.getD ∅)
  | (hop, below) :: rest => do
    let found ← s.resolveHop hop below previous
    if found.isEmpty then return ∅
    else join s (some (common.elim found (· ∩ found))) (some found) rest

/-- Siblings with equal scores stay in their order. -/
def byScore {α : Type} (score : Scorer) (siblings : List (Hop × α)) : List (Hop × α) :=
  siblings.mergeSort fun a b => decide (score a.1 ≤ score b.1)

def resolveBranches (s : Source) (score : Scorer) :
    Trie → List (Hop × Except Fault (SortedSet Term))
  | .leaf => []
  | .branch hop below beside =>
    (hop, s.join none none (byScore score (resolveBranches s score below))) ::
      resolveBranches s score beside

def resolveTrie (s : Source) (score : Scorer) (t : Trie) : Except Fault (SortedSet Term) :=
  s.join none none (byScore score (s.resolveBranches score t))

/-! ### Known nodes -/

/-- Whether a source holds every one of some statements; the first that is missing decides. -/
def containsAll (s : Source) : List Triple → Except Fault Bool
  | [] => .ok true
  | t :: rest => do if ← s.contains t none then containsAll s rest else return false

/-- Whether a source holds all statements that the graph makes between known terms around a
node. -/
def confirms (s : Source) (g : Graph) (n : NodeId) : Except Fault Bool :=
  s.withIntervals.containsAll ((g.componentTrail n false).filterMap Statement.triple?)

/-! ### The whole -/

/-- A known node resolves to its own term if the source confirms it. -/
def resolve (s : Source) (g : Graph) (n : NodeId) (score : Scorer) :
    Except Fault (SortedSet Term) :=
  match g.identifier? n with
  | some identifier => do
    if ← s.confirms g n then return .singleton identifier else return ∅
  | none => s.withIntervals.resolveTrie score (.ofPaths (g.paths n))

/-- Resolution among the instances of a class and its sub-classes. -/
def load (s : Source) (g : Graph) (n : NodeId) (target : Term) : Except Fault (SortedSet Term) :=
  (s.withClosure (ClosureRule.typesOf target).matcher true).resolve g n Scorer.typeLast

end Source

end TripleQuery
