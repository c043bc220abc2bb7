import TripleQuery.Graph.Traversal
import TripleQuery.Path.Hop

/-!
All paths from a node to an anchor that pass through no node twice.
-/

namespace TripleQuery.Graph

/-- The hops up to the owners of a node. Intervals only stand at objects. -/
def hopsUp (g : Graph) (n : NodeId) : List (Hop × NodeId) :=
  (g.owners n).filterMap fun e =>
    let owner := g.owner e
    match g.token owner with
    | .interval _ => none
    | token => some (⟨g.link e, token, .object, n⟩, owner)

def hopsDown (g : Graph) (n : NodeId) : List (Hop × NodeId) :=
  (g.properties n).flatMap fun e =>
    (g.values e).filterMap fun value =>
      let token := g.token value
      if token.isCondition then some (⟨g.link e, token, .subject, n⟩, value) else none

def hops (g : Graph) (n : NodeId) : List (Hop × NodeId) := g.hopsUp n ++ g.hopsDown n

/-- The paths from a node that pass through free nodes only. -/
def pathsThrough (g : Graph) (free : List NodeId) (n : NodeId) : List Path :=
  if g.isAnchor n then [[]]
  else if _inside : n ∈ free then
    (g.hops n).flatMap fun (hop, next) => (pathsThrough g (free.erase n) next).map (hop :: ·)
  else []
termination_by free.length
decreasing_by exact Traversal.length_erase_lt _inside

/-- An anchor has no paths, since nothing is left to solve. -/
def paths (g : Graph) (start : NodeId) : List Path :=
  if g.isAnchor start then [] else g.pathsThrough g.nodeIds start

end TripleQuery.Graph
