import TripleQuery.Graph.Basic
import TripleQuery.Graph.Traversal

/-!
The statements around a node, up and down. Unless unknowns are to be crossed, only nodes that
stand for terms are entered and reported.
-/

namespace TripleQuery.Graph

def admits (g : Graph) (unknowns : Bool) (n : NodeId) : Bool := unknowns || g.isDefined n

def stepsUp (g : Graph) (unknowns : Bool) (n : NodeId) : List (Statement × NodeId) :=
  (g.owners n).filterMap fun e =>
    let owner := g.owner e
    if g.admits unknowns owner then some (⟨g.token owner, g.link e, g.token n⟩, owner) else none

def stepsDown (g : Graph) (unknowns : Bool) (n : NodeId) : List (Statement × NodeId) :=
  (g.properties n).flatMap fun e =>
    (g.values e).filterMap fun value =>
      if g.admits unknowns value then some (⟨g.token n, g.link e, g.token value⟩, value) else none

def componentSteps (g : Graph) (unknowns : Bool) (n : NodeId) : List (Statement × NodeId) :=
  if g.admits unknowns n then g.stepsUp unknowns n ++ g.stepsDown unknowns n else []

/-- The walk over the component of a node, owners before values. A statement is met from both of
its ends. -/
def componentTrail (g : Graph) (start : NodeId) (unknowns : Bool) : List Statement :=
  Traversal.trailFrom (g.componentSteps unknowns) g.nodeIds start

def component (g : Graph) (start : NodeId) (unknowns : Bool) : SortedSet Statement :=
  .ofList (g.componentTrail start unknowns)

end TripleQuery.Graph
