import TripleQuery.Graph.Basic

/-!
Hops, the steps of a query path. A hop is one statement, seen from the node it is to solve for;
its other end lies one step closer to an anchor.
-/

namespace TripleQuery

/-- `unknown` is the position of `target`, and `other` stands at the opposite end. -/
structure Hop where
  predicate : Term
  other : Token
  unknown : Position
  target : NodeId
  deriving DecidableEq

namespace Hop

def otherPosition (h : Hop) : Position :=
  match h.unknown with
  | .subject => .object
  | .predicate | .object => .subject

def render (h : Hop) : String :=
  let node := "[n" ++ h.target.repr ++ "]"
  match h.unknown with
  | .subject => node ++ " " ++ h.predicate.render ++ " " ++ h.other.render
  | .predicate | .object => h.other.render ++ " " ++ h.predicate.render ++ " " ++ node

end Hop

/-- From the start out to an anchor. -/
abbrev Path := List Hop

def Path.render (p : Path) : String := String.intercalate " / " (p.map Hop.render)

end TripleQuery
