import TripleQuery.Layer.Interval
import TripleQuery.Layer.Membership
import TripleQuery.Layer.Closure

/-!
Stacks of layers over a source. Each layer reads only through what is below it; the top one sees
the caller's query.
-/

namespace TripleQuery

inductive Layer where
  | interval
  | membership
  | closure (matcher : Matcher) (reflexive : Bool)

namespace Layer

def name : Layer → String
  | interval => "range"
  | membership => "container_membership"
  | closure _ _ => "zero_or_more"

def view : Layer → Source → Source
  | interval, next => next.withIntervals
  | membership, next => next.withMemberships
  | closure matcher reflexive, next => next.withClosure matcher reflexive

end Layer

/-- Layers over a source, the top one first. -/
def Source.under (base : Source) (layers : List Layer) : Source := layers.foldr Layer.view base

end TripleQuery
