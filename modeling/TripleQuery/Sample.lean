import TripleQuery.Graph.Basic
import TripleQuery.Store.Memory
import TripleQuery.Vocabulary

/-!
Sample data: a chain of classes and some groups, and the star-shaped query that goes with them.
-/

namespace TripleQuery

namespace Sample

def name (label : String) : Term := .iri ("http://example.org/bench/" ++ label)

def classNamed (k : Nat) : Term := name ("C" ++ k.repr)

def groupNamed (k : Nat) : Term := name ("g" ++ k.repr)

def instanceNamed (k : Nat) : Term := name ("i" ++ k.repr)

def score : Term := name "score"

def inGroup : Term := name "inGroup"

/-- A chain or a choice of groups that has no member. -/
inductive Refusal where
  | noClasses
  | noGroups
  deriving DecidableEq

def Refusal.message : Refusal → String
  | noClasses => "class_depth must be positive"
  | noGroups => "groups must be positive"

/-- Each class but the first is a sub-class of the one before it. -/
structure Dataset where
  triples : SortedSet Triple
  classes : List Term
  groups : List Term

def chain (depth : Nat) : List Triple :=
  (List.range (depth - 1)).map fun k => ⟨classNamed (k + 1), Vocabulary.subClassOf, classNamed k⟩

/-- The classes and groups before any instance is placed in them. -/
def bare (depth groups : Nat) : Except Refusal Dataset :=
  if depth = 0 then .error .noClasses
  else if groups = 0 then .error .noGroups
  else
    .ok
      { triples := .ofList (chain depth)
        classes := (List.range depth).map classNamed
        groups := (List.range groups).map groupNamed }

def Dataset.store (d : Dataset) : Store.Memory :=
  (Store.Memory.empty false).extend d.triples.toList none

end Sample

/-- What is of a class, in a group, and scored between two bounds. -/
def Graph.star (target group : Term) (low high : Int64) : NodeId × Graph :=
  let (start, g) := Graph.empty.addUnknown
  let (ofClass, g) := g.addDefined target
  let (ofGroup, g) := g.addDefined group
  let (scored, g) := g.addInterval ⟨some (.integer low), some (.integer high)⟩
  let (_, g) := g.relate start Vocabulary.type ofClass
  let (_, g) := g.relate start Sample.inGroup ofGroup
  let (_, g) := g.relate start Sample.score scored
  (start, g)

end TripleQuery
