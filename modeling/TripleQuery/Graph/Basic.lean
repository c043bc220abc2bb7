import TripleQuery.Graph.Token
import TripleQuery.Graph.Registry

/-!
Graphs of nodes and property edges. An edge belongs to one owner and leads to any number of
values; each node knows the edges it owns and the edges that lead to it. Nodes and edges are
numbered in the order of their creation.
-/

namespace TripleQuery

abbrev NodeId := Nat

abbrev EdgeId := Nat

structure Node where
  token : Token
  properties : List EdgeId
  owners : List EdgeId
  deriving DecidableEq, Inhabited

structure Edge where
  owner : NodeId
  link : Term
  values : List NodeId
  deriving DecidableEq, Inhabited

structure Graph where
  nodes : List Node
  edges : List Edge
  nextUnknown : Nat
  deriving DecidableEq

namespace Graph

def empty : Graph := ⟨[], [], 0⟩

instance : Inhabited Graph := ⟨empty⟩

/-! ### Reading -/

def node (g : Graph) (n : NodeId) : Node := g.nodes.getD n default

def edge (g : Graph) (e : EdgeId) : Edge := g.edges.getD e default

def token (g : Graph) (n : NodeId) : Token := (g.node n).token

def properties (g : Graph) (n : NodeId) : List EdgeId := (g.node n).properties

def owners (g : Graph) (n : NodeId) : List EdgeId := (g.node n).owners

def owner (g : Graph) (e : EdgeId) : NodeId := (g.edge e).owner

def link (g : Graph) (e : EdgeId) : Term := (g.edge e).link

def values (g : Graph) (e : EdgeId) : List NodeId := (g.edge e).values

def children (g : Graph) (n : NodeId) : List NodeId := (g.properties n).flatMap g.values

def identifier? (g : Graph) (n : NodeId) : Option Term := (g.token n).term?

def isDefined (g : Graph) (n : NodeId) : Bool := (g.identifier? n).isSome

def isAnchor (g : Graph) (n : NodeId) : Bool := (g.token n).isAnchor

/-- Nodes are alike when their tokens are. -/
def sameIdentity (g : Graph) (a b : NodeId) : Bool := decide (a = b ∨ g.token a = g.token b)

def nodeIds (g : Graph) : List NodeId := List.range g.nodes.length

def find? (g : Graph) (identifier : Term) : Option NodeId :=
  g.nodeIds.find? fun n => decide (g.identifier? n = some identifier)

def propertyWithLink? (g : Graph) (owner : NodeId) (link : Term) : Option EdgeId :=
  (g.properties owner).find? fun e => decide (g.link e = link)

def propertyNamed? (g : Graph) (owner : NodeId) (registry : Registry) (name : String) :
    Option EdgeId :=
  (registry.findName? name).bind fun d => g.propertyWithLink? owner d.link

/-! ### Nodes -/

/-- A new node comes with its number. -/
def addNode (g : Graph) (token : Token) : NodeId × Graph :=
  (g.nodes.length, { g with nodes := g.nodes ++ [⟨token, [], []⟩] })

def addDefined (g : Graph) (identifier : Term) : NodeId × Graph := g.addNode (.term identifier)

/-- Each unknown gets a number of its own. -/
def addUnknown (g : Graph) : NodeId × Graph :=
  { g with nextUnknown := g.nextUnknown + 1 }.addNode (.unknown g.nextUnknown)

def addInterval (g : Graph) (bounds : Interval) : NodeId × Graph := g.addNode (.interval bounds)

/-! ### Edges -/

def addProperty (g : Graph) (owner : NodeId) (link : Term) : EdgeId × Graph :=
  (g.edges.length,
    { g with
      edges := g.edges ++ [⟨owner, link, []⟩]
      nodes := g.nodes.modify owner fun n =>
        { n with properties := n.properties ++ [g.edges.length] } })

def appendNew (l : List Nat) (a : Nat) : List Nat := if a ∈ l then l else l ++ [a]

/-- A value that the edge has already changes nothing. -/
def addValue (g : Graph) (e : EdgeId) (value : NodeId) : Graph :=
  if value ∈ g.values e then g
  else
    { g with
      edges := g.edges.modify e fun edge => { edge with values := edge.values ++ [value] }
      nodes := g.nodes.modify value fun n => { n with owners := appendNew n.owners e } }

def clearValues (g : Graph) (e : EdgeId) : Graph :=
  { g with
    edges := g.edges.modify e fun edge => { edge with values := [] }
    nodes := (g.values e).foldl
      (fun nodes value => nodes.modify value fun n =>
        { n with owners := n.owners.filter fun o => decide (o ≠ e) })
      g.nodes }

/-- The value takes the place of all others. -/
def setValue (g : Graph) (e : EdgeId) (value : NodeId) : Graph := (g.clearValues e).addValue e value

/-- One statement on an edge of its own. -/
def relate (g : Graph) (owner : NodeId) (link : Term) (value : NodeId) : EdgeId × Graph :=
  let (e, g) := g.addProperty owner link
  (e, g.addValue e value)

/-- The owner's property with the descriptor's link, made on first use. -/
def attach (g : Graph) (owner : NodeId) (d : Descriptor) : EdgeId × Graph :=
  match g.propertyWithLink? owner d.link with
  | some e => (e, g)
  | none => g.addProperty owner d.link

/-- Adds a value or replaces it, as the descriptor has it. -/
def set (g : Graph) (owner : NodeId) (d : Descriptor) (value : NodeId) : EdgeId × Graph :=
  let (e, g) := g.attach owner d
  (e, if d.multiple then g.addValue e value else g.setValue e value)

end Graph

end TripleQuery
