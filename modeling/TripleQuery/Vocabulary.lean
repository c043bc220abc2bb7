import TripleQuery.Term

/-!
The terms of RDF and RDF Schema that entailment rests on.
-/

namespace TripleQuery.Vocabulary

def rdf (name : String) : Term := .iri ("http://www.w3.org/1999/02/22-rdf-syntax-ns#" ++ name)

def rdfs (name : String) : Term := .iri ("http://www.w3.org/2000/01/rdf-schema#" ++ name)

def type : Term := rdf "type"

def subClassOf : Term := rdfs "subClassOf"

def subPropertyOf : Term := rdfs "subPropertyOf"

def member : Term := rdfs "member"

def containerMembershipProperty : Term := rdfs "ContainerMembershipProperty"

end TripleQuery.Vocabulary
