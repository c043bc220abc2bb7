import TripleQuery.Fault
import TripleQuery.SortedMap
import TripleQuery.Text.Blank

/-!
Registries of properties: descriptors in the order of registration, found by name and by link.
Names and links are unique, and no name is blank.
-/

namespace TripleQuery

/-- A property that holds several values grows; one that holds a single value replaces it. -/
structure Descriptor where
  name : String
  link : Term
  multiple : Bool
  deriving DecidableEq

/-- The indexes give positions in the list of descriptors. -/
structure Registry where
  target : Option Term
  descriptors : List Descriptor
  byName : SortedMap String Nat
  byLink : SortedMap Term Nat

namespace Registry

def empty : Registry := ⟨none, [], ∅, ∅⟩

instance : Inhabited Registry := ⟨empty⟩

def forClass (target : Term) : Registry := { empty with target := some target }

def register (r : Registry) (d : Descriptor) : Except Fault Registry :=
  if Text.isBlank d.name then .error .namelessProperty
  else if (r.byName.get? d.name).isSome then .error (.nameTaken d.name)
  else if (r.byLink.get? d.link).isSome then .error (.linkTaken d.link)
  else
    .ok
      { r with
        descriptors := r.descriptors ++ [d]
        byName := r.byName.insert d.name r.descriptors.length
        byLink := r.byLink.insert d.link r.descriptors.length }

def registerAll (r : Registry) (ds : List Descriptor) : Except Fault Registry :=
  ds.foldlM register r

def findName? (r : Registry) (name : String) : Option Descriptor :=
  (r.byName.get? name).bind fun i => r.descriptors[i]?

def findLink? (r : Registry) (link : Term) : Option Descriptor :=
  (r.byLink.get? link).bind fun i => r.descriptors[i]?

end Registry

end TripleQuery
