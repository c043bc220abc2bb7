import TripleQuery.Json.Record
import TripleQuery.Pattern

/-!
Terms, triples and intervals as JSON.
-/

namespace TripleQuery

open Json (Value)

namespace Kind

def all : List Kind := [iri, blank, text, integer, boolean]

def ofName? (name : String) : Option Kind := all.find? fun kind => kind.name = name

@[simp] theorem ofName?_name (k : Kind) : ofName? k.name = some k := by
  cases k <;> decide

/-- The kind at the head of an array: its name or, inside a value that was held back, its place in
the order of kinds. -/
def ofHead? (heldBack : Bool) : Value → Option Kind
  | .string name => name.bind ofName?
  | .number (.integer rank) => if heldBack then all.find? fun kind => kind.rank = rank else none
  | _ => none

end Kind

namespace Term

def payload : Term → Value
  | iri name => .string (some name)
  | blank label => .string (some label)
  | text content => .string (some content)
  | integer value => .number (.integer value.toInt)
  | boolean value => .boolean value

def toJson (t : Term) : Value :=
  .object [(some "kind", .string (some t.kind.name)), (some "value", t.payload)]

def ofPayload? (kind : Kind) (value : Value) : Option Term :=
  match kind with
  | .iri => value.text?.map iri
  | .blank => value.text?.map blank
  | .text => value.text?.map text
  | .integer =>
    (value.integer? (-9223372036854775808) 9223372036854775807).map fun n => integer (.ofInt n)
  | .boolean => value.boolean?.map boolean

/-- A term is a record of its kind and its value. In an object the kind is a plain name, at the
head of an array it is not. -/
def ofJson? (heldBack : Bool) : Value → Option Term
  | .object members => do
    let [some kind, some value] ← Value.memberFields? ["kind", "value"] members | none
    ofPayload? (← Kind.ofName? (← kind.name? heldBack)) value
  | .array [kind, value] => do ofPayload? (← Kind.ofHead? heldBack kind) value
  | _ => none

def encode (t : Term) : String := t.toJson.render

def decode? (text : String) : Option Term := (Json.parse? text).bind (ofJson? false)

end Term

namespace Triple

def toJson (t : Triple) : Value :=
  .object [(some "subject", t.subject.toJson), (some "predicate", t.predicate.toJson),
    (some "object", t.object.toJson)]

def ofJson? (v : Value) : Option Triple := do
  let [some subject, some predicate, some object] ←
    v.fields? ["subject", "predicate", "object"] | none
  return ⟨← Term.ofJson? false subject, ← Term.ofJson? false predicate,
    ← Term.ofJson? false object⟩

def encode (t : Triple) : String := t.toJson.render

def decode? (text : String) : Option Triple := (Json.parse? text).bind ofJson?

end Triple

namespace Interval

def boundToJson : Option Term → Value
  | some term => term.toJson
  | none => .null

/-- A bound may be missing or null. -/
def boundOfJson? : Option Value → Option (Option Term)
  | none | some .null => some none
  | some value => (Term.ofJson? false value).map some

def toJson (r : Interval) : Value :=
  .object [(some "min", boundToJson r.min), (some "max", boundToJson r.max)]

def ofJson? (v : Value) : Option Interval := do
  let [min, max] ← v.fields? ["min", "max"] | none
  return ⟨← boundOfJson? min, ← boundOfJson? max⟩

def encode (r : Interval) : String := r.toJson.render

def decode? (text : String) : Option Interval := (Json.parse? text).bind ofJson?

end Interval

namespace Direction

def name : Direction → String
  | down => "down"
  | up => "up"

def ofName? (name : String) : Option Direction :=
  [down, up].find? fun d => d.name = name

def decode? (text : String) : Option Direction := do
  ofName? (← (← Json.parse? text).name? false)

end Direction

namespace Position

def ofName? (name : String) : Option Position :=
  [subject, predicate, object].find? fun p => p.name = name

def decode? (text : String) : Option Position := do
  ofName? (← (← Json.parse? text).name? false)

end Position

end TripleQuery
