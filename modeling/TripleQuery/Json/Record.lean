import TripleQuery.Json.Value

/-!
Records and plain names in JSON. A record is an object, where unknown members are passed over and
known ones may not be repeated, or an array of its fields in order.
-/

namespace TripleQuery.Json.Value

def occurrences (name : String) (members : List (Option String × Value)) : List Value :=
  (members.filter fun m => decide (m.1 = some name)).map Prod.snd

/-- The value of a field in an object, if the field occurs at most once. -/
def member? (members : List (Option String × Value)) (name : String) : Option (Option Value) :=
  match occurrences name members with
  | [] => some none
  | [value] => some (some value)
  | _ => none

/-- The named fields of an object. Each key has to have a text. -/
def memberFields? (names : List String) (members : List (Option String × Value)) :
    Option (List (Option Value)) :=
  if members.all (·.1.isSome) then names.mapM (member? members) else none

/-- The items of an array as fields; there are no more items than fields. -/
def itemFields? (names : List String) (items : List Value) : Option (List (Option Value)) :=
  if items.length ≤ names.length then
    some (items.map some ++ List.replicate (names.length - items.length) none)
  else none

/-- A record whose fields may all be missing. -/
def looseFields? (names : List String) : Value → Option (List (Option Value))
  | object members => memberFields? names members
  | array items => itemFields? names items
  | _ => none

/-- A record whose array form is complete. -/
def fields? (names : List String) : Value → Option (List (Option Value))
  | object members => memberFields? names members
  | array items => if items.length = names.length then some (items.map some) else none
  | _ => none

def orElse {α : Type} (fallback : α) (read : Value → Option α) : Option Value → Option α
  | none => some fallback
  | some value => read value

def text? : Value → Option String
  | string text => text
  | _ => none

def boolean? : Value → Option Bool
  | boolean b => some b
  | _ => none

def integer? (least greatest : Int) : Value → Option Int
  | number (.integer n) => if least ≤ n ∧ n ≤ greatest then some n else none
  | _ => none

/-- A name that carries no value: the name as a text, or as the only key of an object. Inside a
value that was held back, an empty object stands for no value as `null` does. -/
def name? (heldBack : Bool) : Value → Option String
  | string text => text
  | object [(key, null)] => key
  | object [(key, object [])] => if heldBack then key else none
  | _ => none

end TripleQuery.Json.Value
