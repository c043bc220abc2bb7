import TripleQuery.Encoding
import TripleQuery.Layer.Stack

/-!
Which layers stand above a store, and how that is written as JSON.
-/

namespace TripleQuery

open Json (Value)

structure ClosureSetting where
  rule : ClosureRule
  reflexive : Bool
  deriving DecidableEq

namespace ClosureRule

def name : ClosureRule → String
  | types => "sub_class_of"
  | typesOf _ => "sub_class_of_target"
  | subClassesOf _ => "sub_class_of_sub_class_of"
  | subPropertiesOf _ => "sub_property_of"

def subject? : ClosureRule → Option (String × Term)
  | types => none
  | typesOf target | subClassesOf target => some ("class", target)
  | subPropertiesOf property => some ("property", property)

/-- The field that a rule needs, and the rule made with it. -/
def shape? (name : String) : Option (Option String × (Term → ClosureRule)) :=
  if name = "sub_class_of" then some (none, fun _ => types)
  else if name = "sub_class_of_target" then some (some "class", typesOf)
  else if name = "sub_class_of_sub_class_of" then some (some "class", subClassesOf)
  else if name = "sub_property_of" then some (some "property", subPropertiesOf)
  else none

end ClosureRule

namespace ClosureSetting

def layer (s : ClosureSetting) : Layer := .closure s.rule.matcher s.reflexive

def toJson (s : ClosureSetting) : Value :=
  .object <|
    (some "rule", .string (some s.rule.name)) ::
      ((s.rule.subject?.map fun (field, term) => (some field, term.toJson)).toList ++
        [(some "reflexive", .boolean s.reflexive)])

/-- The setting of the named rule, from its fields as `read` finds them. -/
def ofFields? (name : String) (read : List String → Option (List (Option Value))) :
    Option ClosureSetting := do
  let (field, rule) ← ClosureRule.shape? name
  match field with
  | none =>
    let [reflexive] ← read ["reflexive"] | none
    return ⟨rule default, ← Value.orElse true Value.boolean? reflexive⟩
  | some field =>
    let [some term, reflexive] ← read [field, "reflexive"] | none
    return ⟨rule (← Term.ofJson? true term), ← Value.orElse true Value.boolean? reflexive⟩

/-- How deep the fields of a rule may nest: what is held back until its rule is known is read in
full, within a limit of 127 levels, three of which lie around the fields. -/
def depthLimit : Nat := 124

/-- The rule's name may come after its fields, or first in an array. -/
def ofJson? : Value → Option ClosureSetting
  | .object members => do
    let [.string (some name)] := Value.occurrences "rule" members | none
    let fields := members.filter fun m => decide (m.1 ≠ some "rule")
    if Value.areMembersPlain depthLimit fields then
      ofFields? name fun names => Value.memberFields? names fields
    else none
  | .array (.string (some name) :: items) =>
    if Value.areItemsPlain depthLimit items then
      ofFields? name fun names => Value.itemFields? names items
    else none
  | _ => none

end ClosureSetting

structure QueryConfig where
  intervals : Bool
  memberships : Bool
  closures : List ClosureSetting
  deriving DecidableEq

namespace QueryConfig

def standard : QueryConfig := ⟨true, false, []⟩

instance : Inhabited QueryConfig := ⟨standard⟩

/-- From top to bottom: intervals, container membership, then the closures in their order. -/
def layers (c : QueryConfig) : List Layer :=
  (if c.intervals then [.interval] else []) ++ (if c.memberships then [.membership] else []) ++
    c.closures.map ClosureSetting.layer

def build (c : QueryConfig) (base : Source) : Source := base.under c.layers

def toJson (c : QueryConfig) : Value :=
  .object [(some "range_layer", .boolean c.intervals),
    (some "container_membership", .boolean c.memberships),
    (some "closures", .array (c.closures.map ClosureSetting.toJson))]

def closuresOfJson? : Value → Option (List ClosureSetting)
  | .array items => items.mapM ClosureSetting.ofJson?
  | _ => none

def ofJson? (v : Value) : Option QueryConfig := do
  let [intervals, memberships, closures] ←
    v.looseFields? ["range_layer", "container_membership", "closures"] | none
  return ⟨← Value.orElse true Value.boolean? intervals,
    ← Value.orElse false Value.boolean? memberships, ← Value.orElse [] closuresOfJson? closures⟩

def encode (c : QueryConfig) : String := c.toJson.renderSpread

def decode (text : String) : Except Fault QueryConfig :=
  match (Json.parse? text).bind ofJson? with
  | some c => .ok c
  | none => .error .unreadableConfiguration

end QueryConfig

end TripleQuery
