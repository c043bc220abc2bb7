import TripleQuery.Pattern

/-!
What can go wrong, by cause. Queries that nothing satisfies, missing anchors and cycles are no
faults; they have empty answers.
-/

namespace TripleQuery

/-- The two ways to put a pattern to a source: `plain` takes no choice lists. -/
inductive Mode where
  | plain
  | listed
  deriving DecidableEq

def Mode.name : Mode → String
  | .plain => "triples"
  | .listed => "triples_choices"

def Pattern.mode (p : Pattern) : Mode := if p.hasChoices then .listed else .plain

inductive Fault where
  /-- The bounds of an interval are of different kinds. -/
  | kindClash (clash : KindClash)
  /-- A choice list where none is taken. -/
  | choicesRefused (pattern : Pattern)
  /-- An interval put to a store that evaluates none. -/
  | intervalRefused (pattern : Pattern)
  /-- An interval on a position where a store compares no values. -/
  | intervalMisplaced (position : Position)
  /-- A closure with several starts, and no choice list to hold them. -/
  | manyStarts (count : Nat) (position : Position) (pattern : Pattern)
  | namelessProperty
  | nameTaken (name : String)
  | linkTaken (link : Term)
  /-- A guard turned the query away. -/
  | guarded (mode : Mode) (pattern : Pattern) (context : Option Term)
  | unreadableTerm (stored : String)
  | unreadableConfiguration
  | settingRefused (name value : String)
  deriving DecidableEq

namespace Fault

inductive Category where
  | connection
  | query
  | invalidInput
  | configuration
  deriving DecidableEq

def Category.label : Category → String
  | connection => "connection error"
  | query => "query error"
  | invalidInput => "invalid input"
  | configuration => "configuration error"

def category : Fault → Category
  | settingRefused _ _ => .connection
  | guarded _ _ _ | unreadableTerm _ => .query
  | choicesRefused _ | intervalRefused _ | intervalMisplaced _ => .invalidInput
  | kindClash _ | manyStarts _ _ _ | namelessProperty | nameTaken _ | linkTaken _
  | unreadableConfiguration => .configuration

def detail : Fault → String
  | kindClash clash =>
    "range bounds must share a kind (got " ++ clash.min.name ++ " and " ++ clash.max.name ++ ")"
  | choicesRefused pattern => "choice lists require triples_choices: " ++ pattern.render
  | intervalRefused pattern => "store does not evaluate ranges: " ++ pattern.render
  | intervalMisplaced position =>
    "ranges are only supported in the object position, not " ++ position.name
  | manyStarts count position pattern =>
    "closure over " ++ count.repr ++ " start terms needs a choice list at " ++ position.title ++
      " in " ++ pattern.render
  | namelessProperty => "property name must be set"
  | nameTaken name => "property " ++ name ++ " registered twice"
  | linkTaken link => "predicate " ++ link.render ++ " already has a descriptor"
  | guarded mode pattern context =>
    "refused " ++ mode.name ++ " " ++ pattern.render ++ " in " ++
      (context.elim "none" Term.render)
  | unreadableTerm stored => "not a term: " ++ stored
  | unreadableConfiguration => "not a query configuration"
  | settingRefused name value => name ++ " = " ++ value

def message (f : Fault) : String := f.category.label ++ ": " ++ f.detail

end Fault

end TripleQuery
