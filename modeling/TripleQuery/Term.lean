import TripleQuery.SortedSet
import TripleQuery.Text.Quoted

/-!
Terms: the values a statement is made of. They are ordered by kind first and by value within a
kind, texts by code point.
-/

namespace TripleQuery

inductive Kind where
  | iri
  | blank
  | text
  | integer
  | boolean
  deriving DecidableEq

def Kind.name : Kind → String
  | .iri => "iri"
  | .blank => "blank"
  | .text => "text"
  | .integer => "integer"
  | .boolean => "boolean"

def Kind.rank : Kind → Nat
  | .iri => 0
  | .blank => 1
  | .text => 2
  | .integer => 3
  | .boolean => 4

theorem Kind.rank_injective {a b : Kind} (h : a.rank = b.rank) : a = b := by
  revert h
  cases a <;> cases b <;> decide

theorem Kind.name_injective {a b : Kind} (h : a.name = b.name) : a = b := by
  revert h
  cases a <;> cases b <;> decide

inductive Term where
  | iri (name : String)
  | blank (label : String)
  | text (content : String)
  | integer (value : Int64)
  | boolean (value : Bool)
  deriving DecidableEq, Inhabited

namespace Term

def kind : Term → Kind
  | iri _ => .iri
  | blank _ => .blank
  | text _ => .text
  | integer _ => .integer
  | boolean _ => .boolean

def sameKind (a b : Term) : Bool := decide (a.kind = b.kind)

def isLiteral : Term → Bool
  | text _ | integer _ | boolean _ => true
  | iri _ | blank _ => false

/-! ### Order -/

def letters : Term → String
  | iri name => name
  | blank label => label
  | text content => content
  | integer _ | boolean _ => ""

/-- The numeric part of a value; `false` comes before `true`. -/
def number : Term → Int
  | integer value => value.toInt
  | boolean value => if value then 1 else 0
  | iri _ | blank _ | text _ => 0

instance : Ord Term where
  compare :=
    compareLex (compareOn (·.kind.rank)) (compareLex (compareOn letters) (compareOn number))

instance : Std.TransOrd Term := inferInstanceAs (Std.TransCmp (compareLex _ (compareLex _ _)))

theorem eq_of_parts {a b : Term} (kinds : a.kind = b.kind) (texts : a.letters = b.letters)
    (numbers : a.number = b.number) : a = b := by
  cases a <;> cases b <;> cases kinds
  · exact congrArg iri texts
  · exact congrArg blank texts
  · exact congrArg text texts
  · exact congrArg integer (Int64.toInt_inj.mp numbers)
  · rename_i x y
    cases x <;> cases y <;> simp_all [number]

instance : Std.LawfulEqOrd Term where
  compare_self := Std.ReflCmp.compare_self
  eq_of_compare {a b} h := by
    obtain ⟨ranks, h⟩ := Ordering.then_eq_eq.mp h
    obtain ⟨texts, numbers⟩ := Ordering.then_eq_eq.mp h
    exact eq_of_parts (Kind.rank_injective (Std.LawfulEqOrd.eq_of_compare ranks))
      (Std.LawfulEqOrd.eq_of_compare texts) (Std.LawfulEqOrd.eq_of_compare numbers)

def precedes (a b : Term) : Bool := (compare a b).isLT

/-! ### Written form -/

def render : Term → String
  | iri name => "<" ++ name ++ ">"
  | blank label => "_:" ++ label
  | text content => Text.quoted content
  | integer value => value.toInt.repr
  | boolean value => if value then "true" else "false"

end Term

end TripleQuery
