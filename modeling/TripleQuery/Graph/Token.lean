import TripleQuery.Interval
import TripleQuery.Triple

/-!
What a node of a graph stands for: a known term, an unknown, or any value within an interval.
-/

namespace TripleQuery

inductive Token where
  | term (term : Term)
  | unknown (index : Nat)
  | interval (bounds : Interval)
  deriving DecidableEq, Inhabited

namespace Token

def term? : Token → Option Term
  | term t => some t
  | unknown _ | interval _ => none

def unknown? : Token → Option Nat
  | unknown n => some n
  | term _ | interval _ => none

def interval? : Token → Option Interval
  | interval r => some r
  | term _ | unknown _ => none

/-- Whether a path may end here: at a term, or at an interval that bounds something. -/
def isAnchor : Token → Bool
  | term _ => true
  | unknown _ => false
  | interval r => r.isBounded

/-- An interval without bounds puts no condition on a statement. -/
def isCondition : Token → Bool
  | term _ | unknown _ => true
  | interval r => r.isBounded

def rank : Token → Nat
  | term _ => 0
  | unknown _ => 1
  | interval _ => 2

instance : Ord Token where
  compare :=
    compareLex (compareOn rank)
      (compareLex (compareOn term?) (compareLex (compareOn unknown?) (compareOn interval?)))

instance : Std.TransOrd Token :=
  inferInstanceAs (Std.TransCmp (compareLex _ (compareLex _ (compareLex _ _))))

instance : Std.LawfulEqOrd Token where
  compare_self := Std.ReflCmp.compare_self
  eq_of_compare {a b} h := by
    obtain ⟨_, h⟩ := Ordering.then_eq_eq.mp h
    obtain ⟨terms, h⟩ := Ordering.then_eq_eq.mp h
    obtain ⟨unknowns, intervals⟩ := Ordering.then_eq_eq.mp h
    have terms : a.term? = b.term? := Std.LawfulEqOrd.eq_of_compare terms
    have unknowns : a.unknown? = b.unknown? := Std.LawfulEqOrd.eq_of_compare unknowns
    have intervals : a.interval? = b.interval? := Std.LawfulEqOrd.eq_of_compare intervals
    cases a <;> cases b <;> simp_all [term?, unknown?, interval?]

def renderUnknown (index : Nat) : String := "?v" ++ index.repr

def render : Token → String
  | term t => t.render
  | unknown index => renderUnknown index
  | interval r => r.render

end Token

/-- A statement whose ends need not be known. -/
structure Statement where
  subject : Token
  predicate : Term
  object : Token
  deriving DecidableEq, Inhabited

namespace Statement

instance : Ord Statement where
  compare := compareLex (compareOn subject) (compareLex (compareOn predicate) (compareOn object))

instance : Std.TransOrd Statement := inferInstanceAs (Std.TransCmp (compareLex _ (compareLex _ _)))

instance : Std.LawfulEqOrd Statement where
  compare_self := Std.ReflCmp.compare_self
  eq_of_compare {a b} h := by
    obtain ⟨subjects, h⟩ := Ordering.then_eq_eq.mp h
    obtain ⟨predicates, objects⟩ := Ordering.then_eq_eq.mp h
    cases a
    cases b
    simp only [compareOn] at subjects predicates objects
    rw [Std.LawfulEqOrd.eq_of_compare subjects, Std.LawfulEqOrd.eq_of_compare predicates,
      Std.LawfulEqOrd.eq_of_compare objects]

def triple? (s : Statement) : Option Triple := do
  return ⟨← s.subject.term?, s.predicate, ← s.object.term?⟩

def render (s : Statement) : String :=
  s.subject.render ++ " " ++ s.predicate.render ++ " " ++ s.object.render ++ " ."

end Statement

end TripleQuery
