import TripleQuery.Term

/-!
Statements of a store, the three positions of a statement, and the two directions along it.
-/

namespace TripleQuery

inductive Position where
  | subject
  | predicate
  | object
  deriving DecidableEq

namespace Position

def name : Position → String
  | subject => "subject"
  | predicate => "predicate"
  | object => "object"

def title : Position → String
  | subject => "Subject"
  | predicate => "Predicate"
  | object => "Object"

/-- The other end of a statement; the predicate has none. -/
def opposite : Position → Option Position
  | subject => some object
  | object => some subject
  | predicate => none

end Position

/-- `down` leads from subject to object, `up` from object to subject. -/
inductive Direction where
  | down
  | up
  deriving DecidableEq

namespace Direction

def opposite : Direction → Direction
  | down => up
  | up => down

def source : Direction → Position
  | down => .subject
  | up => .object

def target : Direction → Position
  | down => .object
  | up => .subject

end Direction

structure Triple where
  subject : Term
  predicate : Term
  object : Term
  deriving DecidableEq, Inhabited

namespace Triple

instance : Ord Triple where
  compare := compareLex (compareOn subject) (compareLex (compareOn predicate) (compareOn object))

instance : Std.TransOrd Triple := inferInstanceAs (Std.TransCmp (compareLex _ (compareLex _ _)))

instance : Std.LawfulEqOrd Triple where
  compare_self := Std.ReflCmp.compare_self
  eq_of_compare {a b} h := by
    obtain ⟨subjects, h⟩ := Ordering.then_eq_eq.mp h
    obtain ⟨predicates, objects⟩ := Ordering.then_eq_eq.mp h
    cases a
    cases b
    simp only [compareOn] at subjects predicates objects
    rw [Std.LawfulEqOrd.eq_of_compare subjects, Std.LawfulEqOrd.eq_of_compare predicates,
      Std.LawfulEqOrd.eq_of_compare objects]

def get (t : Triple) : Position → Term
  | .subject => t.subject
  | .predicate => t.predicate
  | .object => t.object

def put (t : Triple) (position : Position) (term : Term) : Triple :=
  match position with
  | .subject => { t with subject := term }
  | .predicate => { t with predicate := term }
  | .object => { t with object := term }

@[simp] theorem get_put_self (t : Triple) (p : Position) (x : Term) : (t.put p x).get p = x := by
  cases p <;> rfl

theorem get_put_of_ne (t : Triple) {p q : Position} (h : q ≠ p) (x : Term) :
    (t.put p x).get q = t.get q := by
  cases p <;> cases q <;> simp_all [put, get]

@[simp] theorem put_get (t : Triple) (p : Position) : t.put p (t.get p) = t := by
  cases p <;> rfl

theorem put_put (t : Triple) (p : Position) (x y : Term) : (t.put p x).put p y = t.put p y := by
  cases p <;> rfl

def render (t : Triple) : String :=
  t.subject.render ++ " " ++ t.predicate.render ++ " " ++ t.object.render ++ " ."

/-- A basic graph pattern: one statement a line. -/
def renderAll (ts : List Triple) : String := String.join (ts.map fun t => t.render ++ "\n")

end Triple

end TripleQuery
