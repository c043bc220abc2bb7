import TripleQuery.Interval
import TripleQuery.Triple

/-!
Patterns of statements. Each position is open, fixed to a term, one of listed terms, or within an
interval; an empty list matches nothing.
-/

namespace TripleQuery

inductive Slot where
  | any
  | exact (term : Term)
  | choices (terms : List Term)
  | within (bounds : Interval)
  deriving DecidableEq

namespace Slot

/-- One of the members of a set, listed in order. -/
def oneOf (terms : SortedSet Term) : Slot := choices terms.toList

def accepts : Slot → Term → Bool
  | any, _ => true
  | exact expected, term => decide (expected = term)
  | choices terms, term => decide (term ∈ terms)
  | within bounds, term => bounds.contains term

/-- Whether the slot names `term`, alone or in its list. -/
def mentions : Slot → Term → Bool
  | exact expected, term => decide (expected = term)
  | choices terms, term => decide (term ∈ terms)
  | any, _ | within _, _ => false

def isChoices : Slot → Bool
  | choices _ => true
  | any | exact _ | within _ => false

def isInterval : Slot → Bool
  | within _ => true
  | any | exact _ | choices _ => false

def isEmptyChoice : Slot → Bool
  | choices [] => true
  | _ => false

def fixed? : Slot → Option Term
  | exact term => some term
  | any | choices _ | within _ => none

theorem accepts_of_mentions {s : Slot} {t : Term} (h : s.mentions t = true) :
    s.accepts t = true := by
  cases s with
  | any => cases h
  | exact _ => exact h
  | choices _ => exact h
  | within _ => cases h

@[simp] theorem mentions_oneOf {s : SortedSet Term} {t : Term} :
    (oneOf s).mentions t = true ↔ t ∈ s := by
  simp [oneOf, mentions]

@[simp] theorem accepts_oneOf {s : SortedSet Term} {t : Term} :
    (oneOf s).accepts t = true ↔ t ∈ s := by
  simp [oneOf, accepts]

def render : Slot → String
  | any => "?"
  | exact term => term.render
  | choices terms => "[" ++ String.intercalate ", " (terms.map Term.render) ++ "]"
  | within bounds => bounds.render

end Slot

structure Pattern where
  subject : Slot
  predicate : Slot
  object : Slot
  deriving DecidableEq

namespace Pattern

def any : Pattern := ⟨.any, .any, .any⟩

def ofTriple (t : Triple) : Pattern := ⟨.exact t.subject, .exact t.predicate, .exact t.object⟩

def get (p : Pattern) : Position → Slot
  | .subject => p.subject
  | .predicate => p.predicate
  | .object => p.object

def put (p : Pattern) (position : Position) (slot : Slot) : Pattern :=
  match position with
  | .subject => { p with subject := slot }
  | .predicate => { p with predicate := slot }
  | .object => { p with object := slot }

@[simp] theorem get_put_self (p : Pattern) (i : Position) (s : Slot) : (p.put i s).get i = s := by
  cases i <;> rfl

theorem get_put_of_ne (p : Pattern) {i j : Position} (h : j ≠ i) (s : Slot) :
    (p.put i s).get j = p.get j := by
  cases i <;> cases j <;> simp_all [put, get]

def accepts (p : Pattern) (t : Triple) : Bool :=
  p.subject.accepts t.subject && p.predicate.accepts t.predicate && p.object.accepts t.object

theorem accepts_iff {p : Pattern} {t : Triple} :
    p.accepts t = true ↔ ∀ i, (p.get i).accepts (t.get i) = true := by
  simp only [accepts, Bool.and_eq_true]
  constructor
  · rintro ⟨⟨subject, predicate⟩, object⟩ (_ | _ | _)
    · exact subject
    · exact predicate
    · exact object
  · exact fun h => ⟨⟨h .subject, h .predicate⟩, h .object⟩

@[simp] theorem accepts_ofTriple {t u : Triple} : (ofTriple t).accepts u = true ↔ t = u := by
  cases t
  cases u
  simp [ofTriple, accepts, Slot.accepts, and_assoc]

def hasChoices (p : Pattern) : Bool :=
  p.subject.isChoices || p.predicate.isChoices || p.object.isChoices

def hasInterval (p : Pattern) : Bool :=
  p.subject.isInterval || p.predicate.isInterval || p.object.isInterval

def matchesNothing (p : Pattern) : Bool :=
  p.subject.isEmptyChoice || p.predicate.isEmptyChoice || p.object.isEmptyChoice

def Names (p : Pattern) (term : Term) : Prop := ∃ i, (p.get i).mentions term = true

theorem names_of_put {p : Pattern} {i : Position} {slot : Slot} {t : Term}
    (h : (p.put i slot).Names t) : p.Names t ∨ slot.mentions t = true := by
  obtain ⟨j, h⟩ := h
  by_cases same : j = i
  · subst same
    rw [get_put_self] at h
    exact .inr h
  · rw [get_put_of_ne p same] at h
    exact .inl ⟨j, h⟩

theorem names_of_put_any {p : Pattern} {i : Position} {t : Term} (h : (p.put i .any).Names t) :
    p.Names t :=
  (names_of_put h).resolve_right Bool.false_ne_true

def render (p : Pattern) : String :=
  "(" ++ p.subject.render ++ " " ++ p.predicate.render ++ " " ++ p.object.render ++ ")"

end Pattern

end TripleQuery
