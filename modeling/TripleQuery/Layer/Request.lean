import TripleQuery.Pattern
import TripleQuery.Vocabulary

/-!
Requests for a closure, and the rules that make them. A rule looks at a pattern and says whose
closure is to stand at which of its positions.
-/

namespace TripleQuery

/-- The closure of `start` along `predicate` takes the place of the pattern at `position`. Without
a start the pattern stays as it is, and its answers are entailed without a limit. -/
structure ClosureRequest where
  start : List Term
  predicate : Term
  direction : Direction
  position : Position
  deriving DecidableEq

namespace Slot

def named? : Slot → Option (List Term)
  | exact term => some [term]
  | choices terms => some terms
  | any | within _ => none

theorem mentions_of_named? {s : Slot} {terms : List Term} (h : s.named? = some terms) {t : Term}
    (member : t ∈ terms) : s.mentions t = true := by
  cases s with
  | exact term =>
    cases h
    exact decide_eq_true (List.mem_singleton.mp member).symm
  | choices _ =>
    cases h
    exact decide_eq_true member
  | any => cases h
  | within _ => cases h

end Slot

/-! ### Rules -/

inductive ClosureRule where
  /-- Type queries with any named classes. -/
  | types
  /-- Type queries that name one class. -/
  | typesOf (target : Term)
  /-- Sub-class queries that name one class. -/
  | subClassesOf (target : Term)
  /-- Queries about one property. -/
  | subPropertiesOf (property : Term)
  deriving DecidableEq

namespace ClosureRule

/-- Sub-classes up to the start stand for it at the object. -/
def classRequest (start : List Term) : ClosureRequest :=
  ⟨start, Vocabulary.subClassOf, .up, .object⟩

def request? (rule : ClosureRule) (p : Pattern) : Option ClosureRequest :=
  match rule with
  | types =>
    if p.predicate.mentions Vocabulary.type then p.object.named?.map classRequest else none
  | typesOf target =>
    if p.predicate.mentions Vocabulary.type && p.object.mentions target then
      some (classRequest [target])
    else none
  | subClassesOf target =>
    if p.predicate.mentions Vocabulary.subClassOf && p.object.mentions target then
      some (classRequest [target])
    else none
  | subPropertiesOf property =>
    if p.predicate.fixed? = some property then
      some ⟨[property], Vocabulary.subPropertyOf, .up, .predicate⟩
    else none

end ClosureRule

/-! ### Matchers -/

/-- A function from patterns to requests. Its requests start at terms that the pattern names, or
at some of finitely many constants, which also hold the predicates. -/
structure Matcher where
  request? : Pattern → Option ClosureRequest
  constants : List Term
  predicate_mem : ∀ p r, request? p = some r → r.predicate ∈ constants
  start_mem : ∀ p r, request? p = some r → ∀ t ∈ r.start, t ∈ constants ∨ p.Names t

namespace ClosureRule

/-- The terms of a rule that are the same for all patterns. -/
def constants (rule : ClosureRule) : List Term :=
  let own := match rule with
    | types => []
    | typesOf target | subClassesOf target => [target]
    | subPropertiesOf property => [property]
  Vocabulary.subClassOf :: Vocabulary.subPropertyOf :: own

def matcher (rule : ClosureRule) : Matcher where
  request? := rule.request?
  constants := rule.constants
  predicate_mem p r h := by
    cases rule <;> simp only [request?] at h <;> split at h <;>
      simp only [Option.map_eq_some_iff, Option.some.injEq, reduceCtorEq] at h
    · obtain ⟨terms, _, rfl⟩ := h
      simp [classRequest, constants]
    all_goals
      subst h
      simp [classRequest, constants]
  start_mem p r h t member := by
    cases rule <;> simp only [request?] at h <;> split at h <;>
      simp only [Option.map_eq_some_iff, Option.some.injEq, reduceCtorEq] at h
    · obtain ⟨terms, named, rfl⟩ := h
      exact .inr ⟨.object, Slot.mentions_of_named? named member⟩
    all_goals
      subst h
      exact .inl (by simp [List.mem_singleton.mp member, constants])

end ClosureRule

namespace Matcher

/-- One request for every query, or for those whose predicate names a given term. -/
def fixed (request : ClosureRequest) (about : Option Term) : Matcher where
  request? p := if about.all fun term => p.predicate.mentions term then some request else none
  constants := request.predicate :: request.start
  predicate_mem p r h := by
    split at h
    · cases h
      exact List.mem_cons_self
    · cases h
  start_mem p r h t member := by
    split at h
    · cases h
      exact .inl (List.mem_cons_of_mem _ member)
    · cases h

end Matcher

end TripleQuery
