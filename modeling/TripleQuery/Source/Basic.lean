import TripleQuery.Fault
import TripleQuery.Outcome

/-!
Sources of statements: stores, views of stores, and stacks of layers above them. A source answers
a pattern with the set of matching statements, in one context or in all of them together.
-/

namespace TripleQuery

abbrev Answer := Except Fault (SortedSet Triple)

/-- `names` hold the terms a source can answer with, beside those that a pattern names itself. -/
def Bounded (select : Mode → Pattern → Option Term → Answer) (names : List Term) : Prop :=
  ∀ mode pattern context rows, select mode pattern context = .ok rows →
    ∀ row ∈ rows, ∀ i, row.get i ∈ names ∨ pattern.Names (row.get i)

/-- No context stands for the union of all graphs. Finitely many terms occur in the answers, which
is why following them comes to an end. -/
structure Source where
  select : Mode → Pattern → Option Term → Answer
  /-- Whether an interval at the object is evaluated by the source itself. -/
  evaluatesIntervals : Bool
  bounded : ∃ names, Bounded select names

namespace Source

def triples (s : Source) (pattern : Pattern) (context : Option Term) : Answer :=
  s.select .plain pattern context

def choices (s : Source) (pattern : Pattern) (context : Option Term) : Answer :=
  s.select .listed pattern context

/-- Whether a statement is among the answers to the pattern that matches it alone. -/
def contains (s : Source) (t : Triple) (context : Option Term) : Except Fault Bool :=
  (s.triples (.ofTriple t) context).map fun rows => !rows.isEmpty

def count (s : Source) (pattern : Pattern) (context : Option Term) : Except Fault Nat :=
  (s.triples pattern context).map SortedSet.size

def empty : Source where
  select _ _ _ := .ok ∅
  evaluatesIntervals := false
  bounded := ⟨[], fun _ _ _ rows h row member => by cases h; simp at member⟩

instance : Inhabited Source := ⟨empty⟩

end Source

/-! ### Answers taken together -/

/-- The union of answers; the first fault stands for all. -/
def Answer.unite : List Answer → Answer
  | [] => .ok ∅
  | answer :: rest => do
    let rows ← answer
    let others ← unite rest
    return rows ∪ others

theorem Answer.mem_unite {answers : List Answer} {rows : SortedSet Triple}
    (h : unite answers = .ok rows) (t : Triple) :
    t ∈ rows ↔ ∃ part, .ok part ∈ answers ∧ t ∈ part := by
  induction answers generalizing rows with
  | nil =>
    cases h
    simp
  | cons answer rest ih =>
    obtain ⟨first, found, h⟩ := bind_ok h
    obtain ⟨others, more, h⟩ := bind_ok h
    cases h
    simp only [found, SortedSet.mem_union, ih more, List.mem_cons, Except.ok.injEq]
    constructor
    · rintro (member | ⟨part, present, member⟩)
      · exact ⟨first, .inl rfl, member⟩
      · exact ⟨part, .inr present, member⟩
    · rintro ⟨part, rfl | present, member⟩
      · exact .inl member
      · exact .inr ⟨part, present, member⟩

theorem Answer.unite_eq_ok_iff {answers : List Answer} :
    (∃ rows, unite answers = .ok rows) ↔ ∀ answer ∈ answers, ∃ rows, answer = .ok rows := by
  induction answers with
  | nil => simp [unite]
  | cons answer rest ih =>
    simp only [List.mem_cons, forall_eq_or_imp, ← ih]
    constructor
    · rintro ⟨rows, h⟩
      obtain ⟨first, found, h⟩ := bind_ok h
      obtain ⟨others, more, _⟩ := bind_ok h
      exact ⟨⟨first, found⟩, others, more⟩
    · rintro ⟨⟨first, found⟩, others, more⟩
      refine ⟨first ∪ others, ?_⟩
      rw [unite, found, more]
      rfl

end TripleQuery
