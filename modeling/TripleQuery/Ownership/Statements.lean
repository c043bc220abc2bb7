import TripleQuery.Closure
import TripleQuery.Graph.Basic
import TripleQuery.Graph.Traversal

/-!
The statements below a node and the statements that touch it, read from the graph or from a
source.
-/

namespace TripleQuery

/-! ### Below a node -/

namespace Graph

def ownSteps (g : Graph) (n : NodeId) : List (Triple × NodeId) :=
  match g.identifier? n with
  | none => []
  | some subject =>
    (g.properties n).flatMap fun e =>
      (g.values e).filterMap fun value =>
        (g.identifier? value).map fun object => (⟨subject, g.link e, object⟩, value)

/-- The walk down from a node through known nodes, or its own statements alone. -/
def descendantTrail (g : Graph) (start : NodeId) (transitive : Bool) : List Triple :=
  if transitive then Traversal.trailFrom g.ownSteps g.nodeIds start
  else (g.ownSteps start).map Prod.fst

end Graph

namespace Source

def about (subject : Term) : Pattern := ⟨.exact subject, .any, .any⟩

/-- The objects to go on from: those that are no literals and were not met before. -/
def onward (rows : SortedSet Triple) (seen : SortedSet Term) : List Term :=
  (rows.toList.map Triple.object).filter fun t => !t.isLiteral && decide (t ∉ seen)

theorem mem_names_of_onward {s : Source} {subject : Term} {context : Option Term}
    {rows : SortedSet Triple} (h : s.triples (about subject) context = .ok rows)
    {seen : SortedSet Term} {t : Term} (member : t ∈ onward rows (seen.insert subject)) :
    t ∈ s.names := by
  obtain ⟨inside, fresh⟩ := List.mem_filter.mp member
  obtain ⟨row, present, rfl⟩ := List.mem_map.mp inside
  rcases s.bounded_names _ _ _ rows h row present .object with known | ⟨i, named⟩
  · exact known
  · have same : row.object = subject := by
      cases i <;> simp [about, Pattern.get, Slot.mentions, Triple.get] at named
      exact named.symm
    simp [same] at fresh

/-- All statements about the pending terms and the terms below them. The objects of a subject are
gone on from last first. -/
def statementsBelow (s : Source) (start : Term) (seen : SortedSet Term) :
    (pending : List Term) → (∀ t ∈ pending, t ∈ start :: s.names) → Answer
  | [], _ => .ok ∅
  | subject :: rest, inside =>
    if _old : subject ∈ seen then
      statementsBelow s start seen rest fun t ht => inside t (List.mem_cons_of_mem _ ht)
    else
      match found : s.triples (about subject) none with
      | .error fault => .error fault
      | .ok rows =>
        (statementsBelow s start (seen.insert subject)
          ((onward rows (seen.insert subject)).reverse ++ rest) fun t ht =>
            (List.mem_append.mp ht).elim
              (fun new => List.mem_cons_of_mem _
                (mem_names_of_onward found (List.mem_reverse.mp new)))
              fun old => inside t (List.mem_cons_of_mem _ old)).map
          (rows ∪ ·)
termination_by pending => ((start :: s.names).countP fun t => decide (t ∉ seen), pending.length)
decreasing_by
  · exact Prod.Lex.right _ (Nat.lt_succ_self _)
  · refine Prod.Lex.left _ _ (countP_lt_countP (fun t _ h => ?_)
      (inside subject List.mem_cons_self) (decide_eq_true _old) ?_)
    · exact decide_eq_true fun old =>
        of_decide_eq_true h (SortedSet.mem_insert.mpr (.inr old))
    · exact decide_eq_false fun h => h (SortedSet.mem_insert.mpr (.inl rfl))

def descendants (s : Source) (start : Term) (transitive : Bool) : Answer :=
  if transitive then
    s.statementsBelow start ∅ [start] fun _ ht => List.mem_singleton.mp ht ▸ List.mem_cons_self
  else s.triples (about start) none

end Source

/-- Reads from the source if there is one, where a node that stands for no term has nothing. -/
def Graph.descendants (g : Graph) (start : NodeId) (transitive : Bool) :
    Option Source → Answer
  | none => .ok (.ofList (g.descendantTrail start transitive))
  | some s =>
    match g.identifier? start with
    | none => .ok ∅
    | some identifier => s.descendants identifier transitive

/-! ### At a node -/

def Source.leadingTo (object : Term) : Pattern := ⟨.any, .any, .exact object⟩

namespace Graph

def ownerTriples (g : Graph) (n : NodeId) (identifier : Term) : List Triple :=
  (g.owners n).filterMap fun e =>
    (g.identifier? (g.owner e)).map fun subject => ⟨subject, g.link e, identifier⟩

/-- A node that stands for no term is touched by no statement. -/
def references (g : Graph) (n : NodeId) (store : Option Source) : Answer :=
  match g.identifier? n, store with
  | none, _ => .ok ∅
  | some identifier, none =>
    .ok (.ofList ((g.ownSteps n).map Prod.fst ++ g.ownerTriples n identifier))
  | some identifier, some s =>
    Answer.unite [s.triples (Source.leadingTo identifier) none,
      s.triples (Source.about identifier) none]

end Graph

end TripleQuery
