import TripleQuery.SortedMap
import TripleQuery.Pattern

/-!
One graph of statements with three indexes, by subject, by predicate and by object. A lookup goes
through the index of a position that the pattern names.
-/

namespace TripleQuery.Store

abbrev Index := SortedMap Term (SortedSet Triple)

namespace Index

def add (index : Index) (key : Term) (t : Triple) : Index :=
  index.alter key fun bucket => some ((bucket.getD ∅).insert t)

/-- A bucket that becomes empty is dropped. -/
def drop (index : Index) (key : Term) (t : Triple) : Index :=
  index.alter key fun bucket =>
    match bucket with
    | none => none
    | some members =>
      let left := members.filter fun u => decide (u ≠ t)
      if left.isEmpty then none else some left

/-- The buckets of the terms that a slot names; `none` if it leaves the position open. -/
def candidates? (index : Index) : Slot → Option (List (SortedSet Triple))
  | .exact key => some (index.get? key).toList
  | .choices keys => some (keys.filterMap index.get?)
  | .any | .within _ => none

theorem mem_values_of_candidates? {index : Index} {slot : Slot} {buckets : List (SortedSet Triple)}
    (h : index.candidates? slot = some buckets) {bucket : SortedSet Triple}
    (member : bucket ∈ buckets) : bucket ∈ index.values := by
  cases slot with
  | exact key =>
    cases h
    exact SortedMap.mem_values_of_get? (Option.mem_toList.mp member)
  | choices keys =>
    cases h
    obtain ⟨key, _, found⟩ := List.mem_filterMap.mp member
    exact SortedMap.mem_values_of_get? found
  | any => cases h
  | within _ => cases h

end Index

structure Indexed where
  triples : SortedSet Triple
  bySubject : Index
  byPredicate : Index
  byObject : Index

namespace Indexed

def empty : Indexed := ⟨∅, ∅, ∅, ∅⟩

instance : EmptyCollection Indexed := ⟨empty⟩

instance : Inhabited Indexed := ⟨empty⟩

def insert (g : Indexed) (t : Triple) : Bool × Indexed :=
  if t ∈ g.triples then (false, g)
  else
    (true,
      { triples := g.triples.insert t
        bySubject := g.bySubject.add t.subject t
        byPredicate := g.byPredicate.add t.predicate t
        byObject := g.byObject.add t.object t })

def extend (g : Indexed) (ts : List Triple) : Indexed := ts.foldl (fun g t => (g.insert t).2) g

def erase (g : Indexed) (t : Triple) : Bool × Indexed :=
  if t ∈ g.triples then
    (true,
      { triples := g.triples.filter fun u => decide (u ≠ t)
        bySubject := g.bySubject.drop t.subject t
        byPredicate := g.byPredicate.drop t.predicate t
        byObject := g.byObject.drop t.object t })
  else (false, g)

/-- The buckets to look through, the index by subject first, by predicate last. -/
def candidates (g : Indexed) (p : Pattern) : List (SortedSet Triple) :=
  (g.bySubject.candidates? p.subject <|>
    g.byObject.candidates? p.object <|>
    g.byPredicate.candidates? p.predicate).getD [g.triples]

def collect (g : Indexed) (p : Pattern) : List Triple :=
  (g.candidates p).flatMap fun bucket => bucket.toList.filter p.accepts

/-- All statements held anywhere in the graph or its indexes. -/
def held (g : Indexed) : List Triple :=
  (g.triples :: g.bySubject.values ++ g.byPredicate.values ++ g.byObject.values).flatMap
    SortedSet.toList

theorem mem_held_of_mem_collect {g : Indexed} {p : Pattern} {t : Triple}
    (h : t ∈ g.collect p) : t ∈ g.held := by
  obtain ⟨bucket, chosen, member⟩ := List.mem_flatMap.mp h
  refine List.mem_flatMap.mpr ⟨bucket, ?_, (List.mem_filter.mp member).1⟩
  unfold candidates at chosen
  cases hs : g.bySubject.candidates? p.subject with
  | some buckets =>
    rw [hs] at chosen
    simp [Index.mem_values_of_candidates? hs chosen]
  | none =>
    cases ho : g.byObject.candidates? p.object with
    | some buckets =>
      rw [hs, ho] at chosen
      simp [Index.mem_values_of_candidates? ho chosen]
    | none =>
      cases hp : g.byPredicate.candidates? p.predicate with
      | some buckets =>
        rw [hs, ho, hp] at chosen
        simp [Index.mem_values_of_candidates? hp chosen]
      | none =>
        rw [hs, ho, hp] at chosen
        simp [List.mem_singleton.mp chosen]

end Indexed

end TripleQuery.Store
