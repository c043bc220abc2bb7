import TripleQuery.Source.Basic

/-!
Sources made of other sources: chosen graphs of one, several as one, and one behind a guard.
-/

namespace TripleQuery.Source

/-! ### Chosen graphs -/

/-- Without a context the union of the chosen graphs is asked, so that statements outside of them
stay hidden. Choosing no graph leaves the source as it is. -/
def selectWithin (inner : Source) (contexts : SortedSet Term) (mode : Mode) (pattern : Pattern)
    (context : Option Term) : Answer :=
  if contexts.isEmpty then inner.select mode pattern context
  else
    match context with
    | some c => if c ∈ contexts then inner.select mode pattern (some c) else .ok ∅
    | none => Answer.unite (contexts.toList.map fun c => inner.select mode pattern (some c))

theorem bounded_selectWithin {inner : Source} {contexts : SortedSet Term} {names : List Term}
    (bounded : Bounded inner.select names) : Bounded (inner.selectWithin contexts) names := by
  intro mode pattern context rows h row member
  unfold selectWithin at h
  split at h
  · exact bounded mode pattern context rows h row member
  · split at h
    · split at h
      · exact bounded mode pattern _ rows h row member
      · cases h
        simp at member
    · obtain ⟨part, present, member⟩ := (Answer.mem_unite h row).mp member
      obtain ⟨c, _, answer⟩ := List.mem_map.mp present
      exact bounded mode pattern (some c) part answer row member

def subset (inner : Source) (contexts : SortedSet Term) : Source where
  select := inner.selectWithin contexts
  evaluatesIntervals := inner.evaluatesIntervals
  bounded := inner.bounded.imp fun _ => bounded_selectWithin

/-! ### Several sources -/

def selectFromEach (members : List Source) (mode : Mode) (pattern : Pattern)
    (context : Option Term) : Answer :=
  Answer.unite (members.map fun member => member.select mode pattern context)

theorem bounded_selectFromEach (members : List Source) :
    ∃ names, Bounded (selectFromEach members) names := by
  have each : ∃ names, ∀ member ∈ members, Bounded member.select names := by
    induction members with
    | nil => exact ⟨[], by simp⟩
    | cons first rest ih =>
      obtain ⟨names, bounded⟩ := first.bounded
      obtain ⟨others, all⟩ := ih
      refine ⟨names ++ others, fun member present => ?_⟩
      rcases List.mem_cons.mp present with rfl | present
      · exact fun mode pattern context rows h row inside i =>
          (bounded mode pattern context rows h row inside i).imp_left (List.mem_append_left _)
      · exact fun mode pattern context rows h row inside i =>
          (all member present mode pattern context rows h row inside i).imp_left
            (List.mem_append_right _)
  obtain ⟨names, all⟩ := each
  refine ⟨names, fun mode pattern context rows h row inside => ?_⟩
  obtain ⟨part, present, inside⟩ := (Answer.mem_unite h row).mp inside
  obtain ⟨member, present, answer⟩ := List.mem_map.mp present
  exact all member present mode pattern context part answer row inside

/-- Several sources as one. Intervals are evaluated if there are members and all of them do so. -/
def merge (members : List Source) : Source where
  select := selectFromEach members
  evaluatesIntervals := !members.isEmpty && members.all evaluatesIntervals
  bounded := bounded_selectFromEach members

/-! ### A guard -/

/-- Which queries are turned away: those on `predicate`, or on any, and those in `mode`, or in
both. -/
structure Guard where
  predicate : Option Term
  mode : Option Mode

def Guard.refuses (g : Guard) (mode : Mode) (pattern : Pattern) : Bool :=
  (g.predicate.all fun p => pattern.predicate.mentions p) && (g.mode.all fun m => decide (m = mode))

def selectBehind (inner : Source) (g : Guard) (mode : Mode) (pattern : Pattern)
    (context : Option Term) : Answer :=
  if g.refuses mode pattern then .error (.guarded mode pattern context)
  else inner.select mode pattern context

theorem bounded_selectBehind {inner : Source} {g : Guard} {names : List Term}
    (bounded : Bounded inner.select names) : Bounded (inner.selectBehind g) names := by
  intro mode pattern context rows h
  unfold selectBehind at h
  split at h
  · cases h
  · exact bounded mode pattern context rows h

def behind (inner : Source) (g : Guard) : Source where
  select := inner.selectBehind g
  evaluatesIntervals := inner.evaluatesIntervals
  bounded := inner.bounded.imp fun _ => bounded_selectBehind

end TripleQuery.Source
