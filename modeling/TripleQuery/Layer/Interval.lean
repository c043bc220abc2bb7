import TripleQuery.Source.Basic

/-!
The layer that handles intervals at the object. A source that evaluates intervals gets the
pattern as it is; for any other the object is left open and the rows are filtered here. An
interval without bounds is an open position.
-/

namespace TripleQuery.Source

def selectByInterval (next : Source) (mode : Mode) (p : Pattern) (context : Option Term) :
    Answer :=
  match p.object with
  | .within bounds =>
    if !bounds.isBounded then next.select mode (p.put .object .any) context
    else if next.evaluatesIntervals then next.select mode p context
    else
      (next.select mode (p.put .object .any) context).map fun rows =>
        rows.filter fun row => bounds.contains row.object
  | _ => next.select mode p context

theorem bounded_selectByInterval {next : Source} {names : List Term}
    (bounded : Bounded next.select names) : Bounded next.selectByInterval names := by
  intro mode p context rows h row member i
  unfold selectByInterval at h
  split at h
  · split at h
    · exact (bounded _ _ _ rows h row member i).imp_right Pattern.names_of_put_any
    · split at h
      · exact bounded _ _ _ rows h row member i
      · obtain ⟨all, answer, rfl⟩ := map_ok h
        exact (bounded _ _ _ all answer row (SortedSet.mem_filter.mp member).1 i).imp_right
          Pattern.names_of_put_any
  · exact bounded _ _ _ rows h row member i

/-- A source under the layer. It takes intervals whatever is below. -/
def withIntervals (next : Source) : Source where
  select := next.selectByInterval
  evaluatesIntervals := true
  bounded := next.bounded.imp fun _ => bounded_selectByInterval

end TripleQuery.Source
