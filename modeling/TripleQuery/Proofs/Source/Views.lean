import TripleQuery.Proofs.Source.Answers
import TripleQuery.Source.Views

/-!
What chosen graphs and merged sources hold, told by what the sources below them hold. They answer
from that if those do.
-/

namespace TripleQuery.Source

/-- What chosen graphs hold. Without a context these are the statements of the chosen graphs; if
no graph was chosen, nothing is hidden. -/
def heldWithin (contexts : SortedSet Term) (held : Option Term → SortedSet Triple)
    (context : Option Term) : SortedSet Triple :=
  if contexts.isEmpty then held context
  else
    match context with
    | some c => if c ∈ contexts then held (some c) else ∅
    | none => .unions (contexts.toList.map fun c => held (some c))

variable {allowed : Interval → Prop}

theorem answers_subset {inner : Source} {held : Option Term → SortedSet Triple}
    (answers : inner.Answers allowed held) (contexts : SortedSet Term) :
    (inner.subset contexts).Answers allowed (heldWithin contexts held) := by
  intro mode p context taken given
  show inner.selectWithin contexts mode p context = _
  unfold selectWithin heldWithin
  split
  · exact answers mode p context taken given
  · cases context with
    | some c =>
      by_cases chosen : c ∈ contexts
      · simp only [if_pos chosen]
        exact answers mode p (some c) taken given
      · simp only [if_neg chosen]
        rfl
    | none =>
      have each : (contexts.toList.map fun c => inner.select mode p (some c)) =
          contexts.toList.map fun c => .ok ((held (some c)).filter p.accepts) :=
        List.map_congr_left fun c _ => answers mode p (some c) taken given
      show Answer.unite _ = _
      rw [each, Answer.unite_map_ok, SortedSet.filter_unions, List.map_map]
      rfl

/-- Merged sources evaluate intervals if all members do, so that each member is asked only for
those that it allows. -/
theorem answers_merge {ι : Type} (members : List ι) {source : ι → Source}
    {allows : ι → Interval → Prop} {held : ι → Option Term → SortedSet Triple}
    (each : ∀ member ∈ members, (source member).Answers (allows member) (held member))
    (passed : (merge (members.map source)).evaluatesIntervals = true →
      ∀ member ∈ members, ∀ bounds, allowed bounds → allows member bounds) :
    (merge (members.map source)).Answers allowed fun context =>
      .unions (members.map fun member => held member context) := by
  intro mode p context ⟨placed, intervals, plain⟩ given
  have answer : ∀ member ∈ members, (source member).select mode p context =
      .ok ((held member context).filter p.accepts) := by
    intro member present
    refine each member present mode p context ⟨placed, fun interval => ?_, plain⟩ ?_
    · have all := intervals interval
      simp only [merge, Bool.and_eq_true, List.all_eq_true] at all
      exact all.2 (source member) (List.mem_map_of_mem present)
    · intro bounds within
      have evaluates := intervals (Pattern.hasInterval_of_within within)
      exact passed evaluates member present bounds (given bounds within)
  have asked : ((members.map source).map fun member => member.select mode p context) =
      members.map fun member => .ok ((held member context).filter p.accepts) := by
    rw [List.map_map]
    exact List.map_congr_left answer
  show Answer.unite ((members.map source).map _) = _
  rw [asked, Answer.unite_map_ok, SortedSet.filter_unions, List.map_map]
  rfl

end TripleQuery.Source
