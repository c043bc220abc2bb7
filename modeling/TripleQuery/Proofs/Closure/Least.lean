import Mathlib.Order.Bounds.Basic
import TripleQuery.Proofs.Closure
import TripleQuery.Proofs.Store.Memory

/-!
What a closure adds to the terms that were seen before, and closures of several starts. A closure
goes on from its start and from what it comes upon, never from a term seen before, so that it adds
the least set with the start in it that steps lead out of only to such terms. Whatever several
starts lead to is found in any order of the starts, since the terms found so far are closed under
the steps and a start among them has nothing to add.
-/

namespace TripleQuery

variable {held : SortedSet Triple} {predicate : Term} {d : Direction} {seen : SortedSet Term}
  {start : Term}

/-- The start is in the region, and a step from the region leads into it or to a term that was
`seen`. -/
structure GrownFrom (held : SortedSet Triple) (predicate : Term) (d : Direction)
    (seen : SortedSet Term) (start : Term) (region : Set Term) : Prop where
  start_mem : start ∈ region
  step_mem : ∀ x ∈ region, ∀ y, Steps held predicate d x y → y ∉ seen → y ∈ region

theorem isLeast_reachesPast (held : SortedSet Triple) (predicate : Term) (d : Direction)
    (seen : SortedSet Term) (start : Term) :
    IsLeast {region | GrownFrom held predicate d seen start region}
      {t | ReachesPast held predicate d seen start t} := by
  constructor
  · exact ⟨.refl, fun x leads y step fresh => leads.tail ⟨step, fresh⟩⟩
  · intro region grown t leads
    induction leads with
    | refl => exact grown.start_mem
    | tail _ step ih => exact grown.step_mem _ ih _ step.1 step.2

/-- Nothing is lost behind terms seen before if no step leads out of them. -/
theorem ClosedUnder.reachesPast_iff (closed : ClosedUnder held predicate d seen) {t : Term} :
    t ∈ seen ∨ ReachesPast held predicate d seen start t ↔
      t ∈ seen ∨ Reaches held predicate d start t := by
  constructor
  · exact Or.imp_right fun leads => Relation.ReflTransGen.mono (fun _ _ step => step.1) _ _ leads
  · rintro (old | leads)
    · exact .inl old
    -- A way that enters the terms seen before does not leave them again.
    induction leads with
    | refl => exact .inr .refl
    | @tail x y _ step ih =>
      by_cases known : y ∈ seen
      · exact .inl known
      · rcases ih with old | leads
        · exact absurd (closed x old y step) known
        · exact .inr (leads.tail ⟨step, known⟩)

namespace Source

variable {s : Source} {context : Option Term}

/-- A closure comes to an end with what was seen and the least set that grows from its start past
that. If nothing was seen these are the terms reached, and if no step leads out of what was seen
nothing that is reached is missing. -/
theorem closure_isLeast (answers : s.AnswersIn context held) (start predicate : Term)
    (d : Direction) (seen : SortedSet Term) :
    ∃ found region, s.closure start predicate d context seen = .ok found ∧
      IsLeast {region | GrownFrom held predicate d seen start region} region ∧
      (∀ t, t ∈ found ↔ t ∈ seen ∨ t ∈ region) ∧
      (seen = ∅ → ∀ t, t ∈ found ↔ Reaches held predicate d start t) ∧
      (ClosedUnder held predicate d seen →
        ∀ t, t ∈ found ↔ t ∈ seen ∨ Reaches held predicate d start t) := by
  obtain ⟨found, answer, exactly⟩ := closure_exact (answers.steps predicate d) start seen
  refine ⟨found, {t | ReachesPast held predicate d seen start t}, answer,
    isLeast_reachesPast held predicate d seen start, exactly, ?_, ?_⟩
  · rintro rfl t
    rw [exactly, reachesPast_empty]
    simp
  · intro closed t
    rw [exactly, closed.reachesPast_iff]

/-- Closures of several starts hold what any of the starts leads to, and so it matters only which
starts there are, not their order nor how often they are given. -/
theorem closureAll_eq_of_same_starts (answers : s.AnswersIn context held) (starts : List Term)
    (predicate : Term) (d : Direction) :
    ∃ found, s.closureAll starts predicate d context = .ok found ∧
      (∀ t, t ∈ found ↔ ∃ start ∈ starts, Reaches held predicate d start t) ∧
      ∀ others : List Term, (∀ t, t ∈ others ↔ t ∈ starts) →
        s.closureAll others predicate d context = .ok found := by
  have follows := answers.follows predicate
  obtain ⟨found, answer, exactly⟩ := closureAll_exact follows d starts
  refine ⟨found, answer, exactly, fun others same => ?_⟩
  obtain ⟨again, also, alike⟩ := closureAll_exact follows d others
  have equal : again = found := by
    apply SortedSet.ext
    intro t
    simp only [alike, exactly, same]
  rw [also, equal]

end Source

/-! ### Places -/

namespace Sample

def hamlet : Term := .iri "hamlet"

def parish : Term := .iri "parish"

def county : Term := .iri "county"

def country : Term := .iri "country"

def partOf : Term := .iri "partOf"

/-- The hamlet lies in a county of the country. It also makes up a parish, which is said to be part
of the hamlet and of itself. -/
def places : Store.Memory :=
  (Store.Memory.empty false).extend
    [⟨hamlet, partOf, county⟩, ⟨county, partOf, country⟩, ⟨hamlet, partOf, parish⟩,
      ⟨parish, partOf, hamlet⟩, ⟨parish, partOf, parish⟩]
    none

theorem answersIn_places : places.source.AnswersIn none (places.statementsIn none) :=
  Store.Memory.answersIn_extend_empty false _

theorem steps_places (part whole : Term)
    (stated : ⟨part, partOf, whole⟩ ∈ places.statementsIn none) :
    Steps (places.statementsIn none) partOf .down part whole :=
  ⟨_, stated, rfl, rfl, rfl⟩

theorem closed_places : ClosedUnder (places.statementsIn none) partOf .down
    (.ofList [hamlet, parish, county, country]) := by
  rintro _ _ _ ⟨row, member, _, rfl, rfl⟩
  have rows : ∀ row ∈ (places.statementsIn none).toList,
      row.object ∈ SortedSet.ofList [hamlet, parish, county, country] := by
    decide +kernel
  exact rows row member

/-- If the county was seen before, the country is not found, as nothing else leads to it. -/
theorem closure_past_county : places.source.AnswersIn none (places.statementsIn none) ∧
    ∃ found, places.source.closure hamlet partOf .down none (.singleton county) = .ok found ∧
      ∀ t, t ∈ found ↔ t = county ∨ t = hamlet ∨ t = parish := by
  obtain ⟨found, region, answer, least, exactly, _, _⟩ :=
    Source.closure_isLeast answersIn_places hamlet partOf .down (.singleton county)
  have grown : GrownFrom (places.statementsIn none) partOf .down (.singleton county) hamlet
      {t | t = hamlet ∨ t = parish} := by
    refine ⟨.inl rfl, ?_⟩
    rintro _ part _ ⟨row, member, _, rfl, rfl⟩ fresh
    have rows : ∀ row ∈ (places.statementsIn none).toList,
        row.subject = hamlet ∨ row.subject = parish → row.object ∉ SortedSet.singleton county →
          row.object = hamlet ∨ row.object = parish := by
      decide
    exact rows row member part fresh
  have parish_mem : parish ∈ region :=
    least.1.step_mem hamlet least.1.start_mem parish (steps_places hamlet parish (by decide)) (by decide)
  refine ⟨answersIn_places, found, answer, fun t => ?_⟩
  rw [exactly, SortedSet.mem_singleton]
  refine or_congr_right ⟨fun inside => least.2 grown inside, ?_⟩
  rintro (rfl | rfl)
  · exact least.1.start_mem
  · exact parish_mem

/-- The county is passed over if the hamlet came first. -/
theorem closureAll_places : places.source.AnswersIn none (places.statementsIn none) ∧
    ∃ found, places.source.closureAll [county, hamlet, county] partOf .down none = .ok found ∧
      places.source.closureAll [hamlet, county] partOf .down none = .ok found ∧
      ∀ t, t ∈ found ↔ t ∈ [hamlet, parish, county, country] := by
  obtain ⟨found, answer, exactly, alike⟩ := Source.closureAll_eq_of_same_starts answersIn_places
    [county, hamlet, county] partOf .down
  have same : ∀ t, t ∈ [hamlet, county] ↔ t ∈ [county, hamlet, county] := by
    intro t
    simp [or_comm]
  refine ⟨answersIn_places, found, answer, alike _ same, fun t => ?_⟩
  rw [exactly]
  constructor
  · intro reached
    obtain ⟨start, listed, leads⟩ := reached
    have inside : ∀ x ∈ [county, hamlet, county],
        x ∈ SortedSet.ofList [hamlet, parish, county, country] := by
      decide
    exact SortedSet.mem_ofList.mp (closed_places.mem_of_reaches (inside start listed) leads)
  · intro listed
    have to_parish := steps_places hamlet parish (by decide)
    have to_country := steps_places county country (by decide)
    simp only [List.mem_cons, List.not_mem_nil, or_false] at listed
    rcases listed with rfl | rfl | rfl | rfl
    · exact ⟨hamlet, by simp, .refl⟩
    · exact ⟨hamlet, by simp, .single to_parish⟩
    · exact ⟨county, by simp, .refl⟩
    · exact ⟨county, by simp, .single to_country⟩

end Sample

end TripleQuery
