import Mathlib.Data.Nat.Find
import TripleQuery.Proofs.Closure.Least

/-!
The calls of a closure by distance. What is asked about together has one distance from the start,
and the calls go through the distances in order up to the largest one. This rests on what a walk
has behind it at each call: it has seen just the terms that are nearer.
-/

namespace TripleQuery

/-! ### Distance -/

/-- Exactly `n` steps. -/
def StepsIn (held : SortedSet Triple) (predicate : Term) (d : Direction) :
    Nat → Term → Term → Prop
  | 0, x, y => x = y
  | n + 1, x, y => ∃ z, StepsIn held predicate d n x z ∧ Steps held predicate d z y

/-- It takes `n` steps to come from the start to `t`, and no fewer. -/
def AtDistance (held : SortedSet Triple) (predicate : Term) (d : Direction) (start : Term)
    (n : Nat) (t : Term) : Prop :=
  StepsIn held predicate d n start t ∧ ∀ m < n, ¬StepsIn held predicate d m start t

variable {held : SortedSet Triple} {predicate : Term} {d : Direction} {start t : Term} {m n : Nat}

theorem reaches_iff_stepsIn :
    Reaches held predicate d start t ↔ ∃ n, StepsIn held predicate d n start t := by
  constructor
  · intro leads
    induction leads with
    | refl => exact ⟨0, rfl⟩
    | tail _ step ih =>
      obtain ⟨n, before⟩ := ih
      exact ⟨n + 1, _, before, step⟩
  · intro found
    obtain ⟨n, leads⟩ := found
    induction n generalizing t with
    | zero =>
      obtain rfl : start = t := leads
      exact .refl
    | succ n ih =>
      obtain ⟨z, before, step⟩ := leads
      exact (ih before).tail step

theorem exists_atDistance_le (leads : StepsIn held predicate d n start t) :
    ∃ m ≤ n, AtDistance held predicate d start m t := by
  classical
  have some : ∃ n, StepsIn held predicate d n start t := ⟨n, leads⟩
  exact ⟨Nat.find some, Nat.find_min' some leads, Nat.find_spec some, fun _ => Nat.find_min some⟩

theorem AtDistance.unique (first : AtDistance held predicate d start m t)
    (second : AtDistance held predicate d start n t) : m = n := by
  have not_less : ¬m < n := fun less => second.2 m less first.1
  have not_more : ¬n < m := fun more => first.2 n more second.1
  omega

@[simp] theorem atDistance_zero : AtDistance held predicate d start 0 t ↔ t = start := by
  simp [AtDistance, StepsIn, eq_comm]

/-- One step further on are those that a step leads to and that are not nearer. -/
theorem atDistance_succ : AtDistance held predicate d start (n + 1) t ↔
    (∃ x, AtDistance held predicate d start n x ∧ Steps held predicate d x t) ∧
      ∀ m ≤ n, ¬AtDistance held predicate d start m t := by
  constructor
  · intro away
    obtain ⟨⟨z, before, step⟩, least⟩ := away
    refine ⟨⟨z, ⟨before, fun m less nearer => ?_⟩, step⟩, fun m nearer found => ?_⟩
    · exact least (m + 1) (by omega) ⟨z, nearer, step⟩
    · exact least m (by omega) found.1
  · intro ahead
    obtain ⟨⟨x, before, step⟩, fresh⟩ := ahead
    refine ⟨⟨x, before.1, step⟩, fun m less leads => ?_⟩
    obtain ⟨k, nearer, found⟩ := exists_atDistance_le leads
    exact fresh k (by omega) found

/-- No distance is passed over. -/
theorem AtDistance.exists_of_le (away : AtDistance held predicate d start n t) (nearer : m ≤ n) :
    ∃ x, AtDistance held predicate d start m x := by
  induction n generalizing t with
  | zero =>
    obtain rfl : m = 0 := by omega
    exact ⟨t, away⟩
  | succ n ih =>
    by_cases last : m = n + 1
    · subst last
      exact ⟨t, away⟩
    · obtain ⟨⟨x, before, _⟩, _⟩ := atDistance_succ.mp away
      exact ih before (by omega)

namespace Source

variable {s : Source} {context : Option Term}

/-! ### Batches by distance -/

section Layers

variable (answers : s.AnswersSteps context held predicate d)

include answers

/-- Once all nearer terms were seen, what is left of an answer lies one step further. -/
theorem mem_next_iff {seen frontier others : SortedSet Term}
    (nearer : ∀ t, t ∈ seen ↔ ∃ m < n, AtDistance held predicate d start m t)
    (here : ∀ t, t ∈ frontier ↔ AtDistance held predicate d start n t)
    (answer : s.beyond predicate d context frontier = .ok others) (t : Term) :
    t ∈ others.filter (fun t => decide (t ∉ seen ∪ frontier)) ↔
      AtDistance held predicate d start (n + 1) t := by
  obtain ⟨_, same, exactly⟩ := beyond_exact answers frontier
  rw [answer] at same
  cases same
  have known : t ∈ seen ∪ frontier ↔ ∃ m ≤ n, AtDistance held predicate d start m t := by
    rw [SortedSet.mem_union, nearer, here]
    simp only [Nat.le_iff_lt_or_eq, or_and_right, exists_or, exists_eq_left]
  rw [SortedSet.mem_filter, exactly, decide_eq_true_eq, known, atDistance_succ]
  simp [here]

/-- A walk that stands before the terms at distance `n` asks about the distances from there on, as
long as there are terms at them. -/
theorem batches_layered {seen frontier : SortedSet Term}
    (nearer : ∀ t, t ∈ seen ↔ ∃ m < n, AtDistance held predicate d start m t)
    (here : ∀ t, t ∈ frontier ↔ AtDistance held predicate d start n t)
    (some : ∃ t, t ∈ frontier) :
    ∃ batches last, s.batches predicate d context seen frontier = .ok batches ∧
      batches.length = last + 1 ∧
      (∀ k (inside : k < batches.length) t,
        t ∈ batches[k] ↔ AtDistance held predicate d start (n + k) t) ∧
      (∃ t, AtDistance held predicate d start (n + last) t) ∧
      ∀ t, ¬AtDistance held predicate d start (n + last + 1) t := by
  fun_induction batches s predicate d context seen frontier generalizing n with
  | case1 seen frontier fault failed =>
    obtain ⟨others, answer, _⟩ := beyond_exact answers frontier
    rw [failed] at answer
    cases answer
  | case2 =>
    rename_i seen frontier others answer next nothing
    refine ⟨[frontier], 0, rfl, rfl, ?_, ?_, fun t further => ?_⟩
    · intro k inside t
      obtain rfl : k = 0 := by simpa using inside
      exact here t
    · obtain ⟨t, member⟩ := some
      exact ⟨t, (here t).mp member⟩
    · have ahead := (mem_next_iff answers nearer here answer t).mpr further
      exact SortedSet.isEmpty_iff_not_mem.mp nothing t ahead
  | case3 =>
    rename_i seen frontier others answer next something ih
    have ahead := mem_next_iff answers nearer here answer
    have behind : ∀ t, t ∈ seen ∪ frontier ↔
        ∃ m < n + 1, AtDistance held predicate d start m t := by
      intro t
      rw [SortedSet.mem_union, nearer, here]
      simp only [Nat.lt_succ_iff_lt_or_eq, or_and_right, exists_or, exists_eq_left]
    have some_next : ∃ t, t ∈ next := SortedSet.isEmpty_eq_false_iff.mp (by simpa using something)
    obtain ⟨rest, last, asked, length, layers, farthest, none⟩ := ih behind ahead some_next
    refine ⟨frontier :: rest, last + 1, by rw [asked]; rfl, by simp [length], ?_, ?_, ?_⟩
    · intro k inside t
      cases k with
      | zero => exact here t
      | succ k =>
        rw [List.getElem_cons_succ, layers k (by simpa using inside) t]
        rw [show n + 1 + k = n + (k + 1) by omega]
    · rwa [show n + (last + 1) = n + 1 + last by omega]
    · rwa [show n + (last + 1) + 1 = n + 1 + last + 1 by omega]

end Layers

/-! ### The calls of a closure -/

/-- The calls a closure makes, one after the other. It fails as soon as one of them fails, and it
makes no difference what a source would answer to anything else. -/
structure Calls (s : Source) (context : Option Term) (start predicate : Term) (d : Direction)
    (calls : List Pattern) : Prop where
  fails : ∀ (other : Source) (earlier later : List Pattern) (call : Pattern) (fault : Fault),
    calls = earlier ++ call :: later →
    (∀ c ∈ earlier, other.choices c context = s.choices c context) →
    other.choices call context = .error fault →
    other.closure start predicate d context ∅ = .error fault
  answers : ∀ other : Source, (∀ c ∈ calls, other.choices c context = s.choices c context) →
    other.closure start predicate d context ∅ = s.closure start predicate d context ∅

section Calls

variable {other : Source} {seen frontier : SortedSet Term} {found : List (SortedSet Term)}

theorem beyond_of_choices
    (same : other.choices (stepPattern predicate d frontier) context =
      s.choices (stepPattern predicate d frontier) context) :
    other.beyond predicate d context frontier = s.beyond predicate d context frontier := by
  rw [beyond, beyond, same]

theorem batches_of_choices (asked : s.batches predicate d context seen frontier = .ok found)
    (same : ∀ batch ∈ found, other.choices (stepPattern predicate d batch) context =
      s.choices (stepPattern predicate d batch) context) :
    other.batches predicate d context seen frontier = .ok found := by
  fun_induction batches s predicate d context seen frontier generalizing found with
  | case1 => cases asked
  | case2 =>
    rename_i seen frontier others answer next nothing
    cases asked
    have alike := beyond_of_choices (same frontier (List.mem_singleton_self _))
    rw [batches_of_ok (alike.trans answer), if_pos nothing]
  | case3 =>
    rename_i seen frontier others answer next something ih
    obtain ⟨rest, more, rfl⟩ := map_ok asked
    obtain ⟨first, later⟩ := List.forall_mem_cons.mp same
    rw [batches_of_ok ((beyond_of_choices first).trans answer), if_neg something, ih more later]
    rfl

theorem batches_of_fault (asked : s.batches predicate d context seen frontier = .ok found)
    {earlier later : List (SortedSet Term)} {batch : SortedSet Term} {fault : Fault}
    (split : found = earlier ++ batch :: later)
    (same : ∀ b ∈ earlier, other.choices (stepPattern predicate d b) context =
      s.choices (stepPattern predicate d b) context)
    (failed : other.choices (stepPattern predicate d batch) context = .error fault) :
    other.batches predicate d context seen frontier = .error fault := by
  have refused : other.beyond predicate d context batch = .error fault := by
    rw [beyond, failed]
    rfl
  fun_induction batches s predicate d context seen frontier generalizing found earlier with
  | case1 => cases asked
  | case2 =>
    rename_i seen frontier others answer next nothing
    cases asked
    cases earlier with
    | nil =>
      obtain ⟨rfl, rfl⟩ : frontier = batch ∧ [] = later := by simpa using split
      exact batches_of_error refused
    | cons b earlier => simp at split
  | case3 =>
    rename_i seen frontier others answer next something ih
    obtain ⟨rest, more, rfl⟩ := map_ok asked
    cases earlier with
    | nil =>
      obtain ⟨rfl, rfl⟩ : frontier = batch ∧ rest = later := by simpa using split
      exact batches_of_error refused
    | cons b earlier =>
      obtain ⟨rfl, rfl⟩ : frontier = b ∧ rest = earlier ++ batch :: later := by simpa using split
      obtain ⟨first, further⟩ := List.forall_mem_cons.mp same
      rw [batches_of_ok ((beyond_of_choices first).trans answer), if_neg something,
        ih more rfl further]
      rfl

theorem calls_of_batches (asked : s.batches predicate d context ∅ (.singleton start) = .ok found) :
    s.Calls context start predicate d (found.map (stepPattern predicate d)) where
  fails other earlier later call fault split same failed := by
    obtain ⟨before, rest, rfl, rfl, further⟩ := List.map_eq_append_iff.mp split
    obtain ⟨batch, after, rfl, rfl, rfl⟩ := List.map_eq_cons_iff.mp further
    have stopped := batches_of_fault asked rfl (fun b member => same _ (List.mem_map_of_mem member))
      failed
    rw [closure, stopped]
    rfl
  answers other same := by
    rw [closure, closure, asked, batches_of_choices asked fun b member =>
      same _ (List.mem_map_of_mem member)]

end Calls

/-- A closure asks about the terms at each distance from its start in one call, from the start
itself to those farthest away. -/
theorem batches_by_distance (answers : s.AnswersIn context held) (start predicate : Term)
    (d : Direction) :
    ∃ batches : List (SortedSet Term),
      s.batches predicate d context ∅ (.singleton start) = .ok batches ∧
      s.Calls context start predicate d (batches.map (stepPattern predicate d)) ∧
      (∀ k (inside : k < batches.length),
        (stepPattern predicate d batches[k]).get d.source = .choices batches[k].toList ∧
        ∀ t, t ∈ batches[k].toList ↔ AtDistance held predicate d start k t) ∧
      (∀ t, Reaches held predicate d start t →
        ∃! k, ∃ inside : k < batches.length, t ∈ batches[k]) ∧
      ∃ farthest, batches.length = farthest + 1 ∧
        (∃ t, AtDistance held predicate d start farthest t) ∧
        ∀ k t, AtDistance held predicate d start k t → k ≤ farthest := by
  have nearer : ∀ t, t ∈ (∅ : SortedSet Term) ↔
      ∃ m < 0, AtDistance held predicate d start m t := by simp
  have here : ∀ t, t ∈ SortedSet.singleton start ↔ AtDistance held predicate d start 0 t := by simp
  obtain ⟨batches, last, asked, length, layers, farthest, none⟩ :=
    batches_layered (answers.steps predicate d) nearer here ⟨start, by simp⟩
  simp only [Nat.zero_add] at layers farthest none
  have bound : ∀ k t, AtDistance held predicate d start k t → k ≤ last := by
    intro k t away
    by_contra beyond
    obtain ⟨x, found⟩ := away.exists_of_le (m := last + 1) (by omega)
    exact none x found
  refine ⟨batches, asked, calls_of_batches asked, ?_, ?_, last, length, farthest, bound⟩
  · intro k inside
    refine ⟨?_, layers k inside⟩
    rw [stepPattern, Pattern.get_put_self]
    rfl
  · intro t leads
    obtain ⟨n, steps⟩ := reaches_iff_stepsIn.mp leads
    obtain ⟨k, -, away⟩ := exists_atDistance_le steps
    have inside : k < batches.length := by
      have most := bound k t away
      omega
    refine ⟨k, ⟨inside, (layers k inside t).mpr away⟩, ?_⟩
    intro j found
    obtain ⟨within, member⟩ := found
    exact ((layers j within t).mp member).unique away

end Source

namespace Sample

theorem atDistance_one {whole : Term} (stated : ⟨hamlet, partOf, whole⟩ ∈ places.statementsIn none)
    (other : whole ≠ hamlet) :
    AtDistance (places.statementsIn none) partOf .down hamlet 1 whole := by
  refine atDistance_succ.mpr ⟨⟨hamlet, by simp, steps_places hamlet whole stated⟩, ?_⟩
  intro m first
  obtain rfl : m = 0 := by omega
  rwa [atDistance_zero]

theorem atDistance_parish : AtDistance (places.statementsIn none) partOf .down hamlet 1 parish :=
  atDistance_one (by decide) (by decide)

theorem atDistance_county : AtDistance (places.statementsIn none) partOf .down hamlet 1 county :=
  atDistance_one (by decide) (by decide)

theorem atDistance_country :
    AtDistance (places.statementsIn none) partOf .down hamlet 2 country := by
  have step := steps_places county country (by decide)
  have rows : ∀ row ∈ (places.statementsIn none).toList,
      row.subject = hamlet → row.object ≠ country := by
    decide
  refine atDistance_succ.mpr ⟨⟨county, atDistance_county, step⟩, fun m nearer found => ?_⟩
  obtain rfl | rfl : m = 0 ∨ m = 1 := by omega
  · exact absurd (atDistance_zero.mp found) (by decide)
  · obtain ⟨⟨x, first, row, member, -, subject, object⟩, -⟩ := atDistance_succ.mp found
    exact rows row member (subject.trans (atDistance_zero.mp first)) object

/-- Three calls are made from the hamlet, although parts and wholes go round in circles. The parish
is asked about in the second one. -/
theorem batches_from_hamlet : places.source.AnswersIn none (places.statementsIn none) ∧
    ∃ batches, places.source.batches partOf .down none ∅ (.singleton hamlet) = .ok batches ∧
      batches.length = 3 ∧
      ∀ k (inside : k < batches.length), parish ∈ batches[k] ↔ k = 1 := by
  obtain ⟨batches, asked, -, layers, -, farthest, length, ⟨t, away⟩, bound⟩ :=
    Source.batches_by_distance answersIn_places hamlet partOf .down
  have two : farthest = 2 := by
    have enough := bound 2 country atDistance_country
    have place := closed_places.mem_of_reaches (by decide)
      (reaches_iff_stepsIn.mpr ⟨farthest, away.1⟩)
    simp only [SortedSet.mem_ofList, List.mem_cons, List.not_mem_nil, or_false] at place
    rcases place with rfl | rfl | rfl | rfl
    · exact absurd (away.unique (atDistance_zero.mpr rfl)) (by omega)
    · exact absurd (away.unique atDistance_parish) (by omega)
    · exact absurd (away.unique atDistance_county) (by omega)
    · exact away.unique atDistance_country
  refine ⟨answersIn_places, batches, asked, by omega, fun k inside => ?_⟩
  refine ((layers k inside).2 parish).trans ⟨fun found => found.unique atDistance_parish, ?_⟩
  rintro rfl
  exact atDistance_parish

end Sample

end TripleQuery
