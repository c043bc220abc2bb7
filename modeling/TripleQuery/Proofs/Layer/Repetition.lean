import TripleQuery.Proofs.Layer.Containment

/-!
One rule stacked twice. The upper layer follows its closure through the lower one, which adds only
further steps of the same relation. What the lower layer adds to a query for that closure are
answers for it already. So the two layers answer as one, down to the faults.
-/

namespace TripleQuery

variable {held : SortedSet Triple} {p : Pattern} {context : Option Term}

/-! ### Requests of one rule -/

/-- The requests of a rule differ only in where they start. -/
theorem ClosureRule.request_alike {rule : ClosureRule} {q : Pattern} {r r' : ClosureRequest}
    (requested : rule.request? p = some r) (also : rule.request? q = some r') :
    ∃ start, r' = { r with start := start } := by
  rcases request_cases requested with ⟨_, own, _, _, rfl⟩ | ⟨_, rfl, _, rfl⟩ <;>
    rcases request_cases also with ⟨_, own', _, start, rfl⟩ | ⟨property, same, _, rfl⟩
  · exact ⟨start, rfl⟩
  · rw [same] at own
    cases own
  · cases own'
  · exact ⟨[property], rfl⟩

namespace ClosureRequest

variable {r : ClosureRequest} {reflexive : Bool}

theorem widen_put (slot : Slot) (closure : SortedSet Term) :
    r.widen (p.put r.position slot) closure = r.widen p closure :=
  Pattern.put_put ..

theorem reflexiveRows_put (slot : Slot) (closure : SortedSet Term) :
    r.reflexiveRows (p.put r.position slot) closure = r.reflexiveRows p closure := by
  unfold reflexiveRows
  cases opposite : r.position.opposite with
  | none => rfl
  | some other =>
    obtain ⟨other_ne, predicate_ne⟩ := Position.ne_of_opposite opposite
    have predicate : (p.put r.position slot).predicate = p.predicate :=
      Pattern.get_put_of_ne p predicate_ne slot
    dsimp only
    rw [predicate, Pattern.get_put_of_ne p other_ne]

/-- The answer for the closure of what a pattern names in the request's place. -/
def Answered (r : ClosureRequest) (held : SortedSet Triple) (reflexive : Bool) (p : Pattern)
    (answer : Answer) : Prop :=
  ∃ rows, answer = .ok rows ∧ ∃ closure, r.Closes held p closure ∧
    ∀ row, row ∈ rows ↔ r.Answers held reflexive p closure row

theorem Answered.unique {answer other : Answer} (answered : r.Answered held reflexive p answer)
    (also : r.Answered held reflexive p other) : answer = other := by
  obtain ⟨rows, rfl, closure, closes, exactly⟩ := answered
  obtain ⟨rows', rfl, closure', closes', exactly'⟩ := also
  obtain rfl := closes.unique closes'
  exact congrArg Except.ok (SortedSet.ext fun row => (exactly row).trans (exactly' row).symm)

end ClosureRequest

namespace Source

variable {r : ClosureRequest} {reflexive : Bool}

/-! ### Sources that serve a request alike -/

/-- What stands in the request's place does not matter to a query for a given closure. -/
theorem selectWidened_put (next : Source) (slot : Slot) (starts : List Term) :
    next.selectWidened reflexive r (p.put r.position slot) context starts =
      next.selectWidened reflexive r p context starts := by
  simp only [selectWidened, entailWithin, ClosureRequest.widen_put,
    ClosureRequest.reflexiveRows_put]

theorem selectEach_put (next : Source) (slot : Slot) (start : Term) :
    next.selectEach reflexive r (p.put r.position slot) context start =
      next.selectEach reflexive r p context start := by
  simp only [selectEach, entailWithin, Pattern.put_put, ClosureRequest.reflexiveRows_put]

/-- A source that answers for the closure of any terms in the request's place. -/
structure Serves (s : Source) (context : Option Term) (held : SortedSet Triple) (r : ClosureRequest)
    (reflexive : Bool) (p : Pattern) : Prop where
  follows : s.Follows context held r.predicate
  narrows : ∀ slot : Slot, slot.isInterval = false →
    s.Narrows context held r reflexive (p.put r.position slot)

section Serving

variable {a b : Source} (serves : a.Serves context held r reflexive p)
  (also : b.Serves context held r reflexive p) (aligned : r.Aligned)

include serves aligned

theorem Serves.widened (starts : List Term) :
    r.Answered held reflexive (p.put r.position (.choices starts))
      (a.selectWidened reflexive r p context starts) := by
  rw [← selectWidened_put a (.choices starts)]
  refine selectWidened_narrows serves.follows aligned (serves.narrows _ rfl) fun t => ?_
  rw [Pattern.get_put_self, Slot.mentions_choices]

theorem Serves.each (start : Term) :
    r.Answered held reflexive (p.put r.position (.exact start))
      (a.selectEach reflexive r p context start) := by
  rw [← selectEach_put a (.exact start)]
  refine selectEach_narrows serves.follows aligned (serves.narrows _ rfl) fun t => ?_
  rw [Pattern.get_put_self, Slot.mentions_exact, eq_comm]

omit aligned in
theorem Serves.unlimited (empty : p.get r.position = .choices []) :
    r.Answered held reflexive p (a.selectUnlimited r p context) := by
  have narrows := serves.narrows (.choices []) rfl
  rw [← empty, Pattern.put_get] at narrows
  exact selectUnlimited_narrows serves.follows narrows empty

include also

/-- Two sources that serve a request answer it alike, with the same fault if it is refused. -/
theorem Serves.selectRequested_eq (starts : r.start = [] → p.get r.position = .choices [])
    (mode : Mode) : a.selectRequested reflexive r mode p context =
      b.selectRequested reflexive r mode p context := by
  have widened : ∀ starts, a.selectWidened reflexive r p context starts =
      b.selectWidened reflexive r p context starts :=
    fun starts => (serves.widened aligned starts).unique (also.widened aligned starts)
  unfold selectRequested
  split
  · rename_i unlimited
    have empty := starts (List.isEmpty_iff.mp unlimited)
    exact (serves.unlimited empty).unique (also.unlimited empty)
  · split
    · exact widened _
    · exact bind_congr_ok fun start _ =>
        (serves.each aligned start).unique (also.each aligned start)
    · exact bind_congr_ok fun start _ => widened [start]

end Serving

theorem serves_of_answersBy {s : Source} {evaluates : Bool} {settings : List ClosureSetting}
    (answers : s.AnswersBy evaluates context held settings)
    (follows : s.Follows context held r.predicate) (none : p.hasInterval = false)
    (shared : ∀ slot, r.SharedBy held settings reflexive (p.put r.position slot)) :
    s.Serves context held r reflexive p where
  follows := follows
  narrows slot plain := by
    refine narrows_of_shared answers (fun interval => ?_) (shared slot)
    rw [Pattern.hasInterval_put none r.position plain] at interval
    cases interval

end Source

/-! ### A rule above itself -/

/-- A rule makes for every narrowed pattern the request that it makes for the pattern. -/
theorem ClosureRequest.sharedBy_own {s : ClosureSetting} {r : ClosureRequest}
    (requested : s.rule.request? p = some r) (q : Pattern) :
    r.SharedBy held [s] s.reflexive q := by
  intro closure _ slot _ other only narrow narrowed
  obtain rfl := List.mem_singleton.mp only
  exact ⟨ClosureRule.request_alike requested narrowed, fun _ _ => id⟩

namespace Store.Memory

variable {m : Store.Memory} (built : m.Built) (s : ClosureSetting) (context : Option Term)

include built

/-- Closures followed through a rule's own layer come upon the same terms, unless the rule restates
what is stated of the relation followed. -/
theorem follows_own {r : ClosureRequest} (requested : s.rule.request? p = some r)
    (apart : s.rule ≠ .subPropertiesOf Vocabulary.subPropertyOf) :
    (m.source.under [s.layer]).Follows context (m.statementsIn context) r.predicate := by
  have spared : s.rule ≠ .subPropertiesOf r.predicate := by
    rcases ClosureRule.request_cases requested with ⟨_, own, _, _, rfl⟩ | ⟨_, _, _, rfl⟩
    · intro same
      rw [same] at own
      cases own
    · exact apart
  have traces := traces_stack built context (hierarchy_of_request requested).1
    (List.forall_mem_singleton.mpr spared)
  exact traces.follows (retains_stack built context [s])

/-- A layer above another of its own rule changes nothing about the answers to patterns without
intervals. -/
theorem select_twice (apart : s.rule ≠ .subPropertiesOf Vocabulary.subPropertyOf) (mode : Mode)
    (p : Pattern) (none : p.hasInterval = false) :
    (m.source.under [s.layer, s.layer]).select mode p context =
      (m.source.under [s.layer]).select mode p context := by
  show ((m.source.under [s.layer]).withClosure s.rule.matcher s.reflexive).select mode p context =
    (m.source.withClosure s.rule.matcher s.reflexive).select mode p context
  cases requested : s.rule.request? p with
  | none => exact Source.select_withClosure_of_none requested
  | some r =>
    rw [Source.select_withClosure_of_some requested, Source.select_withClosure_of_some requested]
    have stored := answersBy_source built context
    obtain ⟨hierarchy, aligned⟩ := hierarchy_of_request requested
    have below : m.source.Serves context (m.statementsIn context) r s.reflexive p :=
      Source.serves_of_answersBy stored
        (follows_of_answersBy hierarchy (List.forall_mem_nil _) stored) none fun _ _ _ _ _ _ member => absurd member List.not_mem_nil
    have above : (m.source.under [s.layer]).Serves context (m.statementsIn context) r
        s.reflexive p :=
      Source.serves_of_answersBy (answersBy_alone stored s) (follows_own built s context requested
        apart) none fun slot => ClosureRequest.sharedBy_own requested _
    exact above.selectRequested_eq below aligned
      (ClosureRequest.empty_of_start (ClosureRule.start_of_request requested)) mode

end Store.Memory

namespace Sample

/-- Instances of animals, those of sub-classes included. -/
def animalTypes : ClosureSetting := ⟨.typesOf animal, true⟩

theorem animals_once : ∃ rows, (pets.source.under [animalTypes.layer]).choices
    ⟨.any, .exact Vocabulary.type, .exact animal⟩ none = .ok rows ∧ rexIsAnimal ∈ rows := by
  obtain ⟨rows, answer, animals⟩ :=
    asked_of_animals built_pets (by decide) (.exact Vocabulary.type) rfl true
  have requested : animalTypes.rule.request? ⟨.any, .exact Vocabulary.type, .exact animal⟩ =
      some (ClosureRule.classRequest [animal]) := by decide
  refine ⟨rows, ?_, animals ⟨.iri "rex", Vocabulary.type, dog⟩ (by decide)
    (by decide) rfl⟩
  exact (Source.select_withClosure_of_some requested).trans answer

end Sample

theorem Store.Memory.animals_twice :
    Sample.animalTypes.rule ≠ .subPropertiesOf Vocabulary.subPropertyOf ∧
    ∃ rows, (Sample.pets.source.under [Sample.animalTypes.layer, Sample.animalTypes.layer]).choices
        ⟨.any, .exact Vocabulary.type, .exact Sample.animal⟩ none = .ok rows ∧
      Sample.rexIsAnimal ∈ rows := by
  have apart : Sample.animalTypes.rule ≠ .subPropertiesOf Vocabulary.subPropertyOf :=
    ClosureRule.noConfusion
  obtain ⟨rows, answer, member⟩ := Sample.animals_once
  exact ⟨apart, rows, (select_twice Sample.built_pets Sample.animalTypes none apart .listed _
    rfl).trans answer, member⟩

end TripleQuery
