import TripleQuery.Proofs.Layer.Intervals

/-!
Lists of subjects. No rule looks at a subject, and rows are restated without touching theirs.
Whatever the rules are, and however they get in each other's way, listing subjects filters the rows
of the pattern that leaves the subject open.
-/

namespace TripleQuery

variable {p : Pattern} {context : Option Term}

/-- The rows of an answer that pass a test. -/
def Answer.filter (answer : Answer) (test : Triple → Bool) : Answer :=
  answer.map fun rows => rows.filter test

theorem Answer.unite_filter (answers : List Answer) (test : Triple → Bool) :
    unite (answers.map (filter · test)) = (unite answers).filter test := by
  induction answers with
  | nil => rfl
  | cons first rest ih =>
    rw [List.map_cons, unite, ih, unite]
    cases first with
    | error fault => rfl
    | ok rows =>
      cases unite rest with
      | error fault => rfl
      | ok others =>
        refine congrArg Except.ok (SortedSet.ext fun row => ?_)
        simp only [SortedSet.mem_union, SortedSet.mem_filter, or_and_right]

namespace ClosureRule

/-- No rule looks at the subject. -/
theorem request_subject (rule : ClosureRule) (p : Pattern) (slot : Slot) :
    rule.request? (p.put .subject slot) = rule.request? p := by
  cases rule <;> rfl

theorem subject_ne_position {rule : ClosureRule} {r : ClosureRequest}
    (requested : rule.request? p = some r) : .subject ≠ r.position := by
  rcases request_cases requested with ⟨_, _, _, _, rfl⟩ | ⟨_, _, _, rfl⟩ <;>
    exact Position.noConfusion

end ClosureRule

theorem ClosureRequest.single_eq_ok {r : ClosureRequest} {start : Term}
    (alone : r.single p = .ok start) (q : Pattern) : r.single q = .ok start := by
  rw [single, start_of_single alone]

namespace Source

/-- What is asked of an open subject filters the rows. -/
def FiltersSubjects (s : Source) (context : Option Term) : Prop :=
  ∀ p, p.hasInterval = false → p.subject = .any → ∀ slot : Slot, slot.isInterval = false →
    s.choices (p.put .subject slot) context =
      (s.choices p context).filter fun row => slot.accepts row.subject

theorem filtersSubjects_of_answers {s : Source} {held : SortedSet Triple}
    (answers : s.AnswersIn context held) : s.FiltersSubjects context := by
  intro p none unset slot plain
  have listed : ∀ q : Pattern, q.hasInterval = false →
      s.choices q context = .ok (held.filter q.accepts) :=
    fun q own => answers .listed q own fun same => by cases same
  rw [listed p none, listed _ (Pattern.hasInterval_put none .subject plain)]
  refine congrArg Except.ok (SortedSet.ext fun row => ?_)
  have narrowed := Pattern.accepts_put_of_any (i := .subject) unset slot row
  simp only [SortedSet.mem_filter, narrowed, Bool.and_eq_true, and_assoc]
  rfl

section Request

variable {next : Source} (responds : next.Responds context)
  (filters : next.FiltersSubjects context) {r : ClosureRequest}
  (elsewhere : .subject ≠ r.position) (none : p.hasInterval = false) (unset : p.subject = .any)
  {slot : Slot} (plain : slot.isInterval = false)

include elsewhere unset

section Restating

include responds

omit unset in
/-- Restated rows keep their subjects. -/
theorem entail_subject (limit : Option (SortedSet Term)) (rows : SortedSet Triple) (slot : Slot) :
    ∃ found fewer, next.entail r context limit rows.toList = .ok found ∧
      next.entail r context limit (rows.filter fun row => slot.accepts row.subject).toList =
        .ok fewer ∧ ∀ row, row ∈ fewer ↔ row ∈ found ∧ slot.accepts row.subject = true := by
  have walks := responds.walksBack r
  obtain ⟨found, answer, exactly⟩ := entail_walked r walks limit rows.toList
  obtain ⟨fewer, filtered, exactly'⟩ := entail_walked r walks limit
    (rows.filter fun row => slot.accepts row.subject).toList
  have same_subject : ∀ (base : Triple) e, (base.put r.position e).subject = base.subject :=
    fun base e => Triple.get_put_of_ne base elsewhere e
  refine ⟨found, fewer, answer, filtered, fun row => ?_⟩
  rw [exactly, exactly']
  constructor
  · rintro ⟨base, member, e, within, leads, rfl⟩
    obtain ⟨member, fits⟩ := SortedSet.mem_filter.mp member
    exact ⟨⟨base, member, e, within, leads, rfl⟩, by rw [same_subject]; exact fits⟩
  · rintro ⟨⟨base, member, e, within, leads, rfl⟩, fits⟩
    rw [same_subject] at fits
    exact ⟨base, SortedSet.mem_filter.mpr ⟨member, fits⟩, e, within, leads, rfl⟩

/-- The closure's own rows fit the subject as well. -/
theorem entailWithin_subject (reflexive : Bool) (closure : SortedSet Term)
    (rows : SortedSet Triple) (slot : Slot) :
    next.entailWithin reflexive r (p.put .subject slot) context closure
        (rows.filter fun row => slot.accepts row.subject) =
      (next.entailWithin reflexive r p context closure rows).filter fun row =>
        slot.accepts row.subject := by
  obtain ⟨found, fewer, answer, filtered, exactly⟩ :=
    entail_subject responds elsewhere (some closure) rows slot
  have own : ∀ row, r.Reflexive (p.put .subject slot) closure row ↔
      r.Reflexive p closure row ∧ slot.accepts row.subject = true :=
    fun row => ClosureRequest.reflexive_put Position.noConfusion elsewhere unset slot
  rw [entailWithin, entailWithin, answer, filtered]
  refine congrArg Except.ok (SortedSet.ext fun row => ?_)
  rw [SortedSet.mem_filter, SortedSet.mem_ofList, SortedSet.mem_ofList, List.mem_append,
    List.mem_append, exactly, or_and_right]
  refine or_congr_right ?_
  cases reflexive with
  | false => simp
  | true => simp only [if_true, ClosureRequest.mem_reflexiveRows, own]

end Restating

include filters none plain

/-- A query that differs in the request's place only is filtered just as well. -/
theorem choices_subject {other : Slot} (listed : other.isInterval = false) :
    next.choices ((p.put .subject slot).put r.position other) context =
      (next.choices (p.put r.position other) context).filter fun row =>
        slot.accepts row.subject := by
  rw [Pattern.put_comm p elsewhere]
  refine filters _ (Pattern.hasInterval_put none r.position listed) ?_ slot plain
  exact (Pattern.get_put_of_ne p elsewhere other).trans unset

include responds

theorem selectWidened_subject (reflexive : Bool) (starts : List Term) :
    next.selectWidened reflexive r (p.put .subject slot) context starts =
      (next.selectWidened reflexive r p context starts).filter fun row =>
        slot.accepts row.subject := by
  obtain ⟨closure, walked⟩ := responds.closureFrom r.predicate r.direction starts ∅
  obtain ⟨rows, asked⟩ := responds.choices (p := p.put r.position (.oneOf closure))
    (Pattern.hasInterval_put none r.position rfl)
  have narrowed : next.choices ((p.put .subject slot).put r.position (.oneOf closure)) context = _ :=
    choices_subject filters elsewhere none unset plain rfl
  rw [asked] at narrowed
  rw [selectWidened_of_walked walked narrowed, selectWidened_of_walked walked asked]
  exact entailWithin_subject responds elsewhere unset reflexive closure rows slot

theorem selectEach_subject (reflexive : Bool) (start : Term) :
    next.selectEach reflexive r (p.put .subject slot) context start =
      (next.selectEach reflexive r p context start).filter fun row =>
        slot.accepts row.subject := by
  obtain ⟨closure, walked⟩ := responds.closure start r.predicate r.direction
  obtain ⟨rows, united⟩ := responds.unite_members r none closure
  have each : (closure.toList.map fun t =>
      next.choices ((p.put .subject slot).put r.position (.exact t)) context) =
        (closure.toList.map fun t => next.choices (p.put r.position (.exact t)) context).map
          fun answer => answer.filter fun row => slot.accepts row.subject := by
    rw [List.map_map]
    exact List.map_congr_left fun t _ =>
      choices_subject filters elsewhere none unset plain rfl
  have narrowed : Answer.unite (closure.toList.map fun t =>
      next.choices ((p.put .subject slot).put r.position (.exact t)) context) =
        .ok (rows.filter fun row => slot.accepts row.subject) := by
    rw [each, Answer.unite_filter, united]
    rfl
  rw [selectEach_of_walked walked narrowed, selectEach_of_walked walked united]
  exact entailWithin_subject responds elsewhere unset reflexive closure rows slot

omit unset in
theorem selectUnlimited_subject (unset : p.subject = .any) :
    next.selectUnlimited r (p.put .subject slot) context =
      (next.selectUnlimited r p context).filter fun row => slot.accepts row.subject := by
  obtain ⟨rows, asked⟩ := responds.choices none
  obtain ⟨found, fewer, answer, filtered, exactly⟩ :=
    entail_subject responds elsewhere Option.none rows slot
  have narrowed : next.choices (p.put .subject slot) context =
      .ok (rows.filter fun row => slot.accepts row.subject) := by
    rw [filters p none unset slot plain, asked]
    rfl
  rw [selectUnlimited_of_asked narrowed filtered, selectUnlimited_of_asked asked answer]
  refine congrArg Except.ok (SortedSet.ext fun row => ?_)
  rw [SortedSet.mem_filter, SortedSet.mem_ofList, SortedSet.mem_ofList, exactly]

theorem selectRequested_subject {rule : ClosureRule} (requested : rule.request? p = some r)
    (reflexive : Bool) :
    next.selectRequested reflexive r .listed (p.put .subject slot) context =
      (next.selectRequested reflexive r .listed p context).filter fun row =>
        slot.accepts row.subject := by
  unfold selectRequested
  rw [Pattern.get_put_of_ne p elsewhere.symm]
  split
  · exact selectUnlimited_subject responds filters elsewhere none plain unset
  · split
    · exact selectWidened_subject responds filters elsewhere none unset plain reflexive _
    · rename_i no_list
      obtain ⟨start, alone⟩ := ClosureRule.single_of_request requested fun terms => no_list terms
      rw [alone, ClosureRequest.single_eq_ok alone]
      exact selectEach_subject responds filters elsewhere none unset plain reflexive start
    · rename_i same
      cases same

end Request

theorem filtersSubjects_withClosure {next : Source} (responds : next.Responds context)
    (filters : next.FiltersSubjects context) (rule : ClosureRule) (reflexive : Bool) :
    (next.withClosure rule.matcher reflexive).FiltersSubjects context := by
  intro p none unset slot plain
  show next.selectByClosure rule.request? reflexive .listed (p.put .subject slot) context =
    Answer.filter (next.selectByClosure rule.request? reflexive .listed p context) _
  rw [selectByClosure, selectByClosure, rule.request_subject]
  cases requested : rule.request? p with
  | none => exact filters p none unset slot plain
  | some r =>
    exact selectRequested_subject responds filters (ClosureRule.subject_ne_position requested) none
      unset plain requested reflexive

end Source

namespace QueryConfig

/-- Closures alone, of any rules in any order, filter by subject. -/
theorem filtersSubjects_closures {base : Source} (responds : base.Responds context)
    (filters : base.FiltersSubjects context) (settings : List ClosureSetting) :
    let stack := base.under (settings.map ClosureSetting.layer)
    stack.Responds context ∧ stack.FiltersSubjects context := by
  induction settings with
  | nil => exact ⟨responds, filters⟩
  | cons s rest ih =>
    exact ⟨ih.1.withClosure s.rule s.reflexive,
      Source.filtersSubjects_withClosure ih.1 ih.2 s.rule s.reflexive⟩

/-- A configured store without container membership answers a pattern with listed subjects with the
rows of the open pattern whose subject is in the list. -/
theorem choices_subjects_eq_filter {m : Store.Memory} (built : m.Built) (c : QueryConfig)
    (closuresOnly : c.memberships = false) (context : Option Term) (p : Pattern)
    (none : p.hasInterval = false) (terms : List Term) :
    ∃ rows, (c.build m.source).choices (p.put .subject .any) context = .ok rows ∧
      (c.build m.source).choices (p.put .subject (.choices terms)) context =
        .ok (rows.filter fun row => decide (row.subject ∈ terms)) := by
  have answers := (Store.Memory.answers_source built).answersIn context
  obtain ⟨responds, filters⟩ := filtersSubjects_closures
    (fun mode p none plain => ⟨_, answers mode p none plain⟩)
    (Source.filtersSubjects_of_answers answers) c.closures
  have opened : (p.put .subject .any).hasInterval = false :=
    Pattern.hasInterval_put none .subject rfl
  obtain ⟨rows, asked⟩ := responds.choices opened
  have narrowed := filters _ opened rfl (.choices terms) rfl
  rw [Pattern.put_put, asked] at narrowed
  have passed : ∀ q : Pattern, q.object = p.object → (c.build m.source).choices q context =
      (m.source.under (c.closures.map ClosureSetting.layer)).choices q context := by
    intro q same
    have object : q.object.isInterval = false := by
      rw [same, ← Pattern.hasInterval_of_atObject (Pattern.atObject_of_no_interval none), none]
    rw [build_eq, closuresOnly]
    cases c.intervals with
    | false => rfl
    | true => exact Source.selectByInterval_other object
  exact ⟨rows, (passed (p.put .subject .any) rfl).trans asked,
    (passed (p.put .subject (.choices terms)) rfl).trans narrowed⟩

/-- Of the animals, those listed. -/
theorem listed_animals : Sample.petRules.memberships = false ∧ ∃ rows,
    ⟨.iri "rex", Vocabulary.type, Sample.animal⟩ ∈ rows ∧
    (Sample.petRules.build Sample.pets.source).choices
      ⟨.any, .exact Vocabulary.type, .exact Sample.animal⟩ none = .ok rows ∧
    (Sample.petRules.build Sample.pets.source).choices
      ⟨.choices [.iri "tom", .iri "rex"], .exact Vocabulary.type, .exact Sample.animal⟩ none =
        .ok (rows.filter fun row => decide (row.subject ∈ [Term.iri "tom", .iri "rex"])) := by
  obtain ⟨rows, asked, narrowed⟩ := choices_subjects_eq_filter Sample.built_pets Sample.petRules rfl
    none ⟨.any, .exact Vocabulary.type, .exact Sample.animal⟩ rfl [.iri "tom", .iri "rex"]
  obtain ⟨_, same, animals⟩ := Sample.asked_of_animals Sample.built_pets (by decide)
    (.exact Vocabulary.type) rfl true
  cases asked.symm.trans same
  exact ⟨rfl, rows, animals ⟨.iri "rex", Vocabulary.type, Sample.dog⟩ (by decide)
    (by decide) rfl, asked, narrowed⟩

end QueryConfig

end TripleQuery
