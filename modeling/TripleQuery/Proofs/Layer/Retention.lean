import TripleQuery.Proofs.Layer.Intervals

/-!
What is kept on the way up a stack. A closure takes the place of the terms that a pattern names, but
it holds all of them, and each row that comes back is stated again for its own term at least. So no
statement held that a pattern accepts is lost, whatever the layers add.
-/

namespace TripleQuery

variable {held : SortedSet Triple} {p : Pattern} {context : Option Term} {mode : Mode}

theorem ClosureRule.exact_of_request {rule : ClosureRule} {r : ClosureRequest}
    (requested : rule.request? p = some r) (no_list : ∀ terms, p.get r.position ≠ .choices terms) :
    ∃ start, r.start = [start] ∧ p.get r.position = .exact start := by
  rcases start_of_request requested with list | ⟨start, alone, mentioned⟩
  · exact absurd list (no_list r.start)
  · refine ⟨start, alone, ?_⟩
    cases slot : p.get r.position with
    | exact term =>
      rw [slot] at mentioned
      exact congrArg Slot.exact (of_decide_eq_true mentioned)
    | choices terms => exact absurd slot (no_list terms)
    | any | within _ =>
      rw [slot] at mentioned
      cases mentioned

namespace Source

/-! ### The queries of a closure -/

/-- A query about terms of a closure, all of whose rows are gathered. -/
structure Part (next : Source) (context : Option Term) (r : ClosureRequest) (p : Pattern)
    (closure : SortedSet Term) (rows : SortedSet Triple) (slot : Slot)
    (part : SortedSet Triple) : Prop where
  plain : slot.isInterval = false
  inside : ∀ x, slot.accepts x = true → x ∈ closure
  asked : next.choices (p.put r.position slot) context = .ok part
  gathered : ∀ row ∈ part, row ∈ rows

/-- The rows of one query for a closure, or of one for each of its members: every row comes from
such a query, and every member is asked about. -/
structure Gathers (next : Source) (context : Option Term) (r : ClosureRequest) (p : Pattern)
    (closure : SortedSet Term) (rows : SortedSet Triple) : Prop where
  of_row : ∀ row ∈ rows, ∃ slot part, next.Part context r p closure rows slot part ∧ row ∈ part
  of_term : ∀ t ∈ closure, ∃ slot part, next.Part context r p closure rows slot part ∧
    slot.accepts t = true

section Gathering

variable {next : Source} {r : ClosureRequest} {reflexive : Bool} {closure : SortedSet Term}
  {rows found : SortedSet Triple}

theorem gathers_widened (asked : next.choices (r.widen p closure) context = .ok rows) :
    next.Gathers context r p closure rows := by
  have whole : next.Part context r p closure rows (.oneOf closure) rows :=
    ⟨rfl, fun _ => Slot.accepts_oneOf.mp, asked, fun _ => id⟩
  exact ⟨fun _ member => ⟨_, rows, whole, member⟩,
    fun _ inside => ⟨_, rows, whole, Slot.accepts_oneOf.mpr inside⟩⟩

theorem gathers_each (united : Answer.unite (closure.toList.map fun t =>
    next.choices (p.put r.position (.exact t)) context) = .ok rows) :
    next.Gathers context r p closure rows := by
  have each : ∀ t ∈ closure, ∀ part, next.choices (p.put r.position (.exact t)) context = .ok part →
      next.Part context r p closure rows (.exact t) part := by
    intro t inside part asked
    refine ⟨rfl, fun x accepted => of_decide_eq_true accepted ▸ inside, asked, fun row member => ?_⟩
    exact (Answer.mem_unite united row).mpr ⟨part, List.mem_map.mpr ⟨t, inside, asked⟩, member⟩
  constructor
  · intro row member
    obtain ⟨part, listed, present⟩ := (Answer.mem_unite united row).mp member
    obtain ⟨t, inside, asked⟩ := List.mem_map.mp listed
    exact ⟨_, part, each t inside part asked, present⟩
  · intro t inside
    obtain ⟨part, asked⟩ :=
      Answer.unite_eq_ok_iff.mp ⟨rows, united⟩ _ (List.mem_map.mpr ⟨t, inside, rfl⟩)
    exact ⟨_, part, each t inside part asked, decide_eq_true rfl⟩

/-- An answer that entails the rows gathered for the closure of all the terms that the pattern
names in the request's place. -/
def Assembled (next : Source) (context : Option Term) (reflexive : Bool) (r : ClosureRequest)
    (p : Pattern) (found : SortedSet Triple) : Prop :=
  ∃ starts closure rows, (∀ t, t ∈ starts ↔ (p.get r.position).mentions t = true) ∧
    next.closureAll starts r.predicate r.direction context = .ok closure ∧
    next.Gathers context r p closure rows ∧
    next.entailWithin reflexive r p context closure rows = .ok found

theorem assembled_of_selectWidened {starts : List Term}
    (named : ∀ t, t ∈ starts ↔ (p.get r.position).mentions t = true)
    (answer : next.selectWidened reflexive r p context starts = .ok found) :
    next.Assembled context reflexive r p found := by
  obtain ⟨closure, walked, answer⟩ := bind_ok answer
  obtain ⟨rows, asked, answer⟩ := bind_ok answer
  exact ⟨starts, closure, rows, named, walked, gathers_widened asked, answer⟩

theorem assembled_of_selectEach {start : Term} (slot : p.get r.position = .exact start)
    (answer : next.selectEach reflexive r p context start = .ok found) :
    next.Assembled context reflexive r p found := by
  obtain ⟨closure, walked, answer⟩ := bind_ok answer
  obtain ⟨rows, united, answer⟩ := bind_ok answer
  refine ⟨[start], closure, rows, fun t => ?_, ?_, gathers_each united, answer⟩
  · rw [slot, List.mem_singleton, Slot.mentions_exact, eq_comm]
  · rw [closureAll_singleton, walked]

/-- What an answer to a rule's request is made of. Only an empty list leaves it without a start. -/
theorem assembled_of_selectRequested {rule : ClosureRule} (requested : rule.request? p = some r)
    (plain : mode = .plain → p.hasChoices = false)
    (answer : next.selectRequested reflexive r mode p context = .ok found) :
    (p.get r.position = .choices [] ∧ next.selectUnlimited r p context = .ok found) ∨
      next.Assembled context reflexive r p found := by
  unfold selectRequested at answer
  split at answer
  · rename_i unlimited
    refine .inl ⟨?_, answer⟩
    exact ClosureRequest.empty_of_start (ClosureRule.start_of_request requested)
      (List.isEmpty_iff.mp unlimited)
  · refine .inr ?_
    split at answer
    · rename_i terms list
      refine assembled_of_selectWidened (fun t => ?_) answer
      have listed : t ∈ r.start → t ∈ terms := by
        intro start
        have mentioned := ClosureRule.mentions_of_request requested start
        rwa [list, Slot.mentions_choices] at mentioned
      rw [SortedSet.mem_toList, SortedSet.mem_ofList, List.mem_append, or_iff_left_of_imp listed,
        list, Slot.mentions_choices]
    · rename_i no_list
      obtain ⟨start, alone, answer⟩ := bind_ok answer
      obtain ⟨term, same, slot⟩ := ClosureRule.exact_of_request requested no_list
      rw [ClosureRequest.start_of_single alone] at same
      cases same
      exact assembled_of_selectEach slot answer
    · obtain ⟨start, alone, answer⟩ := bind_ok answer
      obtain ⟨term, same, slot⟩ := ClosureRule.exact_of_request requested fun terms =>
        Pattern.get_ne_choices (plain rfl) terms
      rw [ClosureRequest.start_of_single alone] at same
      cases same
      refine assembled_of_selectWidened (fun t => ?_) answer
      rw [slot, List.mem_singleton, Slot.mentions_exact, eq_comm]

end Gathering

/-! ### Sources that lose nothing -/

theorem select_withIntervals {next : Source} (none : p.hasInterval = false) :
    next.withIntervals.select mode p context = next.select mode p context := by
  have placed := Pattern.atObject_of_no_interval none
  exact selectByInterval_other ((Pattern.hasInterval_of_atObject placed).symm.trans none)

/-- Every query without intervals is answered, and one that may list terms with all that is held
and accepted. -/
structure Retains (s : Source) (context : Option Term) (held : SortedSet Triple) : Prop where
  responds : s.Responds context
  stated : ∀ p rows, p.hasInterval = false → s.choices p context = .ok rows →
    ∀ row ∈ held, p.accepts row = true → row ∈ rows

theorem AnswersIn.retains {s : Source} (answers : s.AnswersIn context held) :
    s.Retains context held where
  responds mode p none plain := ⟨_, answers mode p none plain⟩
  stated p rows none answer row member accepted := by
    cases (answers .listed p none fun same => by cases same).symm.trans answer
    exact SortedSet.mem_filter.mpr ⟨member, accepted⟩

section Retaining

variable {next : Source} (retains : next.Retains context held)

include retains

/-- A statement whose own term is in the closure is among the rows gathered. -/
theorem Retains.gathered {r : ClosureRequest} {closure : SortedSet Term} {rows : SortedSet Triple}
    (none : p.hasInterval = false) (gathers : next.Gathers context r p closure rows) {row : Triple}
    (member : row ∈ held) (fits : (p.put r.position .any).accepts row = true)
    (inside : row.get r.position ∈ closure) : row ∈ rows := by
  obtain ⟨slot, part, asks, accepted⟩ := gathers.of_term _ inside
  refine asks.gathered row (retains.stated _ part ?_ asks.asked row member ?_)
  · exact Pattern.hasInterval_put none r.position asks.plain
  · rw [Pattern.accepts_put, fits, accepted]
    rfl

/-- What the closure's answers are made of is among the rows gathered. -/
theorem Retains.mem_entailed {r : ClosureRequest} {reflexive : Bool} {closure : SortedSet Term}
    {rows found : SortedSet Triple} (none : p.hasInterval = false)
    (gathers : next.Gathers context r p closure rows)
    (exactly : ∀ row, row ∈ found ↔ (∃ base ∈ rows, ∃ e ∈ closure, r.Entails held base e row) ∨
      (reflexive = true ∧ r.Reflexive p closure row)) {row : Triple}
    (answers : r.Answers held reflexive p closure row) : row ∈ found := by
  rcases answers with ⟨base, stated, widened, e, entailed⟩ | own
  · rw [ClosureRequest.widen, Pattern.accepts_put, Bool.and_eq_true] at widened
    have present := retains.gathered none gathers stated widened.1
      (Slot.accepts_oneOf.mp widened.2)
    exact (exactly row).mpr (.inl ⟨base, present, e, entailed⟩)
  · exact (exactly row).mpr (.inr own)

theorem Retains.withClosure (rule : ClosureRule) (reflexive : Bool) :
    (next.withClosure rule.matcher reflexive).Retains context held where
  responds := retains.responds.withClosure rule reflexive
  stated p found none answer row member accepted := by
    cases requested : rule.request? p with
    | none =>
      rw [choices, select_withClosure_of_none requested] at answer
      exact retains.stated p found none answer row member accepted
    | some r =>
      rw [choices, select_withClosure_of_some requested] at answer
      have fits := Pattern.accepts_iff.mp accepted r.position
      rcases assembled_of_selectRequested requested (fun same => by cases same) answer with
        ⟨empty, _⟩ | ⟨starts, closure, rows, named, walked, gathers, answer⟩
      · rw [empty] at fits
        cases fits
      have inside : row.get r.position ∈ closure :=
        start_mem_closureFrom walked _ ((named _).mpr
          (Slot.mentions_of_accepts (ClosureRule.named_of_request requested) fits))
      rw [← p.put_get r.position, Pattern.accepts_put, Bool.and_eq_true] at accepted
      have present := retains.gathered none gathers member accepted.1 inside
      obtain ⟨_, entailed, exactly⟩ :=
        entailWithin_walked r (retains.responds.walksBack r) reflexive p closure rows
      cases entailed.symm.trans answer
      -- whatever else its term leads back to, a closure holds the term that it starts from
      obtain ⟨around, reached⟩ := retains.responds.closure (row.get r.position) r.predicate
        r.direction.opposite
      refine (exactly row).mpr (.inl ⟨row, present, _, inside, ?_, (row.put_get _).symm⟩)
      exact ⟨around, reached, start_mem_closure reached⟩

theorem Retains.stack (settings : List ClosureSetting) :
    (next.under (settings.map ClosureSetting.layer)).Retains context held := by
  induction settings with
  | nil => exact retains
  | cons s rest ih => exact ih.withClosure s.rule s.reflexive

theorem Retains.withMemberships : next.withMemberships.Retains context held where
  responds := retains.responds.withMemberships
  stated p found none answer row member accepted := by
    obtain ⟨rows, asked, answer⟩ := bind_ok answer
    have present := retains.stated p rows none asked row member accepted
    split at answer
    · obtain ⟨added, _, answer⟩ := bind_ok answer
      cases answer
      exact SortedSet.mem_insertMany.mpr (.inr present)
    · cases answer
      exact present

theorem Retains.withIntervals : next.withIntervals.Retains context held where
  responds mode p none plain := by
    rw [select_withIntervals none]
    exact retains.responds mode p none plain
  stated p rows none answer := by
    rw [choices, select_withIntervals none] at answer
    exact retains.stated p rows none answer

end Retaining

end Source

namespace QueryConfig

theorem retains_build {base : Source} (retains : base.Retains context held) (c : QueryConfig) :
    (c.build base).Retains context held := by
  rw [build_eq]
  refine under_optional (Source.Retains · context held) _ ?_ Source.Retains.withIntervals
  exact under_optional (Source.Retains · context held) _ (retains.stack c.closures)
    Source.Retains.withMemberships

/-- Whatever is configured, a pattern without intervals is answered, with every statement of the
context that it accepts. -/
theorem stated_mem_choices {m : Store.Memory} (built : m.Built) (c : QueryConfig)
    (context : Option Term) (p : Pattern) (none : p.hasInterval = false) :
    ∃ rows, (c.build m.source).choices p context = .ok rows ∧
      ∀ row ∈ m.statementsIn context, p.accepts row = true → row ∈ rows := by
  have stored := ((Store.Memory.answers_source built).answersIn context).retains
  have retains := retains_build stored c
  obtain ⟨rows, answer⟩ := retains.responds.choices none
  exact ⟨rows, answer, retains.stated p rows none answer⟩

/-- Rules for what is liked and for classes keep both what is of a kind and who likes it. -/
theorem dogs_mem_choices : ∃ rows, (Sample.petRules.build Sample.pets.source).choices
      ⟨.any, .choices [Vocabulary.type, Sample.likes], .exact Sample.dog⟩ none = .ok rows ∧
    ⟨.iri "rex", Vocabulary.type, Sample.dog⟩ ∈ rows ∧
    ⟨.iri "ann", Sample.likes, Sample.dog⟩ ∈ rows := by
  obtain ⟨rows, answer, stated⟩ := stated_mem_choices Sample.built_pets Sample.petRules none
    ⟨.any, .choices [Vocabulary.type, Sample.likes], .exact Sample.dog⟩ rfl
  refine ⟨rows, answer, stated _ ?_ ?_, stated _ ?_ ?_⟩ <;> decide

end QueryConfig

end TripleQuery
