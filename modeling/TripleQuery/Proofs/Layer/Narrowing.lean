import TripleQuery.Proofs.Layer.Agreement

/-!
Open ends of queries over configured stores. Where no layer can tell an open end from one that
lists terms, listing terms there filters the rows and does nothing else.
-/

namespace TripleQuery

variable {held : SortedSet Triple} {p : Pattern} {context : Option Term} {opens : Term → Prop}
  {i : Position}

/-! ### Open ends -/

/-- The ends of a pattern that may be narrowed: an open subject, and an open object where the
predicate is one that `opens` holds of. -/
inductive Pattern.OpenAt (opens : Term → Prop) (p : Pattern) : Position → Prop where
  | subject (unset : p.subject = .any) : p.OpenAt opens .subject
  | object {q : Term} (about : p.predicate = .exact q) (free : opens q) (unset : p.object = .any) :
      p.OpenAt opens .object

namespace Pattern.OpenAt

theorem get (openAt : p.OpenAt opens i) : p.get i = .any := by
  cases openAt <;> assumption

theorem ne_predicate (openAt : p.OpenAt opens i) : i ≠ .predicate := by
  cases openAt <;> exact Position.noConfusion

end Pattern.OpenAt

/-! ### Rules that do not see an open end -/

namespace ClosureRule

variable {rule : ClosureRule}

/-- A rule makes the same request whether or not an open end is narrowed. -/
theorem request_put (free : ∀ q ∈ rule.relation?, ¬ opens q) (openAt : p.OpenAt opens i)
    (slot : Slot) : rule.request? (p.put i slot) = rule.request? p := by
  cases openAt with
  | subject unset => cases rule <;> rfl
  | object about opened unset =>
    have silent : ∀ relation ∈ rule.relation?, p.predicate.mentions relation = false := by
      intro relation own
      rw [about]
      refine decide_eq_false fun same => ?_
      exact free relation own (same ▸ opened)
    cases rule with
    | subPropertiesOf property => rfl
    | types | typesOf _ | subClassesOf _ =>
      have other := silent _ rfl
      simp [request?, Pattern.put, other]

theorem position_ne {r : ClosureRequest} (requested : rule.request? p = some r)
    (unset : p.get i = .any) : i ≠ r.position := by
  rintro rfl
  exact named_of_request requested (by rw [unset]; rfl)

end ClosureRule

theorem Position.eq_of_opposite {i j other : Position} (ne_predicate : i ≠ .predicate)
    (elsewhere : i ≠ j) (opposite : j.opposite = some other) : other = i := by
  cases i <;> cases j <;> cases opposite <;> first | rfl | contradiction

namespace ClosureRequest

variable {r : ClosureRequest} {closure : SortedSet Term} {reflexive : Bool} {row : Triple}

theorem accepts_widen_put (elsewhere : i ≠ r.position) (unset : p.get i = .any) (slot : Slot)
    (base : Triple) : (r.widen (p.put i slot) closure).accepts base =
      ((r.widen p closure).accepts base && slot.accepts (base.get i)) := by
  rw [widen, Pattern.put_comm p elsewhere]
  refine Pattern.accepts_put_of_any ?_ slot base
  rw [Pattern.get_put_of_ne p elsewhere, unset]

theorem reflexive_put (ne_predicate : i ≠ .predicate) (elsewhere : i ≠ r.position)
    (unset : p.get i = .any) (slot : Slot) : r.Reflexive (p.put i slot) closure row ↔
      r.Reflexive p closure row ∧ slot.accepts (row.get i) = true := by
  have about : (p.put i slot).predicate = p.predicate :=
    Pattern.get_put_of_ne p ne_predicate.symm slot
  have same_end : ∀ x, (⟨x, r.predicate, x⟩ : Triple).get i = x := by
    intro x
    cases i with
    | subject | object => rfl
    | predicate => exact absurd rfl ne_predicate
  rw [Reflexive, Reflexive, about]
  constructor
  · rintro ⟨predicate, other, opposite, x, inside, fits, rfl⟩
    obtain rfl := Position.eq_of_opposite ne_predicate elsewhere opposite
    rw [Pattern.get_put_self] at fits
    rw [same_end]
    exact ⟨⟨predicate, _, opposite, x, inside, by rw [unset]; rfl, rfl⟩, fits⟩
  · rintro ⟨⟨predicate, other, opposite, x, inside, _, rfl⟩, fits⟩
    obtain rfl := Position.eq_of_opposite ne_predicate elsewhere opposite
    rw [same_end] at fits
    exact ⟨predicate, _, opposite, x, inside, by rw [Pattern.get_put_self]; exact fits, rfl⟩

/-- Answers to a narrowed pattern are those that fit the narrowed end. -/
theorem answers_put (ne_predicate : i ≠ .predicate) (elsewhere : i ≠ r.position)
    (unset : p.get i = .any) (slot : Slot) :
    r.Answers held reflexive (p.put i slot) closure row ↔
      r.Answers held reflexive p closure row ∧ slot.accepts (row.get i) = true := by
  have same_end : ∀ {base : Triple} {e : Term}, r.Entails held base e row →
      row.get i = base.get i := by
    intro base e entails
    rw [entails.2, Triple.get_put_of_ne base elsewhere]
  rw [Answers, Answers, reflexive_put ne_predicate elsewhere unset]
  constructor
  · rintro (⟨base, member, accepted, e, inside, entails⟩ | ⟨flag, own, fits⟩)
    · rw [accepts_widen_put elsewhere unset, Bool.and_eq_true] at accepted
      rw [same_end entails]
      exact ⟨.inl ⟨base, member, accepted.1, e, inside, entails⟩, accepted.2⟩
    · exact ⟨.inr ⟨flag, own⟩, fits⟩
  · rintro ⟨⟨base, member, accepted, e, inside, entails⟩ | ⟨flag, own⟩, fits⟩
    · rw [same_end entails] at fits
      refine .inl ⟨base, member, ?_, e, inside, entails⟩
      rw [accepts_widen_put elsewhere unset, accepted]
      exact fits
    · exact .inr ⟨flag, own, fits⟩

end ClosureRequest

section Settings

variable {settings : List ClosureSetting}
  (free : ∀ s ∈ settings, ∀ q ∈ s.rule.relation?, ¬ opens q) (openAt : p.OpenAt opens i)

include free openAt

theorem firstRequest_put (slot : Slot) :
    firstRequest? settings (p.put i slot) = firstRequest? settings p := by
  induction settings with
  | nil => rfl
  | cons s rest ih =>
    obtain ⟨here, later⟩ := List.forall_mem_cons.mp free
    rw [firstRequest?, List.findSome?_cons, ClosureRule.request_put here openAt slot]
    rw [firstRequest?, List.findSome?_cons]
    cases s.rule.request? p with
    | none => exact ih later
    | some r => rfl

/-- What a stack denotes for a narrowed pattern are the rows that fit the narrowed end. -/
theorem Denotes.filter {rows : SortedSet Triple} (denotes : Denotes held settings p rows)
    (slot : Slot) :
    Denotes held settings (p.put i slot) (rows.filter fun row => slot.accepts (row.get i)) := by
  unfold Denotes at denotes ⊢
  rw [firstRequest_put free openAt slot]
  cases first : firstRequest? settings p with
  | none =>
    rw [first] at denotes
    subst denotes
    refine SortedSet.ext fun row => ?_
    rw [SortedSet.mem_filter, SortedSet.mem_filter, SortedSet.mem_filter, and_assoc,
      Pattern.accepts_put_of_any openAt.get, Bool.and_eq_true]
  | some request =>
    obtain ⟨reflexive, r⟩ := request
    rw [first] at denotes
    obtain ⟨closure, closes, exactly⟩ := denotes
    obtain ⟨_, _, requested, _⟩ := exists_of_firstRequest first
    have elsewhere := ClosureRule.position_ne requested openAt.get
    refine ⟨closure, fun t => ?_, fun row => ?_⟩
    · rw [Pattern.get_put_of_ne p elsewhere.symm]
      exact closes t
    · rw [SortedSet.mem_filter, exactly]
      exact (ClosureRequest.answers_put openAt.ne_predicate elsewhere openAt.get slot).symm

end Settings

/-! ### Sources -/

namespace Source

variable {next : Source}

/-- Listing terms at one end of a pattern filters its rows. -/
def FiltersAt (s : Source) (context : Option Term) (i : Position) (p : Pattern) : Prop :=
  ∃ rows, s.triples p context = .ok rows ∧ ∀ known,
    s.choices (p.put i (.oneOf known)) context =
      .ok (rows.filter fun row => (Slot.oneOf known).accepts (row.get i))

/-- Every query that the source takes is answered, and filtered by what is listed at an open
end. -/
structure Narrowable (s : Source) (context : Option Term) (opens : Term → Prop) : Prop where
  answered : ∀ mode p, s.Takes mode p → ∃ rows, s.select mode p context = .ok rows
  filters : ∀ i p, p.OpenAt opens i → s.Takes .plain p → s.FiltersAt context i p

theorem narrowable_of_answersBy {evaluates : Bool} {settings : List ClosureSetting}
    (answers : next.AnswersBy evaluates context held settings)
    (same : next.evaluatesIntervals = evaluates)
    (free : ∀ s ∈ settings, ∀ q ∈ s.rule.relation?, ¬ opens q) : next.Narrowable context opens where
  answered mode p taken := by
    obtain ⟨rows, answer, _⟩ := answers mode p (same ▸ taken.2.1) taken.2.2
    exact ⟨rows, answer⟩
  filters i p openAt taken := by
    obtain ⟨rows, answer, denotes⟩ := answers .plain p (same ▸ taken.2.1) taken.2.2
    refine ⟨rows, answer, fun known => ?_⟩
    obtain ⟨others, listed, also⟩ := answers .listed (p.put i (.oneOf known))
      (fun interval => (same ▸ taken.2.1) (Pattern.hasInterval_of_put rfl interval))
      fun plain => by cases plain
    rw [choices, listed, (denotes.filter free openAt _).unique also]

theorem evaluatesIntervals_stack (base : Source) (settings : List ClosureSetting) :
    (base.under (settings.map ClosureSetting.layer)).evaluatesIntervals =
      base.evaluatesIntervals := by
  induction settings with
  | nil => rfl
  | cons s rest ih => exact ih

/-! ### Container membership -/

theorem selectByMembership_of_silent {mode : Mode} (silent : p.asksForMembers = false) :
    next.selectByMembership mode p context = next.select mode p context := by
  unfold selectByMembership
  rw [silent]
  exact bind_pure _

theorem selectByMembership_of_asks {mode : Mode} (asks : p.asksForMembers = true)
    {rows typed : SortedSet Triple} (answer : next.select mode p context = .ok rows)
    (added : next.select p.typedMembers.mode p.typedMembers context = .ok typed) :
    next.selectByMembership mode p context = .ok (rows.insertMany (typed.toList.map fun row =>
      ⟨row.subject, Vocabulary.subPropertyOf, Vocabulary.member⟩)) := by
  unfold selectByMembership membershipRows
  rw [asks, answer, added]
  rfl

theorem hasInterval_typedMembers (placed : p.AtObject) : p.typedMembers.hasInterval = false := by
  show (p.subject.isInterval || false || false) = false
  rw [placed.1]
  rfl

theorem takes_typedMembers (placed : p.AtObject) :
    next.Takes p.typedMembers.mode p.typedMembers := by
  have none := hasInterval_typedMembers placed
  exact takes_mode (Pattern.atObject_of_no_interval none) fun interval => by
    rw [none] at interval
    cases interval

theorem asksForMembers_put (apart : ∀ q, opens q → q ≠ Vocabulary.subPropertyOf)
    (openAt : p.OpenAt opens i) (silent : p.asksForMembers = false) (slot : Slot) :
    (p.put i slot).asksForMembers = false := by
  cases openAt with
  | subject unset => exact silent
  | object about free unset =>
    show (p.predicate.mentions Vocabulary.subPropertyOf && _) = false
    rw [about, show (Slot.exact _).mentions Vocabulary.subPropertyOf = false from
      decide_eq_false (apart _ free)]
    rfl

/-- Where members are asked for, the subjects listed filter what is typed as one, too. -/
theorem filtersAt_asking (narrowable : next.Narrowable context opens) (unset : p.subject = .any)
    (asks : p.asksForMembers = true) (taken : next.Takes .plain p) :
    next.withMemberships.FiltersAt context .subject p := by
  have mode : p.typedMembers.mode = .plain := by
    rw [Pattern.typedMembers, unset]
    rfl
  obtain ⟨rows, answer, narrowed⟩ := narrowable.filters .subject p (.subject unset) taken
  obtain ⟨typed, added, fewer⟩ := narrowable.filters .subject p.typedMembers
    (.subject unset) (mode ▸ takes_typedMembers taken.1)
  refine ⟨_, selectByMembership_of_asks asks answer (by rw [mode]; exact added), fun known => ?_⟩
  have asks_put : (p.put .subject (.oneOf known)).asksForMembers = true := asks
  refine (selectByMembership_of_asks asks_put (narrowed known) (fewer known)).trans ?_
  refine congrArg Except.ok (SortedSet.ext fun row => ?_)
  simp only [SortedSet.mem_insertMany, SortedSet.mem_filter, List.mem_map, SortedSet.mem_toList]
  constructor
  · rintro (⟨source, ⟨member, fits⟩, rfl⟩ | ⟨member, fits⟩)
    · exact ⟨.inl ⟨source, member, rfl⟩, fits⟩
    · exact ⟨.inr member, fits⟩
  · rintro ⟨⟨source, member, rfl⟩ | member, fits⟩
    · exact .inl ⟨source, ⟨member, fits⟩, rfl⟩
    · exact .inr ⟨member, fits⟩

theorem narrowable_withMemberships (narrowable : next.Narrowable context opens)
    (apart : ∀ q, opens q → q ≠ Vocabulary.subPropertyOf) :
    next.withMemberships.Narrowable context opens where
  answered mode p taken := by
    obtain ⟨rows, answer⟩ := narrowable.answered mode p taken
    obtain ⟨typed, added⟩ := narrowable.answered _ _ (takes_typedMembers taken.1)
    cases asks : p.asksForMembers with
    | false => exact ⟨rows, (selectByMembership_of_silent asks).trans answer⟩
    | true => exact ⟨_, selectByMembership_of_asks asks answer added⟩
  filters i p openAt taken := by
    cases asks : p.asksForMembers with
    | false =>
      obtain ⟨rows, answer, narrowed⟩ := narrowable.filters i p openAt taken
      refine ⟨rows, (selectByMembership_of_silent asks).trans answer, fun known => ?_⟩
      have silent := asksForMembers_put apart openAt asks (.oneOf known)
      exact (selectByMembership_of_silent silent).trans (narrowed known)
    | true =>
      cases openAt with
      | subject unset => exact filtersAt_asking narrowable unset asks taken
      | object about free unset =>
        rw [Pattern.asksForMembers, unset, Bool.and_eq_true] at asks
        cases asks.2

/-! ### Intervals -/

theorem selectByInterval_within {mode : Mode} {bounds : Interval}
    (within : p.object = .within bounds) : next.selectByInterval mode p context =
      if !bounds.isBounded then next.select mode (p.put .object .any) context
      else if next.evaluatesIntervals then next.select mode p context
      else (next.select mode (p.put .object .any) context).map fun rows =>
        rows.filter fun row => bounds.contains row.object := by
  rw [selectByInterval, within]

theorem selectByInterval_other {mode : Mode} (other : p.object.isInterval = false) :
    next.selectByInterval mode p context = next.select mode p context := by
  unfold selectByInterval
  split
  · rename_i within
    rw [within] at other
    cases other
  · rfl

theorem takes_open {mode : Mode} (taken : next.withIntervals.Takes mode p) :
    next.Takes mode (p.put .object .any) :=
  takes_of_no_interval (Pattern.hasInterval_open taken.1) fun plain =>
    Pattern.hasChoices_open (taken.2.2 plain)

theorem takes_other {mode : Mode} (taken : next.withIntervals.Takes mode p)
    (other : p.object.isInterval = false) : next.Takes mode p := by
  refine takes_of_no_interval ?_ taken.2.2
  rw [Pattern.hasInterval_of_atObject taken.1, other]

/-- Above an interval the layer passes a narrowed subject on, whoever evaluates the interval. -/
theorem filtersAt_within (narrowable : next.Narrowable context opens) {bounds : Interval}
    (within : p.object = .within bounds) (unset : p.subject = .any)
    (taken : next.withIntervals.Takes .plain p) :
    next.withIntervals.FiltersAt context .subject p := by
  have within_put : ∀ known : SortedSet Term,
      (p.put .subject (.oneOf known)).object = .within bounds := fun _ => within
  obtain ⟨rows, answer, narrowed⟩ := narrowable.filters .subject (p.put .object .any)
    (.subject unset) (takes_open taken)
  show ∃ rows, next.selectByInterval .plain p context = .ok rows ∧
    ∀ known, next.selectByInterval .listed (p.put .subject (.oneOf known)) context = _
  rw [selectByInterval_within within]
  cases bounded : bounds.isBounded with
  | false =>
    refine ⟨rows, answer, fun known => ?_⟩
    rw [selectByInterval_within (within_put known), bounded]
    exact narrowed known
  | true =>
    cases evaluates : next.evaluatesIntervals with
    | true =>
      obtain ⟨rows, answer, narrowed⟩ := narrowable.filters .subject p (.subject unset)
        ⟨taken.1, fun _ => evaluates, taken.2.2⟩
      refine ⟨rows, answer, fun known => ?_⟩
      rw [selectByInterval_within (within_put known), bounded, evaluates]
      exact narrowed known
    | false =>
      refine ⟨rows.filter fun row => bounds.contains row.object, ?_, fun known => ?_⟩
      · rw [show next.select .plain _ context = _ from answer]
        rfl
      · rw [selectByInterval_within (within_put known), bounded, evaluates]
        show (next.choices ((p.put .object .any).put .subject (.oneOf known)) context).map _ = _
        rw [narrowed known]
        refine congrArg Except.ok (SortedSet.ext fun row => ?_)
        simp only [SortedSet.mem_filter]
        exact and_right_comm

/-- Whatever the source answers in a mode, the layer above does, with intervals besides. -/
theorem answered_withIntervals {mode : Mode}
    (answered : ∀ p, next.Takes mode p → ∃ rows, next.select mode p context = .ok rows)
    (taken : next.withIntervals.Takes mode p) :
    ∃ rows, next.withIntervals.select mode p context = .ok rows := by
  show ∃ rows, next.selectByInterval mode p context = .ok rows
  obtain ⟨rows, opened⟩ := answered _ (takes_open taken)
  cases object : p.object with
  | within bounds =>
    rw [selectByInterval_within object, opened]
    split
    · exact ⟨rows, rfl⟩
    · split
      · rename_i evaluates
        exact answered p ⟨taken.1, fun _ => evaluates, taken.2.2⟩
      · exact ⟨_, rfl⟩
  | any | exact _ | choices _ =>
    have other : p.object.isInterval = false := by rw [object]; rfl
    rw [selectByInterval_other other]
    exact answered p (takes_other taken other)

theorem narrowable_withIntervals (narrowable : next.Narrowable context opens) :
    next.withIntervals.Narrowable context opens where
  answered mode _ := answered_withIntervals (narrowable.answered mode)
  filters i p openAt taken := by
    by_cases other : p.object.isInterval = false
    · obtain ⟨rows, answer, narrowed⟩ := narrowable.filters i p openAt (takes_other taken other)
      refine ⟨rows, (selectByInterval_other other).trans answer, fun known => ?_⟩
      have other_put : (p.put i (.oneOf known)).object.isInterval = false := by
        cases openAt with
        | subject unset => exact other
        | object about free unset => rfl
      exact (selectByInterval_other other_put).trans (narrowed known)
    · cases openAt with
      | object about free unset => exact absurd (by rw [unset]; rfl) other
      | subject unset =>
        cases object : p.object with
        | within bounds => exact filtersAt_within narrowable object unset taken
        | any | exact _ | choices _ => exact absurd (by rw [object]; rfl) other

end Source

/-! ### Configured stores -/

namespace QueryConfig

/-- The predicates whose objects no layer of a configuration adds to. -/
def Leaves (c : QueryConfig) (q : Term) : Prop :=
  q ∉ c.restated ∧ (c.memberships = true → q ≠ Vocabulary.subPropertyOf)

theorem narrowable_build {m : Store.Memory} (built : m.Built) (c : QueryConfig)
    (context : Option Term) (orderly : Orderly (m.statementsIn context) c.closures) :
    (c.build m.source).Narrowable context c.Leaves := by
  have free : ∀ s ∈ c.closures, ∀ q ∈ s.rule.relation?, ¬ c.Leaves q :=
    fun s member q own leaves => leaves.1 (List.mem_filterMap.mpr ⟨s, member, own⟩)
  have closures := Source.narrowable_of_answersBy
    (answersBy_stack orderly (Store.Memory.answersBy_source built context))
    (Source.evaluatesIntervals_stack m.source c.closures) free
  rw [build_eq]
  refine under_optional (Source.Narrowable · context c.Leaves) _ ?_
    Source.narrowable_withIntervals
  cases wanted : c.memberships with
  | false => exact closures
  | true => exact Source.narrowable_withMemberships closures fun q leaves => leaves.2 wanted

end QueryConfig

end TripleQuery
