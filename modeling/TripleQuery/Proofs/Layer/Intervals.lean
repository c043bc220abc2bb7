import TripleQuery.Proofs.Layer.Narrowing
import TripleQuery.Proofs.Store.Simulation

/-!
Intervals evaluated by a store, and intervals left to the layer above it. Under the same layers both
come to the same rows, or to faults of one category: no rule can tell an interval from an open
object, and rows are restated without touching their objects.
-/

namespace TripleQuery

variable {p : Pattern} {context : Option Term}

/-- An answer without the details of its fault. -/
def Answer.outcome (answer : Answer) : Except Fault.Category (SortedSet Triple) :=
  answer.mapError Fault.category

theorem Answer.outcome_eq_ok {answer : Answer} {rows : SortedSet Triple} :
    answer.outcome = .ok rows ↔ answer = .ok rows := by
  cases answer <;> simp [outcome, Except.mapError]

theorem ClosureRule.single_of_request {rule : ClosureRule} {r : ClosureRequest}
    (requested : rule.request? p = some r) (no_list : ∀ terms, p.get r.position ≠ .choices terms) :
    ∃ start, r.single p = .ok start := by
  rcases start_of_request requested with list | ⟨start, alone, _⟩
  · exact absurd list (no_list r.start)
  · exact ⟨start, by rw [ClosureRequest.single, alone]⟩

namespace Source

/-! ### Sources that answer alike -/

/-- Queries without intervals have the same answers. -/
def Alike (a b : Source) (context : Option Term) : Prop :=
  ∀ mode p, p.hasInterval = false → a.select mode p context = b.select mode p context

section Alike

variable {a b : Source} (alike : a.Alike b context)

include alike

theorem Alike.beyond (predicate : Term) (d : Direction) (terms : SortedSet Term) :
    a.beyond predicate d context terms = b.beyond predicate d context terms := by
  rw [Source.beyond, choices, alike .listed _ (hasInterval_stepPattern predicate d terms)]
  rfl

theorem Alike.closure (start predicate : Term) (d : Direction) (seen : SortedSet Term) :
    a.closure start predicate d context seen = b.closure start predicate d context seen :=
  closure_congr (fun _ => True) (fun terms _ => alike.beyond predicate d terms)
    (fun _ _ _ _ _ _ => trivial) trivial seen

theorem Alike.closureFrom (predicate : Term) (d : Direction) (known : SortedSet Term)
    (starts : List Term) :
    a.closureFrom predicate d context known starts =
      b.closureFrom predicate d context known starts :=
  closureFrom_congr (fun start _ => alike.closure start predicate d ∅) known

theorem Alike.entailWithin (reflexive : Bool) (r : ClosureRequest) (p : Pattern)
    (closure : SortedSet Term) (rows : SortedSet Triple) :
    a.entailWithin reflexive r p context closure rows =
      b.entailWithin reflexive r p context closure rows :=
  entailWithin_congr r (fun t => alike.closure t r.predicate r.direction.opposite ∅) reflexive p
    closure rows

theorem Alike.selectRequested (reflexive : Bool) (r : ClosureRequest) (mode : Mode)
    (none : p.hasInterval = false) :
    a.selectRequested reflexive r mode p context = b.selectRequested reflexive r mode p context :=
  selectRequested_congr r (fun _ => True)
    (fun start _ => alike.closure start r.predicate r.direction ∅) (fun _ _ _ _ _ _ => trivial)
    (fun t => alike.closure t r.predicate r.direction.opposite ∅) (alike .listed p none)
    (fun _ plain _ => alike .listed _ (Pattern.hasInterval_put none r.position plain))
    (fun _ _ => trivial) (fun _ _ => trivial) reflexive mode

theorem Alike.withClosure (m : Matcher) (reflexive : Bool) :
    (a.withClosure m reflexive).Alike (b.withClosure m reflexive) context := by
  intro mode p none
  show a.selectByClosure m.request? reflexive mode p context =
    b.selectByClosure m.request? reflexive mode p context
  unfold selectByClosure
  split
  · exact alike mode p none
  · exact alike.selectRequested reflexive _ mode none

theorem Alike.withMemberships : a.withMemberships.Alike b.withMemberships context := by
  intro mode p none
  have typed := hasInterval_typedMembers (Pattern.atObject_of_no_interval none)
  show a.selectByMembership mode p context = b.selectByMembership mode p context
  simp only [selectByMembership, membershipRows, alike mode p none, alike _ _ typed]

end Alike

/-! ### Sources that always answer -/

/-- Every query without intervals is answered; a plain one if it has no lists. -/
def Responds (s : Source) (context : Option Term) : Prop :=
  ∀ mode p, p.hasInterval = false → (mode = .plain → p.hasChoices = false) →
    ∃ rows, s.select mode p context = .ok rows

section Responds

variable {s : Source} (responds : s.Responds context)

include responds

theorem Responds.choices (none : p.hasInterval = false) :
    ∃ rows, s.choices p context = .ok rows :=
  responds .listed p none fun same => by cases same

theorem Responds.closure (start predicate : Term) (d : Direction) :
    ∃ found, s.closure start predicate d context ∅ = .ok found := by
  -- of no statements at all, every step is accounted for, and only the answers are left to give
  have steps : s.StepsHeld context ∅ predicate d := by
    intro terms
    obtain ⟨rows, answer⟩ := responds.choices (hasInterval_stepPattern predicate d terms)
    refine ⟨_, by rw [beyond, answer]; rfl, fun x _ t step => ?_⟩
    obtain ⟨row, stated, _⟩ := step
    exact absurd stated (SortedSet.not_mem_empty row)
  obtain ⟨found, asked, _⟩ := batches_closed steps ∅ (.singleton start)
  exact ⟨gather ∅ found, by rw [Source.closure, asked]; rfl⟩

theorem Responds.closureFrom (predicate : Term) (d : Direction) (starts : List Term)
    (known : SortedSet Term) :
    ∃ found, s.closureFrom predicate d context known starts = .ok found := by
  induction starts generalizing known with
  | nil => exact ⟨known, rfl⟩
  | cons start rest ih =>
    unfold Source.closureFrom
    split
    · exact ih known
    · obtain ⟨more, reached⟩ := responds.closure start predicate d
      obtain ⟨found, answer⟩ := ih (known ∪ more)
      exact ⟨found, by rw [reached]; exact answer⟩

theorem Responds.walksBack (r : ClosureRequest) : s.WalksBack context r fun t e =>
    ∃ found, s.closure t r.predicate r.direction.opposite context ∅ = .ok found ∧ e ∈ found := by
  intro t
  obtain ⟨found, walked⟩ := responds.closure t r.predicate r.direction.opposite
  refine ⟨found, walked, fun e => ⟨fun member => ⟨found, walked, member⟩, ?_⟩⟩
  rintro ⟨other, same, member⟩
  cases walked.symm.trans same
  exact member

theorem Responds.selectWidened (reflexive : Bool) (r : ClosureRequest)
    (none : p.hasInterval = false) (starts : List Term) :
    ∃ rows, s.selectWidened reflexive r p context starts = .ok rows := by
  obtain ⟨closure, walked⟩ := responds.closureFrom r.predicate r.direction starts ∅
  obtain ⟨rows, asked⟩ := responds.choices (p := r.widen p closure)
    (Pattern.hasInterval_put none r.position rfl)
  obtain ⟨found, entailed, _⟩ :=
    entailWithin_walked r (responds.walksBack r) reflexive p closure rows
  exact ⟨found, (selectWidened_of_walked walked asked).trans entailed⟩

theorem Responds.unite_members (r : ClosureRequest) (none : p.hasInterval = false)
    (closure : SortedSet Term) : ∃ rows, Answer.unite (closure.toList.map fun t =>
      s.choices (p.put r.position (.exact t)) context) = .ok rows := by
  refine Answer.unite_eq_ok_iff.mpr fun answer asked => ?_
  obtain ⟨t, _, rfl⟩ := List.mem_map.mp asked
  exact responds.choices (Pattern.hasInterval_put none r.position rfl)

theorem Responds.selectEach (reflexive : Bool) (r : ClosureRequest) (none : p.hasInterval = false)
    (start : Term) : ∃ rows, s.selectEach reflexive r p context start = .ok rows := by
  obtain ⟨closure, walked⟩ := responds.closure start r.predicate r.direction
  obtain ⟨rows, united⟩ := responds.unite_members r none closure
  obtain ⟨found, entailed, _⟩ :=
    entailWithin_walked r (responds.walksBack r) reflexive p closure rows
  exact ⟨found, (selectEach_of_walked walked united).trans entailed⟩

theorem Responds.selectUnlimited (r : ClosureRequest) (none : p.hasInterval = false) :
    ∃ rows, s.selectUnlimited r p context = .ok rows := by
  obtain ⟨rows, asked⟩ := responds.choices none
  obtain ⟨entailed, stated, _⟩ := entail_walked r (responds.walksBack r) Option.none rows.toList
  exact ⟨.ofList entailed, selectUnlimited_of_asked asked stated⟩

theorem Responds.withClosure (rule : ClosureRule) (reflexive : Bool) :
    (s.withClosure rule.matcher reflexive).Responds context := by
  intro mode p none plain
  cases requested : rule.request? p with
  | none =>
    rw [select_withClosure_of_none requested]
    exact responds mode p none plain
  | some r =>
    rw [select_withClosure_of_some requested]
    unfold selectRequested
    split
    · exact responds.selectUnlimited r none
    · split
      · exact responds.selectWidened reflexive r none _
      · rename_i no_list
        obtain ⟨start, alone⟩ := ClosureRule.single_of_request requested no_list
        rw [alone]
        exact responds.selectEach reflexive r none start
      · obtain ⟨start, alone⟩ := ClosureRule.single_of_request requested fun terms =>
          Pattern.get_ne_choices (plain rfl) terms
        rw [alone]
        exact responds.selectWidened reflexive r none [start]

theorem Responds.withMemberships : s.withMemberships.Responds context := by
  intro mode p none plain
  obtain ⟨rows, answer⟩ := responds mode p none plain
  have placed := Pattern.atObject_of_no_interval none
  have typed := hasInterval_typedMembers placed
  cases asks : p.asksForMembers with
  | false => exact ⟨rows, (selectByMembership_of_silent asks).trans answer⟩
  | true =>
    have taken : s.Takes p.typedMembers.mode p.typedMembers := takes_typedMembers placed
    obtain ⟨added, listed⟩ := responds _ _ typed taken.2.2
    exact ⟨_, selectByMembership_of_asks asks answer listed⟩

end Responds

end Source

/-! ### Rules that do not see an interval -/

namespace ClosureRule

variable {rule : ClosureRule}

theorem request_open (rule : ClosureRule) {bounds : Interval} (within : p.object = .within bounds) :
    rule.request? (p.put .object .any) = rule.request? p := by
  cases rule with
  | subPropertiesOf _ => rfl
  | types | typesOf _ | subClassesOf _ =>
    simp only [request?, Pattern.put, within]
    rfl

def propertyRequest (property : Term) : ClosureRequest :=
  ⟨[property], Vocabulary.subPropertyOf, .up, .predicate⟩

/-- Above an interval only a rule for sub-properties applies. -/
theorem request_within {r : ClosureRequest} {bounds : Interval} (within : p.object = .within bounds)
    (requested : rule.request? p = some r) :
    ∃ property, p.predicate = .exact property ∧ r = propertyRequest property := by
  rcases request_cases requested with ⟨_, _, _, start, rfl⟩ | ⟨property, _, about, rfl⟩
  · refine absurd ?_ (named_of_request requested)
    show p.object.named? = none
    rw [within]
    rfl
  · exact ⟨property, about, rfl⟩

end ClosureRule

namespace Source

/-! ### Intervals in a source and above it -/

/-- Leaves the object open and keeps the rows within the bounds. -/
def selectFiltered (s : Source) (bounds : Interval) (mode : Mode) (p : Pattern)
    (context : Option Term) : Answer :=
  (s.select mode (p.put .object .any) context).map fun rows =>
    rows.filter fun row => bounds.contains row.object

/-- `a` evaluates what a filter above `b` would, and is like it otherwise. -/
structure Evaluates (a b : Source) (context : Option Term) : Prop where
  responds : b.Responds context
  alike : a.Alike b context
  within : ∀ mode p bounds, p.WellPlaced → p.object = .within bounds →
    (a.select mode p context).outcome = (b.selectFiltered bounds mode p context).outcome

variable {a b : Source} (evaluates : a.Evaluates b context)

include evaluates

theorem Evaluates.choices_within {bounds : Interval} (placed : p.WellPlaced)
    (within : p.object = .within bounds) :
    ∃ rows, b.choices (p.put .object .any) context = .ok rows ∧
      a.choices p context = .ok (rows.filter fun row => bounds.contains row.object) := by
  obtain ⟨rows, answer⟩ := evaluates.responds.choices (Pattern.hasInterval_open placed.1)
  refine ⟨rows, answer, Answer.outcome_eq_ok.mp ?_⟩
  refine (evaluates.within .listed p bounds placed within).trans ?_
  rw [selectFiltered, show b.select .listed _ context = _ from answer]
  rfl

/-- Restating predicates commutes with a filter that looks at objects. -/
theorem Evaluates.entailWithin_within (bounds : Interval) (reflexive : Bool) (property : Term)
    (p : Pattern) (closure : SortedSet Term) (rows : SortedSet Triple) :
    a.entailWithin reflexive (ClosureRule.propertyRequest property) p context closure
        (rows.filter fun row => bounds.contains row.object) =
      (b.entailWithin reflexive (ClosureRule.propertyRequest property) (p.put .object .any) context
        closure rows).map fun rows => rows.filter fun row => bounds.contains row.object := by
  let r := ClosureRule.propertyRequest property
  have walks := evaluates.responds.walksBack r
  obtain ⟨found, answer, exactly⟩ :=
    entailWithin_walked r walks reflexive (p.put .object .any) closure rows
  obtain ⟨fewer, filtered, exactly'⟩ := entailWithin_walked r walks reflexive p closure
    (rows.filter fun row => bounds.contains row.object)
  -- nothing stands opposite a predicate, so the closure states no rows of its own
  have unpaired : ∀ q row, ¬ r.Reflexive q closure row := by
    rintro q row ⟨_, other, ⟨⟩, _⟩
  rw [evaluates.alike.entailWithin, filtered, answer]
  refine congrArg Except.ok (SortedSet.ext fun row => ?_)
  simp only [exactly, exactly', SortedSet.mem_filter, unpaired, and_false, or_false]
  constructor
  · rintro ⟨base, ⟨member, inside⟩, e, closed, leads, rfl⟩
    exact ⟨⟨base, member, e, closed, leads, rfl⟩, inside⟩
  · rintro ⟨⟨base, member, e, closed, leads, rfl⟩, inside⟩
    exact ⟨base, ⟨member, inside⟩, e, closed, leads, rfl⟩

section Property

variable {bounds : Interval} (placed : p.WellPlaced) (within : p.object = .within bounds)
  (reflexive : Bool) (property : Term)

include placed within

theorem Evaluates.selectWidened_within :
    a.selectWidened reflexive (ClosureRule.propertyRequest property) p context [property] =
      (b.selectWidened reflexive (ClosureRule.propertyRequest property) (p.put .object .any) context
        [property]).map fun rows => rows.filter fun row => bounds.contains row.object := by
  let r := ClosureRule.propertyRequest property
  obtain ⟨closure, walked⟩ := evaluates.responds.closureFrom r.predicate r.direction [property] ∅
  obtain ⟨rows, answer, filtered⟩ := evaluates.choices_within (p := r.widen p closure)
    (Pattern.wellPlaced_put placed _ rfl) within
  have walked' := (evaluates.alike.closureFrom _ _ _ _).trans walked
  rw [selectWidened_of_walked walked' filtered,
    selectWidened_of_walked (p := p.put .object .any) walked answer]
  exact evaluates.entailWithin_within bounds reflexive property p closure rows

theorem Evaluates.selectEach_within :
    a.selectEach reflexive (ClosureRule.propertyRequest property) p context property =
      (b.selectEach reflexive (ClosureRule.propertyRequest property) (p.put .object .any) context
        property).map fun rows => rows.filter fun row => bounds.contains row.object := by
  let r := ClosureRule.propertyRequest property
  obtain ⟨closure, walked⟩ := evaluates.responds.closure property r.predicate r.direction
  obtain ⟨rows, each⟩ := Classical.axiomOfChoice fun t =>
    evaluates.choices_within (p := p.put .predicate (.exact t))
      (Pattern.wellPlaced_put placed _ rfl) within
  have united : Answer.unite (closure.toList.map fun t =>
      b.choices ((p.put .object .any).put .predicate (.exact t)) context) =
        .ok (.unions (closure.toList.map rows)) := by
    rw [← Answer.unite_map_ok]
    exact congrArg Answer.unite (List.map_congr_left fun t _ => (each t).1)
  have filtered : Answer.unite (closure.toList.map fun t =>
      a.choices (p.put .predicate (.exact t)) context) =
        .ok ((SortedSet.unions (closure.toList.map rows)).filter fun row =>
          bounds.contains row.object) := by
    rw [SortedSet.filter_unions, List.map_map, ← Answer.unite_map_ok]
    exact congrArg Answer.unite (List.map_congr_left fun t _ => (each t).2)
  have walked' := (evaluates.alike.closure _ _ _ _).trans walked
  rw [selectEach_of_walked walked' filtered, selectEach_of_walked walked united]
  exact evaluates.entailWithin_within bounds reflexive property p closure _

end Property

/-! ### Layers above -/

omit evaluates in
theorem selectRequested_property {reflexive : Bool} {property : Term}
    (about : p.predicate = .exact property) (mode : Mode) :
    a.selectRequested reflexive (ClosureRule.propertyRequest property) mode p context =
      match mode with
      | .plain =>
        a.selectWidened reflexive (ClosureRule.propertyRequest property) p context [property]
      | .listed =>
        a.selectEach reflexive (ClosureRule.propertyRequest property) p context property := by
  cases mode with
  | plain => rfl
  | listed =>
    unfold selectRequested
    rw [show p.get (ClosureRule.propertyRequest property).position = _ from about]
    rfl

theorem Evaluates.withClosure (rule : ClosureRule) (reflexive : Bool) :
    (a.withClosure rule.matcher reflexive).Evaluates (b.withClosure rule.matcher reflexive)
      context where
  responds := evaluates.responds.withClosure rule reflexive
  alike := evaluates.alike.withClosure rule.matcher reflexive
  within mode p bounds placed within := by
    show Answer.outcome (a.selectByClosure rule.request? reflexive mode p context) =
      Answer.outcome ((b.selectByClosure rule.request? reflexive mode (p.put .object .any)
        context).map _)
    rw [selectByClosure, selectByClosure, rule.request_open within]
    cases requested : rule.request? p with
    | none => exact evaluates.within mode p bounds placed within
    | some r =>
      obtain ⟨property, about, rfl⟩ := ClosureRule.request_within within requested
      have opened : (p.put .object .any).predicate = .exact property := about
      refine congrArg Answer.outcome ?_
      show a.selectRequested reflexive _ mode p context =
        (b.selectRequested reflexive _ mode (p.put .object .any) context).map _
      rw [selectRequested_property about, selectRequested_property opened]
      cases mode with
      | plain => exact evaluates.selectWidened_within placed within reflexive property
      | listed => exact evaluates.selectEach_within placed within reflexive property

theorem Evaluates.withMemberships :
    a.withMemberships.Evaluates b.withMemberships context where
  responds := evaluates.responds.withMemberships
  alike := evaluates.alike.withMemberships
  within mode p bounds placed within := by
    have silent : p.asksForMembers = false := by
      rw [Pattern.asksForMembers, within]
      exact Bool.and_false _
    have opened : (p.put .object .any).asksForMembers = false := Bool.and_false _
    show Answer.outcome (a.selectByMembership mode p context) =
      Answer.outcome ((b.selectByMembership mode (p.put .object .any) context).map _)
    rw [selectByMembership_of_silent silent, selectByMembership_of_silent opened]
    exact evaluates.within mode p bounds placed within

theorem Evaluates.stack (settings : List ClosureSetting) :
    (a.under (settings.map ClosureSetting.layer)).Evaluates
      (b.under (settings.map ClosureSetting.layer)) context := by
  induction settings with
  | nil => exact evaluates
  | cons s rest ih => exact ih.withClosure s.rule s.reflexive

/-- Where one source evaluates intervals and the other does not, the layer above makes up for it. -/
theorem Evaluates.outcome_withIntervals (native : a.evaluatesIntervals = true)
    (plain : b.evaluatesIntervals = false) (mode : Mode) (placed : p.WellPlaced) :
    (a.withIntervals.select mode p context).outcome =
      (b.withIntervals.select mode p context).outcome := by
  show Answer.outcome (a.selectByInterval mode p context) =
    Answer.outcome (b.selectByInterval mode p context)
  cases interval : p.object.isInterval with
  | false =>
    rw [selectByInterval_other interval, selectByInterval_other interval,
      evaluates.alike mode p (by rw [Pattern.hasInterval_of_atObject placed.1, interval])]
  | true =>
    obtain ⟨bounds, within⟩ : ∃ bounds, p.object = .within bounds := by
      cases slot : p.object with
      | within bounds => exact ⟨bounds, rfl⟩
      | any | exact _ | choices _ =>
        rw [slot] at interval
        cases interval
    rw [selectByInterval_within within, selectByInterval_within within, native, plain]
    split
    · rw [evaluates.alike mode _ (Pattern.hasInterval_open placed.1)]
    · exact evaluates.within mode p bounds placed within

end Source

namespace Store

/-! ### Stores -/

theorem Memory.evaluates_after (history : List Change) (context : Option Term) :
    (Memory.after true history).source.Evaluates (Memory.after false history).source context where
  responds mode p none plain :=
    ⟨_, (Memory.answers_after false history).answersIn context mode p none plain⟩
  alike mode p none := by
    have listed : ∀ evaluatesIntervals, (Memory.after evaluatesIntervals history).run p context =
        .ok (((Quads.after history).statementsIn context).filter p.accepts) :=
      fun evaluatesIntervals => (Memory.answers_after evaluatesIntervals history).answersIn context
        .listed p none fun same => by cases same
    have run := (listed true).trans (listed false).symm
    cases mode with
    | plain => exact if_congr Iff.rfl rfl run
    | listed => exact run
  within mode p bounds placed within := by
    have run : (Memory.after true history).run p context =
        ((Memory.after false history).run (p.put .object .any) context).map fun rows =>
          rows.filter fun row => bounds.contains row.object := by
      rw [Memory.run_after fun _ => rfl, Memory.run_after (Pattern.hasInterval_open placed.1).symm.trans,
        Pattern.filter_accepts_within within]
      rfl
    have lists : (p.put .object .any).hasChoices = p.hasChoices := by
      simp [Pattern.hasChoices, Pattern.put, within, Slot.isChoices]
    cases mode with
    | plain =>
      show Answer.outcome (if p.hasChoices then _ else _) =
        Answer.outcome (Except.map _ (if (p.put .object .any).hasChoices then _ else _))
      rw [lists]
      split
      · rfl
      · exact congrArg Answer.outcome run
    | listed => exact congrArg Answer.outcome run

theorem Table.evaluates_after (history : List Change) (context : Option Term) :
    (Table.after history).source.Evaluates (Memory.after false history).source context where
  responds := (Memory.evaluates_after history context).responds
  alike mode p none := by
    rw [Table.select_after history mode (Pattern.wellPlaced_of_no_interval none)]
    exact (Memory.evaluates_after history context).alike mode p none
  within mode p bounds placed within := by
    rw [Table.select_after history mode placed]
    exact (Memory.evaluates_after history context).within mode p bounds placed within

end Store

namespace QueryConfig

/-- Under any configuration that handles intervals it makes no difference who evaluates them. -/
theorem outcome_build {a b : Source} (evaluates : a.Evaluates b context)
    (native : a.evaluatesIntervals = true) (plain : b.evaluatesIntervals = false) (c : QueryConfig)
    (wanted : c.intervals = true) (mode : Mode) (placed : p.WellPlaced) :
    ((c.build a).select mode p context).outcome = ((c.build b).select mode p context).outcome := by
  have stacked := evaluates.stack c.closures
  have above := Source.evaluatesIntervals_stack a c.closures
  have below := Source.evaluatesIntervals_stack b c.closures
  rw [build_eq, build_eq, wanted]
  cases c.memberships with
  | false => exact stacked.outcome_withIntervals (above.trans native) (below.trans plain) mode placed
  | true =>
    exact stacked.withMemberships.outcome_withIntervals (above.trans native)
      (below.trans plain) mode placed

/-- Three stores with one history, of which two evaluate intervals. -/
theorem build_alike (c : QueryConfig) (wanted : c.intervals = true) (history : List Store.Change)
    (mode : Mode) (p : Pattern) (placed : p.WellPlaced) (context : Option Term) :
    let outcome (base : Source) := ((c.build base).select mode p context).outcome
    outcome (Store.Memory.after true history).source =
        outcome (Store.Memory.after false history).source ∧
      outcome (Store.Table.after history).source =
        outcome (Store.Memory.after false history).source := by
  have plain := Store.Memory.evaluatesIntervals_after false history
  refine ⟨outcome_build (Store.Memory.evaluates_after history context) ?_ plain c wanted mode placed,
    outcome_build (Store.Table.evaluates_after history context) rfl plain c wanted mode placed⟩
  exact Store.Memory.evaluatesIntervals_after true history

end QueryConfig

namespace Sample

/-- What someone scores is what the score is about. -/
def ratings : List Store.Change :=
  [.extend [⟨score, Vocabulary.subPropertyOf, about⟩, ⟨name "ann", score, .integer 3⟩,
    ⟨name "bob", score, .integer 50⟩] none]

def ratingRules : QueryConfig := ⟨true, true, [⟨.subPropertiesOf about, true⟩]⟩

def aboutFew : Pattern := ⟨.any, .exact about, .within ⟨some (.integer 2), some (.integer 10)⟩⟩

theorem orderly_ratingRules (held : SortedSet Triple) : Orderly held ratingRules.closures where
  no_hierarchy := List.pairwise_singleton _ _
  no_relation s member property same other below relation own := by
    rw [List.mem_singleton.mp below] at own
    cases own
  reflexive := List.pairwise_singleton _ _

/-- Asked of a store that evaluates intervals, who scored little said something about little. -/
theorem ann_aboutFew : ∃ rows, ⟨name "ann", about, .integer 3⟩ ∈ rows ∧
    (ratingRules.build (Store.Memory.after true ratings).source).choices aboutFew none =
      .ok rows := by
  let m := Store.Memory.after true ratings
  have stack := answersBy_stack (orderly_ratingRules (m.statementsIn none))
    (Store.Memory.answersBy_source (Store.Memory.built_after true ratings) none)
  obtain ⟨rows, answer, denotes⟩ := stack .listed aboutFew (fun _ => rfl) fun same => by cases same
  have below : Reaches (m.statementsIn none) Vocabulary.subPropertyOf .up about score :=
    .single ⟨⟨score, Vocabulary.subPropertyOf, about⟩, by decide, rfl, rfl, rfl⟩
  have restated := denotes.restated rfl ⟨name "ann", score, .integer 3⟩ (by decide) rfl rfl
    below
  refine ⟨rows, restated, ?_⟩
  let stacked := m.source.under (ratingRules.closures.map ClosureSetting.layer)
  show stacked.withMemberships.selectByInterval .listed aboutFew none = _
  rw [Source.selectByInterval_within rfl, if_neg (by decide), if_pos (by decide)]
  exact (Source.selectByMembership_of_silent rfl).trans answer

/-- So it does if asked of a table, or of a store that leaves intervals to the layers. -/
theorem aboutFew_alike : ratingRules.intervals = true ∧ aboutFew.WellPlaced ∧
    ∃ rows, ⟨name "ann", about, .integer 3⟩ ∈ rows ∧
      ∀ base ∈ [(Store.Memory.after true ratings).source, (Store.Memory.after false ratings).source,
          (Store.Table.after ratings).source],
        (ratingRules.build base).choices aboutFew none = .ok rows := by
  have placed : aboutFew.WellPlaced := by
    refine ⟨⟨rfl, rfl⟩, ?_⟩
    rintro _ ⟨⟩ _ ⟨⟩ _ ⟨⟩
    rfl
  obtain ⟨rows, member, native⟩ := ann_aboutFew
  obtain ⟨byMemory, byTable⟩ := ratingRules.build_alike rfl ratings .listed aboutFew placed none
  have plain := byMemory.symm.trans (Answer.outcome_eq_ok.mpr native)
  have table := byTable.trans plain
  refine ⟨rfl, placed, rows, member, fun base listed => ?_⟩
  simp only [List.mem_cons, List.not_mem_nil, or_false] at listed
  rcases listed with rfl | rfl | rfl
  · exact native
  · exact Answer.outcome_eq_ok.mp plain
  · exact Answer.outcome_eq_ok.mp table

end Sample

end TripleQuery
