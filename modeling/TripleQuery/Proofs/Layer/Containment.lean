import TripleQuery.Proofs.Layer.Members
import TripleQuery.Proofs.Layer.Retention

/-!
Whether a configured store contains a statement. Layers answer a pattern with rows that do not fit
it, too, so that some answer need not be the one that was asked for. But what a row restates was led
to from a term that the pattern names, and led back it fits. So no pattern is answered without a row
that fits, and the pattern of one statement is answered only where that statement is.
-/

namespace TripleQuery

variable {held : SortedSet Triple} {p : Pattern} {context : Option Term}

/-! ### Hierarchies below a stack -/

/-- A row about the relation leads from its subject, which the pattern accepts, to its own object
and to one that the pattern accepts. -/
structure Traced (held : SortedSet Triple) (relation : Term) (p : Pattern) (row : Triple) :
    Prop where
  subject : p.subject.accepts row.subject = true
  object : Reaches held relation .down row.subject row.object
  accepted : ∃ y, p.object.accepts y = true ∧ Reaches held relation .down row.subject y

namespace Source

variable {relation : Term}

def Traces (s : Source) (context : Option Term) (held : SortedSet Triple) (relation : Term) :
    Prop :=
  ∀ p rows, p.predicate = .exact relation → s.choices p context = .ok rows →
    ∀ row ∈ rows, Traced held relation p row

theorem traces_memory {m : Store.Memory} (built : m.Built) (context : Option Term)
    (relation : Term) : m.source.Traces context (m.statementsIn context) relation := by
  intro p rows about answer row member
  change m.select .listed p context = .ok rows at answer
  obtain ⟨stated, accepted⟩ := Store.Memory.accepts_of_mem_select built answer member
  have fits := Pattern.accepts_iff.mp accepted
  have along : row.predicate = relation := by
    have predicate : p.predicate.accepts row.predicate = true := fits .predicate
    rw [about] at predicate
    exact (of_decide_eq_true predicate).symm
  have leads : Reaches (m.statementsIn context) relation .down row.subject row.object :=
    .single ⟨row, stated, along, rfl, rfl⟩
  exact ⟨fits .subject, leads, row.object, fits .object, leads⟩

section Tracing

variable {next : Source} (traces : next.Traces context held relation)

include traces

theorem Traces.stepsWithin (d : Direction) :
    next.StepsWithin context relation d (Reaches held relation d) := by
  intro terms others answer t member
  obtain ⟨rows, asked, rfl⟩ := map_ok answer
  obtain ⟨row, present, rfl⟩ := List.mem_map.mp (SortedSet.mem_ofList.mp member)
  have traced := traces (stepPattern relation d terms) rows (by cases d <;> rfl) asked row present
  cases d with
  | down => exact ⟨row.subject, Slot.accepts_oneOf.mp traced.subject, traced.object⟩
  | up =>
    obtain ⟨y, listed, leads⟩ := traced.accepted
    exact ⟨y, Slot.accepts_oneOf.mp listed, (reaches_opposite (d := .up)).mp leads⟩

theorem Traces.follows (retains : next.Retains context held) :
    next.Follows context held relation := by
  refine follows_of_between (fun d => stepsHeld_of_stated fun terms => ?_) traces.stepsWithin
  have none := hasInterval_stepPattern relation d terms
  obtain ⟨rows, answer⟩ := retains.responds.choices none
  exact ⟨rows, answer, retains.stated _ rows none answer⟩

theorem Traces.restated {e : Term} {row : Triple} (about : p.predicate = .exact relation)
    (again : next.Restated context .object (Reaches held relation .down) p e row) :
    Traced held relation p row := by
  obtain ⟨rows, asked, base, present, leads, rfl⟩ := again
  rw [reflTransGen_reaches] at leads
  have traced := traces p rows about asked base present
  exact ⟨traced.subject, traced.object.trans leads, traced.accepted⟩

end Tracing

/-- Along a rule for classes, rows about sub-classes are still traced: the members of the closure
lead to terms that the pattern names. -/
theorem traced_class {next : Source} {start : List Term} {reflexive : Bool} {mode : Mode}
    {found : SortedSet Triple} (traces : next.Traces context held Vocabulary.subClassOf)
    (about : p.predicate = .exact Vocabulary.subClassOf)
    (listed : ∀ t ∈ start, p.object.mentions t = true)
    (answer : next.selectRequested reflexive (ClosureRule.classRequest start) mode p context =
      .ok found) {row : Triple} (member : row ∈ found) :
    Traced held Vocabulary.subClassOf p row := by
  rcases stands_of_selectRequested (traces.stepsWithin .up) (traces.stepsWithin .down) answer
    member with ⟨_, e, again⟩ | ⟨closure, reached, stands⟩
  · exact traces.restated about again
  have accepted : ∀ {x : Term}, x ∈ closure → ∃ y, p.object.accepts y = true ∧
      Reaches held Vocabulary.subClassOf .down x y := by
    intro x inside
    obtain ⟨seed, named, leads⟩ := reached x inside
    rw [reflTransGen_reaches] at leads
    exact ⟨seed, Slot.accepts_of_mentions (named.elim (listed seed) id),
      (reaches_opposite (d := .up)).mpr leads⟩
  rcases stands with ⟨slot, within, e, _, again⟩ | ⟨_, _, ⟨⟩, x, inside, subject, rfl⟩
  · obtain ⟨subject, object, y, fits, leads⟩ :=
      traces.restated (p := p.put .object slot) about again
    obtain ⟨seed, named, further⟩ := accepted (within y fits)
    exact ⟨subject, object, seed, named, leads.trans further⟩
  · exact ⟨subject, .refl, accepted inside⟩

theorem Traces.withClosure {next : Source} (traces : next.Traces context held relation)
    (hierarchy : IsHierarchy relation) {rule : ClosureRule}
    (spared : rule ≠ .subPropertiesOf relation) (reflexive : Bool) :
    (next.withClosure rule.matcher reflexive).Traces context held relation := by
  intro p found about answer row member
  cases requested : rule.request? p with
  | none =>
    rw [choices, select_withClosure_of_none requested] at answer
    exact traces p found about answer row member
  | some r =>
    rw [choices, select_withClosure_of_some requested] at answer
    rcases ClosureRule.request_cases requested with
      ⟨own, ruled, mentioned, start, rfl⟩ | ⟨property, rfl, same, rfl⟩
    · rw [about] at mentioned
      obtain rfl : relation = own := of_decide_eq_true mentioned
      obtain rfl : relation = Vocabulary.subClassOf := by
        refine hierarchy.resolve_right ?_
        rintro rfl
        exact not_isClassRelation_subPropertyOf (ClosureRule.isClassRelation ruled)
      exact traced_class traces about
        (fun t inside => ClosureRule.mentions_of_request requested inside) answer member
    · rw [about] at same
      cases same
      exact absurd rfl spared

end Source

/-! ### Answers with a row that fits -/

/-- A reflexive row fits a pattern everywhere else. -/
theorem ClosureRequest.Reflexive.fits {r : ClosureRequest} {closure : SortedSet Term} {row : Triple}
    (own : r.Reflexive p closure row) :
    (p.put r.position .any).accepts row = true ∧ row.get r.position ∈ closure := by
  obtain ⟨about, other, opposite, x, inside, fits, rfl⟩ := own
  have predicate : p.predicate.accepts r.predicate = true := by
    rw [about]
    exact decide_eq_true rfl
  cases place : r.position with
  | subject =>
    rw [place] at opposite
    cases opposite
    refine ⟨Pattern.accepts_iff.mpr fun i => ?_, inside⟩
    cases i with
    | subject => rfl
    | predicate => exact predicate
    | object => exact fits
  | predicate =>
    rw [place] at opposite
    cases opposite
  | object =>
    rw [place] at opposite
    cases opposite
    refine ⟨Pattern.accepts_iff.mpr fun i => ?_, inside⟩
    cases i with
    | subject => exact fits
    | predicate => exact predicate
    | object => rfl

/-- Stated again for a term named, from which it was reached, a reflexive row fits. -/
theorem ClosureRequest.Reflexive.exists_fit {r : ClosureRequest} {closure : SortedSet Term}
    {row : Triple} {reflexive : Bool} (aligned : r.Aligned) (closes : r.Closes held p closure)
    (own : r.Reflexive p closure row) : ∃ again, p.accepts again = true ∧
      (again = row ∨ r.Answers held reflexive p closure again) := by
  obtain ⟨fits, inside⟩ := own.fits
  obtain ⟨seed, named, leads⟩ := (closes _).mp inside
  exact ⟨row.put r.position seed, Pattern.accepts_restated fits (Slot.accepts_of_mentions named),
    own.entails aligned closes (closes.mem_of_mentions named) ⟨leads, rfl⟩⟩

namespace Source

/-- A query without intervals that is answered with anything is answered with a row that fits. -/
def Attests (s : Source) (context : Option Term) : Prop :=
  ∀ mode p rows, p.hasInterval = false → (mode = .plain → p.hasChoices = false) →
    s.select mode p context = .ok rows → ∀ row ∈ rows, ∃ fit ∈ rows, p.accepts fit = true

section Attesting

variable {next : Source} (attests : next.Attests context)

include attests

/-- A row that fits a narrowed pattern is led back to a term that the pattern names. -/
theorem Attests.part_fits {r : ClosureRequest} {closure : SortedSet Term} {rows : SortedSet Triple}
    (closes : r.Closes held p closure) (none : p.hasInterval = false)
    (gathers : next.Gathers context r p closure rows) {base : Triple} (member : base ∈ rows) :
    ∃ fit ∈ rows, ∃ e ∈ closure, r.Entails held fit e (fit.put r.position e) ∧
      p.accepts (fit.put r.position e) = true := by
  obtain ⟨slot, part, asks, present⟩ := gathers.of_row base member
  obtain ⟨fit, answer, accepted⟩ := attests .listed (p.put r.position slot) part
    (Pattern.hasInterval_put none r.position asks.plain) (fun same => by cases same) asks.asked base
    present
  rw [Pattern.accepts_put, Bool.and_eq_true] at accepted
  obtain ⟨seed, named, leads⟩ := (closes _).mp (asks.inside _ accepted.2)
  exact ⟨fit, asks.gathered fit answer, seed, closes.mem_of_mentions named, ⟨leads, rfl⟩,
    Pattern.accepts_restated accepted.1 (Slot.accepts_of_mentions named)⟩

/-- Nothing fits an empty list, so nothing is restated for one. -/
theorem Attests.not_mem_selectUnlimited {r : ClosureRequest} {found : SortedSet Triple}
    (follows : next.Follows context held r.predicate) (none : p.hasInterval = false)
    (empty : p.get r.position = .choices []) (answer : next.selectUnlimited r p context = .ok found)
    (row : Triple) : row ∉ found := by
  intro member
  obtain ⟨rows, asked, answer⟩ := bind_ok answer
  obtain ⟨entailed, stated, answer⟩ := bind_ok answer
  cases answer
  obtain ⟨_, same, exactly⟩ := entail_exact r follows Option.none rows.toList
  cases same.symm.trans stated
  obtain ⟨base, present, _⟩ := (exactly row).mp (SortedSet.mem_ofList.mp member)
  obtain ⟨fit, _, accepted⟩ := attests .listed p rows none (fun same => by cases same) asked base
    (SortedSet.mem_toList.mp present)
  have fits := Pattern.accepts_iff.mp accepted r.position
  rw [empty] at fits
  cases fits

/-- The answer to a request has a row that fits if it has any. -/
theorem Attests.selectRequested {rule : ClosureRule} {r : ClosureRequest} {reflexive : Bool}
    {mode : Mode} {found : SortedSet Triple} (retains : next.Retains context held)
    (follows : next.Follows context held r.predicate) (none : p.hasInterval = false)
    (plain : mode = .plain → p.hasChoices = false) (requested : rule.request? p = some r)
    (answer : next.selectRequested reflexive r mode p context = .ok found) {row : Triple}
    (member : row ∈ found) : ∃ fit ∈ found, p.accepts fit = true := by
  rcases assembled_of_selectRequested requested plain answer with
    ⟨empty, answer⟩ | ⟨starts, closure, rows, named, walked, gathers, answer⟩
  · exact absurd member (attests.not_mem_selectUnlimited follows none empty answer row)
  have closes : r.Closes held p closure := by
    obtain ⟨_, same, reached⟩ := closureAll_exact follows r.direction starts
    cases same.symm.trans walked
    exact fun t => by simp only [reached, named]
  obtain ⟨_, entailed, exactly⟩ := entailWithin_exact r follows reflexive p closure rows
  cases entailed.symm.trans answer
  rcases (exactly row).mp member with ⟨base, present, _⟩ | ⟨_, own⟩
  · obtain ⟨fit, kept, e, inside, entails, accepted⟩ :=
      attests.part_fits closes none gathers present
    exact ⟨_, (exactly _).mpr (.inl ⟨fit, kept, e, inside, entails⟩), accepted⟩
  · obtain ⟨again, accepted, same | answers⟩ :=
      own.exists_fit (hierarchy_of_request requested).2 closes
    · exact ⟨again, same ▸ member, accepted⟩
    · exact ⟨again, retains.mem_entailed none gathers exactly answers, accepted⟩

theorem Attests.withClosure (retains : next.Retains context held)
    (follows : ∀ relation, IsHierarchy relation → next.Follows context held relation)
    (rule : ClosureRule) (reflexive : Bool) :
    (next.withClosure rule.matcher reflexive).Attests context := by
  intro mode p found none plain answer row member
  cases requested : rule.request? p with
  | none =>
    rw [select_withClosure_of_none requested] at answer
    exact attests mode p found none plain answer row member
  | some r =>
    rw [select_withClosure_of_some requested] at answer
    have walks := follows r.predicate (hierarchy_of_request requested).1
    exact attests.selectRequested retains walks none plain requested answer member

theorem Attests.withMemberships : next.withMemberships.Attests context := by
  intro mode p found none plain answer row member
  obtain ⟨rows, asked, answer⟩ := bind_ok answer
  split at answer
  · rename_i asks
    obtain ⟨added, listed, answer⟩ := bind_ok answer
    obtain ⟨typed, members, listed⟩ := bind_ok listed
    cases listed
    cases answer
    rcases SortedSet.mem_insertMany.mp member with new | old
    · -- what is typed fits the query for types in its subject, and so does what is added for it
      obtain ⟨source, present, rfl⟩ := List.mem_map.mp new
      obtain ⟨fit, typed_fit, accepted⟩ := attests _ p.typedMembers typed
        (hasInterval_typedMembers (Pattern.atObject_of_no_interval none))
        Pattern.hasChoices_of_mode members source (SortedSet.mem_toList.mp present)
      refine ⟨_, SortedSet.mem_insertMany.mpr (.inl (List.mem_map.mpr
        ⟨fit, SortedSet.mem_toList.mpr typed_fit, rfl⟩)), ?_⟩
      rw [Pattern.accepts_membership asks]
      exact (Pattern.accepts_typedMembers.mp accepted).1
    · obtain ⟨fit, kept, accepted⟩ := attests mode p rows none plain asked row old
      exact ⟨fit, SortedSet.mem_insertMany.mpr (.inr kept), accepted⟩
  · cases answer
    exact attests mode p _ none plain asked row member

theorem Attests.withIntervals : next.withIntervals.Attests context := by
  intro mode p rows none plain answer
  rw [select_withIntervals none] at answer
  exact attests mode p rows none plain answer

end Attesting

theorem attests_memory {m : Store.Memory} (built : m.Built) (context : Option Term) :
    m.source.Attests context := by
  intro mode p rows _ _ answer row member
  exact ⟨row, member, (Store.Memory.accepts_of_mem_select built answer member).2⟩

end Source

/-! ### Configured stores -/

namespace Store.Memory

variable {m : Store.Memory} (built : m.Built) (context : Option Term)

include built

theorem traces_stack {settings : List ClosureSetting} {relation : Term}
    (hierarchy : IsHierarchy relation)
    (spared : ∀ s ∈ settings, s.rule ≠ .subPropertiesOf relation) :
    (m.source.under (settings.map ClosureSetting.layer)).Traces context (m.statementsIn context)
      relation := by
  induction settings with
  | nil => exact Source.traces_memory built context relation
  | cons s rest ih =>
    obtain ⟨here, later⟩ := List.forall_mem_cons.mp spared
    exact (ih later).withClosure hierarchy here s.reflexive

theorem retains_stack (settings : List ClosureSetting) :
    (m.source.under (settings.map ClosureSetting.layer)).Retains context (m.statementsIn context) :=
  ((answers_source built).answersIn context).retains.stack settings

theorem attests_stack {settings : List ClosureSetting}
    (spared : ∀ s ∈ settings, ∀ relation, IsHierarchy relation →
      s.rule ≠ .subPropertiesOf relation) :
    (m.source.under (settings.map ClosureSetting.layer)).Attests context := by
  induction settings with
  | nil => exact Source.attests_memory built context
  | cons s rest ih =>
    obtain ⟨_, later⟩ := List.forall_mem_cons.mp spared
    have retains := retains_stack built context rest
    refine (ih later).withClosure retains (fun relation hierarchy => ?_) s.rule s.reflexive
    exact (traces_stack built context hierarchy fun s member =>
      later s member relation hierarchy).follows retains

end Store.Memory

namespace QueryConfig

theorem attests_build {m : Store.Memory} (built : m.Built) (c : QueryConfig)
    (spared : ∀ s ∈ c.closures, ∀ relation, IsHierarchy relation →
      s.rule ≠ .subPropertiesOf relation) (context : Option Term) :
    (c.build m.source).Attests context := by
  rw [build_eq]
  refine under_optional (Source.Attests · context) _ ?_ Source.Attests.withIntervals
  exact under_optional (Source.Attests · context) _
    (Store.Memory.attests_stack built context spared) Source.Attests.withMemberships

/-- A configured store contains a statement just where it returns that statement itself, as long as
no rule for sub-properties is about a relation that closures follow. -/
theorem contains_eq_mem {m : Store.Memory} (built : m.Built) (c : QueryConfig)
    (spared : ∀ s ∈ c.closures, ∀ relation, IsHierarchy relation →
      s.rule ≠ .subPropertiesOf relation) (context : Option Term) (t : Triple) :
    ∃ rows, (c.build m.source).triples (.ofTriple t) context = .ok rows ∧
      (c.build m.source).contains t context = .ok (decide (t ∈ rows)) := by
  have retains := retains_build ((Store.Memory.answers_source built).answersIn context).retains c
  obtain ⟨rows, answer⟩ := retains.responds .plain (.ofTriple t) rfl fun _ => rfl
  refine ⟨rows, answer, ?_⟩
  have only : rows.isEmpty = false ↔ t ∈ rows := by
    rw [SortedSet.isEmpty_eq_false_iff]
    constructor
    · rintro ⟨row, member⟩
      obtain ⟨fit, kept, accepted⟩ :=
        attests_build built c spared context .plain _ rows rfl (fun _ => rfl) answer row member
      exact Pattern.accepts_ofTriple.mp accepted ▸ kept
    · exact fun member => ⟨t, member⟩
  rw [Source.contains, show (c.build m.source).triples _ _ = .ok rows from answer]
  refine congrArg Except.ok ?_
  rw [Bool.eq_iff_iff, Bool.not_eq_true', only, decide_eq_true_eq]

end QueryConfig

namespace Sample

def rexIsAnimal : Triple := ⟨.iri "rex", Vocabulary.type, animal⟩

/-- What is a dog is an animal under a rule for classes. -/
theorem rexIsAnimal_mem {rows : SortedSet Triple}
    (answer : (petRules.build pets.source).triples (.ofTriple rexIsAnimal) none = .ok rows) :
    rexIsAnimal ∈ rows := by
  obtain ⟨found, returned, denotes⟩ := answersBy_stack orderly_petRules
    (Store.Memory.answersBy_source built_pets none) .plain (.ofTriple rexIsAnimal)
    (fun interval => by cases interval) fun _ => rfl
  cases ((Source.select_withIntervals rfl).trans returned).symm.trans answer
  have below : Reaches (pets.statementsIn none) Vocabulary.subClassOf .up animal dog :=
    .single ⟨⟨dog, Vocabulary.subClassOf, animal⟩, by decide, rfl, rfl, rfl⟩
  have first : firstRequest? petRules.closures (.ofTriple rexIsAnimal) =
      some (true, ClosureRule.classRequest [animal]) := by decide
  exact denotes.restated first ⟨.iri "rex", Vocabulary.type, dog⟩ (by decide)
    (by decide) (by decide) below

theorem spared_petRules : ∀ s ∈ petRules.closures, ∀ relation, IsHierarchy relation →
    s.rule ≠ .subPropertiesOf relation := by
  intro s member relation hierarchy same
  obtain rfl := property_petRules member same
  exact absurd hierarchy (by decide)

end Sample

theorem QueryConfig.contains_rexIsAnimal :
    (∀ s ∈ Sample.petRules.closures, ∀ relation, IsHierarchy relation →
      s.rule ≠ .subPropertiesOf relation) ∧
    (Sample.petRules.build Sample.pets.source).contains Sample.rexIsAnimal none = .ok true := by
  obtain ⟨rows, answer, contained⟩ :=
    contains_eq_mem Sample.built_pets Sample.petRules Sample.spared_petRules none Sample.rexIsAnimal
  refine ⟨Sample.spared_petRules, ?_⟩
  rw [contained, decide_eq_true (Sample.rexIsAnimal_mem answer)]

end TripleQuery
