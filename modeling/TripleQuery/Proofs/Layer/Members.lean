import TripleQuery.Proofs.Layer.Intervals

/-!
Container membership, alone and below a closure of sub-properties. The layer adds what is typed as
a membership property as a sub-property of `rdfs:member`, where a pattern names both. So it adds
where the properties below `rdfs:member` are asked for, and not where those above a property are:
the closure of `rdfs:member` takes in what is typed as a membership property, but leads its rows
back to `rdfs:member` along stored statements only.
-/

namespace TripleQuery

variable {held : SortedSet Triple} {p : Pattern} {context : Option Term}

/-! ### What the layer adds -/

/-- Whatever is typed as a container membership property, as a sub-property of `rdfs:member`. -/
def memberships (held : SortedSet Triple) : SortedSet Triple :=
  .ofList <| (held.filter Pattern.any.typedMembers.accepts).toList.map fun row =>
    ⟨row.subject, Vocabulary.subPropertyOf, Vocabulary.member⟩

theorem Pattern.accepts_typedMembers {row : Triple} : p.typedMembers.accepts row = true ↔
    p.subject.accepts row.subject = true ∧
      row = ⟨row.subject, Vocabulary.type, Vocabulary.containerMembershipProperty⟩ := by
  constructor
  · intro accepted
    obtain ⟨x, q, y⟩ := row
    have fits := accepts_iff.mp accepted
    obtain rfl : Vocabulary.type = q := of_decide_eq_true (fits .predicate)
    obtain rfl : Vocabulary.containerMembershipProperty = y := of_decide_eq_true (fits .object)
    exact ⟨fits .subject, rfl⟩
  · rintro ⟨fits, same⟩
    rw [same]
    refine accepts_iff.mpr fun i => ?_
    cases i with
    | subject => exact fits
    | predicate => exact decide_eq_true (Eq.refl Vocabulary.type)
    | object => exact decide_eq_true (Eq.refl Vocabulary.containerMembershipProperty)

theorem mem_memberships {row : Triple} : row ∈ memberships held ↔ ∃ x,
    ⟨x, Vocabulary.type, Vocabulary.containerMembershipProperty⟩ ∈ held ∧
      row = ⟨x, Vocabulary.subPropertyOf, Vocabulary.member⟩ := by
  simp only [memberships, SortedSet.mem_ofList, List.mem_map, SortedSet.mem_toList,
    SortedSet.mem_filter, Pattern.accepts_typedMembers]
  constructor
  · rintro ⟨typed, ⟨member, _, same⟩, rfl⟩
    exact ⟨typed.subject, same ▸ member, rfl⟩
  · rintro ⟨x, member, rfl⟩
    exact ⟨_, ⟨member, rfl, rfl⟩, rfl⟩

theorem Pattern.accepts_membership (asks : p.asksForMembers = true) (x : Term) :
    p.accepts ⟨x, Vocabulary.subPropertyOf, Vocabulary.member⟩ = p.subject.accepts x := by
  obtain ⟨predicate, object⟩ := Bool.and_eq_true_iff.mp asks
  simp [accepts, Slot.accepts_of_mentions predicate, Slot.accepts_of_mentions object]

/-- Adding what is typed to the rows of a pattern that asks for members gives the rows that it has
among the statements and the memberships. -/
theorem insert_memberships (asks : p.asksForMembers = true) {stated typed : SortedSet Triple}
    (members : ∀ x, (∃ row ∈ typed, row.subject = x) ↔
      ⟨x, Vocabulary.type, Vocabulary.containerMembershipProperty⟩ ∈ held ∧
        p.subject.accepts x = true) :
    (stated.filter p.accepts).insertMany (typed.toList.map fun row =>
        ⟨row.subject, Vocabulary.subPropertyOf, Vocabulary.member⟩) =
      (stated ∪ memberships held).filter p.accepts := by
  refine SortedSet.ext fun row => ?_
  simp only [SortedSet.mem_insertMany, SortedSet.mem_filter, SortedSet.mem_union, List.mem_map,
    SortedSet.mem_toList, mem_memberships]
  constructor
  · rintro (⟨source, member, rfl⟩ | ⟨member, fits⟩)
    · obtain ⟨stated, fits⟩ := (members source.subject).mp ⟨source, member, rfl⟩
      exact ⟨.inr ⟨_, stated, rfl⟩, by rw [Pattern.accepts_membership asks]; exact fits⟩
    · exact ⟨.inl member, fits⟩
  · rintro ⟨member | ⟨x, stated, rfl⟩, fits⟩
    · exact .inr ⟨member, fits⟩
    · rw [Pattern.accepts_membership asks] at fits
      obtain ⟨source, member, rfl⟩ := (members x).mpr ⟨stated, fits⟩
      exact .inl ⟨source, member, rfl⟩

namespace Source

variable {next : Source} (answers : next.AnswersIn context held)

include answers

theorem select_withMemberships_of_asks {mode : Mode} (plain : p.hasInterval = false)
    (lists : mode = .plain → p.hasChoices = false) (asks : p.asksForMembers = true) :
    next.withMemberships.select mode p context =
      .ok ((held ∪ memberships held).filter p.accepts) := by
  have placed := Pattern.atObject_of_no_interval plain
  have taken : next.Takes p.typedMembers.mode p.typedMembers := takes_typedMembers placed
  have typed : next.select p.typedMembers.mode p.typedMembers context =
      .ok (held.filter p.typedMembers.accepts) :=
    answers _ _ (hasInterval_typedMembers placed) taken.2.2
  refine (selectByMembership_of_asks asks (answers mode p plain lists) typed).trans ?_
  refine congrArg Except.ok (insert_memberships asks fun x => ?_)
  simp only [SortedSet.mem_filter, Pattern.accepts_typedMembers]
  constructor
  · rintro ⟨row, ⟨member, fits, same⟩, rfl⟩
    exact ⟨same ▸ member, fits⟩
  · rintro ⟨member, fits⟩
    exact ⟨_, ⟨member, fits, rfl⟩, rfl⟩

theorem select_withMemberships_of_silent {mode : Mode} (plain : p.hasInterval = false)
    (lists : mode = .plain → p.hasChoices = false) (silent : p.asksForMembers = false) :
    next.withMemberships.select mode p context = .ok (held.filter p.accepts) :=
  (selectByMembership_of_silent silent).trans (answers mode p plain lists)

/-- A pattern that names its predicate and its object is answered from the statements and the
memberships. -/
theorem select_withMemberships {mode : Mode} (plain : p.hasInterval = false)
    (lists : mode = .plain → p.hasChoices = false) (predicate : p.predicate.named? ≠ none)
    (object : p.object.named? ≠ none) : next.withMemberships.select mode p context =
      .ok ((held ∪ memberships held).filter p.accepts) := by
  cases asks : p.asksForMembers with
  | true => exact select_withMemberships_of_asks answers plain lists asks
  | false =>
    refine (select_withMemberships_of_silent answers plain lists asks).trans (congrArg Except.ok ?_)
    refine SortedSet.ext fun row => ?_
    simp only [SortedSet.mem_filter, SortedSet.mem_union]
    refine and_congr_left fun accepted => (or_iff_left fun member => ?_).symm
    obtain ⟨x, _, rfl⟩ := mem_memberships.mp member
    have fits := Pattern.accepts_iff.mp accepted
    have asked : p.asksForMembers = true := Bool.and_eq_true_iff.mpr
      ⟨Slot.mentions_of_accepts predicate (fits .predicate),
        Slot.mentions_of_accepts object (fits .object)⟩
    rw [asks] at asked
    cases asked

theorem stepsUp_withMemberships : next.withMemberships.AnswersSteps context
    (held ∪ memberships held) Vocabulary.subPropertyOf .up :=
  fun terms => select_withMemberships answers (hasInterval_stepPattern _ .up terms)
    (fun same => by cases same) (Option.some_ne_none _) (Option.some_ne_none _)

/-- An open object does not ask for members. -/
theorem stepsDown_withMemberships :
    next.withMemberships.AnswersSteps context held Vocabulary.subPropertyOf .down :=
  fun terms =>
    have silent : (stepPattern Vocabulary.subPropertyOf .down terms).asksForMembers = false :=
      Bool.and_false _
    (selectByMembership_of_silent silent).trans (answers.steps _ .down terms)

/-- The closure of `rdfs:member` follows memberships, but its rows are led back along statements. -/
theorem selectWidened_members (reflexive : Bool) (plain : p.hasInterval = false)
    (object : p.object.named? ≠ none) :
    let r := ClosureRule.propertyRequest Vocabulary.member
    ∃ closure : SortedSet Term,
      (∀ t, t ∈ closure ↔ Reaches (held ∪ memberships held) Vocabulary.subPropertyOf .up
        Vocabulary.member t) ∧
      ∃ rows, next.withMemberships.selectWidened reflexive r p context r.start = .ok rows ∧
        ∀ row, row ∈ rows ↔ ∃ base ∈ held ∪ memberships held,
          (r.widen p closure).accepts base = true ∧ ∃ e ∈ closure, r.Entails held base e row := by
  intro r
  obtain ⟨closure, walked, reached⟩ : ∃ closure,
      next.withMemberships.closureAll r.start r.predicate r.direction context = .ok closure ∧
        ∀ t, t ∈ closure ↔ ∃ start ∈ r.start,
          Reaches (held ∪ memberships held) Vocabulary.subPropertyOf .up start t :=
    closureAll_of_walks fun start _ => (stepsUp_withMemberships answers).walksFrom start
  have back : next.withMemberships.WalksBack context r fun t e =>
      Reaches held r.predicate r.direction e t := by
    intro t
    obtain ⟨found, walked, exactly⟩ := (stepsDown_withMemberships answers).walksFrom t
    exact ⟨found, walked, fun e => (exactly e).trans (reaches_opposite (d := .up))⟩
  have asked : next.withMemberships.select .listed (r.widen p closure) context = _ :=
    select_withMemberships answers (Pattern.hasInterval_put plain _ rfl) (fun same => by cases same)
      (Option.some_ne_none _) object
  obtain ⟨rows, entailed, exactly⟩ := entailWithin_walked r back reflexive p closure
    ((held ∪ memberships held).filter (r.widen p closure).accepts)
  refine ⟨closure, fun t => (reached t).trans (by simp [r, ClosureRule.propertyRequest]), rows,
    (selectWidened_of_walked walked asked).trans entailed, fun row => (exactly row).trans ?_⟩
  have not_reflexive : ¬ r.Reflexive p closure row := by
    rintro ⟨_, _, ⟨⟩, _⟩
  rw [or_iff_left fun own => not_reflexive own.2]
  simp only [SortedSet.mem_filter, and_assoc]
  rfl

/-- What the layer adds is asked for by name: the answer has the statements that the pattern
accepts, and the memberships that it accepts if it names both their predicate and their object. -/
theorem withMemberships_exact (mode : Mode) (plain : p.hasInterval = false)
    (lists : mode = .plain → p.hasChoices = false) :
    ∃ rows, next.withMemberships.select mode p context = .ok rows ∧
      ∀ t, t ∈ rows ↔ p.accepts t = true ∧ (t ∈ held ∨
        p.predicate.mentions Vocabulary.subPropertyOf = true ∧
        p.object.mentions Vocabulary.member = true ∧
        ∃ x, ⟨x, Vocabulary.type, Vocabulary.containerMembershipProperty⟩ ∈ held ∧
          t = ⟨x, Vocabulary.subPropertyOf, Vocabulary.member⟩) := by
  have named : p.asksForMembers = true ↔ p.predicate.mentions Vocabulary.subPropertyOf = true ∧
      p.object.mentions Vocabulary.member = true := Bool.and_eq_true_iff
  cases asks : p.asksForMembers with
  | true =>
    obtain ⟨predicate, object⟩ := named.mp asks
    refine ⟨_, select_withMemberships_of_asks answers plain lists asks, fun t => ?_⟩
    rw [SortedSet.mem_filter, SortedSet.mem_union, mem_memberships, and_comm, predicate, object]
    simp only [true_and]
  | false =>
    refine ⟨_, select_withMemberships_of_silent answers plain lists asks, fun t => ?_⟩
    have never : ∀ rest : Prop, ¬ (p.predicate.mentions Vocabulary.subPropertyOf = true ∧
        p.object.mentions Vocabulary.member = true ∧ rest) := by
      rintro _ ⟨predicate, object, _⟩
      cases asks.symm.trans (named.mpr ⟨predicate, object⟩)
    rw [SortedSet.mem_filter, and_comm, or_iff_left (never _)]

end Source

namespace Sample

/-- Two container membership properties, the second of which is a member relation by its own
statement as well. -/
def ordinals : Store.Memory :=
  (Store.Memory.empty false).extend
    [⟨Vocabulary.rdf "_1", Vocabulary.type, Vocabulary.containerMembershipProperty⟩,
      ⟨Vocabulary.rdf "_2", Vocabulary.type, Vocabulary.containerMembershipProperty⟩,
      ⟨Vocabulary.rdf "_2", Vocabulary.subPropertyOf, Vocabulary.member⟩] none

/-- Whatever is typed as a membership property or is a sub-property of membership. -/
def ordinalPattern : Pattern :=
  ⟨.any, .choices [Vocabulary.type, Vocabulary.subPropertyOf],
    .choices [Vocabulary.member, Vocabulary.containerMembershipProperty]⟩

/-- The first counts as a member where the relation is named, and not where it is open. -/
theorem withMemberships_ordinals :
    ordinals.source.AnswersIn none (ordinals.statementsIn none) ∧
    ordinalPattern.hasInterval = false ∧ ordinalPattern.hasChoices = true ∧
    (∃ rows, ordinals.source.withMemberships.choices ordinalPattern none = .ok rows ∧
      ⟨Vocabulary.rdf "_1", Vocabulary.type, Vocabulary.containerMembershipProperty⟩ ∈ rows ∧
      ⟨Vocabulary.rdf "_1", Vocabulary.subPropertyOf, Vocabulary.member⟩ ∈ rows ∧
      ⟨Vocabulary.rdf "_2", Vocabulary.subPropertyOf, Vocabulary.member⟩ ∈ rows) ∧
    ∃ rows, ordinals.source.withMemberships.triples ⟨.any, .any, .exact Vocabulary.member⟩ none =
        .ok rows ∧
      ⟨Vocabulary.rdf "_1", Vocabulary.subPropertyOf, Vocabulary.member⟩ ∉ rows ∧
      ⟨Vocabulary.rdf "_2", Vocabulary.subPropertyOf, Vocabulary.member⟩ ∈ rows := by
  have answers : ordinals.source.AnswersIn none (ordinals.statementsIn none) :=
    Store.Memory.answersIn_extend_empty false _
  have stated : ∀ t, t ∈ ordinals.statementsIn none ↔ t ∈ _ := fun t => by
    rw [ordinals, Store.Memory.statementsIn_extend_empty, SortedSet.mem_ofList]
  have first := (stated _).mpr List.mem_cons_self
  have second := (stated ⟨Vocabulary.rdf "_2", Vocabulary.subPropertyOf, Vocabulary.member⟩).mpr
    (List.mem_cons_of_mem _ (List.mem_cons_of_mem _ List.mem_cons_self))
  obtain ⟨rows, answer, exactly⟩ :=
    Source.withMemberships_exact answers .listed (p := ordinalPattern) rfl fun same => by cases same
  obtain ⟨others, plain, only⟩ := Source.withMemberships_exact answers .plain
    (p := ⟨.any, .any, .exact Vocabulary.member⟩) rfl fun _ => rfl
  refine ⟨answers, rfl, rfl, ⟨rows, answer, ?_, ?_, ?_⟩, others, plain, fun member => ?_, ?_⟩
  · exact (exactly _).mpr ⟨by decide, .inl first⟩
  · exact (exactly _).mpr ⟨by decide,
      .inr ⟨by decide, by decide, _, first, rfl⟩⟩
  · exact (exactly _).mpr ⟨by decide, .inl second⟩
  · rcases ((only _).mp member).2 with held | ⟨asked, _⟩
    · have listed := (stated _).mp held
      revert listed
      decide
    · cases asked
  · exact (only _).mpr ⟨by decide, .inl second⟩

end Sample

/-! ### Members of a container -/

theorem Reaches.mono {more : SortedSet Triple} (sub : ∀ row ∈ held, row ∈ more) {predicate : Term}
    {d : Direction} {x y : Term} (leads : Reaches held predicate d x y) :
    Reaches more predicate d x y := by
  refine Relation.ReflTransGen.mono (fun a b step => ?_) _ _ leads
  obtain ⟨row, member, ends⟩ := step
  exact ⟨row, sub row member, ends⟩

theorem reaches_member {q : Term}
    (typed : ⟨q, Vocabulary.type, Vocabulary.containerMembershipProperty⟩ ∈ held) :
    Reaches (held ∪ memberships held) Vocabulary.subPropertyOf .up Vocabulary.member q := by
  have added := mem_memberships.mpr ⟨q, typed, rfl⟩
  exact .single ⟨_, SortedSet.mem_union.mpr (.inr added), rfl, rfl, rfl⟩

/-- Sub-properties of `rdfs:member` above container membership. -/
def memberLayers (reflexive : Bool) : List Layer :=
  [.closure (ClosureRule.subPropertiesOf Vocabulary.member).matcher reflexive, .membership]

/-- Whether one thing is a member of another. -/
def memberPattern (container item : Term) : Pattern :=
  ⟨.exact container, .exact Vocabulary.member, .exact item⟩

namespace Store.Memory

variable {m : Store.Memory} (built : m.Built) (context : Option Term) (reflexive : Bool)
  (container item : Term)

include built

theorem triples_memberLayers : ∃ rows,
    (m.source.under (memberLayers reflexive)).triples (memberPattern container item) context =
      .ok rows ∧
    let held := m.statementsIn context
    let Below := Reaches (held ∪ memberships held) Vocabulary.subPropertyOf .up Vocabulary.member
    ∀ e, ⟨container, e, item⟩ ∈ rows ↔ Below e ∧ ∃ q, Below q ∧
      ⟨container, q, item⟩ ∈ held ∪ memberships held ∧
        Reaches held Vocabulary.subPropertyOf .up e q := by
  obtain ⟨closure, reached, rows, answer, exactly⟩ := Source.selectWidened_members
    ((answers_source built).answersIn context) reflexive
    (p := memberPattern container item) rfl (Option.some_ne_none _)
  refine ⟨rows, answer, fun e => ?_⟩
  simp only [← reached, exactly]
  constructor
  · rintro ⟨⟨s, q, o⟩, member, accepted, _, inside, leads, same⟩
    cases same
    have below := Slot.accepts_oneOf.mp (Pattern.accepts_iff.mp accepted .predicate)
    exact ⟨inside, q, below, member, leads⟩
  · rintro ⟨inside, q, below, member, leads⟩
    refine ⟨_, member, Pattern.accepts_iff.mpr fun i => ?_, e, inside, leads, rfl⟩
    cases i with
    | subject => exact decide_eq_true (Eq.refl container)
    | predicate => exact Slot.accepts_oneOf.mpr below
    | object => exact decide_eq_true (Eq.refl item)

/-- What is stated with a container membership property is found under `rdfs:member`, but is itself
a statement about `rdfs:member` only where stored sub-properties lead there. -/
theorem member_mem_iff : ∃ rows,
    (m.source.under (memberLayers reflexive)).triples (memberPattern container item) context =
      .ok rows ∧
    let held := m.statementsIn context
    (∀ q, ⟨q, Vocabulary.type, Vocabulary.containerMembershipProperty⟩ ∈ held →
      ⟨container, q, item⟩ ∈ held → ⟨container, q, item⟩ ∈ rows) ∧
    (⟨container, Vocabulary.member, item⟩ ∈ rows ↔ ∃ q,
      ⟨container, q, item⟩ ∈ held ∪ memberships held ∧
        Reaches held Vocabulary.subPropertyOf .up Vocabulary.member q) := by
  obtain ⟨rows, answer, exactly⟩ := triples_memberLayers built context reflexive container item
  have stated : ∀ row ∈ m.statementsIn context,
      row ∈ m.statementsIn context ∪ memberships (m.statementsIn context) :=
    fun row member => SortedSet.mem_union.mpr (.inl member)
  refine ⟨rows, answer, fun q typed member => ?_, (exactly _).trans ⟨?_, ?_⟩⟩
  · have below := reaches_member typed
    exact (exactly q).mpr ⟨below, q, below, stated _ member, .refl⟩
  · rintro ⟨_, q, _, member, leads⟩
    exact ⟨q, member, leads⟩
  · rintro ⟨q, member, leads⟩
    exact ⟨.refl, q, leads.mono stated, member, leads⟩

end Store.Memory

namespace Sample

def bag : Term := .iri "bag"

def first : Term := Vocabulary.rdf "_1"

def holds : Term := .iri "holds"

/-- A bag with rex as its first member. -/
def bagged : Store.Memory :=
  (Store.Memory.empty false).extend
    [⟨bag, first, .iri "rex"⟩,
      ⟨first, Vocabulary.type, Vocabulary.containerMembershipProperty⟩] none

theorem built_bagged : bagged.Built := .extend (.empty false) _ none

/-- The same bag, in which whatever it holds is a member. -/
def filled : Store.Memory :=
  bagged.extend
    [⟨bag, holds, .iri "tom"⟩, ⟨holds, Vocabulary.subPropertyOf, Vocabulary.member⟩] none

theorem built_filled : filled.Built := .extend built_bagged _ none

end Sample

namespace Store.Memory

theorem tom_member_of_bag : Sample.filled.Built ∧ ∃ rows,
    (Sample.filled.source.under (memberLayers true)).triples
      (memberPattern Sample.bag (.iri "tom")) none = .ok rows ∧
    ⟨Sample.bag, Vocabulary.member, .iri "tom"⟩ ∈ rows := by
  obtain ⟨rows, answer, _, exactly⟩ :=
    member_mem_iff Sample.built_filled none true Sample.bag (.iri "tom")
  refine ⟨Sample.built_filled, rows, answer, exactly.mpr ⟨Sample.holds, ?_, ?_⟩⟩
  · exact SortedSet.mem_union.mpr (.inl (by decide))
  · exact .single ⟨⟨Sample.holds, Vocabulary.subPropertyOf, Vocabulary.member⟩, by decide,
      rfl, rfl, rfl⟩

/-- What rex is to the bag is typed as a container membership property, and yet he is no member. -/
theorem rex_not_member_of_bag :
    ⟨Sample.bag, Sample.first, .iri "rex"⟩ ∈ Sample.bagged.statementsIn none ∧
    ⟨Sample.first, Vocabulary.type, Vocabulary.containerMembershipProperty⟩ ∈
      Sample.bagged.statementsIn none ∧
    ∃ rows, (Sample.bagged.source.under (memberLayers true)).triples
        (memberPattern Sample.bag (.iri "rex")) none = .ok rows ∧
      ⟨Sample.bag, Vocabulary.member, .iri "rex"⟩ ∉ rows := by
  obtain ⟨rows, answer, exactly⟩ :=
    triples_memberLayers Sample.built_bagged none true Sample.bag (.iri "rex")
  refine ⟨by decide, by decide, rows, answer, fun member => ?_⟩
  obtain ⟨_, q, _, stated, leads⟩ := (exactly _).mp member
  have plain : ∀ row ∈ (Sample.bagged.statementsIn none).toList,
      row.predicate ≠ Vocabulary.subPropertyOf ∧ row.predicate ≠ Vocabulary.member := by
    decide
  rcases Relation.ReflTransGen.cases_head_iff.mp leads with rfl | ⟨_, ⟨row, held, along, _⟩, _⟩
  · rcases SortedSet.mem_union.mp stated with held | added
    · exact (plain _ held).2 rfl
    · obtain ⟨_, _, same⟩ := mem_memberships.mp added
      have item : Term.iri "rex" = Vocabulary.member := congrArg Triple.object same
      exact absurd item (by decide)
  · exact (plain row held).1 along

end Store.Memory

end TripleQuery
