import TripleQuery.Proofs.Layer.Entailment

/-!
The two ways of asking a configured store about a pattern without lists. They agree where the rules
are orderly: one query for a whole closure and a query for each of its members come to the same.
-/

namespace TripleQuery

variable {held : SortedSet Triple} {p : Pattern} {context : Option Term}

/-! ### Outcomes that are alike -/

theorem toOption_bind_congr {ε α β : Type} {a b : Except ε α} (same : a.toOption = b.toOption)
    (f : α → Except ε β) : (a >>= f).toOption = (b >>= f).toOption := by
  cases a <;> cases b <;> cases same <;> rfl

theorem toOption_map_congr {ε α β : Type} {a b : Except ε α} (same : a.toOption = b.toOption)
    (f : α → β) : (a.map f).toOption = (b.map f).toOption := by
  cases a <;> cases b <;> cases same <;> rfl

theorem toOption_eq_none {ε α : Type} {a : Except ε α} (failed : ∀ value, a ≠ .ok value) :
    a.toOption = none := by
  cases a with
  | error _ => rfl
  | ok value => exact absurd rfl (failed value)

theorem toOption_eq_some {ε α : Type} {a : Except ε α} {value : α}
    (returned : a.toOption = some value) : a = .ok value := by
  cases a with
  | error _ => cases returned
  | ok _ =>
    cases returned
    rfl

namespace Source

variable {next : Source}

/-- Where two sources, each asked in its mode, have the same rows for patterns without lists or both
refuse them, so have the sources with intervals handled above. -/
theorem toOption_withIntervals {a b : Source} {mode mode' : Mode}
    (evaluates : a.evaluatesIntervals = b.evaluatesIntervals)
    (same : ∀ p, p.hasChoices = false →
      (a.select mode p context).toOption = (b.select mode' p context).toOption)
    (none : p.hasChoices = false) :
    (a.withIntervals.select mode p context).toOption =
      (b.withIntervals.select mode' p context).toOption := by
  have opened := same (p.put .object .any) (Pattern.hasChoices_open none)
  show (a.selectByInterval mode p context).toOption = (b.selectByInterval mode' p context).toOption
  unfold selectByInterval
  rw [evaluates]
  split
  · split
    · exact opened
    · split
      · exact same p none
      · exact toOption_map_congr opened _
  · exact same p none

/-- Patterns without lists have the same rows in both modes, or are refused in both. -/
def Modeless (s : Source) (context : Option Term) : Prop :=
  ∀ p, p.hasChoices = false →
    (s.triples p context).toOption = (s.choices p context).toOption

theorem modeless_withIntervals (modeless : next.Modeless context) :
    next.withIntervals.Modeless context :=
  fun _ none => toOption_withIntervals rfl modeless none

theorem modeless_withMemberships (modeless : next.Modeless context) :
    next.withMemberships.Modeless context :=
  fun p none => toOption_bind_congr (modeless p none) _

/-! ### Intervals that are refused -/

/-- No pattern with an interval is answered. -/
def RefusesIntervals (s : Source) (context : Option Term) : Prop :=
  ∀ mode p rows, p.hasInterval = true → s.select mode p context ≠ .ok rows

/-- An answer to a request comes from a query that differs from the pattern only in its place. -/
theorem asked_of_selectRequested {r : ClosureRequest} {reflexive : Bool} {mode : Mode}
    {found : SortedSet Triple}
    (answer : next.selectRequested reflexive r mode p context = .ok found) :
    ∃ slot rows, next.choices (p.put r.position slot) context = .ok rows := by
  unfold selectRequested at answer
  split at answer
  · obtain ⟨rows, asked, _⟩ := bind_ok answer
    exact ⟨p.get r.position, rows, by rw [Pattern.put_get]; exact asked⟩
  · split at answer
    · obtain ⟨closure, _, answer⟩ := bind_ok answer
      obtain ⟨rows, asked, _⟩ := bind_ok answer
      exact ⟨.oneOf closure, rows, asked⟩
    · obtain ⟨start, _, answer⟩ := bind_ok answer
      obtain ⟨closure, walked, answer⟩ := bind_ok answer
      obtain ⟨rows, united, _⟩ := bind_ok answer
      obtain ⟨part, asked⟩ := Answer.unite_eq_ok_iff.mp ⟨rows, united⟩ _
        (List.mem_map.mpr ⟨start, start_mem_closure walked, rfl⟩)
      exact ⟨.exact start, part, asked⟩
    · obtain ⟨start, _, answer⟩ := bind_ok answer
      obtain ⟨closure, _, answer⟩ := bind_ok answer
      obtain ⟨rows, asked, _⟩ := bind_ok answer
      exact ⟨.oneOf closure, rows, asked⟩

theorem refusesIntervals_withClosure (refuses : next.RefusesIntervals context)
    (rule : ClosureRule) (reflexive : Bool) :
    (next.withClosure rule.matcher reflexive).RefusesIntervals context := by
  intro mode p rows interval answer
  cases requested : rule.request? p with
  | none =>
    rw [select_withClosure_of_none requested] at answer
    exact refuses mode p rows interval answer
  | some r =>
    rw [select_withClosure_of_some requested] at answer
    obtain ⟨slot, rows, asked⟩ := asked_of_selectRequested answer
    refine refuses .listed _ rows ?_ asked
    obtain ⟨i, here⟩ := Pattern.hasInterval_iff.mp interval
    have elsewhere : i ≠ r.position := by
      rintro rfl
      have named := ClosureRule.named_of_request requested
      cases slot : p.get r.position with
      | within _ => exact named (by rw [slot]; rfl)
      | any | exact _ | choices _ =>
        rw [slot] at here
        cases here
    exact Pattern.hasInterval_iff.mpr ⟨i, by rw [Pattern.get_put_of_ne p elsewhere]; exact here⟩

theorem refusesIntervals_stack {base : Source} (refuses : base.RefusesIntervals context)
    (settings : List ClosureSetting) :
    (base.under (settings.map ClosureSetting.layer)).RefusesIntervals context := by
  induction settings with
  | nil => exact refuses
  | cons s rest ih => exact refusesIntervals_withClosure ih s.rule s.reflexive

end Source

/-! ### Stores in memory -/

namespace Store.Memory

variable {m : Store.Memory}

theorem answersBy_source (built : m.Built) (context : Option Term) :
    m.source.AnswersBy m.evaluatesIntervals context (m.statementsIn context) [] := by
  intro mode p intervals plain
  have answer := run_eq built.consistent intervals context
  refine ⟨_, ?_, rfl⟩
  cases mode with
  | listed => exact answer
  | plain =>
    show (if p.hasChoices then _ else m.run p context) = _
    rw [plain rfl, if_neg Bool.false_ne_true, answer]

theorem refusesIntervals_source (refuses : m.evaluatesIntervals = false)
    (context : Option Term) : m.source.RefusesIntervals context := by
  have refused : ∀ p, p.hasInterval = true → m.run p context = .error (.intervalRefused p) := by
    intro p interval
    rw [run, if_pos (by simp [interval, refuses])]
  intro mode p rows interval answer
  cases mode with
  | listed =>
    change m.run p context = _ at answer
    rw [refused p interval] at answer
    cases answer
  | plain =>
    change (if p.hasChoices then _ else m.run p context) = _ at answer
    split at answer
    · cases answer
    · rw [refused p interval] at answer
      cases answer

end Store.Memory

/-! ### Configured stores -/

theorem Source.modeless_stack {base : Source} {evaluates : Bool} {settings : List ClosureSetting}
    (orderly : Orderly held settings) (answers : base.AnswersBy evaluates context held [])
    (refuses : evaluates = false → base.RefusesIntervals context) :
    (base.under (settings.map ClosureSetting.layer)).Modeless context := by
  intro p none
  by_cases taken : p.hasInterval = true → evaluates = true
  · have stack := answersBy_stack orderly answers
    obtain ⟨rows, plain, denotes⟩ := stack .plain p taken fun _ => none
    obtain ⟨others, listed, also⟩ := stack .listed p taken fun _ => none
    rw [triples, choices, plain, listed, denotes.unique also]
  · obtain ⟨interval, off⟩ := Classical.not_imp.mp taken
    have refused := refusesIntervals_stack (refuses (Bool.not_eq_true _ ▸ off)) settings
    rw [triples, choices, toOption_eq_none fun rows => refused .plain p rows interval,
      toOption_eq_none fun rows => refused .listed p rows interval]

namespace QueryConfig

/-- Where the rules of a configuration are orderly, both ways of asking about a pattern without
lists have the same rows, or are refused. -/
theorem triples_eq_choices {m : Store.Memory} (built : m.Built) (c : QueryConfig)
    (context : Option Term) (orderly : Orderly (m.statementsIn context) c.closures) (p : Pattern)
    (none : p.hasChoices = false) :
    ((c.build m.source).triples p context).toOption =
      ((c.build m.source).choices p context).toOption := by
  have closures := Source.modeless_stack orderly (Store.Memory.answersBy_source built context)
    fun refuses => Store.Memory.refusesIntervals_source refuses context
  have modeless : (c.build m.source).Modeless context := by
    rw [build_eq]
    refine under_optional (Source.Modeless · context) _ ?_
      Source.modeless_withIntervals
    exact under_optional (Source.Modeless · context) _ closures
      Source.modeless_withMemberships
  exact modeless p none

end QueryConfig

/-! ### Rules that get in each other's way -/

namespace Sample

/-- The property of a rule of the pets' configuration. -/
theorem property_petRules {s : ClosureSetting} (member : s ∈ petRules.closures) {property : Term}
    (same : s.rule = .subPropertiesOf property) : property = likes := by
  rcases List.mem_cons.mp member with rfl | last
  · exact (ClosureRule.subPropertiesOf.inj same).symm
  · rw [List.mem_singleton.mp last] at same
    cases same

theorem orderly_petRules : Orderly (pets.statementsIn none) petRules.closures where
  no_hierarchy := List.pairwise_pair.mpr fun same => by cases same
  no_relation s member property same other below relation own leads := by
    rw [property_petRules member same] at leads
    rcases Relation.ReflTransGen.cases_head_iff.mp leads with rfl | ⟨x, step, _⟩
    · exact absurd (ClosureRule.isClassRelation own) not_isClassRelation_likes
    · obtain ⟨row, held, along, _⟩ := step
      exact (plain_pets row held).1 along
  reflexive := List.pairwise_pair.mpr fun own => by cases own

end Sample

theorem QueryConfig.likes_triples_eq_choices :
    ((Sample.petRules.build Sample.pets.source).triples
      ⟨.any, .exact Sample.likes, .exact Sample.animal⟩ none).toOption =
    ((Sample.petRules.build Sample.pets.source).choices
      ⟨.any, .exact Sample.likes, .exact Sample.animal⟩ none).toOption :=
  triples_eq_choices Sample.built_pets Sample.petRules none Sample.orderly_petRules _ rfl

namespace Sample

def about : Term := .iri "about"

/-- Dogs, who is fond of them, and what counts as being about something. -/
def topics : Store.Memory :=
  (Store.Memory.empty false).extend
    [⟨dog, Vocabulary.subClassOf, animal⟩, ⟨.iri "ann", likes, dog⟩,
      ⟨Vocabulary.type, Vocabulary.subPropertyOf, about⟩,
      ⟨likes, Vocabulary.subPropertyOf, about⟩] none

theorem built_topics : topics.Built := .extend (.empty false) _ none

def topicRules : QueryConfig := ⟨true, false, [⟨.subPropertiesOf about, true⟩, ⟨.types, true⟩]⟩

/-- What is about animals. -/
def aboutAnimals : Pattern := ⟨.any, .exact about, .exact animal⟩

/-- The source below the rule for sub-properties. -/
abbrev typedTopics : Source := topics.source.withClosure ClosureRule.types.matcher true

theorem orderly_types (held : SortedSet Triple) : Orderly held [⟨.types, true⟩] where
  no_hierarchy := List.pairwise_singleton _ _
  no_relation s member property same := by
    rw [List.mem_singleton.mp member] at same
    cases same
  reflexive := List.pairwise_singleton _ _

theorem answersBy_typedTopics :
    typedTopics.AnswersBy false none (topics.statementsIn none) [⟨.types, true⟩] :=
  answersBy_withClosure (Store.Memory.answersBy_source built_topics none) (orderly_types _)

theorem follows_typedTopics :
    typedTopics.Follows none (topics.statementsIn none) Vocabulary.subPropertyOf :=
  follows_of_answersBy (.inr rfl)
    (List.forall_mem_singleton.mpr fun same => by cases same) answersBy_typedTopics

/-- What is asked for where something is to be about a term. -/
abbrev aboutRequest : ClosureRequest := ⟨[about], Vocabulary.subPropertyOf, .up, .predicate⟩

/-- Asked in one list, whoever is fond of dogs is fond of animals, and says something about them. -/
theorem about_of_triples : ∃ rows,
    (topicRules.build topics.source).triples aboutAnimals none = .ok rows ∧
      ⟨.iri "ann", about, animal⟩ ∈ rows := by
  obtain ⟨closure, walked, reached⟩ := Source.closureAll_exact follows_typedTopics .up [about]
  have inside : ∀ q, Reaches (topics.statementsIn none) Vocabulary.subPropertyOf .up about q →
      q ∈ closure := fun q leads => (reached q).mpr ⟨about, List.mem_singleton_self _, leads⟩
  have below : ∀ q, ⟨q, Vocabulary.subPropertyOf, about⟩ ∈ topics.statementsIn none →
      Reaches (topics.statementsIn none) Vocabulary.subPropertyOf .up about q :=
    fun q member => .single ⟨_, member, rfl, rfl, rfl⟩
  have likes_below := below likes (by decide)
  have type_inside := inside Vocabulary.type (below _ (by decide))
  obtain ⟨rows, answer, animals⟩ := asked_of_animals built_topics (by decide)
    (.oneOf closure) rfl true
  have asked : typedTopics.choices (aboutRequest.widen aboutAnimals closure) none = .ok rows := by
    have requested : ClosureRule.types.request? (aboutRequest.widen aboutAnimals closure) =
        some (ClosureRule.classRequest [animal]) :=
      if_pos (Slot.mentions_oneOf.mpr type_inside)
    exact (Source.select_withClosure_of_some requested).trans answer
  obtain ⟨found, entailed, exactly⟩ :=
    Source.entailWithin_exact aboutRequest follows_typedTopics true aboutAnimals closure rows
  refine ⟨found, ?_, (exactly _).mpr (.inl ?_)⟩
  · show typedTopics.selectWidened true aboutRequest aboutAnimals none [about] = .ok found
    exact (Source.selectWidened_of_walked walked asked).trans entailed
  · refine ⟨⟨.iri "ann", likes, animal⟩, ?_, about, inside about .refl, likes_below, rfl⟩
    exact animals ⟨.iri "ann", likes, dog⟩ (by decide)
      (Slot.accepts_oneOf.mpr (inside likes likes_below)) rfl

/-- Asked alone, no predicate holds between anyone and animals. -/
theorem not_ann_of_typedTopics {t : Term} {rows : SortedSet Triple}
    (answer : typedTopics.choices (aboutAnimals.put .predicate (.exact t)) none = .ok rows)
    {base : Triple} (member : base ∈ rows) :
    ¬ (base.subject = .iri "ann" ∧ base.object = animal) := by
  have plain : ∀ row ∈ (topics.statementsIn none).toList, row.predicate ≠ Vocabulary.type ∧
      ¬ (row.subject = .iri "ann" ∧ row.object = animal) := by
    decide
  obtain ⟨_, asked, denotes⟩ := answersBy_typedTopics .listed
    (aboutAnimals.put .predicate (.exact t)) (fun interval => by cases interval)
    fun same => by cases same
  cases asked.symm.trans answer
  rcases denotes.cases with rfl | ⟨s, only, r, requested, closure, _, exactly⟩
  · exact (plain base (SortedSet.mem_filter.mp member).1).2
  · obtain rfl := List.mem_singleton.mp only
    rcases ClosureRule.request_cases requested with ⟨_, ⟨⟩, mentioned, start, rfl⟩ | ⟨_, ⟨⟩, _⟩
    obtain rfl : t = Vocabulary.type := of_decide_eq_true mentioned
    rcases (exactly base).mp member with ⟨row, held, accepted, _⟩ | ⟨_, about_classes, _⟩
    · have fits := Pattern.accepts_iff.mp accepted .predicate
      exact absurd (of_decide_eq_true fits).symm (plain row held).1
    · have same : Vocabulary.type = Vocabulary.subClassOf := Slot.exact.inj about_classes
      exact absurd same (by decide)

/-- Asked one by one, nothing is about animals. -/
theorem not_about_of_choices {rows : SortedSet Triple}
    (answer : (topicRules.build topics.source).choices aboutAnimals none = .ok rows) :
    ⟨.iri "ann", about, animal⟩ ∉ rows := by
  change typedTopics.selectEach true aboutRequest aboutAnimals none about = .ok rows at answer
  obtain ⟨closure, _, answer⟩ := bind_ok answer
  obtain ⟨each, united, answer⟩ := bind_ok answer
  obtain ⟨_, entailed, exactly⟩ :=
    Source.entailWithin_exact aboutRequest follows_typedTopics true aboutAnimals closure each
  cases entailed.symm.trans answer
  rw [exactly]
  rintro (⟨base, member, e, _, _, same⟩ | ⟨_, _, _, ⟨⟩, _⟩)
  obtain ⟨part, listed, present⟩ := (Answer.mem_unite united base).mp member
  obtain ⟨t, _, asked⟩ := List.mem_map.mp listed
  refine not_ann_of_typedTopics asked present ?_
  exact ⟨(congrArg Triple.subject same).symm, (congrArg Triple.object same).symm⟩

end Sample

/-- A rule for classes takes what is listed beside `rdf:type` for it, but not what is asked alone,
so that the two ways of asking differ. -/
theorem QueryConfig.triples_ne_choices :
    ((Sample.topicRules.build Sample.topics.source).triples Sample.aboutAnimals none).toOption ≠
      ((Sample.topicRules.build Sample.topics.source).choices
        Sample.aboutAnimals none).toOption := by
  obtain ⟨rows, answer, member⟩ := Sample.about_of_triples
  intro same
  rw [answer] at same
  cases listed :
    (Sample.topicRules.build Sample.topics.source).choices Sample.aboutAnimals none with
  | error _ =>
    rw [listed] at same
    cases same
  | ok others =>
    rw [listed] at same
    cases same
    exact Sample.not_about_of_choices listed member

end TripleQuery
