import TripleQuery.Proofs.Layer.Intervals

/-!
Lists in plain mode. A store refuses them, but a closure that takes the place of a list keeps it
from the store. What is returned then is the whole answer where the starts of the closure lead to
all that is listed.
-/

namespace TripleQuery

variable {held : SortedSet Triple} {p : Pattern} {context : Option Term}

/-- The starts lead to every term that the pattern names in the request's place. -/
def ClosureRequest.Covers (r : ClosureRequest) (held : SortedSet Triple) (p : Pattern) : Prop :=
  ∀ t, (p.get r.position).mentions t = true →
    ∃ start ∈ r.start, Reaches held r.predicate r.direction start t

/-- The first rule that applies sets out from terms that lead to all that is named in its place. -/
def Covered (held : SortedSet Triple) (settings : List ClosureSetting) (p : Pattern) : Prop :=
  ∀ reflexive r, firstRequest? settings p = some (reflexive, r) → r.Covers held p

namespace Source

variable {next : Source} {r : ClosureRequest} {reflexive : Bool}

/-- What is returned in plain mode is returned in listed mode as well. -/
def Upholds (s : Source) (context : Option Term) (p : Pattern) : Prop :=
  ∀ rows, s.triples p context = .ok rows → s.choices p context = .ok rows

/-- Only an interval at the object is put to the source in another form. -/
theorem upholds_withIntervals (own : next.Upholds context p)
    (opened : ∀ bounds, p.object = .within bounds → next.Upholds context (p.put .object .any)) :
    next.withIntervals.Upholds context p := by
  intro rows answer
  change next.selectByInterval .plain p context = .ok rows at answer
  show next.selectByInterval .listed p context = .ok rows
  cases slot : p.object with
  | within bounds =>
    rw [selectByInterval_within slot] at answer ⊢
    split
    · rename_i unbounded
      rw [if_pos unbounded] at answer
      exact opened bounds slot rows answer
    · rename_i bounded
      rw [if_neg bounded] at answer
      split
      · rename_i evaluates
        rw [if_pos evaluates] at answer
        exact own rows answer
      · rename_i plain
        rw [if_neg plain] at answer
        obtain ⟨all, asked, rfl⟩ := map_ok answer
        rw [show next.select .listed _ context = _ from opened bounds slot all asked]
        rfl
  | any | exact _ | choices _ =>
    have other : p.object.isInterval = false := by rw [slot]; rfl
    rw [selectByInterval_other other] at answer ⊢
    exact own rows answer

/-- What the layer adds is asked for in the same way in both modes. -/
theorem upholds_withMemberships (own : next.Upholds context p) :
    next.withMemberships.Upholds context p := by
  intro rows answer
  obtain ⟨stated, asked, answer⟩ := bind_ok answer
  show (next.select .listed p context >>= _) = _
  rw [show next.select .listed p context = _ from own stated asked]
  exact answer

/-- Setting out from listed terms as well makes no difference where the starts lead to them. -/
theorem selectWidened_covered (follows : next.Follows context held r.predicate)
    (covers : r.Covers held p) {terms : List Term} (list : p.get r.position = .choices terms) :
    next.selectWidened reflexive r p context (SortedSet.ofList (terms ++ r.start)).toList =
      next.selectWidened reflexive r p context r.start := by
  obtain ⟨closure, walked, reached⟩ := closureAll_exact follows r.direction r.start
  obtain ⟨wider, walked', reached'⟩ := closureAll_exact follows r.direction
    (SortedSet.ofList (terms ++ r.start)).toList
  have same : wider = closure := by
    refine SortedSet.ext fun t => ?_
    rw [reached, reached']
    constructor
    · rintro ⟨seed, listed, leads⟩
      rcases List.mem_append.mp (SortedSet.mem_ofList.mp listed) with named | start
      · obtain ⟨start, member, before⟩ := covers seed (by rw [list]; exact decide_eq_true named)
        exact ⟨start, member, before.trans leads⟩
      · exact ⟨seed, start, leads⟩
    · rintro ⟨start, member, leads⟩
      exact ⟨start, SortedSet.mem_ofList.mpr (List.mem_append_right _ member), leads⟩
  rw [selectWidened, selectWidened, walked, walked', same]

/-- An answer to a request in plain mode has one start, and comes from a closure that would be asked
for in listed mode, too. -/
theorem selectRequested_listed (follows : next.Follows context held r.predicate)
    (aligned : r.Aligned) (narrows : next.Narrows context held r reflexive p)
    (covers : r.Covers held p)
    (starts : p.get r.position = .choices r.start ∨
      ∃ start, r.start = [start] ∧ (p.get r.position).mentions start = true)
    {rows : SortedSet Triple}
    (answer : next.selectRequested reflexive r .plain p context = .ok rows) :
    next.selectRequested reflexive r .listed p context = .ok rows := by
  by_cases unlimited : r.start.isEmpty = true
  · unfold selectRequested at answer ⊢
    rw [if_pos unlimited] at answer ⊢
    exact answer
  cases slot : p.get r.position with
  | choices terms =>
    unfold selectRequested at answer ⊢
    rw [if_neg unlimited] at answer ⊢
    obtain ⟨start, alone, answer⟩ := bind_ok answer
    rw [slot]
    show next.selectWidened reflexive r p context _ = _
    rw [selectWidened_covered follows covers slot, ClosureRequest.start_of_single alone]
    exact answer
  | exact term =>
    have alone : r.start = [term] := by
      rcases starts with list | ⟨start, alone, mentioned⟩
      · cases list.symm.trans slot
      · rw [slot] at mentioned
        rw [alone, show term = start from of_decide_eq_true mentioned]
    have narrowed : ∀ mode, ∃ rows, next.selectRequested reflexive r mode p context = .ok rows ∧
        ∃ closure, r.Closes held p closure ∧
          ∀ row, row ∈ rows ↔ r.Answers held reflexive p closure row :=
      fun mode => selectRequested_narrows_term follows aligned narrows slot alone
    obtain ⟨_, plain, closure, closes, exactly⟩ := narrowed .plain
    obtain ⟨others, listed, closure', closes', exactly'⟩ := narrowed .listed
    cases plain.symm.trans answer
    obtain rfl := closes.unique closes'
    rw [listed, SortedSet.ext fun row => (exactly' row).trans (exactly row).symm]
  | any | within _ =>
    rcases starts with list | ⟨start, _, mentioned⟩
    · cases list.symm.trans slot
    · rw [slot] at mentioned
      cases mentioned

/-- A stack of orderly rules keeps up its answers in listed mode where the first rule that applies
sets out from terms that lead to all that is named in its place. -/
theorem upholds_stack {base : Source} {evaluates : Bool} {settings : List ClosureSetting}
    (orderly : Orderly held settings) (answers : base.AnswersBy evaluates context held [])
    (refuses : evaluates = false → base.RefusesIntervals context) (own : base.Upholds context p)
    (covered : Covered held settings p) :
    (base.under (settings.map ClosureSetting.layer)).Upholds context p := by
  induction settings with
  | nil => exact own
  | cons s rest ih =>
    intro rows answer
    let below := base.under (rest.map ClosureSetting.layer)
    change below.selectByClosure s.rule.request? s.reflexive .plain p context = .ok rows at answer
    show below.selectByClosure s.rule.request? s.reflexive .listed p context = .ok rows
    unfold selectByClosure at answer ⊢
    unfold Covered firstRequest? at covered
    rw [List.findSome?_cons] at covered
    cases requested : s.rule.request? p with
    | none =>
      rw [requested] at answer covered
      exact ih orderly.tail covered rows answer
    | some r =>
      rw [requested] at answer covered
      have stack := answersBy_stack orderly.tail answers
      obtain ⟨_, aligned⟩ := hierarchy_of_request requested
      have follows := orderly.follows stack
      rw [← ClosureRule.predicate_of_request requested] at follows
      have taken : p.hasInterval = true → evaluates = true := by
        intro interval
        by_contra off
        have refused := refusesIntervals_withClosure
          (refusesIntervals_stack (refuses (Bool.eq_false_iff.mpr off)) rest) s.rule s.reflexive
        refine refused .plain p rows interval ?_
        show below.selectByClosure s.rule.request? s.reflexive .plain p context = .ok rows
        rw [selectByClosure, requested]
        exact answer
      exact selectRequested_listed follows aligned
        (narrows_of_answersBy stack orderly taken requested) (covered _ r rfl)
        (ClosureRule.start_of_request requested) answer

end Source

theorem Store.Memory.upholds_source (m : Store.Memory) : m.source.Upholds context p := by
  intro rows answer
  change (if p.hasChoices then _ else m.run p context) = _ at answer
  split at answer
  · cases answer
  · exact answer

/-! ### Configured stores -/

theorem covered_open {settings : List ClosureSetting} {bounds : Interval}
    (within : p.object = .within bounds) (covered : Covered held settings p) :
    Covered held settings (p.put .object .any) := by
  intro reflexive r first t
  obtain ⟨_, _, requested, _⟩ := exists_of_firstRequest first
  have elsewhere := ClosureRule.position_ne requested (i := .object) rfl
  have same : firstRequest? settings (p.put .object .any) = firstRequest? settings p := by
    simp only [firstRequest?, ClosureRule.request_open _ within]
  rw [Pattern.get_put_of_ne p elsewhere.symm]
  exact covered reflexive r (same ▸ first) t

namespace QueryConfig

/-- Where the rules are orderly, what a configured store returns for a pattern in plain mode, lists
or no lists, is what it returns in listed mode. -/
theorem choices_eq_of_triples {m : Store.Memory} (built : m.Built) (c : QueryConfig)
    (context : Option Term) (orderly : Orderly (m.statementsIn context) c.closures) (p : Pattern)
    (covered : Covered (m.statementsIn context) c.closures p) {rows : SortedSet Triple}
    (answer : (c.build m.source).triples p context = .ok rows) :
    (c.build m.source).choices p context = .ok rows := by
  have closures : ∀ q, Covered (m.statementsIn context) c.closures q →
      (m.source.under (c.closures.map ClosureSetting.layer)).Upholds context q :=
    fun q covered => Source.upholds_stack orderly (Store.Memory.answersBy_source built context)
      (fun refuses => Store.Memory.refusesIntervals_source refuses context) m.upholds_source covered
  have members : ∀ q, Covered (m.statementsIn context) c.closures q →
      ((m.source.under (c.closures.map ClosureSetting.layer)).under
        (if c.memberships then [.membership] else [])).Upholds context q :=
    fun q covered => under_optional (Source.Upholds · context q) _ (closures q covered)
      Source.upholds_withMemberships
  refine (?_ : (c.build m.source).Upholds context p) rows answer
  rw [build_eq]
  cases c.intervals with
  | false => exact members p covered
  | true =>
    exact Source.upholds_withIntervals (members p covered) fun bounds within =>
      members _ (covered_open within covered)

end QueryConfig

namespace Sample

/-- A rule for one class. -/
def classRules (target : Term) : QueryConfig := ⟨true, false, [⟨.typesOf target, true⟩]⟩

theorem orderly_classRules (held : SortedSet Triple) (target : Term) :
    Orderly held (classRules target).closures where
  no_hierarchy := List.pairwise_singleton _ _
  no_relation s member property same := by
    rw [List.mem_singleton.mp member] at same
    cases same
  reflexive := List.pairwise_singleton _ _

def dogsAndAnimals : Pattern := ⟨.any, .exact Vocabulary.type, .choices [dog, animal]⟩

theorem answers_pets : pets.source.AnswersIn none (pets.statementsIn none) :=
  (Store.Memory.answers_source built_pets).answersIn none

theorem dog_below_animal : Reaches (pets.statementsIn none) Vocabulary.subClassOf .up animal dog :=
  .single ⟨⟨dog, Vocabulary.subClassOf, animal⟩, by decide, rfl, rfl, rfl⟩

/-- A closure of dogs and animals takes a dog for an animal. -/
theorem rex_of_closure {start : List Term} {closure : SortedSet Term} (dogs : dog ∈ closure)
    (animals : animal ∈ closure) : (ClosureRule.classRequest start).Answers (pets.statementsIn none)
      true dogsAndAnimals closure ⟨.iri "rex", Vocabulary.type, animal⟩ := by
  refine .inl ⟨⟨.iri "rex", Vocabulary.type, dog⟩, by decide, ?_, animal, animals,
    dog_below_animal, rfl⟩
  exact Slot.accepts_oneOf.mpr dogs

end Sample

namespace QueryConfig

/-- All that is listed is an animal, so that the rule for animals leaves nothing out. -/
theorem animals_covered :
    Orderly (Sample.pets.statementsIn none) (Sample.classRules Sample.animal).closures ∧
    Covered (Sample.pets.statementsIn none) (Sample.classRules Sample.animal).closures
      Sample.dogsAndAnimals ∧
    ∃ rows, ⟨.iri "rex", Vocabulary.type, Sample.animal⟩ ∈ rows ∧
      ((Sample.classRules Sample.animal).build Sample.pets.source).triples
        Sample.dogsAndAnimals none = .ok rows ∧
      ((Sample.classRules Sample.animal).build Sample.pets.source).choices
        Sample.dogsAndAnimals none = .ok rows := by
  have orderly := Sample.orderly_classRules (Sample.pets.statementsIn none) Sample.animal
  have covered : Covered (Sample.pets.statementsIn none) (Sample.classRules Sample.animal).closures
      Sample.dogsAndAnimals := by
    intro reflexive r first t named
    obtain ⟨rfl, rfl⟩ := Prod.mk.inj (Option.some.inj first)
    refine ⟨Sample.animal, List.mem_singleton_self _, ?_⟩
    have listed : t ∈ [Sample.dog, Sample.animal] := of_decide_eq_true named
    rcases List.mem_cons.mp listed with rfl | last
    · exact Sample.dog_below_animal
    · exact List.mem_singleton.mp last ▸ .refl
  obtain ⟨closure, reached, rows, answer, exactly⟩ := Source.selectRequested_single
    (ClosureRule.classRequest [Sample.animal]) Sample.answers_pets (p := Sample.dogsAndAnimals) rfl
    true rfl fun (same : Mode.plain = .listed) => by cases same
  have inside : ∀ t, Reaches _ _ _ Sample.animal t → t ∈ closure :=
    fun t leads => (reached t).mpr ⟨Sample.animal, List.mem_singleton_self _, leads⟩
  refine ⟨orderly, covered, rows, (exactly _).mpr ?_, answer, ?_⟩
  · exact Sample.rex_of_closure (inside _ Sample.dog_below_animal) (inside _ .refl)
  · exact choices_eq_of_triples Sample.built_pets (Sample.classRules Sample.animal) none orderly
      Sample.dogsAndAnimals covered answer

/-- The rule for dogs takes the place of a list of dogs and animals, and what is no dog is left
out. -/
theorem triples_without_listed : Sample.dogsAndAnimals.hasChoices = true ∧ ∃ rows,
    ((Sample.classRules Sample.dog).build Sample.pets.source).triples
      Sample.dogsAndAnimals none = .ok rows ∧
    ((Sample.classRules Sample.dog).build Sample.pets.source).choices
      Sample.dogsAndAnimals none ≠ .ok rows := by
  obtain ⟨closure, reached, rows, answer, exactly⟩ := Source.selectRequested_single
    (ClosureRule.classRequest [Sample.dog]) Sample.answers_pets (p := Sample.dogsAndAnimals) rfl
    true rfl fun (same : Mode.plain = .listed) => by cases same
  obtain ⟨wider, reached', others, listed, exactly'⟩ := Source.selectRequested_list
    (ClosureRule.classRequest [Sample.dog]) Sample.answers_pets (p := Sample.dogsAndAnimals) rfl
    true (List.cons_ne_nil _ _) rfl
  refine ⟨rfl, rows, answer, fun same => ?_⟩
  cases (show _ = Except.ok others from listed).symm.trans same
  have inside : ∀ t, Reaches _ _ _ Sample.animal t → t ∈ wider :=
    fun t leads => (reached' t).mpr ⟨Sample.animal, by simp, leads⟩
  have restated := (exactly' _).mpr
    (Sample.rex_of_closure (inside _ Sample.dog_below_animal) (inside _ .refl))
  rcases (exactly _).mp restated with ⟨base, _, _, e, inside, _, same⟩ | ⟨_, about, _⟩
  · obtain rfl : Sample.animal = e := congrArg Triple.object same
    obtain ⟨_, only, leads⟩ := (reached _).mp inside
    obtain rfl := List.mem_singleton.mp only
    rcases Relation.ReflTransGen.cases_head_iff.mp leads with equal | ⟨_, step, _⟩
    · exact absurd equal (by decide)
    · obtain ⟨row, held, along, below, _⟩ := step
      have none_below : ∀ row ∈ (Sample.pets.statementsIn none).toList,
          row.predicate = Vocabulary.subClassOf → row.object ≠ Sample.dog := by
        decide
      exact none_below row held along below
  · exact absurd (Slot.exact.inj about) (by decide)

end QueryConfig

end TripleQuery
