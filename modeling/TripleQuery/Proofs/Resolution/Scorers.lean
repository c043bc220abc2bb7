import TripleQuery.Proofs.Layer.Narrowing
import TripleQuery.Proofs.Resolution.Refinement

/-!
Resolution over configured stores. A scorer is only a hint as long as no hop leads from a known
node to an object along a relation that a layer adds to: such a hop finds more once a sibling has
narrowed it, since the layer sees what is listed at the object.
-/

namespace TripleQuery

theorem Pattern.mode_put_oneOf (p : Pattern) (i : Position) (known : SortedSet Term) :
    (p.put i (.oneOf known)).mode = .listed := by
  have listed : (p.put i (.oneOf known)).hasChoices = true := by
    cases i <;> simp [hasChoices, put, Slot.oneOf, Slot.isChoices]
  rw [mode, if_pos listed]

namespace Source

variable {s : Source} {opens : Term → Prop} {hop : Hop}

/-! ### Patterns of hops -/

theorem openAt_hopPattern (placed : hop.Placed) (free : hop.unknown = .object → opens hop.predicate)
    (known : Slot) : (hopPattern hop known).OpenAt opens hop.unknown := by
  obtain ⟨predicate, other, unknown, target⟩ := hop
  cases unknown with
  | subject => exact .subject rfl
  | predicate => exact absurd rfl placed.1
  | object => exact .object rfl (free rfl) rfl

theorem mode_hopPattern (anchored : ∀ k, hop.other ≠ .unknown k) (below : SortedSet Term) :
    (hopPattern hop (hop.slot below)).mode = .plain := by
  have plain : (hop.slot below).isChoices = false := by
    rw [Hop.slot]
    cases other : hop.other with
    | term t => rfl
    | interval bounds => rfl
    | unknown k => exact absurd other (anchored k)
  rw [Pattern.mode, hopPattern, Pattern.hasChoices_put rfl _ plain]
  rfl

theorem targets_of_answer (hop : Hop) {mode : Mode} {p : Pattern} (same : p.mode = mode)
    {rows : SortedSet Triple} (answer : s.select mode p none = .ok rows) :
    s.targets hop p = .ok (.ofList (rows.toList.map fun row => row.get hop.unknown)) := by
  rw [targets, same, answer]
  rfl

/-! ### Hops over sources that may be narrowed -/

/-- What a hop finds if no sibling comes before it. -/
def alone (s : Source) : Solver := fun hop below =>
  (s.resolveHop hop (.ok below) none).toOption.getD ∅

section Narrowable

variable (narrowable : s.Narrowable none opens) (evaluates : s.evaluatesIntervals = true)
  (placed : hop.Placed)

include narrowable evaluates placed

theorem resolveHop_alone (below : SortedSet Term) :
    s.resolveHop hop (.ok below) none = .ok (s.alone hop below) := by
  have taken : s.Takes (hopPattern hop (hop.slot below)).mode (hopPattern hop (hop.slot below)) :=
    takes_mode (atObject_hopPattern placed below) fun _ => evaluates
  obtain ⟨rows, answer⟩ := narrowable.answered _ _ taken
  have answered : ∃ found, s.resolveHop hop (.ok below) none = .ok found := by
    by_cases crosses : ∃ k, hop.other = .unknown k
    · obtain ⟨k, other⟩ := crosses
      rw [resolveHop_of_unknown other]
      split
      · exact ⟨∅, rfl⟩
      · exact ⟨_, targets_of_answer hop rfl answer⟩
    · rw [resolveHop_of_anchor fun k other => crosses ⟨k, other⟩]
      exact ⟨_, targets_of_answer hop rfl answer⟩
  obtain ⟨found, same⟩ := answered
  rw [alone, same]
  rfl

/-- Along a predicate that is left alone, what a sibling found only filters what a hop finds. -/
theorem resolveHop_narrowed (anchored : ∀ k, hop.other ≠ .unknown k)
    (free : hop.unknown = .object → opens hop.predicate) (below known : SortedSet Term) :
    ∃ found, s.resolveHop hop (.ok below) (some known) = .ok found ∧
      ∀ v, v ∈ found ↔ v ∈ s.alone hop below ∧ v ∈ known := by
  have plain := mode_hopPattern anchored below
  have taken : s.Takes (hopPattern hop (hop.slot below)).mode (hopPattern hop (hop.slot below)) :=
    takes_mode (atObject_hopPattern placed below) fun _ => evaluates
  obtain ⟨rows, answer, narrowed⟩ :=
    narrowable.filters _ _ (openAt_hopPattern placed free _) (plain ▸ taken)
  have opened := targets_of_answer hop plain answer
  have filtered := targets_of_answer hop (Pattern.mode_put_oneOf ..) (narrowed known)
  have unaided := resolveHop_alone narrowable evaluates placed below
  rw [resolveHop_of_anchor anchored] at unaided ⊢
  have same := Except.ok.inj (unaided.symm.trans opened)
  refine ⟨_, filtered, fun v => ?_⟩
  rw [same]
  simp only [SortedSet.mem_ofList, List.mem_map, SortedSet.mem_toList, SortedSet.mem_filter,
    Slot.accepts_oneOf]
  constructor
  · intro found
    obtain ⟨row, ⟨member, kept⟩, rfl⟩ := found
    exact ⟨⟨row, member, rfl⟩, kept⟩
  · intro given
    obtain ⟨⟨row, member, rfl⟩, kept⟩ := given
    exact ⟨row, ⟨member, kept⟩, rfl⟩

theorem steady_of_narrowable (free : ∀ t, hop.other = .term t → hop.unknown = .object →
    opens hop.predicate) : s.Steady s.alone hop := by
  refine steady_of_narrowed (resolveHop_alone narrowable evaluates placed) ?_
  intro anchored below known
  refine resolveHop_narrowed narrowable evaluates placed anchored (fun object => ?_) below known
  cases other : hop.other with
  | term t => exact free t other object
  | unknown k => exact absurd other (anchored k)
  | interval bounds =>
    -- Intervals stand at objects only, so that the hop solves for the subject.
    rw [placed.2 bounds other] at object
    cases object

end Narrowable

end Source

namespace QueryConfig

/-- Every scorer leads to the same terms, unless a hop from a known node to an object goes along a
relation that a layer of the configuration adds to. -/
theorem exists_resolve_of_leaves {m : Store.Memory} (built : m.Built) (c : QueryConfig)
    (orderly : Orderly (m.statementsIn none) c.closures) {operations : List Graph.Operation}
    (made : Graph.empty.KnowsAll operations) {start : NodeId}
    (unknown : (Graph.empty.after operations).isDefined start = false)
    (leaves : ∀ path ∈ (Graph.empty.after operations).paths start, ∀ hop ∈ path, ∀ t,
      hop.other = .term t → hop.unknown = .object → c.Leaves hop.predicate) :
    ∃ found, ∀ score,
      (c.build m.source).resolve (Graph.empty.after operations) start score = .ok found := by
  have linked := (Graph.tidy_after made).toLinked
  have narrowable := Source.narrowable_withIntervals (narrowable_build built c none orderly)
  have steady : ∀ path ∈ (Graph.empty.after operations).paths start, ∀ hop ∈ path,
      (c.build m.source).withIntervals.Steady (c.build m.source).withIntervals.alone hop := by
    intro path member hop inside
    have placed := (Graph.route_of_mem_paths member).placed linked hop inside
    exact Source.steady_of_narrowable narrowable rfl placed (leaves path member hop inside)
  refine ⟨(Trie.ofPaths ((Graph.empty.after operations).paths start)).combine
    (c.build m.source).withIntervals.alone, ?_⟩
  intro score
  rw [Source.resolve_of_unknown unknown]
  exact Source.resolveTrie_of_steady score steady

end QueryConfig

/-! ### What narrowing brings to light -/

namespace Sample

/-- An animal of a kind that Ann likes. -/
def likingPet : List Graph.Operation :=
  [.addUnknown, .addUnknown, .addDefined animal, .addDefined (.iri "ann"),
    .relate 0 Vocabulary.type 1, .relate 0 Vocabulary.type 2, .relate 3 likes 1]

def likedPet : Graph := Graph.empty.after likingPet

theorem made_likedPet : Graph.empty.KnowsAll likingPet := by decide

theorem leaves_likedPet : ∀ path ∈ likedPet.paths 0, ∀ hop ∈ path, ∀ t, hop.other = .term t →
    hop.unknown = .object → petRules.Leaves hop.predicate := by
  have along : ∀ path ∈ likedPet.paths 0, ∀ hop ∈ path,
      hop.unknown = .object → hop.predicate = likes := by
    decide +kernel
  intro path member hop inside t _ object
  rw [along path member hop inside object]
  refine ⟨?_, fun wanted => by cases wanted⟩
  decide

end Sample

theorem QueryConfig.exists_resolve_likedPet : ∃ found, ∀ score,
    (Sample.petRules.build Sample.pets.source).resolve Sample.likedPet 0 score = .ok found :=
  exists_resolve_of_leaves Sample.built_pets Sample.petRules Sample.orderly_petRules
    Sample.made_likedPet rfl Sample.leaves_likedPet

namespace Sample

def studies : Term := .iri "studies"

/-- Rex, the kinds above his own, and what Ann studies. -/
def zoo : Store.Memory :=
  (Store.Memory.empty false).extend
    [⟨.iri "rex", Vocabulary.type, dog⟩, ⟨dog, Vocabulary.subClassOf, animal⟩,
      ⟨.iri "ann", studies, animal⟩] none

theorem built_zoo : zoo.Built := .extend (.empty false) _ none

def zooRules : QueryConfig := ⟨true, false, [⟨.types, true⟩]⟩

/-- A kind of Rex that Ann studies. -/
def studying : List Graph.Operation :=
  [.addDefined (.iri "rex"), .addDefined (.iri "ann"), .addUnknown, .relate 0 Vocabulary.type 2,
    .relate 1 studies 2]

def studiedKind : Graph := Graph.empty.after studying

def typeFirst : Scorer := fun hop => -Scorer.typeLast hop

def kindOfRex : Hop := ⟨Vocabulary.type, .term (.iri "rex"), .object, 2⟩

def studiedByAnn : Hop := ⟨studies, .term (.iri "ann"), .object, 2⟩

theorem resolveTrie_studiedKind (s : Source) (score : Scorer) :
    s.resolveTrie score (.ofPaths (studiedKind.paths 2)) =
      s.join none none (Source.byScore score [(kindOfRex, .ok ∅), (studiedByAnn, .ok ∅)]) := by
  have paths : studiedKind.paths 2 = [[kindOfRex], [studiedByAnn]] := by decide +kernel
  have trie : Trie.ofPaths [[kindOfRex], [studiedByAnn]] =
      .branch kindOfRex .leaf (.branch studiedByAnn .leaf .leaf) := by
    decide +kernel
  rw [paths, trie]
  simp [Source.resolveTrie, Source.resolveBranches, Source.byScore, Source.join]

theorem score_studiedByAnn : Scorer.typeLast studiedByAnn = 0 := if_neg (by decide)

theorem score_kindOfRex : Scorer.typeLast kindOfRex = 1 := if_pos rfl

abbrev zooSource : Source := (zooRules.build zoo.source).withIntervals

/-- Rex's own kind is found first, and Ann does not study it. -/
theorem resolve_typeFirst :
    (zooRules.build zoo.source).resolve studiedKind 2 typeFirst = .ok ∅ := by
  have first : zooSource.resolveHop kindOfRex (.ok ∅) none = .ok (.singleton dog) := by
    decide
  have last : zooSource.resolveHop studiedByAnn (.ok ∅) (some (.singleton dog)) = .ok ∅ := by
    decide
  have sorted : ∀ a b : Except Fault (SortedSet Term),
      Source.byScore typeFirst [(kindOfRex, a), (studiedByAnn, b)] =
        [(kindOfRex, a), (studiedByAnn, b)] := by
    intro a b
    simp [Source.byScore, List.mergeSort, typeFirst, score_studiedByAnn, score_kindOfRex]
  rw [Source.resolve_of_unknown rfl, resolveTrie_studiedKind, sorted, Source.join, first]
  show zooSource.join (some (.singleton dog)) (some (.singleton dog)) [(studiedByAnn, .ok ∅)] = _
  rw [Source.join, last]
  rfl

def kindsListed : Pattern :=
  ⟨.exact (.iri "rex"), .exact Vocabulary.type, .oneOf (.singleton animal)⟩

/-- With animals listed, the rule for classes counts Rex among them. -/
theorem resolveHop_animals : ∃ found,
    zooSource.resolveHop kindOfRex (.ok ∅) (some (.singleton animal)) = .ok found ∧
      animal ∈ found := by
  have rules := answersBy_stack (orderly_types (zoo.statementsIn none))
    (Store.Memory.answersBy_source built_zoo none)
  obtain ⟨rows, answer, denotes⟩ := rules .listed kindsListed
    (fun interval => by cases interval) fun same => by cases same
  have first : firstRequest? [⟨.types, true⟩] kindsListed =
      some (true, ClosureRule.classRequest [animal]) := by
    decide
  have leads : Reaches (zoo.statementsIn none) Vocabulary.subClassOf .up animal dog :=
    .single ⟨⟨dog, Vocabulary.subClassOf, animal⟩, by decide, rfl, rfl, rfl⟩
  have counted : (⟨.iri "rex", Vocabulary.type, animal⟩ : Triple) ∈ rows :=
    denotes.restated first ⟨.iri "rex", Vocabulary.type, dog⟩ (by decide)
      (by decide) (by decide) leads
  have listed : kindsListed.mode = .listed := rfl
  refine ⟨_, Source.targets_of_answer kindOfRex listed answer, ?_⟩
  exact SortedSet.mem_ofList.mpr (List.mem_map.mpr ⟨_, counted, rfl⟩)

/-- What Ann studies is found first, and Rex is of that kind. -/
theorem mem_resolve_typeLast : ∃ found,
    (zooRules.build zoo.source).resolve studiedKind 2 Scorer.typeLast = .ok found ∧
      animal ∈ found := by
  obtain ⟨found, last, counted⟩ := resolveHop_animals
  have first : zooSource.resolveHop studiedByAnn (.ok ∅) none = .ok (.singleton animal) := by
    decide
  have sorted : ∀ a b : Except Fault (SortedSet Term),
      Source.byScore Scorer.typeLast [(kindOfRex, a), (studiedByAnn, b)] =
        [(studiedByAnn, b), (kindOfRex, a)] := by
    intro a b
    simp [Source.byScore, List.mergeSort, score_studiedByAnn, score_kindOfRex]
  refine ⟨.singleton animal ∩ found, ?_, ?_⟩
  · rw [Source.resolve_of_unknown rfl, resolveTrie_studiedKind, sorted, Source.join, first]
    show zooSource.join (some (.singleton animal)) (some (.singleton animal))
      [(kindOfRex, .ok ∅)] = _
    rw [Source.join, last]
    show (if found.isEmpty then _ else _) = _
    rw [SortedSet.isEmpty_eq_false_of_mem counted]
    rfl
  · exact SortedSet.mem_inter.mpr ⟨SortedSet.mem_singleton.mpr rfl, counted⟩

end Sample

/-- A rule for classes applies to a listed object but not to an open one, so that it matters which
of two hops comes first. -/
theorem QueryConfig.resolve_ne_of_scorers :
    (Sample.zooRules.build Sample.zoo.source).resolve Sample.studiedKind 2 Sample.typeFirst ≠
      (Sample.zooRules.build Sample.zoo.source).resolve Sample.studiedKind 2 Scorer.typeLast := by
  obtain ⟨found, answer, member⟩ := Sample.mem_resolve_typeLast
  rw [Sample.resolve_typeFirst, answer]
  intro same
  cases same
  exact SortedSet.not_mem_empty _ member

end TripleQuery
