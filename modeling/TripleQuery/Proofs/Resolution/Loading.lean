import TripleQuery.Proofs.Resolution.Scorers

/-!
Instances of a class among the solutions of a star. The layer for the class adds instances of its
sub-classes where the type of the start is asked for, with or without narrowing, and leaves all
other hops as they are.
-/

namespace TripleQuery

/-! ### Stars -/

namespace Graph

/-- An unknown that owns values, all of them anchors, and is no value itself. -/
structure Star (g : Graph) (start : NodeId) : Prop where
  unknown : ∃ k, g.token start = .unknown k
  inhabited : ∃ e ∈ g.properties start, g.values e ≠ []
  unreferred : ∀ e < g.edges.length, start ∉ g.values e
  anchored : ∀ e ∈ g.properties start, ∀ value ∈ g.values e, g.isAnchor value = true

variable {g : Graph} {start : NodeId}

theorem isCondition_of_isAnchor {token : Token} (anchor : token.isAnchor = true) :
    token.isCondition = true := by
  cases token with
  | term t => rfl
  | unknown k => cases anchor
  | interval bounds => exact anchor

theorem Star.isAnchor_start (star : g.Star start) : g.isAnchor start = false := by
  obtain ⟨k, token⟩ := star.unknown
  rw [isAnchor, token]
  rfl

theorem Star.isDefined_start (star : g.Star start) : g.isDefined start = false := by
  obtain ⟨k, token⟩ := star.unknown
  rw [isDefined, identifier?, token]
  rfl

/-- The hop that asks for one value of a star. -/
def rayTo (g : Graph) (start : NodeId) (e : EdgeId) (value : NodeId) : Hop :=
  ⟨g.link e, g.token value, .subject, start⟩

theorem Star.mem_hops (star : g.Star start) (linked : g.Linked) {hop : Hop}
    {next : NodeId} : (hop, next) ∈ g.hops start ↔
      ∃ e ∈ g.properties start, next ∈ g.values e ∧ hop = g.rayTo start e next := by
  rw [Graph.mem_hops linked]
  constructor
  · rintro (⟨e, joins, _⟩ | ⟨e, ⟨owner, value⟩, _, rfl⟩)
    · exact absurd joins.2 (star.unreferred e (lt_of_mem_values joins.2))
    · exact ⟨e, (linked.mem_properties start e).mpr ⟨lt_of_mem_values value, owner⟩, value, rfl⟩
  · intro found
    obtain ⟨e, property, value, rfl⟩ := found
    have owner := ((linked.mem_properties start e).mp property).2
    have condition := isCondition_of_isAnchor (star.anchored e property next value)
    exact .inr ⟨e, ⟨owner, value⟩, condition, rfl⟩

/-- Each path of a star is a single hop to one of the values. -/
theorem Star.mem_paths (star : g.Star start) (linked : g.Linked) {path : Path} :
    path ∈ g.paths start ↔
      ∃ e ∈ g.properties start, ∃ value ∈ g.values e, path = [g.rayTo start e value] := by
  have unsolved := star.isAnchor_start
  have inside : start ∈ g.nodeIds := by
    obtain ⟨k, token⟩ := star.unknown
    exact List.mem_range.mpr (lt_of_token_unknown token)
  rw [paths, if_neg (Bool.eq_false_iff.mp unsolved), mem_pathsThrough unsolved]
  simp only [star.mem_hops linked]
  constructor
  · intro found
    obtain ⟨_, hop, value, rest, ⟨e, property, member, rfl⟩, further, rfl⟩ := found
    rw [pathsThrough_anchor (star.anchored e property value member), List.mem_singleton] at further
    exact ⟨e, property, value, member, by rw [further]⟩
  · intro found
    obtain ⟨e, property, value, member, rfl⟩ := found
    refine ⟨inside, _, value, [], ⟨e, property, member, rfl⟩, ?_, rfl⟩
    rw [pathsThrough_anchor (star.anchored e property value member)]
    exact List.mem_singleton_self _

/-- The hops that begin a path of a star. -/
theorem Star.rests_ne_nil (star : g.Star start) (linked : g.Linked) {hop : Hop} :
    Path.rests hop (g.paths start) ≠ [] ↔
      ∃ e ∈ g.properties start, ∃ value ∈ g.values e, hop = g.rayTo start e value := by
  rw [Path.rests_ne_nil]
  simp only [star.mem_paths linked, List.cons.injEq]
  constructor
  · rintro ⟨_, e, property, value, member, same, _⟩
    exact ⟨e, property, value, member, same⟩
  · rintro ⟨e, property, value, member, same⟩
    exact ⟨[], e, property, value, member, same, rfl⟩

theorem Star.ofPaths_ne_leaf (star : g.Star start) (linked : g.Linked) :
    Trie.ofPaths (g.paths start) ≠ .leaf := by
  obtain ⟨e, property, values⟩ := star.inhabited
  obtain ⟨value, member⟩ := List.exists_mem_of_ne_nil _ values
  have begins := (star.rests_ne_nil linked).mpr ⟨e, property, value, member, rfl⟩
  exact Trie.ofPaths_ne_leaf.mpr ⟨_, begins⟩

end Graph

/-! ### What a star asks for -/

/-- A term is of some class from which the target is reached by zero or more sub-class steps. -/
def IsInstance (held : SortedSet Triple) (target x : Term) : Prop :=
  ∃ c, Reaches held Vocabulary.subClassOf .down c target ∧ ⟨x, Vocabulary.type, c⟩ ∈ held

/-- What is held of a term meets one value of a star, given the link to the value. -/
def Meets (held : SortedSet Triple) (target link : Term) (x : Term) : Token → Prop
  | .term value =>
    if link = Vocabulary.type ∧ value = target then IsInstance held target x
    else ⟨x, link, value⟩ ∈ held
  | .interval bounds => ∃ value, bounds.contains value = true ∧ ⟨x, link, value⟩ ∈ held
  | .unknown _ => False

theorem Hop.mem_solutions_ray {held : SortedSet Triple} {link x : Term} {token : Token}
    {n : NodeId} {below : SortedSet Term} (target : Term)
    (anchor : token.isAnchor = true) (other : ¬ (link = Vocabulary.type ∧ token = .term target)) :
    x ∈ Hop.solutions ⟨link, token, .subject, n⟩ held below ↔ Meets held target link x token := by
  rw [Hop.mem_solutions]
  simp only [Hop.accepts, Bool.and_eq_true, decide_eq_true_eq]
  cases token with
  | unknown k => cases anchor
  | term value =>
    have plain : ¬ (link = Vocabulary.type ∧ value = target) := fun same =>
      other ⟨same.1, congrArg Token.term same.2⟩
    rw [Meets, if_neg plain]
    constructor
    · rintro ⟨row, member, ⟨rfl, fits⟩, rfl⟩
      obtain rfl : value = row.object := of_decide_eq_true fits
      exact member
    · exact fun member => ⟨_, member, ⟨rfl, decide_eq_true rfl⟩, rfl⟩
  | interval bounds =>
    constructor
    · rintro ⟨row, member, ⟨rfl, fits⟩, rfl⟩
      exact ⟨row.object, fits, member⟩
    · rintro ⟨value, fits, member⟩
      exact ⟨_, member, ⟨rfl, fits⟩, rfl⟩

namespace Source

variable {s : Source} {target : Term}

/-! ### The layer for one class -/

/-- A source under the layers that loading puts above it. -/
abbrev loader (s : Source) (target : Term) : Source :=
  (s.withClosure (ClosureRule.typesOf target).matcher true).withIntervals

/-- Unless the target is asked for as a type, the layer is passed by. -/
theorem select_loader_of_silent {p : Pattern}
    (silent : (p.predicate.mentions Vocabulary.type && p.object.mentions target) = false)
    (mode : Mode) (context : Option Term) :
    (s.loader target).select mode p context = s.withIntervals.select mode p context := by
  have passed : ∀ q : Pattern,
      (q.predicate.mentions Vocabulary.type && q.object.mentions target) = false →
        (s.withClosure (ClosureRule.typesOf target).matcher true).select mode q context =
          s.select mode q context := by
    intro q quiet
    have none : (ClosureRule.typesOf target).matcher.request? q = none :=
      if_neg (Bool.eq_false_iff.mp quiet)
    show s.selectByClosure _ true mode q context = _
    rw [selectByClosure, none]
  have opened := passed (p.put .object .any) (Bool.and_false _)
  show selectByInterval (s.withClosure _ true) mode p context = s.selectByInterval mode p context
  unfold selectByInterval
  rw [opened, passed p silent]
  rfl

theorem type_ne_subClassOf : Vocabulary.type ≠ Vocabulary.subClassOf := by decide

/-- Asked for the target as a type, the layer asks for its sub-classes. -/
theorem select_loader_of_asked (subject : Slot) (mode : Mode) (context : Option Term) :
    (s.loader target).select mode ⟨subject, .exact Vocabulary.type, .exact target⟩ context =
      s.selectRequested true (ClosureRule.classRequest [target]) mode
        ⟨subject, .exact Vocabulary.type, .exact target⟩ context := by
  have requested : (ClosureRule.typesOf target).request?
      ⟨subject, .exact Vocabulary.type, .exact target⟩ =
        some (ClosureRule.classRequest [target]) := by
    simp [ClosureRule.request?, Slot.mentions]
  show s.selectByClosure (ClosureRule.typesOf target).request? true mode _ context = _
  rw [selectByClosure, requested]

/-- Asked for the target as a type, the layer finds all instances that the subject allows. -/
theorem select_loader_target {held : SortedSet Triple} (answers : s.AnswersIn none held)
    {subject : Slot} (plain : subject.isInterval = false) (mode : Mode) :
    ∃ rows, (s.loader target).select mode ⟨subject, .exact Vocabulary.type, .exact target⟩ none =
        .ok rows ∧
      ∀ x, (∃ row ∈ rows, row.subject = x) ↔
        IsInstance held target x ∧ subject.accepts x = true := by
  have no_interval : (⟨subject, .exact Vocabulary.type, .exact target⟩ : Pattern).hasInterval =
      false := by
    rw [Pattern.hasInterval, plain]
    rfl
  have no_list : mode = .listed → ∀ terms, Slot.exact target ≠ .choices terms :=
    fun _ _ => Slot.noConfusion
  obtain ⟨closure, reached, rows, answer, exactly⟩ :=
    selectRequested_single (ClosureRule.classRequest [target]) answers no_interval true rfl no_list
  have inside : ∀ c, c ∈ closure ↔ Reaches held Vocabulary.subClassOf .down c target := by
    intro c
    rw [reached, ← reaches_opposite]
    constructor
    · rintro ⟨seed, only, leads⟩
      exact List.mem_singleton.mp only ▸ leads
    · exact fun leads => ⟨target, List.mem_singleton_self _, leads⟩
  refine ⟨rows, (select_loader_of_asked subject mode none).trans answer, fun x => ⟨?_, ?_⟩⟩
  · rintro ⟨row, member, rfl⟩
    rcases (exactly row).mp member with ⟨base, stated, accepted, e, _, _, rfl⟩ | ⟨_, about, _⟩
    · have fits := Pattern.accepts_iff.mp accepted
      have class_inside := Slot.accepts_oneOf.mp (fits .object)
      have predicate : Vocabulary.type = base.predicate := of_decide_eq_true (fits .predicate)
      refine ⟨⟨base.object, (inside _).mp class_inside, ?_⟩, fits .subject⟩
      rw [predicate]
      exact stated
    · exact absurd (Slot.exact.inj about) type_ne_subClassOf
  · rintro ⟨⟨c, leads, stated⟩, allowed⟩
    have member := (inside c).mpr leads
    refine ⟨_, (exactly ⟨x, Vocabulary.type, c⟩).mpr (.inl ⟨_, stated, ?_, c, member, .refl, rfl⟩),
      rfl⟩
    refine Pattern.accepts_iff.mpr fun i => ?_
    cases i with
    | subject => exact allowed
    | predicate => exact decide_eq_true (show Vocabulary.type = Vocabulary.type from rfl)
    | object => exact Slot.accepts_oneOf.mpr member

/-! ### Hops of a star -/

/-- A hop finds what solves it, and if it is narrowed, what is left of that. -/
structure Finds (s : Source) (hop : Hop) (solves : Term → Prop) : Prop where
  settled : ∀ below, ∃ found, s.resolveHop hop (.ok below) none = .ok found ∧
    ∀ v, v ∈ found ↔ solves v
  narrowed : ∀ below known, ∃ found, s.resolveHop hop (.ok below) (some known) = .ok found ∧
    ∀ v, v ∈ found ↔ solves v ∧ v ∈ known

theorem Finds.mem_alone {hop : Hop} {solves : Term → Prop} (finds : s.Finds hop solves)
    {below : SortedSet Term} {v : Term} : v ∈ s.alone hop below ↔ solves v := by
  obtain ⟨found, answer, exactly⟩ := finds.settled below
  rw [alone, answer]
  exact exactly v

theorem Finds.steady {hop : Hop} {solves : Term → Prop} (finds : s.Finds hop solves) :
    s.Steady s.alone hop := by
  refine steady_of_narrowed (fun below => ?_) fun _ below known => ?_
  · obtain ⟨found, answer, _⟩ := finds.settled below
    rw [alone, answer]
    rfl
  · simp only [finds.mem_alone]
    exact finds.narrowed below known

section Hops

variable {allowed : Interval → Prop} {held : Option Term → SortedSet Triple}
  (answers : s.Answers allowed held) {n : NodeId}

include answers

/-- Any other hop finds what it finds without the layer. -/
theorem finds_of_silent {link : Term} {token : Token} (anchor : token.isAnchor = true)
    (placed : (⟨link, token, .subject, n⟩ : Hop).Placed)
    (given : (⟨link, token, .subject, n⟩ : Hop).Allowed allowed)
    (other : ¬ (link = Vocabulary.type ∧ token = .term target)) :
    (s.loader target).Finds ⟨link, token, .subject, n⟩
      fun x => Meets (held none) target link x token := by
  have anchored : ∀ k, token ≠ .unknown k := by
    rintro k rfl
    cases anchor
  have silent : ∀ below, (decide (link = Vocabulary.type) &&
      (Hop.slot ⟨link, token, .subject, n⟩ below).mentions target) = false := by
    intro below
    cases token with
    | term value =>
      refine Bool.eq_false_iff.mpr fun both => ?_
      obtain ⟨about, same⟩ := Bool.and_eq_true_iff.mp both
      obtain rfl : value = target := of_decide_eq_true same
      exact other ⟨of_decide_eq_true about, rfl⟩
    | unknown k => exact absurd rfl (anchored k)
    | interval bounds => exact Bool.and_false _
  have passed : ∀ (subject : Slot) (below : SortedSet Term),
      (s.loader target).targets ⟨link, token, .subject, n⟩
          ⟨subject, .exact link, Hop.slot ⟨link, token, .subject, n⟩ below⟩ =
        s.withIntervals.targets ⟨link, token, .subject, n⟩
          ⟨subject, .exact link, Hop.slot ⟨link, token, .subject, n⟩ below⟩ := by
    intro subject below
    rw [targets, targets]
    exact congrArg (Except.map _)
      (select_loader_of_silent (p := ⟨subject, .exact link, _⟩) (silent below) _ none)
  have evaluated := answers_withIntervals answers
  constructor
  · intro below
    rw [resolveHop_of_anchor anchored]
    exact ⟨_, (passed .any below).trans (targets_hopPattern evaluated rfl placed given below),
      fun x => Hop.mem_solutions_ray target anchor other⟩
  · intro below known
    rw [resolveHop_of_anchor anchored]
    obtain ⟨found, answer, exactly⟩ := resolveAnchored_narrowed evaluated rfl placed given below known
    refine ⟨found, (passed (.oneOf known) below).trans answer, fun x => (exactly x).trans ?_⟩
    exact and_congr_left fun _ => Hop.mem_solutions_ray target anchor other

/-- The hop to the target as a type finds its instances. -/
theorem finds_target : (s.loader target).Finds ⟨Vocabulary.type, .term target, .subject, n⟩
    (IsInstance (held none) target) := by
  have asked : ∀ subject : Slot, subject.isInterval = false → ∃ found,
      (s.loader target).targets ⟨Vocabulary.type, .term target, .subject, n⟩
        ⟨subject, .exact Vocabulary.type, .exact target⟩ = .ok found ∧
      ∀ x, x ∈ found ↔ IsInstance (held none) target x ∧ subject.accepts x = true := by
    intro subject plain
    obtain ⟨rows, answer, exactly⟩ := select_loader_target (answers.answersIn none) plain
      (⟨subject, .exact Vocabulary.type, .exact target⟩ : Pattern).mode
    refine ⟨_, targets_of_answer _ rfl answer, fun x => ?_⟩
    rw [SortedSet.mem_ofList, List.mem_map]
    exact exactly x
  constructor
  · intro _
    obtain ⟨found, answer, exactly⟩ := asked .any rfl
    exact ⟨found, answer, fun x => (exactly x).trans (and_iff_left rfl)⟩
  · intro _ known
    obtain ⟨found, answer, exactly⟩ := asked (.oneOf known) rfl
    exact ⟨found, answer, fun x => (exactly x).trans (and_congr_right fun _ => Slot.accepts_oneOf)⟩

theorem finds_ray {g : Graph} {start : NodeId} (star : g.Star start) (linked : g.Linked)
    (given : g.AllowsFrom start allowed) {e : EdgeId} (property : e ∈ g.properties start) {value : NodeId} (member : value ∈ g.values e) :
    (s.loader target).Finds (g.rayTo start e value)
      fun x => Meets (held none) target (g.link e) x (g.token value) := by
  have anchor := star.anchored e property value member
  by_cases asks : g.link e = Vocabulary.type ∧ g.token value = .term target
  · rw [Graph.rayTo, asks.1, asks.2]
    simp only [Meets, and_self, if_true]
    exact finds_target answers
  · have step := (star.mem_hops linked).mpr ⟨e, property, member, rfl⟩
    have present := (star.mem_paths linked).mpr ⟨e, property, value, member, rfl⟩
    exact finds_of_silent answers anchor (Graph.placed_of_mem_hops linked step)
      (given _ present _ (List.mem_singleton_self _)) asks

end Hops

/-- Loading the start of a star finds the terms that meet all of its values. -/
theorem mem_load_of_star (tree : SourceTree) {operations : List Graph.Operation}
    (made : Graph.empty.KnowsAll operations) {start : NodeId}
    (star : (Graph.empty.after operations).Star start)
    (reads : (Graph.empty.after operations).AllowsFrom start tree.Reads) (target : Term) :
    let g := Graph.empty.after operations
    ∃ found, tree.source.load g start target = .ok found ∧ ∀ x, x ∈ found ↔
      ∀ e ∈ g.properties start, ∀ value ∈ g.values e,
        Meets (tree.holds none) target (g.link e) x (g.token value) := by
  intro g
  have linked : g.Linked := (Graph.tidy_after made).toLinked
  have finds : ∀ e ∈ g.properties start, ∀ value ∈ g.values e,
      (tree.source.loader target).Finds (g.rayTo start e value)
        fun x => Meets (tree.holds none) target (g.link e) x (g.token value) :=
    fun e property value member => finds_ray tree.answers star linked reads property member
  have steady : ∀ path ∈ g.paths start, ∀ hop ∈ path,
      (tree.source.loader target).Steady (tree.source.loader target).alone hop := by
    intro path present hop inside
    obtain ⟨e, property, value, member, rfl⟩ := (star.mem_paths linked).mp present
    rw [List.mem_singleton.mp inside]
    exact (finds e property value member).steady
  have unknown := star.isDefined_start
  refine ⟨_, (resolve_of_unknown unknown _).trans (resolveTrie_of_steady _ steady), fun x => ?_⟩
  rw [Trie.mem_combine_ofPaths (star.ofPaths_ne_leaf linked)]
  constructor
  · intro all e property value member
    have begins := (star.rests_ne_nil linked).mpr ⟨e, property, value, member, rfl⟩
    exact (finds e property value member).mem_alone.mp (all _ begins)
  · intro all hop begins
    obtain ⟨e, property, value, member, rfl⟩ := (star.rests_ne_nil linked).mp begins
    exact (finds e property value member).mem_alone.mpr (all e property value member)

end Source

namespace Sample

/-- Instances of the lowest of three classes. The first is in a group and scored. -/
def members : SourceTree :=
  .table
    [.extend
      (⟨instanceNamed 0, Vocabulary.type, classNamed 2⟩ ::
        ⟨instanceNamed 0, inGroup, groupNamed 0⟩ :: ⟨instanceNamed 0, score, .integer 5⟩ ::
          ⟨instanceNamed 1, Vocabulary.type, classNamed 2⟩ :: chain 3) none]

/-- An instance of the highest class, in that group and with a score between two bounds. -/
def wanting : List Graph.Operation :=
  [.addUnknown, .addDefined (classNamed 0), .addDefined (groupNamed 0),
    .addInterval ⟨some (.integer 2), some (.integer 10)⟩, .relate 0 Vocabulary.type 1,
    .relate 0 inGroup 2, .relate 0 score 3]

def wanted : Graph := Graph.empty.after wanting

theorem made_wanted : Graph.empty.KnowsAll wanting := by decide

example : wanted = (Graph.star (classNamed 0) (groupNamed 0) 2 10).2 := rfl

theorem star_wanted : wanted.Star 0 where
  unknown := ⟨0, rfl⟩
  inhabited := ⟨0, by decide, by decide⟩
  unreferred := by decide
  anchored := by decide

end Sample

theorem Source.mem_load_wanted : Sample.members.asksTable = true ∧
    ∃ found, Sample.members.source.load Sample.wanted 0 (Sample.classNamed 0) = .ok found ∧
      ∀ x, x ∈ found ↔
        ∀ e ∈ Sample.wanted.properties 0, ∀ value ∈ Sample.wanted.values e,
          Meets (Sample.members.holds none) (Sample.classNamed 0) (Sample.wanted.link e) x
            (Sample.wanted.token value) :=
  ⟨rfl, mem_load_of_star Sample.members Sample.made_wanted Sample.star_wanted
    (by decide +kernel) (Sample.classNamed 0)⟩

/-! ### Bounds of two kinds -/

namespace Sample

theorem star_activated : activated.Star 0 where
  unknown := ⟨0, rfl⟩
  inhabited := ⟨0, by decide, by decide⟩
  unreferred := by decide
  anchored := by decide

theorem load_activated :
    ledger.source.load activated 0 person = .ok (.singleton (.iri "bob")) := by
  have found : (ledger.source.loader person).resolveHop activeWithin (.ok ∅) none =
      .ok (.singleton (.iri "bob")) := by
    decide +kernel
  refine (Source.resolve_of_unknown star_activated.isDefined_start _).trans ?_
  rw [paths_activated, Source.resolveTrie_single, found]

/-- Bob has a value, but none between the bounds. -/
theorem not_meets_activated :
    ¬ Meets (ledger.holds none) person active (.iri "bob") (.interval mixed) := by
  intro meets
  obtain ⟨value, contained, stated⟩ := meets
  have only : ∀ row ∈ (ledger.holds none).toList, mixed.contains row.object = false := by
    decide
  exact Bool.false_ne_true ((only _ stated).symm.trans contained)

end Sample

/-- Bob is loaded, though no value between the bounds is stated of him. -/
theorem Source.mem_load_of_mixed :
    Graph.empty.KnowsAll Sample.activating ∧ Sample.activated.Star 0 ∧
      ∃ found, Sample.ledger.source.load Sample.activated 0 Sample.person = .ok found ∧
        .iri "bob" ∈ found ∧
          ¬ ∀ e ∈ Sample.activated.properties 0, ∀ value ∈ Sample.activated.values e,
            Meets (Sample.ledger.holds none) Sample.person (Sample.activated.link e)
              (.iri "bob") (Sample.activated.token value) := by
  refine ⟨by decide, Sample.star_activated, _, Sample.load_activated,
    SortedSet.mem_singleton.mpr rfl, fun meets => ?_⟩
  exact Sample.not_meets_activated (meets 0 (by decide) 1 (by decide))

end TripleQuery
