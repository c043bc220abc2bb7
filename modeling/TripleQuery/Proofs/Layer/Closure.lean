import TripleQuery.Layer.Closure
import TripleQuery.Proofs.Closure
import TripleQuery.Proofs.Store.Memory
import TripleQuery.Sample

/-!
The closure layer over a source that answers from fixed statements. Whether it asks once for a
whole closure or once for each of its members, its answer is the same set of entailed rows.
-/

namespace TripleQuery

theorem Slot.mentions_of_accepts {s : Slot} (named : s.named? ≠ none) {t : Term}
    (accepted : s.accepts t = true) : s.mentions t = true := by
  cases s with
  | any | within _ => exact absurd rfl named
  | exact _ | choices _ => exact accepted

/-- The relations whose objects are rewritten along sub-classes. -/
def IsClassRelation (relation : Term) : Prop :=
  relation = Vocabulary.type ∨ relation = Vocabulary.subClassOf

theorem not_isClassRelation_subPropertyOf : ¬ IsClassRelation Vocabulary.subPropertyOf := by
  rintro (same | same) <;> exact absurd same (by decide)

namespace ClosureRule

/-- The relation whose objects a rule restates. The rule for sub-properties has none. -/
def relation? : ClosureRule → Option Term
  | types | typesOf _ => some Vocabulary.type
  | subClassesOf _ => some Vocabulary.subClassOf
  | subPropertiesOf _ => none

theorem isClassRelation {rule : ClosureRule} {relation : Term}
    (own : relation ∈ rule.relation?) : IsClassRelation relation := by
  cases rule with
  | types | typesOf _ => exact .inl (Option.some.inj own).symm
  | subClassesOf _ => exact .inr (Option.some.inj own).symm
  | subPropertiesOf _ => cases own

/-- A rule for classes asks for sub-classes of what the object names, where the predicate mentions
its relation; a rule for sub-properties asks for those of the predicate. -/
theorem request_cases {rule : ClosureRule} {p : Pattern} {r : ClosureRequest}
    (requested : rule.request? p = some r) :
    (∃ relation ∈ rule.relation?, p.predicate.mentions relation = true ∧
      ∃ start, r = classRequest start) ∨
    ∃ property, rule = subPropertiesOf property ∧ p.predicate = .exact property ∧
      r = ⟨[property], Vocabulary.subPropertyOf, .up, .predicate⟩ := by
  cases rule with
  | types =>
    obtain ⟨about, requested⟩ := Option.ite_none_right_eq_some.mp requested
    obtain ⟨start, _, rfl⟩ := Option.map_eq_some_iff.mp requested
    exact .inl ⟨_, rfl, about, start, rfl⟩
  | typesOf target | subClassesOf target =>
    obtain ⟨both, requested⟩ := Option.ite_none_right_eq_some.mp requested
    cases requested
    exact .inl ⟨_, rfl, (Bool.and_eq_true_iff.mp both).1, [target], rfl⟩
  | subPropertiesOf property =>
    obtain ⟨about, requested⟩ := Option.ite_none_right_eq_some.mp requested
    cases requested
    refine .inr ⟨property, rfl, ?_, rfl⟩
    cases slot : p.predicate with
    | exact _ =>
      rw [slot] at about
      exact congrArg _ (Option.some.inj about)
    | any | choices _ | within _ =>
      rw [slot] at about
      cases about

/-- The relation that the closures of a rule follow. -/
def hierarchy : ClosureRule → Term
  | types | typesOf _ | subClassesOf _ => Vocabulary.subClassOf
  | subPropertiesOf _ => Vocabulary.subPropertyOf

theorem predicate_of_request {rule : ClosureRule} {p : Pattern} {r : ClosureRequest}
    (requested : rule.request? p = some r) : r.predicate = rule.hierarchy := by
  rcases request_cases requested with ⟨relation, own, _, _, rfl⟩ | ⟨_, rfl, _, rfl⟩
  · cases rule with
    | types | typesOf _ | subClassesOf _ => rfl
    | subPropertiesOf _ => cases own
  · rfl

/-- A rule's request starts at the list that it finds in its place, or at one term of those that
are named there. -/
theorem start_of_request {rule : ClosureRule} {p : Pattern} {r : ClosureRequest}
    (requested : rule.request? p = some r) : p.get r.position = .choices r.start ∨
      ∃ start, r.start = [start] ∧ (p.get r.position).mentions start = true := by
  cases rule with
  | types =>
    obtain ⟨_, requested⟩ := Option.ite_none_right_eq_some.mp requested
    obtain ⟨start, named, rfl⟩ := Option.map_eq_some_iff.mp requested
    show p.object = _ ∨ ∃ term, start = [term] ∧ p.object.mentions term = true
    cases slot : p.object with
    | exact term =>
      rw [slot] at named
      cases named
      exact .inr ⟨term, rfl, decide_eq_true rfl⟩
    | choices terms =>
      rw [slot] at named
      cases named
      exact .inl rfl
    | any | within _ =>
      rw [slot] at named
      cases named
  | typesOf target | subClassesOf target =>
    obtain ⟨both, requested⟩ := Option.ite_none_right_eq_some.mp requested
    cases requested
    exact .inr ⟨target, rfl, (Bool.and_eq_true_iff.mp both).2⟩
  | subPropertiesOf property =>
    obtain ⟨about, requested⟩ := Option.ite_none_right_eq_some.mp requested
    cases requested
    refine .inr ⟨property, rfl, ?_⟩
    show p.predicate.mentions property = true
    cases slot : p.predicate with
    | exact _ =>
      rw [slot] at about
      exact decide_eq_true (Option.some.inj about)
    | any | choices _ | within _ =>
      rw [slot] at about
      cases about

theorem mentions_of_request {rule : ClosureRule} {p : Pattern} {r : ClosureRequest}
    (requested : rule.request? p = some r) {t : Term} (member : t ∈ r.start) :
    (p.get r.position).mentions t = true := by
  rcases start_of_request requested with list | ⟨start, alone, mentioned⟩
  · rw [list]
    exact decide_eq_true member
  · rw [alone] at member
    exact List.mem_singleton.mp member ▸ mentioned

theorem named_of_request {rule : ClosureRule} {p : Pattern} {r : ClosureRequest}
    (requested : rule.request? p = some r) : (p.get r.position).named? ≠ none := by
  rcases start_of_request requested with list | ⟨start, _, mentioned⟩
  · rw [list]
    exact Option.some_ne_none _
  · cases slot : p.get r.position with
    | exact _ | choices _ => exact Option.some_ne_none _
    | any | within _ =>
      rw [slot] at mentioned
      cases mentioned

end ClosureRule

namespace ClosureRequest

theorem start_of_single {r : ClosureRequest} {p : Pattern} {start : Term}
    (alone : r.single p = .ok start) : r.start = [start] := by
  unfold single at alone
  split at alone
  · rename_i only
    cases alone
    exact only
  · cases alone

/-- Where a closure sets out from: the listed terms together with the starts, or a single start.
Several starts without a list are refused. -/
def seeds? (r : ClosureRequest) (mode : Mode) (p : Pattern) : Option (List Term) :=
  match mode, p.get r.position with
  | .listed, .choices terms => some (terms ++ r.start)
  | _, _ => if r.start.length = 1 then some r.start else none

theorem seeds_of_some {r : ClosureRequest} {mode : Mode} {p : Pattern} {seeds : List Term}
    (setsOut : r.seeds? mode p = some seeds) :
    (mode = .listed ∧ ∃ terms, p.get r.position = .choices terms ∧ seeds = terms ++ r.start) ∨
      ∃ start, r.start = [start] ∧ seeds = r.start ∧
        (mode = .listed → ∀ terms, p.get r.position ≠ .choices terms) := by
  unfold seeds? at setsOut
  split at setsOut
  · rename_i terms list
    cases setsOut
    exact .inl ⟨rfl, terms, list, rfl⟩
  · rename_i no_list
    obtain ⟨count, same⟩ := Option.ite_none_right_eq_some.mp setsOut
    cases same
    obtain ⟨start, alone⟩ := List.length_eq_one_iff.mp count
    exact .inr ⟨start, alone, rfl, fun listed terms list => no_list terms listed list⟩

theorem seeds_of_none {r : ClosureRequest} {mode : Mode} {p : Pattern}
    (several : r.seeds? mode p = none) : r.start.length ≠ 1 ∧
      (mode = .listed → ∀ terms, p.get r.position ≠ .choices terms) := by
  unfold seeds? at several
  split at several
  · cases several
  · rename_i no_list
    refine ⟨fun count => ?_, fun listed terms list => no_list terms listed list⟩
    rw [if_pos count] at several
    cases several

/-- A row stands for every term that leads to its own. -/
def Entails (r : ClosureRequest) (held : SortedSet Triple) (base : Triple) (e : Term)
    (row : Triple) : Prop :=
  Reaches held r.predicate r.direction e (base.get r.position) ∧ row = base.put r.position e

/-- What the closure itself states where a query is about its relation. -/
def Reflexive (r : ClosureRequest) (p : Pattern) (closure : SortedSet Term) (row : Triple) : Prop :=
  p.predicate = .exact r.predicate ∧ ∃ other, r.position.opposite = some other ∧
    ∃ x ∈ closure, (p.get other).accepts x = true ∧ row = ⟨x, r.predicate, x⟩

theorem mem_reflexiveRows {r : ClosureRequest} {p : Pattern} {closure : SortedSet Term}
    {row : Triple} : row ∈ r.reflexiveRows p closure ↔ r.Reflexive p closure row := by
  have fixed : p.predicate.fixed? = some r.predicate ↔ p.predicate = .exact r.predicate := by
    cases p.predicate <;> simp [Slot.fixed?]
  unfold reflexiveRows Reflexive
  cases opposite : r.position.opposite with
  | none => simp
  | some other =>
    dsimp only
    by_cases about : p.predicate = .exact r.predicate
    · rw [if_pos (fixed.mpr about), List.mem_map]
      constructor
      · intro found
        obtain ⟨x, member, rfl⟩ := found
        obtain ⟨member, fits⟩ := List.mem_filter.mp member
        exact ⟨about, other, rfl, x, member, fits, rfl⟩
      · intro found
        obtain ⟨_, _, ⟨⟩, x, member, fits, rfl⟩ := found
        exact ⟨x, List.mem_filter.mpr ⟨member, fits⟩, rfl⟩
    · rw [if_neg fun same => about (fixed.mp same)]
      simp [about]

/-- The rows of the answer for a closure: those that the statements of the widened pattern stand
for, and the closure's own. -/
def Answers (r : ClosureRequest) (held : SortedSet Triple) (reflexive : Bool) (p : Pattern)
    (closure : SortedSet Term) (row : Triple) : Prop :=
  (∃ base ∈ held, (r.widen p closure).accepts base = true ∧
      ∃ e ∈ closure, r.Entails held base e row) ∨
    (reflexive = true ∧ r.Reflexive p closure row)

end ClosureRequest

namespace Source

/-! ### What is asked of the source below -/

section Steps

variable {next : Source} {context : Option Term} {r : ClosureRequest} {p : Pattern}
  {reflexive : Bool} {closure : SortedSet Term} {rows : SortedSet Triple}

theorem selectWidened_of_walked {starts : List Term}
    (walked : next.closureAll starts r.predicate r.direction context = .ok closure)
    (asked : next.choices (r.widen p closure) context = .ok rows) :
    next.selectWidened reflexive r p context starts =
      next.entailWithin reflexive r p context closure rows := by
  rw [selectWidened, walked]
  show (next.choices (r.widen p closure) context >>= _) = _
  rw [asked]
  rfl

theorem selectEach_of_walked {start : Term}
    (walked : next.closure start r.predicate r.direction context ∅ = .ok closure)
    (united : Answer.unite (closure.toList.map fun t =>
      next.choices (p.put r.position (.exact t)) context) = .ok rows) :
    next.selectEach reflexive r p context start =
      next.entailWithin reflexive r p context closure rows := by
  rw [selectEach, walked]
  show (Answer.unite (closure.toList.map _) >>= _) = _
  rw [united]
  rfl

theorem selectUnlimited_of_asked {entailed : List Triple}
    (asked : next.choices p context = .ok rows)
    (answer : next.entail r context none rows.toList = .ok entailed) :
    next.selectUnlimited r p context = .ok (.ofList entailed) := by
  rw [selectUnlimited, asked]
  show (next.entail r context none rows.toList >>= _) = _
  rw [answer]
  rfl

end Steps

section Layer

variable {next : Source} {context : Option Term} {rule : ClosureRule} {reflexive : Bool}
  {mode : Mode} {p : Pattern}

theorem select_withClosure_of_none (silent : rule.request? p = none) :
    (next.withClosure rule.matcher reflexive).select mode p context =
      next.select mode p context := by
  show next.selectByClosure rule.request? reflexive mode p context = _
  rw [selectByClosure, silent]

theorem select_withClosure_of_some {r : ClosureRequest} (requested : rule.request? p = some r) :
    (next.withClosure rule.matcher reflexive).select mode p context =
      next.selectRequested reflexive r mode p context := by
  show next.selectByClosure rule.request? reflexive mode p context = _
  rw [selectByClosure, requested]

end Layer

variable {next : Source} {context : Option Term} {held : SortedSet Triple} (r : ClosureRequest)

/-! ### Entailment -/

/-- Following the request's predicate backwards from any term comes upon what `back` relates the
term to. -/
def WalksBack (next : Source) (context : Option Term) (r : ClosureRequest)
    (back : Term → Term → Prop) : Prop :=
  ∀ t, ∃ found, next.closure t r.predicate r.direction.opposite context ∅ = .ok found ∧
    ∀ e, e ∈ found ↔ back t e

theorem Follows.walksBack (follows : next.Follows context held r.predicate) :
    next.WalksBack context r fun t e => Reaches held r.predicate r.direction e t := by
  intro t
  obtain ⟨found, walked, exactly⟩ := follows r.direction.opposite t
  exact ⟨found, walked, fun e => (exactly e).trans reaches_opposite⟩

section Walking

variable {back : Term → Term → Prop} (walks : next.WalksBack context r back)

include walks

theorem expansions_walked (limit : Option (SortedSet Term)) (terms : List Term) :
    ∃ table, next.expansions r context limit terms = .ok table ∧
      ∀ t ∈ terms, ∃ sources, table.lookup t = some sources ∧
        ∀ e, e ∈ sources ↔ back t e ∧ ∀ closure, limit = some closure → e ∈ closure := by
  induction terms with
  | nil => exact ⟨[], rfl, fun t member => absurd member List.not_mem_nil⟩
  | cons first rest ih =>
    obtain ⟨others, expanded, found⟩ := ih
    obtain ⟨reached, walked, exactly⟩ := walks first
    refine ⟨(first, (limit.elim reached (reached ∩ ·)).toList) :: others, ?_, fun t member => ?_⟩
    · rw [expansions, walked, expanded]
      rfl
    · by_cases same : t = first
      · subst same
        refine ⟨_, List.lookup_cons_self, fun e => ?_⟩
        rw [SortedSet.mem_toList, ← exactly]
        cases limit with
        | none => simp
        | some closure => simp
      · have later := (List.mem_cons.mp member).resolve_left same
        obtain ⟨sources, listed, leads⟩ := found t later
        exact ⟨sources, by rw [List.lookup_cons, beq_false_of_ne same, listed], leads⟩

theorem entail_walked (limit : Option (SortedSet Term)) (rows : List Triple) :
    ∃ entailed, next.entail r context limit rows = .ok entailed ∧
      ∀ row, row ∈ entailed ↔ ∃ base ∈ rows, ∃ e,
        (∀ closure, limit = some closure → e ∈ closure) ∧
          back (base.get r.position) e ∧ row = base.put r.position e := by
  obtain ⟨table, expanded, found⟩ := expansions_walked r walks limit (distinctAt r.position rows)
  refine ⟨_, by rw [entail, expanded]; rfl, fun row => ?_⟩
  have listed : ∀ base ∈ rows, base.get r.position ∈ distinctAt r.position rows := by
    intro base member
    exact List.mem_eraseDups.mpr (List.mem_map.mpr ⟨base, member, rfl⟩)
  simp only [List.mem_flatMap, List.mem_map]
  constructor
  · intro given
    obtain ⟨base, member, e, inside, rfl⟩ := given
    obtain ⟨sources, lookup, leads⟩ := found _ (listed base member)
    rw [lookup] at inside
    obtain ⟨reaches, within⟩ := (leads e).mp inside
    exact ⟨base, member, e, within, reaches, rfl⟩
  · intro given
    obtain ⟨base, member, e, within, reaches, rfl⟩ := given
    obtain ⟨sources, lookup, leads⟩ := found _ (listed base member)
    exact ⟨base, member, e, by rw [lookup]; exact (leads e).mpr ⟨reaches, within⟩, rfl⟩

theorem entailWithin_walked (reflexive : Bool) (p : Pattern) (closure : SortedSet Term)
    (rows : SortedSet Triple) :
    ∃ found, next.entailWithin reflexive r p context closure rows = .ok found ∧
      ∀ row, row ∈ found ↔
        (∃ base ∈ rows, ∃ e ∈ closure,
          back (base.get r.position) e ∧ row = base.put r.position e) ∨
        (reflexive = true ∧ r.Reflexive p closure row) := by
  obtain ⟨entailed, answer, exactly⟩ := entail_walked r walks (some closure) rows.toList
  refine ⟨_, by rw [entailWithin, answer]; rfl, fun row => ?_⟩
  rw [SortedSet.mem_ofList, List.mem_append, exactly]
  simp only [Option.some.injEq, forall_eq', SortedSet.mem_toList]
  refine or_congr_right ?_
  cases reflexive with
  | false => simp
  | true => simp [ClosureRequest.mem_reflexiveRows]

end Walking

section Following

variable (follows : next.Follows context held r.predicate)

include follows

theorem entail_exact (limit : Option (SortedSet Term)) (rows : List Triple) :
    ∃ entailed, next.entail r context limit rows = .ok entailed ∧
      ∀ row, row ∈ entailed ↔ ∃ base ∈ rows, ∃ e,
        (∀ closure, limit = some closure → e ∈ closure) ∧ r.Entails held base e row :=
  entail_walked r (follows.walksBack r) limit rows

theorem entailWithin_exact (reflexive : Bool) (p : Pattern) (closure : SortedSet Term)
    (rows : SortedSet Triple) :
    ∃ found, next.entailWithin reflexive r p context closure rows = .ok found ∧
      ∀ row, row ∈ found ↔ (∃ base ∈ rows, ∃ e ∈ closure, r.Entails held base e row) ∨
        (reflexive = true ∧ r.Reflexive p closure row) :=
  entailWithin_walked r (follows.walksBack r) reflexive p closure rows

end Following

/-! ### Two sources -/

section Congruence

variable {a b : Source}

section Back

variable (back : ∀ t, a.closure t r.predicate r.direction.opposite context ∅ =
  b.closure t r.predicate r.direction.opposite context ∅)

include back

theorem entail_congr (limit : Option (SortedSet Term)) (rows : List Triple) :
    a.entail r context limit rows = b.entail r context limit rows := by
  have expansions_congr : ∀ terms,
      a.expansions r context limit terms = b.expansions r context limit terms := by
    intro terms
    induction terms with
    | nil => rfl
    | cons t rest ih => simp only [expansions, ih, back]
  simp only [entail, expansions_congr]

theorem entailWithin_congr (reflexive : Bool) (p : Pattern) (closure : SortedSet Term)
    (rows : SortedSet Triple) : a.entailWithin reflexive r p context closure rows =
      b.entailWithin reflexive r p context closure rows := by
  simp only [entailWithin, entail_congr r back]

end Back

/-- Two sources whose closures are the same in a region that they do not leave, and that answer
alike what a request asks about the region, have the same answer to the request. -/
theorem selectRequested_congr (inside : Term → Prop) {p : Pattern}
    (ahead : ∀ start, inside start → a.closure start r.predicate r.direction context ∅ =
      b.closure start r.predicate r.direction context ∅)
    (closed : ∀ start found, inside start →
      b.closure start r.predicate r.direction context ∅ = .ok found → ∀ t ∈ found, inside t)
    (back : ∀ t, a.closure t r.predicate r.direction.opposite context ∅ =
      b.closure t r.predicate r.direction.opposite context ∅)
    (own : a.choices p context = b.choices p context)
    (put : ∀ slot : Slot, slot.isInterval = false → (∀ t, slot.mentions t = true → inside t) →
      a.choices (p.put r.position slot) context = b.choices (p.put r.position slot) context)
    (starts : ∀ t ∈ r.start, inside t)
    (named : ∀ t, (p.get r.position).mentions t = true → inside t) (reflexive : Bool)
    (mode : Mode) :
    a.selectRequested reflexive r mode p context = b.selectRequested reflexive r mode p context := by
  have widened : ∀ starts : List Term, (∀ t ∈ starts, inside t) →
      a.selectWidened reflexive r p context starts =
        b.selectWidened reflexive r p context starts := by
    intro starts starting
    have walked : a.closureAll starts r.predicate r.direction context =
        b.closureAll starts r.predicate r.direction context :=
      closureFrom_congr (fun start member => ahead start (starting start member)) ∅
    rw [selectWidened, selectWidened, walked]
    refine bind_congr_ok fun closure reached => ?_
    have within := mem_closureFrom_inside inside closed starting
      (fun t member => absurd member (SortedSet.not_mem_empty t)) reached
    have asked : a.choices (r.widen p closure) context = b.choices (r.widen p closure) context :=
      put _ rfl fun t mentioned => within t (Slot.mentions_oneOf.mp mentioned)
    simp only [asked, entailWithin_congr r back]
  have each : ∀ start ∈ r.start, a.selectEach reflexive r p context start =
      b.selectEach reflexive r p context start := by
    intro start member
    rw [selectEach, selectEach, ahead start (starts start member)]
    refine bind_congr_ok fun closure reached => ?_
    have asked : (closure.toList.map fun t => a.choices (p.put r.position (.exact t)) context) =
        closure.toList.map fun t => b.choices (p.put r.position (.exact t)) context := by
      refine List.map_congr_left fun t inside => put _ rfl fun u mentioned => ?_
      obtain rfl : t = u := of_decide_eq_true mentioned
      exact closed start closure (starts start member) reached t inside
    simp only [asked, entailWithin_congr r back]
  have single : ∀ {start}, r.single p = .ok start → start ∈ r.start := fun alone =>
    ClosureRequest.start_of_single alone ▸ List.mem_singleton_self _
  unfold selectRequested
  split
  · simp only [selectUnlimited, own, entail_congr r back]
  · split
    · rename_i terms list
      refine widened _ fun t member => ?_
      rcases List.mem_append.mp (SortedSet.mem_ofList.mp member) with listed | start
      · exact named t (by rw [list]; exact decide_eq_true listed)
      · exact starts t start
    · exact bind_congr_ok fun start alone => each start (single alone)
    · refine bind_congr_ok fun start alone => widened _ fun t only => ?_
      exact List.mem_singleton.mp only ▸ starts start (single alone)

end Congruence

/-! ### One query or many -/

variable (answers : next.AnswersIn context held)

include answers

theorem entailWithin_widened (reflexive : Bool) (p : Pattern) (closure : SortedSet Term) :
    ∃ found, next.entailWithin reflexive r p context closure
        (held.filter (r.widen p closure).accepts) = .ok found ∧
      ∀ row, row ∈ found ↔ r.Answers held reflexive p closure row := by
  obtain ⟨found, answer, exactly⟩ := entailWithin_exact r (answers.follows r.predicate) reflexive p
    closure (held.filter (r.widen p closure).accepts)
  refine ⟨found, answer, fun row => (exactly row).trans (or_congr_left ?_)⟩
  constructor
  · intro given
    obtain ⟨base, member, entails⟩ := given
    obtain ⟨inside, accepted⟩ := SortedSet.mem_filter.mp member
    exact ⟨base, inside, accepted, entails⟩
  · intro given
    obtain ⟨base, inside, accepted, entails⟩ := given
    exact ⟨base, SortedSet.mem_filter.mpr ⟨inside, accepted⟩, entails⟩

variable {p : Pattern} (plain : p.hasInterval = false)

include plain

theorem selectWidened_exact (reflexive : Bool) (starts : List Term) :
    ∃ closure : SortedSet Term,
      (∀ t, t ∈ closure ↔ ∃ start ∈ starts, Reaches held r.predicate r.direction start t) ∧
      ∃ found, next.selectWidened reflexive r p context starts = .ok found ∧
        ∀ row, row ∈ found ↔ r.Answers held reflexive p closure row := by
  obtain ⟨closure, walked, reached⟩ :=
    closureAll_exact (answers.follows r.predicate) r.direction starts
  obtain ⟨found, entailed, exactly⟩ := entailWithin_widened r answers reflexive p closure
  have asked := answers .listed (r.widen p closure) (Pattern.hasInterval_put plain _ rfl) (by simp)
  exact ⟨closure, reached, found, (selectWidened_of_walked walked asked).trans entailed, exactly⟩

/-- A query for each member finds what one query for all of them would. -/
theorem unite_members (closure : SortedSet Term) :
    Answer.unite (closure.toList.map fun t => next.choices (p.put r.position (.exact t)) context) =
      .ok (held.filter (r.widen p closure).accepts) := by
  have each : (closure.toList.map fun t => next.choices (p.put r.position (.exact t)) context) =
      closure.toList.map fun t => .ok (held.filter (p.put r.position (.exact t)).accepts) :=
    List.map_congr_left fun t _ => answers .listed _ (Pattern.hasInterval_put plain _ rfl) (by simp)
  rw [each, Answer.unite_map_ok]
  refine congrArg Except.ok (SortedSet.ext fun row => ?_)
  rw [SortedSet.mem_unions, SortedSet.mem_filter, ClosureRequest.widen, Pattern.accepts_put,
    Bool.and_eq_true, Slot.accepts_oneOf]
  constructor
  · intro given
    obtain ⟨_, listed, inside⟩ := given
    obtain ⟨t, member, rfl⟩ := List.mem_map.mp listed
    obtain ⟨stated, accepted⟩ := SortedSet.mem_filter.mp inside
    rw [Pattern.accepts_put, Bool.and_eq_true] at accepted
    have same : t = row.get r.position := of_decide_eq_true accepted.2
    exact ⟨stated, accepted.1, same ▸ member⟩
  · intro given
    obtain ⟨stated, accepted, member⟩ := given
    refine ⟨_, List.mem_map.mpr ⟨_, member, rfl⟩, SortedSet.mem_filter.mpr ⟨stated, ?_⟩⟩
    rw [Pattern.accepts_put, accepted]
    exact decide_eq_true rfl

theorem selectEach_exact (reflexive : Bool) (start : Term) :
    ∃ closure : SortedSet Term,
      (∀ t, t ∈ closure ↔ Reaches held r.predicate r.direction start t) ∧
      ∃ found, next.selectEach reflexive r p context start = .ok found ∧
        ∀ row, row ∈ found ↔ r.Answers held reflexive p closure row := by
  obtain ⟨closure, walked, reached⟩ := answers.follows r.predicate r.direction start
  obtain ⟨found, entailed, exactly⟩ := entailWithin_widened r answers reflexive p closure
  have united := unite_members r answers plain closure
  exact ⟨closure, reached, found, (selectEach_of_walked walked united).trans entailed, exactly⟩

theorem selectUnlimited_exact :
    ∃ found, next.selectUnlimited r p context = .ok found ∧
      ∀ row, row ∈ found ↔
        ∃ base ∈ held, p.accepts base = true ∧ ∃ e, r.Entails held base e row := by
  have asked := answers .listed p plain (by simp)
  obtain ⟨entailed, answer, exactly⟩ :=
    entail_exact r (answers.follows r.predicate) none (held.filter p.accepts).toList
  refine ⟨.ofList entailed, selectUnlimited_of_asked asked answer, fun row => ?_⟩
  rw [SortedSet.mem_ofList, exactly]
  constructor
  · intro given
    obtain ⟨base, member, e, _, entails⟩ := given
    obtain ⟨inside, accepted⟩ := SortedSet.mem_filter.mp member
    exact ⟨base, inside, accepted, e, entails⟩
  · intro given
    obtain ⟨base, inside, accepted, e, entails⟩ := given
    refine ⟨base, SortedSet.mem_filter.mpr ⟨inside, accepted⟩, e, ?_, entails⟩
    intro _ same
    cases same

/-! ### The answer to a request -/

theorem selectRequested_list (reflexive : Bool) (limited : r.start ≠ []) {terms : List Term}
    (list : p.get r.position = .choices terms) :
    ∃ closure : SortedSet Term,
      (∀ t, t ∈ closure ↔ ∃ seed ∈ terms ++ r.start, Reaches held r.predicate r.direction seed t) ∧
      ∃ found, next.selectRequested reflexive r .listed p context = .ok found ∧
        ∀ row, row ∈ found ↔ r.Answers held reflexive p closure row := by
  obtain ⟨closure, reached, found, answer, exactly⟩ := selectWidened_exact r answers plain reflexive
    (SortedSet.ofList (terms ++ r.start)).toList
  refine ⟨closure, fun t => ?_, found, ?_, exactly⟩
  · rw [reached]
    simp only [SortedSet.mem_toList, SortedSet.mem_ofList]
  · unfold selectRequested
    rw [if_neg (by simpa using limited), list]
    exact answer

omit answers plain in
theorem selectRequested_no_list (reflexive : Bool) {mode : Mode} (limited : r.start ≠ [])
    (no_list : mode = .listed → ∀ terms, p.get r.position ≠ .choices terms) :
    next.selectRequested reflexive r mode p context = (do
      let start ← r.single p
      match mode with
      | .listed => next.selectEach reflexive r p context start
      | .plain => next.selectWidened reflexive r p context [start]) := by
  unfold selectRequested
  rw [if_neg (by simpa using limited)]
  cases mode with
  | plain => rfl
  | listed =>
    cases slot : p.get r.position with
    | choices terms => exact absurd slot (no_list rfl terms)
    | any | exact _ | within _ => rfl

theorem selectRequested_single (reflexive : Bool) {mode : Mode} {start : Term}
    (alone : r.start = [start])
    (no_list : mode = .listed → ∀ terms, p.get r.position ≠ .choices terms) :
    ∃ closure : SortedSet Term,
      (∀ t, t ∈ closure ↔ ∃ seed ∈ r.start, Reaches held r.predicate r.direction seed t) ∧
      ∃ found, next.selectRequested reflexive r mode p context = .ok found ∧
        ∀ row, row ∈ found ↔ r.Answers held reflexive p closure row := by
  have limited : r.start ≠ [] := by simp [alone]
  have single : r.single p = .ok start := by rw [ClosureRequest.single, alone]
  rw [selectRequested_no_list r reflexive limited no_list, single, alone]
  cases mode with
  | plain => exact selectWidened_exact r answers plain reflexive [start]
  | listed =>
    obtain ⟨closure, reached, answer⟩ := selectEach_exact r answers plain reflexive start
    exact ⟨closure, fun t => by simp [reached], answer⟩

omit answers plain in
theorem selectRequested_several (reflexive : Bool) {mode : Mode} (limited : r.start ≠ [])
    (several : r.start.length ≠ 1)
    (no_list : mode = .listed → ∀ terms, p.get r.position ≠ .choices terms) :
    next.selectRequested reflexive r mode p context =
      .error (.manyStarts r.start.length r.position p) := by
  have refused : r.single p = .error (.manyStarts r.start.length r.position p) := by
    unfold ClosureRequest.single
    split
    · rename_i start alone
      exact absurd (by rw [alone]; rfl) several
    · rfl
  rw [selectRequested_no_list r reflexive limited no_list, refused]
  rfl

end Source

/-! ### A chain of classes -/

namespace Sample

/-- Classes one below the other, and an instance of the lowest. -/
def hierarchy : Store.Memory :=
  (Store.Memory.empty false).extend
    (⟨instanceNamed 0, Vocabulary.type, classNamed 2⟩ :: chain 3) none

def typed : Pattern := ⟨.any, .exact Vocabulary.type, .exact (classNamed 0)⟩

def below (classes : List Term) : ClosureRequest := ⟨classes, Vocabulary.subClassOf, .up, .object⟩

theorem answers_hierarchy : hierarchy.source.AnswersIn none (hierarchy.statementsIn none) :=
  (Store.Memory.answers_source (.extend (.empty false) _ none)).answersIn none

end Sample

namespace Source

/-- Without a start every row stands for all that leads to its term. From seeds the answer is that
for their closure, whichever way it is asked for. Anything else is a fault of configuration. -/
theorem selectByClosure_exact {next : Source} {context : Option Term} {held : SortedSet Triple}
    (answers : next.AnswersIn context held) {p : Pattern} (plain : p.hasInterval = false)
    (r : ClosureRequest) (request? : Pattern → Option ClosureRequest)
    (requested : request? p = some r) (reflexive : Bool) (mode : Mode) :
    (r.start = [] → ∃ found, next.selectByClosure request? reflexive mode p context = .ok found ∧
      ∀ row, row ∈ found ↔
        ∃ base ∈ held, p.accepts base = true ∧ ∃ e, r.Entails held base e row) ∧
    (∀ seeds, r.start ≠ [] → r.seeds? mode p = some seeds → ∃ closure : SortedSet Term,
      (∀ t, t ∈ closure ↔ ∃ seed ∈ seeds, Reaches held r.predicate r.direction seed t) ∧
      ∃ found, next.selectByClosure request? reflexive mode p context = .ok found ∧
        ∀ row, row ∈ found ↔ r.Answers held reflexive p closure row) ∧
    (r.start ≠ [] → r.seeds? mode p = none → ∃ fault,
      next.selectByClosure request? reflexive mode p context = .error fault ∧
        fault.category = .configuration) := by
  have unfolded : next.selectByClosure request? reflexive mode p context =
      next.selectRequested reflexive r mode p context := by
    rw [selectByClosure, requested]
  rw [unfolded]
  refine ⟨?_, ?_, ?_⟩
  · intro unlimited
    unfold selectRequested
    rw [if_pos (List.isEmpty_iff.mpr unlimited)]
    exact selectUnlimited_exact r answers plain
  · intro seeds limited setsOut
    rcases ClosureRequest.seeds_of_some setsOut with
      ⟨rfl, terms, list, rfl⟩ | ⟨start, alone, rfl, no_list⟩
    · exact selectRequested_list r answers plain reflexive limited list
    · exact selectRequested_single r answers plain reflexive alone no_list
  · intro limited several
    obtain ⟨count, no_list⟩ := ClosureRequest.seeds_of_none several
    exact ⟨_, selectRequested_several r reflexive limited count no_list, rfl⟩

theorem selectByClosure_hierarchy :
    (∃ found, Sample.hierarchy.source.selectByClosure (fun _ => some (Sample.below [])) true .plain
        Sample.typed none = .ok found ∧
      ∀ row, row ∈ found ↔ ∃ base ∈ Sample.hierarchy.statementsIn none,
        Sample.typed.accepts base = true ∧
          ∃ e, (Sample.below []).Entails (Sample.hierarchy.statementsIn none) base e row) ∧
    (∃ closure : SortedSet Term,
      (∀ t, t ∈ closure ↔ ∃ seed ∈ [Sample.classNamed 0],
        Reaches (Sample.hierarchy.statementsIn none) Vocabulary.subClassOf .up seed t) ∧
      ∃ found, Sample.hierarchy.source.selectByClosure
          (fun _ => some (Sample.below [Sample.classNamed 0])) true .listed Sample.typed none =
            .ok found ∧
        ∀ row, row ∈ found ↔ (Sample.below [Sample.classNamed 0]).Answers
          (Sample.hierarchy.statementsIn none) true Sample.typed closure row) ∧
    ∃ fault, Sample.hierarchy.source.selectByClosure
        (fun _ => some (Sample.below [Sample.classNamed 0, Sample.classNamed 1])) true .plain
          Sample.typed none = .error fault ∧ fault.category = .configuration :=
  ⟨(selectByClosure_exact Sample.answers_hierarchy rfl (Sample.below []) _ rfl true .plain).1 rfl,
    (selectByClosure_exact Sample.answers_hierarchy rfl (Sample.below [Sample.classNamed 0]) _ rfl
      true .listed).2.1 _ (List.cons_ne_nil _ _) rfl,
    (selectByClosure_exact Sample.answers_hierarchy rfl
      (Sample.below [Sample.classNamed 0, Sample.classNamed 1]) _ rfl true .plain).2.2
        (List.cons_ne_nil _ _) rfl⟩

end Source

end TripleQuery
