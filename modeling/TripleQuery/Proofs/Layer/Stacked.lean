import TripleQuery.Config.Query
import TripleQuery.Proofs.Layer.Closure

/-!
Stacks of closure rules. As long as the rules stay out of each other's way, a stack answers like
the first rule that applies, as if that rule stood alone above the statements held: what the rules
below add to its answer is what it would state by itself.
-/

namespace TripleQuery

variable {held : SortedSet Triple} {p : Pattern} {context : Option Term}

/-! ### One closure in another -/

theorem Position.ne_of_opposite {i j : Position} (opposite : i.opposite = some j) :
    j ≠ i ∧ .predicate ≠ i := by
  cases i <;> cases opposite <;> exact ⟨Position.noConfusion, Position.noConfusion⟩

namespace ClosureRequest

variable {r : ClosureRequest} {closure : SortedSet Term} {reflexive : Bool} {row : Triple}

/-- The closure of the terms that a pattern names in the request's place. -/
def Closes (r : ClosureRequest) (held : SortedSet Triple) (p : Pattern) (closure : SortedSet Term) :
    Prop :=
  ∀ t, t ∈ closure ↔ ∃ seed, (p.get r.position).mentions seed = true ∧
    Reaches held r.predicate r.direction seed t

theorem Closes.unique {other : SortedSet Term} (closes : r.Closes held p closure)
    (also : r.Closes held p other) : closure = other :=
  SortedSet.ext fun t => (closes t).trans (also t).symm

theorem Closes.closed (closes : r.Closes held p closure) {x y : Term} (inside : x ∈ closure)
    (leads : Reaches held r.predicate r.direction x y) : y ∈ closure := by
  obtain ⟨seed, named, reached⟩ := (closes x).mp inside
  exact (closes y).mpr ⟨seed, named, reached.trans leads⟩

theorem Closes.mem_of_mentions (closes : r.Closes held p closure) {t : Term}
    (named : (p.get r.position).mentions t = true) : t ∈ closure :=
  (closes t).mpr ⟨t, named, .refl⟩

/-- A request that starts at what the pattern names starts nowhere only for an empty list. -/
theorem empty_of_start (starts : p.get r.position = .choices r.start ∨
    ∃ start, r.start = [start] ∧ (p.get r.position).mentions start = true)
    (unlimited : r.start = []) : p.get r.position = .choices [] := by
  rcases starts with list | ⟨start, alone, _⟩
  · rw [list, unlimited]
  · rw [unlimited] at alone
    cases alone

/-- A closure of terms that lie in another closure lies in it. -/
theorem Closes.subset (closes : r.Closes held p closure) {slot : Slot}
    (inside : ∀ x, slot.accepts x = true → x ∈ closure) {start : List Term}
    {narrow : SortedSet Term}
    (narrowed : ({ r with start := start } : ClosureRequest).Closes held (p.put r.position slot)
      narrow) {t : Term} (member : t ∈ narrow) : t ∈ closure := by
  obtain ⟨seed, named, leads⟩ := (narrowed t).mp member
  refine closes.closed (inside seed ?_) leads
  change ((p.put r.position slot).get r.position).mentions seed = true at named
  rw [Pattern.get_put_self] at named
  exact Slot.accepts_of_mentions named

/-- Where the closure's terms stand: along a direction at the end that it sets out from, or at the
predicate. -/
def Aligned (r : ClosureRequest) : Prop :=
  r.position = .predicate ∨ r.position = r.direction.source

/-- A statement held that fits elsewhere and has a term of the closure is among the answers. -/
theorem Answers.stated (slot : Slot) (member : row ∈ held)
    (accepted : (p.put r.position slot).accepts row = true)
    (inside : row.get r.position ∈ closure) : r.Answers held reflexive p closure row := by
  refine .inl ⟨row, member, ?_, row.get r.position, inside, .refl, (row.put_get _).symm⟩
  rw [Pattern.accepts_put, Bool.and_eq_true] at accepted
  rw [widen, Pattern.accepts_put, accepted.1]
  exact Slot.accepts_oneOf.mpr inside

/-- Stating a reflexive row again for a term that leads to it in some steps amounts to stating the
last step. -/
theorem Reflexive.entails (aligned : r.Aligned) (closes : r.Closes held p closure)
    (own : r.Reflexive p closure row) {e : Term} (inside : e ∈ closure) {again : Triple}
    (entails : r.Entails held row e again) :
    again = row ∨ r.Answers held reflexive p closure again := by
  obtain ⟨about, other, opposite, x, _, fits, rfl⟩ := own
  obtain ⟨leads, rfl⟩ := entails
  obtain ⟨starts, q, d, i⟩ := r
  obtain rfl : i = d.source := aligned.resolve_left fun same => by
    cases same
    cases opposite
  have here : (⟨x, q, x⟩ : Triple).get d.source = x := by cases d <;> rfl
  change Reaches held q d e ((⟨x, q, x⟩ : Triple).get d.source) at leads
  rw [here] at leads
  rcases (Relation.ReflTransGen.cases_tail_iff _ _ _).mp leads with
    rfl | ⟨y, before, base, member, along, source, target⟩
  · refine .inl ?_
    cases d <;> rfl
  · have known : y ∈ closure := closes.closed inside before
    have predicate : p.predicate.accepts base.predicate = true := by
      rw [about, along]
      exact decide_eq_true rfl
    refine .inr (.inl ⟨base, member, ?_, e, inside, ?_, ?_⟩)
    · have widened := Slot.accepts_oneOf.mpr known
      refine Pattern.accepts_iff.mpr fun j => ?_
      cases d with
      | down =>
        cases opposite
        cases j with
        | subject => exact source ▸ widened
        | predicate => exact predicate
        | object => exact target ▸ fits
      | up =>
        cases opposite
        cases j with
        | subject => exact target ▸ fits
        | predicate => exact predicate
        | object => exact source ▸ widened
    · show Reaches held q d e (base.get d.source)
      rw [source]
      exact before
    · obtain ⟨a, b, c⟩ := base
      cases d <;> cases along <;> cases target <;> rfl

/-- Stating an answer again gives nothing that is not an answer. -/
theorem Answers.entails (aligned : r.Aligned) (closes : r.Closes held p closure)
    (answers : r.Answers held reflexive p closure row) {e : Term} (inside : e ∈ closure)
    {again : Triple} (entails : r.Entails held row e again) :
    r.Answers held reflexive p closure again := by
  rcases answers with ⟨base, member, accepted, f, _, further, rfl⟩ | ⟨flag, own⟩
  · obtain ⟨leads, rfl⟩ := entails
    rw [Triple.get_put_self] at leads
    exact .inl ⟨base, member, accepted, e, inside, leads.trans further, Triple.put_put ..⟩
  · rcases own.entails aligned closes inside entails with rfl | answer
    · exact .inr ⟨flag, own⟩
    · exact answer

/-- What the same request states for a pattern that is narrowed to terms of the closure. -/
theorem Answers.of_narrowed {slot : Slot} {start : List Term} {narrow : SortedSet Term}
    {flag : Bool} (subset : ∀ t ∈ narrow, t ∈ closure)
    (flags : r.Reflexive p closure row → flag = true → reflexive = true)
    (answers : ({ r with start := start } : ClosureRequest).Answers held flag
      (p.put r.position slot) narrow row) : r.Answers held reflexive p closure row := by
  rcases answers with ⟨base, member, accepted, e, inside, entails⟩ | ⟨stated, own⟩
  · refine .inl ⟨base, member, ?_, e, subset e inside, entails⟩
    have narrowed : ((p.put r.position slot).put r.position (.oneOf narrow)).accepts base = true :=
      accepted
    rw [Pattern.put_put, Pattern.accepts_put, Bool.and_eq_true] at narrowed
    rw [widen, Pattern.accepts_put, Bool.and_eq_true]
    refine ⟨narrowed.1, Slot.accepts_oneOf.mpr (subset _ ?_)⟩
    exact Slot.accepts_oneOf.mp narrowed.2
  · obtain ⟨about, other, opposite, x, inside, fits, rfl⟩ := own
    obtain ⟨other_ne, predicate_ne⟩ := Position.ne_of_opposite opposite
    have reflexive_row : r.Reflexive p closure ⟨x, r.predicate, x⟩ := by
      refine ⟨?_, other, opposite, x, subset x inside, ?_, rfl⟩
      · exact (Pattern.get_put_of_ne p predicate_ne slot).symm.trans about
      · rw [← Pattern.get_put_of_ne p other_ne slot]
        exact fits
    exact .inr ⟨flags reflexive_row stated, reflexive_row⟩

end ClosureRequest

/-! ### A closure layer over answers that go beyond what is held -/

namespace Source

variable {next : Source} {r : ClosureRequest} {closure : SortedSet Term} {reflexive : Bool}

/-- Rows that hold what is stated, and of which each is an answer itself, are entailed to the
answers. -/
theorem entailWithin_between (follows : next.Follows context held r.predicate)
    (aligned : r.Aligned) (closes : r.Closes held p closure) {rows : SortedSet Triple}
    (stated : ∀ row ∈ held, (r.widen p closure).accepts row = true → row ∈ rows)
    (answers : ∀ row ∈ rows, r.Answers held reflexive p closure row) :
    ∃ found, next.entailWithin reflexive r p context closure rows = .ok found ∧
      ∀ row, row ∈ found ↔ r.Answers held reflexive p closure row := by
  obtain ⟨found, answer, exactly⟩ := entailWithin_exact r follows reflexive p closure rows
  refine ⟨found, answer, fun row => (exactly row).trans ⟨?_, ?_⟩⟩
  · rintro (⟨base, member, e, inside, entails⟩ | own)
    · exact (answers base member).entails aligned closes inside entails
    · exact .inr own
  · rintro (⟨base, member, accepted, e, inside, entails⟩ | own)
    · exact .inl ⟨base, stated base member accepted, e, inside, entails⟩
    · exact .inr own

/-- Asked about some of a closure's terms, the source returns what is stated of them, and nothing
but answers for the closure. -/
def Narrows (next : Source) (context : Option Term) (held : SortedSet Triple) (r : ClosureRequest)
    (reflexive : Bool) (p : Pattern) : Prop :=
  ∀ closure, r.Closes held p closure → ∀ slot : Slot, slot.isInterval = false →
    (∀ x, slot.accepts x = true → x ∈ closure) →
    ∃ rows, next.choices (p.put r.position slot) context = .ok rows ∧
      (∀ row ∈ held, (p.put r.position slot).accepts row = true → row ∈ rows) ∧
      ∀ row ∈ rows, r.Answers held reflexive p closure row

section Narrowing

variable (follows : next.Follows context held r.predicate) (aligned : r.Aligned)
  (narrows : next.Narrows context held r reflexive p)

include follows aligned narrows

theorem selectWidened_narrows {starts : List Term}
    (named : ∀ t, t ∈ starts ↔ (p.get r.position).mentions t = true) :
    ∃ rows, next.selectWidened reflexive r p context starts = .ok rows ∧
      ∃ closure, r.Closes held p closure ∧
        ∀ row, row ∈ rows ↔ r.Answers held reflexive p closure row := by
  obtain ⟨closure, walked, reached⟩ := closureAll_exact follows r.direction starts
  have closes : r.Closes held p closure := fun t => by simp only [reached, named]
  obtain ⟨rows, asked, stated, answers⟩ :=
    narrows closure closes (.oneOf closure) rfl fun x => Slot.accepts_oneOf.mp
  obtain ⟨found, entailed, exactly⟩ := entailWithin_between follows aligned closes stated answers
  exact ⟨found, (selectWidened_of_walked walked asked).trans entailed, closure, closes, exactly⟩

theorem selectEach_narrows {start : Term}
    (named : ∀ t, t = start ↔ (p.get r.position).mentions t = true) :
    ∃ rows, next.selectEach reflexive r p context start = .ok rows ∧
      ∃ closure, r.Closes held p closure ∧
        ∀ row, row ∈ rows ↔ r.Answers held reflexive p closure row := by
  obtain ⟨closure, walked, reached⟩ := follows r.direction start
  have closes : r.Closes held p closure := fun t => by simp [reached, ← named]
  have each : ∀ t ∈ closure, ∃ rows,
      next.choices (p.put r.position (.exact t)) context = .ok rows ∧
        (∀ row ∈ held, (p.put r.position (.exact t)).accepts row = true → row ∈ rows) ∧
        ∀ row ∈ rows, r.Answers held reflexive p closure row :=
    fun t inside => narrows closure closes (.exact t) rfl fun x accepted =>
      of_decide_eq_true accepted ▸ inside
  obtain ⟨rows, united⟩ : ∃ rows, Answer.unite (closure.toList.map fun t =>
      next.choices (p.put r.position (.exact t)) context) = .ok rows := by
    refine Answer.unite_eq_ok_iff.mpr fun answer listed => ?_
    obtain ⟨t, inside, rfl⟩ := List.mem_map.mp listed
    obtain ⟨part, asked, _⟩ := each t inside
    exact ⟨part, asked⟩
  have stated : ∀ row ∈ held, (r.widen p closure).accepts row = true → row ∈ rows := by
    intro row member accepted
    rw [ClosureRequest.widen, Pattern.accepts_put, Bool.and_eq_true] at accepted
    have inside := Slot.accepts_oneOf.mp accepted.2
    obtain ⟨part, asked, stated, _⟩ := each _ inside
    refine (Answer.mem_unite united row).mpr ⟨part, List.mem_map.mpr ⟨_, inside, asked⟩, ?_⟩
    refine stated row member ?_
    rw [Pattern.accepts_put, accepted.1]
    exact decide_eq_true rfl
  have answers : ∀ row ∈ rows, r.Answers held reflexive p closure row := by
    intro row member
    obtain ⟨part, listed, present⟩ := (Answer.mem_unite united row).mp member
    obtain ⟨t, inside, answer⟩ := List.mem_map.mp listed
    obtain ⟨_, asked, _, answers⟩ := each t inside
    cases asked.symm.trans answer
    exact answers row present
  obtain ⟨found, entailed, exactly⟩ := entailWithin_between follows aligned closes stated answers
  exact ⟨found, (selectEach_of_walked walked united).trans entailed, closure, closes, exactly⟩

omit aligned in
/-- A request that starts at no term stands in the place of an empty list, which nothing fits. -/
theorem selectUnlimited_narrows (empty : p.get r.position = .choices []) :
    ∃ rows, next.selectUnlimited r p context = .ok rows ∧
      ∃ closure, r.Closes held p closure ∧
        ∀ row, row ∈ rows ↔ r.Answers held reflexive p closure row := by
  have closes : r.Closes held p ∅ := fun t => by simp [empty, Slot.mentions]
  have none_answers : ∀ row, ¬ r.Answers held reflexive p ∅ row := by
    rintro row (⟨_, _, _, e, inside, _⟩ | ⟨_, _, _, _, x, inside, _⟩)
    · exact SortedSet.not_mem_empty e inside
    · exact SortedSet.not_mem_empty x inside
  obtain ⟨rows, asked, _, answers⟩ := narrows ∅ closes (.choices []) rfl fun x accepted => by
    cases accepted
  rw [← empty, Pattern.put_get] at asked
  obtain ⟨entailed, answer, exactly⟩ := entail_exact r follows none rows.toList
  refine ⟨.ofList entailed, selectUnlimited_of_asked asked answer, ∅, closes, fun row => ?_⟩
  rw [SortedSet.mem_ofList, exactly]
  refine ⟨fun found => ?_, fun answer => absurd answer (none_answers row)⟩
  obtain ⟨base, member, _⟩ := found
  exact absurd (answers base member) (none_answers base)

theorem selectRequested_narrows_term {mode : Mode} {term : Term}
    (slot : p.get r.position = .exact term) (alone : r.start = [term]) :
    ∃ rows, next.selectRequested reflexive r mode p context = .ok rows ∧
      ∃ closure, r.Closes held p closure ∧
        ∀ row, row ∈ rows ↔ r.Answers held reflexive p closure row := by
  have named : ∀ t, t = term ↔ (p.get r.position).mentions t = true := by
    intro t
    rw [slot, Slot.mentions_exact, eq_comm]
  have limited : r.start ≠ [] := by simp [alone]
  have single : r.single p = .ok term := by rw [ClosureRequest.single, alone]
  rw [selectRequested_no_list r reflexive limited (fun _ terms list => by simp [slot] at list),
    single]
  cases mode with
  | plain => exact selectWidened_narrows follows aligned narrows fun t => by simp [named]
  | listed => exact selectEach_narrows follows aligned narrows named

theorem selectRequested_narrows_list {terms : List Term} (limited : r.start ≠ [])
    (slot : p.get r.position = .choices terms) (inside : ∀ t ∈ r.start, t ∈ terms) :
    ∃ rows, next.selectRequested reflexive r .listed p context = .ok rows ∧
      ∃ closure, r.Closes held p closure ∧
        ∀ row, row ∈ rows ↔ r.Answers held reflexive p closure row := by
  unfold selectRequested
  rw [if_neg (by simpa using limited), slot]
  refine selectWidened_narrows follows aligned narrows fun t => ?_
  rw [slot, SortedSet.mem_toList, SortedSet.mem_ofList, List.mem_append,
    or_iff_left_of_imp (inside t), Slot.mentions_choices]

/-- However a request is made that starts at what the pattern names, the answer is that for the
closure of the terms named. -/
theorem selectRequested_narrows {mode : Mode} (plain : mode = .plain → p.hasChoices = false)
    (starts : p.get r.position = .choices r.start ∨
      ∃ start, r.start = [start] ∧ (p.get r.position).mentions start = true) :
    ∃ rows, next.selectRequested reflexive r mode p context = .ok rows ∧
      ∃ closure, r.Closes held p closure ∧
        ∀ row, row ∈ rows ↔ r.Answers held reflexive p closure row := by
  have in_list : ∀ {terms}, p.get r.position = .choices terms → mode = .listed := by
    intro terms list
    cases mode with
    | plain => exact absurd list (Pattern.get_ne_choices (plain rfl) terms)
    | listed => rfl
  by_cases unlimited : r.start = []
  · unfold selectRequested
    rw [if_pos (List.isEmpty_iff.mpr unlimited)]
    exact selectUnlimited_narrows follows narrows (ClosureRequest.empty_of_start starts unlimited)
  · rcases starts with list | ⟨start, alone, mentioned⟩
    · obtain rfl := in_list list
      exact selectRequested_narrows_list follows aligned narrows unlimited list fun _ => id
    · cases slot : p.get r.position with
      | any | within _ =>
        rw [slot] at mentioned
        cases mentioned
      | exact term =>
        rw [slot] at mentioned
        obtain rfl : term = start := of_decide_eq_true mentioned
        exact selectRequested_narrows_term follows aligned narrows slot alone
      | choices terms =>
        obtain rfl := in_list slot
        rw [slot] at mentioned
        refine selectRequested_narrows_list follows aligned narrows unlimited slot ?_
        intro t member
        rw [alone] at member
        exact List.mem_singleton.mp member ▸ of_decide_eq_true mentioned

end Narrowing

end Source

/-! ### Stacks -/

/-- Rules that stay out of each other's way. No rule for sub-properties is about the relation that
the closures of a rule above it follow, and none comes upon a relation that a rule for classes
restates. No rule for sub-classes is reflexive below one that is not. -/
structure Orderly (held : SortedSet Triple) (settings : List ClosureSetting) : Prop where
  no_hierarchy : settings.Pairwise fun upper lower =>
    lower.rule ≠ .subPropertiesOf upper.rule.hierarchy
  no_relation : ∀ s ∈ settings, ∀ property, s.rule = .subPropertiesOf property →
    ∀ other ∈ settings, ∀ relation ∈ other.rule.relation?,
      ¬ Reaches held Vocabulary.subPropertyOf .up property relation
  reflexive : settings.Pairwise fun upper lower =>
    Vocabulary.subClassOf ∈ upper.rule.relation? → Vocabulary.subClassOf ∈ lower.rule.relation? →
      lower.reflexive = true → upper.reflexive = true

theorem Orderly.tail {s : ClosureSetting} {rest : List ClosureSetting}
    (orderly : Orderly held (s :: rest)) : Orderly held rest where
  no_hierarchy := (List.pairwise_cons.mp orderly.no_hierarchy).2
  no_relation other member property same lower below :=
    orderly.no_relation other (List.mem_cons_of_mem _ member) property same lower
      (List.mem_cons_of_mem _ below)
  reflexive := (List.pairwise_cons.mp orderly.reflexive).2

/-- The request of the first rule that applies, and whether its closure is reflexive. -/
def firstRequest? (settings : List ClosureSetting) (p : Pattern) : Option (Bool × ClosureRequest) :=
  settings.findSome? fun s => (s.rule.request? p).map fun r => (s.reflexive, r)

theorem exists_of_firstRequest {settings : List ClosureSetting} {reflexive : Bool}
    {r : ClosureRequest} (first : firstRequest? settings p = some (reflexive, r)) :
    ∃ s ∈ settings, s.rule.request? p = some r ∧ s.reflexive = reflexive := by
  obtain ⟨s, member, found⟩ := List.exists_of_findSome?_eq_some first
  obtain ⟨_, requested, same⟩ := Option.map_eq_some_iff.mp found
  cases same
  exact ⟨s, member, requested, rfl⟩

/-- The rows that some rules give a pattern: those of the first rule that applies, else the
statements held. -/
def Denotes (held : SortedSet Triple) (settings : List ClosureSetting) (p : Pattern)
    (rows : SortedSet Triple) : Prop :=
  match firstRequest? settings p with
  | none => rows = held.filter p.accepts
  | some (reflexive, r) => ∃ closure, r.Closes held p closure ∧
      ∀ row, row ∈ rows ↔ r.Answers held reflexive p closure row

theorem Denotes.cases {settings : List ClosureSetting} {rows : SortedSet Triple}
    (denotes : Denotes held settings p rows) : rows = held.filter p.accepts ∨
      ∃ s ∈ settings, ∃ r, s.rule.request? p = some r ∧ ∃ closure, r.Closes held p closure ∧
        ∀ row, row ∈ rows ↔ r.Answers held s.reflexive p closure row := by
  unfold Denotes at denotes
  split at denotes
  · exact .inl denotes
  · rename_i first
    obtain ⟨s, member, requested, rfl⟩ := exists_of_firstRequest first
    exact .inr ⟨s, member, _, requested, denotes⟩

theorem Denotes.unique {settings : List ClosureSetting} {rows others : SortedSet Triple}
    (denotes : Denotes held settings p rows) (also : Denotes held settings p others) :
    rows = others := by
  unfold Denotes at denotes also
  split at denotes
  · rename_i first
    rw [first] at also
    exact denotes.trans also.symm
  · rename_i first
    rw [first] at also
    obtain ⟨closure, closes, exactly⟩ := denotes
    obtain ⟨other, closes', exactly'⟩ := also
    obtain rfl := closes.unique closes'
    exact SortedSet.ext fun row => (exactly row).trans (exactly' row).symm

theorem Denotes.stated {settings : List ClosureSetting} {rows : SortedSet Triple}
    (denotes : Denotes held settings p rows) {row : Triple} (member : row ∈ held)
    (accepted : p.accepts row = true) : row ∈ rows := by
  rcases denotes.cases with rfl | ⟨s, _, r, requested, closure, closes, exactly⟩
  · exact SortedSet.mem_filter.mpr ⟨member, accepted⟩
  · have named := Slot.mentions_of_accepts (ClosureRule.named_of_request requested)
      (Pattern.accepts_iff.mp accepted r.position)
    refine (exactly row).mpr (.stated (p.get r.position) member ?_
      (closes.mem_of_mentions named))
    rw [Pattern.put_get]
    exact accepted

/-- Where a rule applies, a statement held is stated again for every term named that leads to its
own. -/
theorem Denotes.restated {settings : List ClosureSetting} {rows : SortedSet Triple}
    (denotes : Denotes held settings p rows) {reflexive : Bool} {r : ClosureRequest}
    (first : firstRequest? settings p = some (reflexive, r)) (base : Triple)
    (member : base ∈ held) (fits : (p.put r.position .any).accepts base = true) {seed : Term}
    (named : (p.get r.position).mentions seed = true)
    (leads : Reaches held r.predicate r.direction seed (base.get r.position)) :
    base.put r.position seed ∈ rows := by
  unfold Denotes at denotes
  rw [first] at denotes
  obtain ⟨closure, closes, exactly⟩ := denotes
  have inside := closes.mem_of_mentions named
  refine (exactly _).mpr (.inl ⟨base, member, ?_, seed, inside, leads, rfl⟩)
  rw [ClosureRequest.widen, Pattern.accepts_put, fits]
  exact Slot.accepts_oneOf.mpr (closes.closed inside leads)

/-- Every query is answered with what the rules denote. Intervals are taken where the store below
evaluates them, lists in listed mode. -/
def Source.AnswersBy (s : Source) (evaluates : Bool) (context : Option Term)
    (held : SortedSet Triple) (settings : List ClosureSetting) : Prop :=
  ∀ mode p, (p.hasInterval = true → evaluates = true) →
    (mode = .plain → p.hasChoices = false) →
      ∃ rows, s.select mode p context = .ok rows ∧ Denotes held settings p rows

/-- A relation that closures follow. -/
def IsHierarchy (predicate : Term) : Prop :=
  predicate = Vocabulary.subClassOf ∨ predicate = Vocabulary.subPropertyOf

instance (predicate : Term) : Decidable (IsHierarchy predicate) :=
  inferInstanceAs (Decidable (_ ∨ _))

theorem ClosureRule.isHierarchy (rule : ClosureRule) : IsHierarchy rule.hierarchy := by
  cases rule with
  | types | typesOf _ | subClassesOf _ => exact .inl rfl
  | subPropertiesOf _ => exact .inr rfl

section Rest

variable {next : Source} {evaluates : Bool} {settings : List ClosureSetting} {predicate : Term}
  (hierarchy : IsHierarchy predicate)
  (spared : ∀ s ∈ settings, s.rule ≠ .subPropertiesOf predicate)

include hierarchy spared

/-- Among the queries of a closure, only those for sub-classes call for another closure. -/
theorem request_stepPattern {s : ClosureSetting} (member : s ∈ settings) {d : Direction}
    {terms : SortedSet Term} {r : ClosureRequest}
    (requested : s.rule.request? (Source.stepPattern predicate d terms) = some r) :
    d = .up ∧ predicate = Vocabulary.subClassOf ∧ ∃ start, r = ClosureRule.classRequest start := by
  have about : (Source.stepPattern predicate d terms).predicate = .exact predicate := by
    cases d <;> rfl
  rcases ClosureRule.request_cases requested with
    ⟨relation, own, mentioned, start, rfl⟩ | ⟨property, same, exactly, _⟩
  · rw [about] at mentioned
    obtain rfl : predicate = relation := of_decide_eq_true mentioned
    have named := ClosureRule.named_of_request requested
    refine ⟨?_, hierarchy.resolve_right ?_, start, rfl⟩
    · cases d with
      | down => exact absurd rfl named
      | up => rfl
    · rintro rfl
      exact not_isClassRelation_subPropertyOf (ClosureRule.isClassRelation own)
  · rw [about] at exactly
    obtain rfl := Slot.exact.inj exactly
    exact absurd same (spared s member)

theorem reaches_of_denotes {d : Direction} {terms : SortedSet Term} {rows : SortedSet Triple}
    (denotes : Denotes held settings (Source.stepPattern predicate d terms) rows) {row : Triple}
    (member : row ∈ rows) : ∃ x ∈ terms, Reaches held predicate d x (row.get d.target) := by
  rcases denotes.cases with rfl | ⟨s, listed, r, requested, closure, closes, exactly⟩
  · obtain ⟨stated, accepted⟩ := SortedSet.mem_filter.mp member
    obtain ⟨along, source⟩ := Source.accepts_stepPattern.mp accepted
    exact ⟨_, source, .single ⟨row, stated, along, rfl, rfl⟩⟩
  · obtain ⟨rfl, rfl, start, rfl⟩ := request_stepPattern hierarchy spared listed requested
    have reached : ∀ x ∈ closure,
        ∃ seed ∈ terms, Reaches held Vocabulary.subClassOf .up seed x := by
      intro x inside
      obtain ⟨seed, named, leads⟩ := (closes x).mp inside
      exact ⟨seed, Slot.mentions_oneOf.mp named, leads⟩
    rcases (exactly row).mp member with
      ⟨base, stated, accepted, e, _, _, rfl⟩ | ⟨_, _, _, _, x, inside, _, rfl⟩
    · obtain ⟨along, source⟩ := Source.accepts_stepPattern.mp
        (show (Source.stepPattern _ .up closure).accepts base = true from accepted)
      obtain ⟨x, start, leads⟩ := reached _ source
      exact ⟨x, start, leads.tail ⟨base, stated, along, rfl, rfl⟩⟩
    · exact reached x inside

section Steps

variable (answers : next.AnswersBy evaluates context held settings)

include answers

omit hierarchy spared in
theorem choices_stepPattern (predicate : Term) (d : Direction) (terms : SortedSet Term) : ∃ rows,
    next.choices (Source.stepPattern predicate d terms) context = .ok rows ∧
      Denotes held settings (Source.stepPattern predicate d terms) rows :=
  answers .listed _ (fun interval => by cases d <;> cases interval) fun same => by cases same

theorem stepsWithin_of_answersBy (d : Direction) :
    next.StepsWithin context predicate d (Reaches held predicate d) := by
  intro terms others answer t member
  obtain ⟨rows, same, denotes⟩ := choices_stepPattern answers predicate d terms
  rw [Source.beyond, same] at answer
  cases answer
  obtain ⟨row, present, rfl⟩ := List.mem_map.mp (SortedSet.mem_ofList.mp member)
  exact reaches_of_denotes hierarchy spared denotes present

theorem follows_of_answersBy : next.Follows context held predicate := by
  refine Source.follows_of_between (fun d => Source.stepsHeld_of_stated fun terms => ?_) fun d =>
    stepsWithin_of_answersBy hierarchy spared answers d
  obtain ⟨rows, answer, denotes⟩ := choices_stepPattern answers predicate d terms
  exact ⟨rows, answer, fun row => denotes.stated⟩

end Steps

end Rest

theorem hierarchy_of_request {rule : ClosureRule} {r : ClosureRequest}
    (requested : rule.request? p = some r) : IsHierarchy r.predicate ∧ r.Aligned := by
  rcases ClosureRule.request_cases requested with ⟨_, _, _, _, rfl⟩ | ⟨_, _, _, rfl⟩
  · exact ⟨.inl rfl, .inr rfl⟩
  · exact ⟨.inr rfl, .inl rfl⟩

/-- No rule below restates the relation that the closures of the top rule follow. -/
theorem Orderly.spared {s : ClosureSetting} {rest : List ClosureSetting}
    (orderly : Orderly held (s :: rest)) :
    ∀ other ∈ rest, other.rule ≠ .subPropertiesOf s.rule.hierarchy :=
  (List.pairwise_cons.mp orderly.no_hierarchy).1

theorem Orderly.follows {next : Source} {evaluates : Bool} {s : ClosureSetting}
    {rest : List ClosureSetting} (orderly : Orderly held (s :: rest))
    (answers : next.AnswersBy evaluates context held rest) :
    next.Follows context held s.rule.hierarchy :=
  follows_of_answersBy s.rule.isHierarchy orderly.spared answers

section Step

variable {next : Source} {evaluates : Bool} {s : ClosureSetting} {rest : List ClosureSetting}
  {r : ClosureRequest} {closure : SortedSet Term}
  (orderly : Orderly held (s :: rest)) (requested : s.rule.request? p = some r)
  (closes : r.Closes held p closure)

include orderly requested closes

/-- A rule below that applies to the narrowed pattern makes the same request, but for its start,
and is not more reflexive. -/
theorem request_narrowed {slot : Slot} (inside : ∀ x, slot.accepts x = true → x ∈ closure)
    {other : ClosureSetting} (below : other ∈ rest) {narrow : ClosureRequest}
    (narrowed : other.rule.request? (p.put r.position slot) = some narrow) :
    (∃ start, narrow = { r with start := start }) ∧
      ∀ row, r.Reflexive p closure row → other.reflexive = true → s.reflexive = true := by
  rcases ClosureRule.request_cases requested with
    ⟨relation, own, mentioned, _, rfl⟩ | ⟨property, same, about, rfl⟩ <;>
    rcases ClosureRule.request_cases narrowed with
      ⟨relation', own', mentioned', start', rfl⟩ | ⟨property', same', about', rfl⟩
  · refine ⟨⟨start', rfl⟩, fun row reflexive_row => ?_⟩
    have about : p.predicate = .exact Vocabulary.subClassOf := reflexive_row.1
    change p.predicate.mentions relation' = true at mentioned'
    rw [about] at mentioned mentioned'
    obtain rfl : Vocabulary.subClassOf = relation := of_decide_eq_true mentioned
    obtain rfl : Vocabulary.subClassOf = relation' := of_decide_eq_true mentioned'
    exact (List.pairwise_cons.mp orderly.reflexive).1 other below own own'
  · change p.predicate = .exact property' at about'
    rw [about'] at mentioned
    obtain rfl : property' = relation := of_decide_eq_true mentioned
    exact absurd .refl (orderly.no_relation other (List.mem_cons_of_mem _ below) property' same' s
      List.mem_cons_self property' own)
  · obtain ⟨seed, named, leads⟩ :=
      (closes relation').mp (inside relation' (Slot.accepts_of_mentions mentioned'))
    change p.predicate.mentions seed = true at named
    rw [about] at named
    obtain rfl : property = seed := of_decide_eq_true named
    exact absurd leads (orderly.no_relation s List.mem_cons_self property same other
      (List.mem_cons_of_mem _ below) relation' own')
  · refine ⟨⟨_, rfl⟩, fun row reflexive_row => ?_⟩
    obtain ⟨_, _, ⟨⟩, _⟩ := reflexive_row

end Step

/-- Whatever rule applies to the pattern narrowed to terms of its closure makes the same request, but
for its start, and is not more reflexive. -/
def ClosureRequest.SharedBy (r : ClosureRequest) (held : SortedSet Triple)
    (settings : List ClosureSetting) (reflexive : Bool) (p : Pattern) : Prop :=
  ∀ closure, r.Closes held p closure → ∀ slot : Slot, (∀ x, slot.accepts x = true → x ∈ closure) →
    ∀ other ∈ settings, ∀ narrow, other.rule.request? (p.put r.position slot) = some narrow →
      (∃ start, narrow = { r with start := start }) ∧
        ∀ row, r.Reflexive p closure row → other.reflexive = true → reflexive = true

theorem Orderly.shared {s : ClosureSetting} {rest : List ClosureSetting} {r : ClosureRequest}
    (orderly : Orderly held (s :: rest)) (requested : s.rule.request? p = some r) :
    r.SharedBy held rest s.reflexive p :=
  fun _ closes _ inside _ below _ narrowed =>
    request_narrowed orderly requested closes inside below narrowed

section Sharing

variable {next : Source} {evaluates : Bool} {s : ClosureSetting} {rest : List ClosureSetting}
  {r : ClosureRequest} (answers : next.AnswersBy evaluates context held rest)

include answers

theorem narrows_of_shared {reflexive : Bool} (taken : p.hasInterval = true → evaluates = true)
    (shared : r.SharedBy held rest reflexive p) : next.Narrows context held r reflexive p := by
  intro closure closes slot plain inside
  have taken_narrowed : (p.put r.position slot).hasInterval = true → evaluates = true :=
    fun interval => taken (Pattern.hasInterval_of_put plain interval)
  obtain ⟨rows, asked, denotes⟩ :=
    answers .listed (p.put r.position slot) taken_narrowed fun same => by cases same
  refine ⟨rows, asked, fun row => denotes.stated, fun row member => ?_⟩
  rcases denotes.cases with rfl | ⟨other, below, r', narrowed, narrow, closes', exactly⟩
  · obtain ⟨stated, accepted⟩ := SortedSet.mem_filter.mp member
    refine .stated slot stated accepted (inside _ ?_)
    have fits := Pattern.accepts_iff.mp accepted r.position
    rwa [Pattern.get_put_self] at fits
  · obtain ⟨⟨start, rfl⟩, flags⟩ := shared closure closes slot inside other below r' narrowed
    exact .of_narrowed (fun t => closes.subset inside closes') (flags row)
      ((exactly row).mp member)

theorem narrows_of_answersBy (orderly : Orderly held (s :: rest))
    (taken : p.hasInterval = true → evaluates = true)
    (requested : s.rule.request? p = some r) : next.Narrows context held r s.reflexive p :=
  narrows_of_shared answers taken (orderly.shared requested)

/-- A layer on top of a stack answers by its rule where that applies, and like the stack below
where it does not. -/
theorem answersBy_cons
    (follows : next.Follows context held s.rule.hierarchy)
    (shared : ∀ p r, s.rule.request? p = some r → r.SharedBy held rest s.reflexive p) :
    (next.withClosure s.rule.matcher s.reflexive).AnswersBy evaluates context held (s :: rest) := by
  intro mode p taken plain
  unfold Denotes firstRequest?
  cases requested : s.rule.request? p with
  | none =>
    rw [Source.select_withClosure_of_none requested, List.findSome?_cons, requested]
    exact answers mode p taken plain
  | some r =>
    rw [Source.select_withClosure_of_some requested, List.findSome?_cons, requested]
    obtain ⟨_, aligned⟩ := hierarchy_of_request requested
    rw [← ClosureRule.predicate_of_request requested] at follows
    exact Source.selectRequested_narrows follows aligned
      (narrows_of_shared answers taken (shared p r requested)) plain
      (ClosureRule.start_of_request requested)

theorem answersBy_withClosure (orderly : Orderly held (s :: rest)) :
    (next.withClosure s.rule.matcher s.reflexive).AnswersBy evaluates context held (s :: rest) :=
  answersBy_cons answers (orderly.follows answers) fun _ _ => orderly.shared

end Sharing

/-- A rule alone above what is held is in no other's way. -/
theorem answersBy_alone {base : Source} {evaluates : Bool}
    (answers : base.AnswersBy evaluates context held []) (s : ClosureSetting) :
    (base.withClosure s.rule.matcher s.reflexive).AnswersBy evaluates context held [s] :=
  answersBy_cons answers
    (follows_of_answersBy s.rule.isHierarchy (List.forall_mem_nil _) answers)
    fun _ _ _ _ _ _ _ _ below => absurd below List.not_mem_nil

/-- A stack of orderly rules answers with what the first rule that applies denotes. -/
theorem answersBy_stack {base : Source} {evaluates : Bool} {settings : List ClosureSetting}
    (orderly : Orderly held settings) (answers : base.AnswersBy evaluates context held []) :
    (base.under (settings.map ClosureSetting.layer)).AnswersBy evaluates context held settings := by
  induction settings with
  | nil => exact answers
  | cons s rest ih => exact answersBy_withClosure (ih orderly.tail) orderly

namespace QueryConfig

/-- The closures stand below, then membership and intervals as far as they are wanted. -/
theorem build_eq (c : QueryConfig) (base : Source) : c.build base =
    ((base.under (c.closures.map ClosureSetting.layer)).under
      (if c.memberships then [.membership] else [])).under
        (if c.intervals then [.interval] else []) := by
  simp only [build, layers, Source.under, List.foldr_append]

theorem under_optional (property : Source → Prop) {next : Source} {layer : Layer} (flag : Bool)
    (below : property next) (kept : ∀ {next : Source}, property next → property (layer.view next)) :
    property (next.under (if flag then [layer] else [])) := by
  cases flag with
  | false => exact below
  | true => exact kept below

end QueryConfig

end TripleQuery
