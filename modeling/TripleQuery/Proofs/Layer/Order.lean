import TripleQuery.Proofs.Layer.Members

/-!
Layers in any order. Where no layer adds what another one reads, a stack answers with what its
rules and its memberships denote, whichever of them stands above the other. Patterns that do not
ask for members are answered as if there were no layer for them; those that do ask are seen by no
rule.
-/

namespace TripleQuery

variable {held : SortedSet Triple} {p : Pattern} {context : Option Term}

/-! ### Layers that entail statements -/

/-- A layer for container membership, or one for a rule. -/
inductive Entailer where
  | membership
  | closure (setting : ClosureSetting)
  deriving DecidableEq

namespace Entailer

def layer : Entailer → Layer
  | membership => .membership
  | closure s => s.layer

def setting? : Entailer → Option ClosureSetting
  | membership => none
  | closure s => some s

end Entailer

/-- The settings of the rules among some layers. -/
def settingsOf (entailers : List Entailer) : List ClosureSetting :=
  entailers.filterMap Entailer.setting?

theorem mem_settingsOf {entailers : List Entailer} {s : ClosureSetting} :
    s ∈ settingsOf entailers ↔ .closure s ∈ entailers := by
  refine List.mem_filterMap.trans ⟨?_, fun member => ⟨_, member, rfl⟩⟩
  rintro ⟨entailer, member, same⟩
  cases entailer with
  | membership => cases same
  | closure _ =>
    cases same
    exact member

def Source.entailing (base : Source) (entailers : List Entailer) : Source :=
  base.under (entailers.map Entailer.layer)

/-! ### The first rule that applies -/

/-- Every rule that applies makes the request of the first one, but for its start, and is not more
reflexive. -/
theorem request_of_first {settings : List ClosureSetting} (orderly : Orderly held settings)
    {reflexive : Bool} {r : ClosureRequest} (first : firstRequest? settings p = some (reflexive, r))
    {closure : SortedSet Term} (closes : r.Closes held p closure) {s : ClosureSetting}
    (member : s ∈ settings) {other : ClosureRequest} (requested : s.rule.request? p = some other) :
    (∃ start, other = { r with start := start }) ∧
      ∀ row, r.Reflexive p closure row → s.reflexive = true → reflexive = true := by
  induction settings with
  | nil => cases member
  | cons top rest ih =>
    unfold firstRequest? at first
    rw [List.findSome?_cons] at first
    cases applies : top.rule.request? p with
    | none =>
      rw [applies] at first
      refine ih orderly.tail first ((List.mem_cons.mp member).resolve_left ?_)
      rintro rfl
      cases applies.symm.trans requested
    | some r' =>
      rw [applies] at first
      cases first
      rcases List.mem_cons.mp member with rfl | below
      · cases applies.symm.trans requested
        exact ⟨⟨_, rfl⟩, fun _ _ => id⟩
      · have narrowed : s.rule.request? (p.put r.position (p.get r.position)) = some other := by
          rw [Pattern.put_get]
          exact requested
        exact request_narrowed orderly applies closes (fun x accepted => closes.mem_of_mentions
          (Slot.mentions_of_accepts (ClosureRule.named_of_request applies) accepted)) below narrowed

/-- What orderly rules denote does not depend on their order. -/
theorem Denotes.reordered {settings others : List ClosureSetting} (orderly : Orderly held settings)
    (orderly' : Orderly held others) (same : ∀ s, s ∈ settings ↔ s ∈ others)
    {rows : SortedSet Triple} (denotes : Denotes held settings p rows) :
    Denotes held others p rows := by
  unfold Denotes at denotes ⊢
  cases first : firstRequest? settings p with
  | none =>
    have none_applies : firstRequest? others p = none :=
      List.findSome?_eq_none_iff.mpr fun s member =>
        List.findSome?_eq_none_iff.mp first s ((same s).mpr member)
    rw [first] at denotes
    rw [none_applies]
    exact denotes
  | some request =>
    obtain ⟨reflexive, r⟩ := request
    rw [first] at denotes
    obtain ⟨closure, closes, exactly⟩ := denotes
    obtain ⟨s, member, requested, flag⟩ := exists_of_firstRequest first
    cases first' : firstRequest? others p with
    | none =>
      have silent := List.findSome?_eq_none_iff.mp first' s ((same s).mp member)
      rw [requested] at silent
      cases silent
    | some request' =>
      obtain ⟨reflexive', r'⟩ := request'
      obtain ⟨s', member', requested', flag'⟩ := exists_of_firstRequest first'
      obtain ⟨⟨start, rfl⟩, less⟩ :=
        request_of_first orderly first closes ((same s').mpr member') requested'
      have closes' : ({ r with start := start } : ClosureRequest).Closes held p closure := closes
      obtain ⟨_, more⟩ :=
        request_of_first orderly' first' closes' ((same s).mp member) requested
      refine ⟨closure, closes, fun row => (exactly row).trans (or_congr_right ?_)⟩
      exact and_congr_left fun own => ⟨fun yes => more row own (flag.trans yes),
        fun yes => less row own (flag'.trans yes)⟩

/-! ### Patterns that do not ask for members -/

/-- The pattern does not ask for members, and names `rdfs:subPropertyOf` alone if at all. -/
def Pattern.Quiet (p : Pattern) : Prop :=
  p.asksForMembers = false ∧ (p.predicate.mentions Vocabulary.subPropertyOf = true →
    p.predicate = .exact Vocabulary.subPropertyOf)

theorem Pattern.quiet_of_apart (apart : p.predicate.mentions Vocabulary.subPropertyOf = false) :
    p.Quiet := by
  refine ⟨by rw [asksForMembers, apart]; rfl, fun mentioned => ?_⟩
  rw [apart] at mentioned
  cases mentioned

/-- Without lists, what is named is named alone. -/
theorem Pattern.get_eq_exact (none : p.hasChoices = false) {i : Position} {t : Term}
    (mentioned : (p.get i).mentions t = true) : p.get i = .exact t := by
  cases slot : p.get i with
  | exact _ =>
    rw [slot] at mentioned
    exact congrArg _ (of_decide_eq_true mentioned)
  | choices terms => exact absurd slot (get_ne_choices none terms)
  | any | within _ =>
    rw [slot] at mentioned
    cases mentioned

/-- Rules that keep clear of memberships: no rule for sub-properties is about typing or comes upon
what memberships are stated with, and nothing is a membership property by its class alone. -/
structure ClearOfMembers (held : SortedSet Triple) (settings : List ClosureSetting) : Prop where
  property : ∀ s ∈ settings, ∀ q, s.rule = .subPropertiesOf q → q ≠ Vocabulary.type ∧
    ¬ Reaches held Vocabulary.subPropertyOf .up q Vocabulary.subPropertyOf ∧
    ¬ Reaches held Vocabulary.subPropertyOf .up q Vocabulary.member
  typed : ∀ s ∈ settings,
    s.rule = .types ∨ s.rule = .typesOf Vocabulary.containerMembershipProperty →
    ∀ x d, ⟨x, Vocabulary.type, d⟩ ∈ held →
      Reaches held Vocabulary.subClassOf .up Vocabulary.containerMembershipProperty d →
        ⟨x, Vocabulary.type, Vocabulary.containerMembershipProperty⟩ ∈ held

theorem ClearOfMembers.tail {s : ClosureSetting} {rest : List ClosureSetting}
    (clear : ClearOfMembers held (s :: rest)) : ClearOfMembers held rest where
  property other member := clear.property other (List.mem_cons_of_mem _ member)
  typed other member := clear.typed other (List.mem_cons_of_mem _ member)

theorem Pattern.hasInterval_of_typedMembers (interval : p.typedMembers.hasInterval = true) :
    p.hasInterval = true := by
  obtain ⟨i, here⟩ := hasInterval_iff.mp interval
  cases i with
  | subject => exact hasInterval_iff.mpr ⟨.subject, here⟩
  | predicate | object => cases here

/-- The rules that apply where the container membership properties are asked for. -/
theorem ClosureRule.request_typedMembers {rule : ClosureRule} {r : ClosureRequest}
    (requested : rule.request? p.typedMembers = some r) :
    ((rule = types ∨ rule = typesOf Vocabulary.containerMembershipProperty) ∧
      ∃ start, r = classRequest start) ∨ rule = subPropertiesOf Vocabulary.type := by
  rcases request_cases requested with ⟨relation, own, mentioned, start, same⟩ | ⟨_, rule, about, _⟩
  · refine .inl ⟨?_, start, same⟩
    obtain rfl : Vocabulary.type = relation := of_decide_eq_true mentioned
    cases rule with
    | types => exact .inl rfl
    | typesOf target =>
      obtain ⟨both, _⟩ := Option.ite_none_right_eq_some.mp requested
      exact .inr (congrArg typesOf (of_decide_eq_true (Bool.and_eq_true_iff.mp both).2).symm)
    | subClassesOf _ => exact absurd (Option.some.inj own) (by decide)
    | subPropertiesOf _ => cases own
  · exact .inr (rule.trans (congrArg subPropertiesOf (Slot.exact.inj about).symm))

/-- A rule for sub-properties is not about being a sub-property, and no other rule is. -/
theorem ClearOfMembers.silent {settings : List ClosureSetting} (clear : ClearOfMembers held settings)
    (about : p.predicate = .exact Vocabulary.subPropertyOf) {s : ClosureSetting}
    (listed : s ∈ settings) : s.rule.request? p = none := by
  refine Option.eq_none_iff_forall_ne_some.mpr fun r requested => ?_
  rcases ClosureRule.request_cases requested with
    ⟨relation, own, mentioned, _⟩ | ⟨property, same, exactly, _⟩
  · rw [about] at mentioned
    obtain rfl : Vocabulary.subPropertyOf = relation := of_decide_eq_true mentioned
    exact not_isClassRelation_subPropertyOf (ClosureRule.isClassRelation own)
  · rw [about] at exactly
    obtain ⟨_, no_relation, _⟩ := clear.property s listed property same
    exact no_relation (Slot.exact.inj exactly ▸ .refl)

/-- A rule that is clear of members finds nothing typed as a container membership property that is
not so typed itself. -/
theorem ClearOfMembers.typed_of_request {settings : List ClosureSetting}
    (clear : ClearOfMembers held settings) {s : ClosureSetting} (listed : s ∈ settings)
    {r : ClosureRequest} (requested : s.rule.request? p.typedMembers = some r)
    {closure : SortedSet Term} (closes : r.Closes held p.typedMembers closure) {row : Triple}
    (answers : r.Answers held s.reflexive p.typedMembers closure row) :
    ⟨row.subject, Vocabulary.type, Vocabulary.containerMembershipProperty⟩ ∈ held ∧
      p.subject.accepts row.subject = true := by
  rcases ClosureRule.request_typedMembers requested with ⟨rule, _, rfl⟩ | same
  · rcases answers with ⟨⟨x, q, d⟩, stated, accepted, _, _, _, rfl⟩ | ⟨_, about, _⟩
    · have fits := Pattern.accepts_iff.mp accepted
      obtain rfl : Vocabulary.type = q := of_decide_eq_true (fits .predicate)
      obtain ⟨seed, named, leads⟩ := (closes d).mp (Slot.accepts_oneOf.mp (fits .object))
      obtain rfl : Vocabulary.containerMembershipProperty = seed := of_decide_eq_true named
      exact ⟨clear.typed s listed rule x d stated leads, fits .subject⟩
    · have same : Vocabulary.type = Vocabulary.subClassOf := Slot.exact.inj about
      exact absurd same (by decide)
  · exact absurd rfl (clear.property s listed _ same).1

namespace Source

variable {a b : Source} {settings : List ClosureSetting} {evaluates : Bool}

section Quiet

variable (alike : ∀ mode p, p.Quiet → a.select mode p context = b.select mode p context)

include alike

theorem beyond_of_quiet {predicate : Term} {d : Direction} {terms : SortedSet Term}
    (quiet : (stepPattern predicate d terms).Quiet) :
    a.beyond predicate d context terms = b.beyond predicate d context terms := by
  rw [beyond, choices, alike .listed _ quiet]
  rfl

theorem closure_of_quiet {predicate : Term} {d : Direction}
    (quiet : ∀ terms, (stepPattern predicate d terms).Quiet) (start : Term) :
    a.closure start predicate d context ∅ = b.closure start predicate d context ∅ :=
  closure_congr (fun _ => True) (fun terms _ => beyond_of_quiet alike (quiet terms))
    (fun _ _ _ _ _ _ => trivial) trivial ∅

/-- A request for classes is about neither members nor sub-properties. -/
theorem selectRequested_class {relation : Term} (classes : IsClassRelation relation)
    (mentioned : p.predicate.mentions relation = true) (quiet : p.Quiet) (start : List Term)
    (reflexive : Bool) (mode : Mode) :
    a.selectRequested reflexive (ClosureRule.classRequest start) mode p context =
      b.selectRequested reflexive (ClosureRule.classRequest start) mode p context := by
  have steps : ∀ d terms, (stepPattern Vocabulary.subClassOf d terms).Quiet := by
    intro d terms
    have about : (stepPattern Vocabulary.subClassOf d terms).predicate =
        .exact Vocabulary.subClassOf := by cases d <;> rfl
    refine Pattern.quiet_of_apart ?_
    rw [about]
    exact decide_eq_false fun (same : Vocabulary.subClassOf = _) =>
      not_isClassRelation_subPropertyOf (.inr same.symm)
  have apart : p.predicate.mentions Vocabulary.subPropertyOf = false := by
    refine Bool.eq_false_iff.mpr fun both => ?_
    rw [quiet.2 both] at mentioned
    exact not_isClassRelation_subPropertyOf (of_decide_eq_true mentioned ▸ classes)
  exact selectRequested_congr (ClosureRule.classRequest start) (fun _ => True)
    (fun start _ => closure_of_quiet alike (steps .up) start) (fun _ _ _ _ _ _ => trivial)
    (closure_of_quiet alike (steps .down)) (alike .listed p quiet)
    (fun slot _ _ => alike .listed _ (Pattern.quiet_of_apart apart)) (fun _ _ => trivial)
    (fun _ _ => trivial) reflexive mode

/-- A request for the properties below one that is clear of members does not come upon them. -/
theorem selectRequested_clear {property : Term}
    (follows : b.Follows context held Vocabulary.subPropertyOf)
    (within : b.StepsWithin context Vocabulary.subPropertyOf .up
      (Reaches held Vocabulary.subPropertyOf .up))
    (no_relation : ¬ Reaches held Vocabulary.subPropertyOf .up property Vocabulary.subPropertyOf)
    (no_member : ¬ Reaches held Vocabulary.subPropertyOf .up property Vocabulary.member)
    (about : p.predicate = .exact property) (quiet : p.Quiet) (reflexive : Bool) (mode : Mode) :
    a.selectRequested reflexive (ClosureRule.propertyRequest property) mode p context =
      b.selectRequested reflexive (ClosureRule.propertyRequest property) mode p context := by
  have up : ∀ terms : SortedSet Term,
      (∀ t ∈ terms, Reaches held Vocabulary.subPropertyOf .up property t) →
      a.beyond Vocabulary.subPropertyOf .up context terms =
        b.beyond Vocabulary.subPropertyOf .up context terms := by
    refine fun terms inside => beyond_of_quiet alike ⟨?_, fun _ => rfl⟩
    have absent : (Slot.oneOf terms).mentions Vocabulary.member = false :=
      Bool.eq_false_iff.mpr fun named => no_member (inside _ (Slot.mentions_oneOf.mp named))
    show (_ && (Slot.oneOf terms).mentions Vocabulary.member) = false
    rw [absent, Bool.and_false]
  have stays : ∀ terms others,
      (∀ t ∈ terms, Reaches held Vocabulary.subPropertyOf .up property t) →
      b.beyond Vocabulary.subPropertyOf .up context terms = .ok others →
      ∀ t ∈ others, Reaches held Vocabulary.subPropertyOf .up property t := by
    intro terms others inside answer t member
    obtain ⟨x, start, leads⟩ := within terms others answer t member
    exact (inside x start).trans leads
  have down : ∀ terms, (stepPattern Vocabulary.subPropertyOf .down terms).Quiet :=
    fun terms => ⟨Bool.and_false _, fun _ => rfl⟩
  refine selectRequested_congr (ClosureRule.propertyRequest property)
    (Reaches held Vocabulary.subPropertyOf .up property)
    (fun start here => closure_congr _ up stays here ∅) (fun start found here walked t member => ?_)
    (closure_of_quiet alike down) (alike .listed p quiet)
    (fun slot _ inside => alike .listed _ (Pattern.quiet_of_apart ?_)) (fun t only => ?_)
    (fun t named => ?_) reflexive mode
  · obtain ⟨_, same, exactly⟩ := follows .up start
    cases same.symm.trans walked
    exact here.trans ((exactly t).mp member)
  · exact Bool.eq_false_iff.mpr fun named => no_relation (inside _ named)
  · exact List.mem_singleton.mp only ▸ .refl
  · have same : property = t := of_decide_eq_true (show (Slot.exact property).mentions t = true from
      about ▸ named)
    exact same ▸ .refl

end Quiet

/-- Where a rule stands above two sources that answer quiet patterns alike, it answers them alike. -/
theorem selectByClosure_of_quiet
    (alike : ∀ mode p, p.Quiet → a.select mode p context = b.select mode p context)
    {s : ClosureSetting} (orderly : Orderly held (s :: settings))
    (clear : ClearOfMembers held (s :: settings))
    (answers : b.AnswersBy evaluates context held settings) (mode : Mode) (quiet : p.Quiet) :
    a.selectByClosure s.rule.request? s.reflexive mode p context =
      b.selectByClosure s.rule.request? s.reflexive mode p context := by
  unfold selectByClosure
  cases requested : s.rule.request? p with
  | none => exact alike mode p quiet
  | some r =>
    rcases ClosureRule.request_cases requested with
      ⟨relation, own, mentioned, start, rfl⟩ | ⟨property, same, about, rfl⟩
    · exact selectRequested_class alike (ClosureRule.isClassRelation own) mentioned quiet start
        s.reflexive mode
    · obtain ⟨_, no_relation, no_member⟩ := clear.property s List.mem_cons_self property same
      have spared := orderly.spared
      rw [same] at spared
      exact selectRequested_clear alike (follows_of_answersBy (.inr rfl) spared answers)
        (stepsWithin_of_answersBy (.inr rfl) spared answers .up) no_relation no_member about quiet
        s.reflexive mode

section Stack

variable {base : Source} {entailers : List Entailer}

theorem entailing_of_not_mem (absent : .membership ∉ entailers) :
    base.entailing entailers = base.under ((settingsOf entailers).map ClosureSetting.layer) := by
  induction entailers with
  | nil => rfl
  | cons top rest ih =>
    obtain ⟨other, later⟩ := not_or.mp fun either => absent (List.mem_cons.mpr either)
    cases top with
    | membership => exact absurd rfl other
    | closure s => exact congrArg s.layer.view (ih later)

theorem evaluatesIntervals_entailing (base : Source) (entailers : List Entailer) :
    (base.entailing entailers).evaluatesIntervals = base.evaluatesIntervals := by
  induction entailers with
  | nil => rfl
  | cons top rest ih => cases top <;> exact ih

theorem refusesIntervals_entailing (refuses : base.RefusesIntervals context)
    (entailers : List Entailer) : (base.entailing entailers).RefusesIntervals context := by
  induction entailers with
  | nil => exact refuses
  | cons top rest ih =>
    cases top with
    | closure s => exact refusesIntervals_withClosure ih s.rule s.reflexive
    | membership =>
      intro mode p rows interval answer
      obtain ⟨stated, asked, _⟩ := bind_ok answer
      exact ih mode p stated interval asked

section Clear

variable (orderly : Orderly held (settingsOf entailers))
  (clear : ClearOfMembers held (settingsOf entailers))
  (answers : base.AnswersBy evaluates context held [])

include orderly clear answers

/-- To quiet patterns the layers for membership make no difference. -/
theorem select_entailing_of_quiet (mode : Mode) (quiet : p.Quiet) :
    (base.entailing entailers).select mode p context =
      (base.under ((settingsOf entailers).map ClosureSetting.layer)).select mode p context := by
  induction entailers generalizing mode p with
  | nil => rfl
  | cons top rest ih =>
    cases top with
    | membership =>
      exact (selectByMembership_of_silent quiet.1).trans (ih orderly clear mode quiet)
    | closure s =>
      exact selectByClosure_of_quiet
        (fun mode p quiet => ih (p := p) orderly.tail clear.tail mode quiet) orderly clear
        (answersBy_stack orderly.tail answers) mode quiet

/-- What a stack finds typed as container membership properties is so typed in the store. -/
theorem typed_entailing (taken : p.hasInterval = true → evaluates = true) : ∃ typed,
    (base.entailing entailers).select p.typedMembers.mode p.typedMembers context = .ok typed ∧
    ∀ x, (∃ row ∈ typed, row.subject = x) ↔
      ⟨x, Vocabulary.type, Vocabulary.containerMembershipProperty⟩ ∈ held ∧
        p.subject.accepts x = true := by
  have type_ne : Vocabulary.type ≠ Vocabulary.subPropertyOf := by decide
  have quiet : p.typedMembers.Quiet := Pattern.quiet_of_apart (decide_eq_false type_ne)
  obtain ⟨typed, answer, denotes⟩ := answersBy_stack orderly answers p.typedMembers.mode
    p.typedMembers (fun interval => taken (Pattern.hasInterval_of_typedMembers interval))
    Pattern.hasChoices_of_mode
  refine ⟨typed, (select_entailing_of_quiet orderly clear answers _ quiet).trans answer,
    fun x => ⟨?_, ?_⟩⟩
  · rintro ⟨row, member, rfl⟩
    rcases denotes.cases with rfl | ⟨s, listed, r, requested, closure, closes, exactly⟩
    · obtain ⟨stated, accepted⟩ := SortedSet.mem_filter.mp member
      obtain ⟨fits, same⟩ := Pattern.accepts_typedMembers.mp accepted
      exact ⟨same ▸ stated, fits⟩
    · exact clear.typed_of_request listed requested closes ((exactly row).mp member)
  · rintro ⟨stated, fits⟩
    exact ⟨_, denotes.stated stated (Pattern.accepts_typedMembers.mpr ⟨fits, rfl⟩), rfl⟩

/-- A pattern that asks for members is seen by no rule, and answered from the statements, together
with the memberships if there is a layer for them. -/
theorem triples_entailing_of_asks (about : p.predicate = .exact Vocabulary.subPropertyOf)
    (asks : p.asksForMembers = true) (none : p.hasChoices = false)
    (taken : p.hasInterval = true → evaluates = true) :
    (base.entailing entailers).triples p context =
      .ok ((if .membership ∈ entailers then held ∪ memberships held else held).filter
        p.accepts) := by
  induction entailers with
  | nil =>
    obtain ⟨rows, answer, rfl⟩ := answers .plain p taken fun _ => none
    exact answer
  | cons top rest ih =>
    cases top with
    | closure s =>
      have below : .membership ∈ .closure s :: rest ↔ .membership ∈ rest := by simp
      simp only [below]
      show (base.entailing rest).selectByClosure s.rule.request? s.reflexive .plain p context = _
      rw [selectByClosure, clear.silent about List.mem_cons_self]
      exact ih orderly.tail clear.tail
    | membership =>
      obtain ⟨typed, added, members⟩ :=
        typed_entailing (show Orderly held (settingsOf rest) from orderly) clear answers taken
      refine (selectByMembership_of_asks asks (ih orderly clear) added).trans ?_
      rw [insert_memberships asks members, if_pos List.mem_cons_self]
      refine congrArg (fun rows => Except.ok (SortedSet.filter _ rows)) ?_
      split
      · exact SortedSet.ext fun row => by simp
      · rfl

end Clear

/-! ### Settled stacks -/

end Stack

end Source

/-- Layers none of which adds what another one reads. -/
structure Settled (held : SortedSet Triple) (entailers : List Entailer) : Prop where
  orderly : Orderly held (settingsOf entailers)
  clear : .membership ∈ entailers → ClearOfMembers held (settingsOf entailers)

/-- The rows that some layers give a pattern: where members are asked for and there is a layer for
them, what is stated or added; else what the rules denote. -/
def Means (held : SortedSet Triple) (entailers : List Entailer) (p : Pattern)
    (rows : SortedSet Triple) : Prop :=
  if .membership ∈ entailers ∧ p.asksForMembers = true then
    rows = (held ∪ memberships held).filter p.accepts
  else Denotes held (settingsOf entailers) p rows

theorem Means.unique {entailers : List Entailer} {rows others : SortedSet Triple}
    (means : Means held entailers p rows) (also : Means held entailers p others) :
    rows = others := by
  unfold Means at means also
  split at means
  · rename_i members
    rw [if_pos members] at also
    exact means.trans also.symm
  · rename_i no_members
    rw [if_neg no_members] at also
    exact means.unique also

/-- What settled layers mean does not depend on their order. -/
theorem Means.reordered {entailers others : List Entailer} (settled : Settled held entailers)
    (settled' : Settled held others) (perm : entailers.Perm others) {rows : SortedSet Triple}
    (means : Means held entailers p rows) : Means held others p rows := by
  unfold Means at means ⊢
  simp only [← perm.mem_iff]
  split at means
  · rename_i members
    rwa [if_pos members]
  · rename_i no_members
    rw [if_neg no_members]
    refine means.reordered settled.orderly settled'.orderly fun s => ?_
    rw [mem_settingsOf, mem_settingsOf, perm.mem_iff]

namespace Source

variable {base : Source} {evaluates : Bool} {entailers others : List Entailer}

theorem triples_entailing (settled : Settled held entailers)
    (answers : base.AnswersBy evaluates context held []) (none : p.hasChoices = false)
    (taken : p.hasInterval = true → evaluates = true) : ∃ rows,
    (base.entailing entailers).triples p context = .ok rows ∧ Means held entailers p rows := by
  obtain ⟨rows, answer, denotes⟩ :=
    answersBy_stack settled.orderly answers .plain p taken fun _ => none
  by_cases members : .membership ∈ entailers
  · cases asks : p.asksForMembers with
    | true =>
      have about := Pattern.get_eq_exact none (i := .predicate) (Bool.and_eq_true_iff.mp asks).1
      refine ⟨_, triples_entailing_of_asks settled.orderly (settled.clear members) answers about asks
        none taken, ?_⟩
      rw [Means, if_pos ⟨members, asks⟩, if_pos members]
    | false =>
      have quiet : p.Quiet := ⟨asks, Pattern.get_eq_exact none (i := .predicate)⟩
      refine ⟨rows, (select_entailing_of_quiet settled.orderly (settled.clear members) answers .plain
        quiet).trans answer, ?_⟩
      rw [Means, if_neg fun both => by cases asks.symm.trans both.2]
      exact denotes
  · refine ⟨rows, ?_, ?_⟩
    · rw [triples, entailing_of_not_mem members]
      exact answer
    · rw [Means, if_neg fun both => members both.1]
      exact denotes

/-- Settled layers over one source have the same rows in any order, or refuse the pattern. -/
theorem toOption_entailing (settled : Settled held entailers) (settled' : Settled held others)
    (perm : entailers.Perm others) (answers : base.AnswersBy evaluates context held [])
    (refuses : evaluates = false → base.RefusesIntervals context) (none : p.hasChoices = false) :
    ((base.entailing entailers).triples p context).toOption =
      ((base.entailing others).triples p context).toOption := by
  by_cases taken : p.hasInterval = true → evaluates = true
  · obtain ⟨rows, answer, means⟩ := triples_entailing settled answers none taken
    obtain ⟨rows', answer', means'⟩ := triples_entailing settled' answers none taken
    rw [answer, answer', (means.reordered settled settled' perm).unique means']
  · obtain ⟨interval, off⟩ := Classical.not_imp.mp taken
    have refused : ∀ entailers rows, (base.entailing entailers).triples p context ≠ .ok rows :=
      fun entailers rows => refusesIntervals_entailing (refuses (Bool.not_eq_true _ ▸ off))
        entailers .plain p rows interval
    rw [toOption_eq_none (refused entailers), toOption_eq_none (refused others)]

end Source

/-! ### Stores in memory -/

namespace Store.Memory

/-- Under a layer for intervals the order of settled layers makes no difference to a pattern without
lists. Intervals at the object are always answered. -/
theorem triples_perm {m : Store.Memory} (built : m.Built) (context : Option Term)
    {entailers others : List Entailer} (perm : entailers.Perm others)
    (settled : Settled (m.statementsIn context) entailers)
    (settled' : Settled (m.statementsIn context) others) (p : Pattern)
    (none : p.hasChoices = false) :
    let stack (entailers : List Entailer) :=
      m.source.under (.interval :: entailers.map Entailer.layer)
    ((stack entailers).triples p context).toOption = ((stack others).triples p context).toOption ∧
      (p.AtObject → ∃ rows, (stack entailers).triples p context = .ok rows) := by
  have answers := answersBy_source built context
  have evaluates (entailers) : (m.source.entailing entailers).evaluatesIntervals =
    m.evaluatesIntervals := Source.evaluatesIntervals_entailing m.source entailers
  refine ⟨?_, fun placed => ?_⟩
  · exact Source.toOption_withIntervals (a := m.source.entailing entailers)
      (b := m.source.entailing others) ((evaluates entailers).trans (evaluates others).symm)
      (fun q none => Source.toOption_entailing settled settled' perm answers
        (fun refuses => refusesIntervals_source refuses context) none) none
  · show ∃ rows, (m.source.entailing entailers).withIntervals.select .plain p context = .ok rows
    refine Source.answered_withIntervals (fun q taken => ?_) ⟨placed, fun _ => rfl, fun _ => none⟩
    obtain ⟨rows, answer, _⟩ := Source.triples_entailing settled answers (taken.2.2 rfl)
      fun interval => evaluates entailers ▸ taken.2.1 interval
    exact ⟨rows, answer⟩

end Store.Memory

namespace Sample

/-- Membership, classes, and what is held. -/
def bagLayers : List Entailer :=
  [.membership, .closure ⟨.types, true⟩, .closure ⟨.subPropertiesOf holds, true⟩]

def membersPattern : Pattern :=
  ⟨.any, .exact Vocabulary.subPropertyOf, .exact Vocabulary.member⟩

theorem plain_bagged : ∀ row ∈ (bagged.statementsIn none).toList,
    row.predicate ≠ Vocabulary.subPropertyOf ∧ (row.predicate = Vocabulary.type →
      row = ⟨row.subject, Vocabulary.type, Vocabulary.containerMembershipProperty⟩) := by
  decide

/-- Nothing in the bag is below a property but the property itself. -/
theorem eq_of_reaches_bagged {x y : Term}
    (leads : Reaches (bagged.statementsIn none) Vocabulary.subPropertyOf .up x y) : x = y := by
  rcases Relation.ReflTransGen.cases_head_iff.mp leads with same | ⟨_, ⟨row, held, along, _⟩, _⟩
  · exact same
  · exact absurd along (plain_bagged row held).1

section Settled

variable {entailers : List Entailer} (among : ∀ e ∈ entailers, e ∈ bagLayers)

include among

theorem rule_bagLayers {s : ClosureSetting} (member : s ∈ settingsOf entailers) :
    s.rule = .types ∨ s.rule = .subPropertiesOf holds := by
  have listed := among _ (mem_settingsOf.mp member)
  simp only [bagLayers, List.mem_cons, Entailer.closure.injEq, reduceCtorEq, List.not_mem_nil,
    false_or, or_false] at listed
  rcases listed with rfl | rfl
  · exact .inl rfl
  · exact .inr rfl

theorem property_bagLayers {s : ClosureSetting} (member : s ∈ settingsOf entailers)
    {property : Term} (same : s.rule = .subPropertiesOf property) : property = holds := by
  rcases rule_bagLayers among member with types | holds
  · cases types.symm.trans same
  · exact (ClosureRule.subPropertiesOf.inj (holds.symm.trans same)).symm

theorem relation_bagLayers {s : ClosureSetting} (member : s ∈ settingsOf entailers)
    {relation : Term} (own : relation ∈ s.rule.relation?) : relation = Vocabulary.type := by
  rcases rule_bagLayers among member with same | same
  · rw [same] at own
    exact (Option.some.inj own).symm
  · rw [same] at own
    cases own

theorem settled_bagLayers : Settled (bagged.statementsIn none) entailers where
  orderly :=
    { no_hierarchy := List.pairwise_of_forall_mem_list fun upper _ lower member same => by
        have hierarchy := upper.rule.isHierarchy
        rw [property_bagLayers among member same] at hierarchy
        exact absurd hierarchy (by decide)
      no_relation := fun s member property same other below relation own leads => by
        rw [property_bagLayers among member same, relation_bagLayers among below own] at leads
        exact absurd (eq_of_reaches_bagged leads) (by decide)
      reflexive := List.pairwise_of_forall_mem_list fun upper member _ _ own => by
        exact absurd (relation_bagLayers among member own) (by decide) }
  clear _ :=
    { property := fun s member q same => by
        rw [property_bagLayers among member same]
        refine ⟨by decide, fun leads => ?_, fun leads => ?_⟩
        · exact absurd (eq_of_reaches_bagged leads) (by decide)
        · exact absurd (eq_of_reaches_bagged leads) (by decide)
      typed := fun _ _ _ _ _ stated _ => (plain_bagged _ stated).2 rfl ▸ stated }

end Settled

/-- A property that is typed below the container membership properties. -/
def sequenced : Store.Memory :=
  (Store.Memory.empty false).extend
    [⟨first, Vocabulary.type, .iri "SequenceProperty"⟩,
      ⟨.iri "SequenceProperty", Vocabulary.subClassOf, Vocabulary.containerMembershipProperty⟩] none

theorem built_sequenced : sequenced.Built := .extend (.empty false) _ none

def typedMembers : List Entailer := [.membership, .closure ⟨.types, true⟩]

end Sample

namespace Store.Memory

/-- The first member property is below `rdfs:member`, whichever layer is asked first. -/
theorem members_in_both_orders : Sample.bagLayers.Perm Sample.bagLayers.reverse ∧
    Settled (Sample.bagged.statementsIn none) Sample.bagLayers ∧
    Settled (Sample.bagged.statementsIn none) Sample.bagLayers.reverse ∧
    Sample.membersPattern.hasChoices = false ∧ Sample.membersPattern.AtObject ∧ ∃ rows,
      (Sample.bagged.source.under (.interval :: Sample.bagLayers.map Entailer.layer)).triples
        Sample.membersPattern none = .ok rows ∧
      (Sample.bagged.source.under
        (.interval :: Sample.bagLayers.reverse.map Entailer.layer)).triples
          Sample.membersPattern none = .ok rows ∧
      ⟨Sample.first, Vocabulary.subPropertyOf, Vocabulary.member⟩ ∈ rows := by
  have perm := (List.reverse_perm Sample.bagLayers).symm
  have settled : Settled _ Sample.bagLayers := Sample.settled_bagLayers fun _ => id
  have settled' := Sample.settled_bagLayers fun _ => perm.mem_iff.mpr
  have placed : Sample.membersPattern.AtObject := Pattern.atObject_of_no_interval rfl
  obtain ⟨same, answered⟩ :=
    triples_perm Sample.built_bagged none perm settled settled' Sample.membersPattern rfl
  obtain ⟨rows, answer⟩ := answered placed
  obtain ⟨stated, entailing, means⟩ := Source.triples_entailing (p := Sample.membersPattern) settled
    (answersBy_source Sample.built_bagged none) rfl fun interval => by cases interval
  cases (show _ = Except.ok stated from entailing).symm.trans answer
  rw [Means, if_pos ⟨List.mem_cons_self, rfl⟩] at means
  rw [answer] at same
  refine ⟨perm, settled, settled', rfl, placed, rows, answer, toOption_eq_some same.symm, ?_⟩
  have added := mem_memberships.mpr
    ⟨Sample.first, show _ ∈ Sample.bagged.statementsIn none by decide, rfl⟩
  exact means ▸ SortedSet.mem_filter.mpr ⟨SortedSet.mem_union.mpr (.inr added), rfl⟩

/-- Above the rule for classes, membership is added where a class below is typed; below it, it is
not. -/
theorem members_in_one_order : Sample.typedMembers.Perm Sample.typedMembers.reverse ∧
    Sample.membersPattern.hasChoices = false ∧ ∃ rows rows',
      (Sample.sequenced.source.under (.interval :: Sample.typedMembers.map Entailer.layer)).triples
        Sample.membersPattern none = .ok rows ∧
      (Sample.sequenced.source.under
        (.interval :: Sample.typedMembers.reverse.map Entailer.layer)).triples
          Sample.membersPattern none = .ok rows' ∧
      ⟨Sample.first, Vocabulary.subPropertyOf, Vocabulary.member⟩ ∈ rows ∧
      ⟨Sample.first, Vocabulary.subPropertyOf, Vocabulary.member⟩ ∉ rows' := by
  have stated := answersBy_source Sample.built_sequenced none
  have typing := answersBy_withClosure stated (Sample.orderly_types _)
  obtain ⟨own, asked, _⟩ := typing .plain Sample.membersPattern (fun interval => by cases interval)
    fun _ => rfl
  obtain ⟨typed, added, denotes⟩ := typing .plain Sample.membersPattern.typedMembers
    (fun interval => by cases interval) fun _ => rfl
  have restated := denotes.restated rfl
    ⟨Sample.first, Vocabulary.type, .iri "SequenceProperty"⟩ (by decide) rfl rfl
    (.single ⟨⟨.iri "SequenceProperty", Vocabulary.subClassOf,
      Vocabulary.containerMembershipProperty⟩, by decide, rfl, rfl, rfl⟩)
  have below : Sample.sequenced.source.withMemberships.select .plain Sample.membersPattern none = _ :=
    Source.select_withMemberships ((answers_source Sample.built_sequenced).answersIn none) rfl
      (fun _ => rfl) (Option.some_ne_none _) (Option.some_ne_none _)
  refine ⟨(List.reverse_perm _).symm, rfl, _, _,
    Source.selectByMembership_of_asks rfl asked added, below, ?_, ?_⟩
  · exact SortedSet.mem_insertMany.mpr (.inl (List.mem_map.mpr ⟨_, restated, rfl⟩))
  · intro member
    rcases SortedSet.mem_union.mp (SortedSet.mem_filter.mp member).1 with held | new
    · exact absurd held (by decide)
    · obtain ⟨x, held, same⟩ := mem_memberships.mp new
      obtain rfl : Sample.first = x := congrArg Triple.subject same
      exact absurd held (by decide)

end Store.Memory

end TripleQuery
