import TripleQuery.Proofs.Layer.Stacked

/-!
What configured layers may state: nothing but what RDF Schema's rules for classes, properties and
container membership lead to. This holds as long as the relations whose objects are rewritten,
typing and being a sub-class, are never asked about in one list with other predicates.
-/

namespace TripleQuery

/-! ### What is entailed -/

/-- What the rules for classes and properties lead to from the statements held. -/
inductive Entailed (held : SortedSet Triple) : Triple → Prop where
  | stated {t : Triple} (member : t ∈ held) : Entailed held t
  | reflexive (x : Term) : Entailed held ⟨x, Vocabulary.subClassOf, x⟩
  | typed {x d c : Term} (type : Entailed held ⟨x, Vocabulary.type, d⟩)
      (below : Entailed held ⟨d, Vocabulary.subClassOf, c⟩) : Entailed held ⟨x, Vocabulary.type, c⟩
  | subClass {a b c : Term} (first : Entailed held ⟨a, Vocabulary.subClassOf, b⟩)
      (below : Entailed held ⟨b, Vocabulary.subClassOf, c⟩) :
      Entailed held ⟨a, Vocabulary.subClassOf, c⟩
  | subProperty {x q y p : Term} (row : Entailed held ⟨x, q, y⟩)
      (below : Entailed held ⟨q, Vocabulary.subPropertyOf, p⟩) : Entailed held ⟨x, p, y⟩
  | membership {p : Term}
      (typed : Entailed held ⟨p, Vocabulary.type, Vocabulary.containerMembershipProperty⟩) :
      Entailed held ⟨p, Vocabulary.subPropertyOf, Vocabulary.member⟩

/-- Zero or more entailed statements of one predicate, from object to subject. -/
def Lower (held : SortedSet Triple) (predicate : Term) : Term → Term → Prop :=
  Relation.ReflTransGen fun x t => Entailed held ⟨t, predicate, x⟩

/-- The same from subject to object. -/
def Higher (held : SortedSet Triple) (predicate : Term) : Term → Term → Prop :=
  Relation.ReflTransGen fun x t => Entailed held ⟨x, predicate, t⟩

variable {held : SortedSet Triple}

theorem higher_iff_lower {predicate x y : Term} :
    Higher held predicate x y ↔ Lower held predicate y x := by
  rw [Lower, ← Relation.reflTransGen_swap]
  rfl

theorem Entailed.object_higher {relation : Term} (classes : IsClassRelation relation)
    {a x y : Term} (row : Entailed held ⟨a, relation, x⟩)
    (leads : Higher held Vocabulary.subClassOf x y) : Entailed held ⟨a, relation, y⟩ := by
  induction leads with
  | refl => exact row
  | tail _ step ih =>
    rcases classes with rfl | rfl
    · exact ih.typed step
    · exact ih.subClass step

theorem Entailed.predicate_higher {a q p y : Term} (row : Entailed held ⟨a, q, y⟩)
    (leads : Higher held Vocabulary.subPropertyOf q p) : Entailed held ⟨a, p, y⟩ := by
  induction leads with
  | refl => exact row
  | tail _ step ih => exact ih.subProperty step

/-! ### What a closure layer returns -/

namespace Source

variable {next : Source} {context : Option Term} {r : ClosureRequest}
  {ahead back : Term → Term → Prop}

theorem mem_expansions (backward : next.StepsWithin context r.predicate r.direction.opposite back)
    {limit : Option (SortedSet Term)} {terms : List Term} {table : List (Term × List Term)}
    (expanded : next.expansions r context limit terms = .ok table) {t e : Term} {leads : List Term}
    (entry : (t, leads) ∈ table) (member : e ∈ leads) :
    Relation.ReflTransGen back t e ∧ ∀ closure, limit = some closure → e ∈ closure := by
  induction terms generalizing table with
  | nil =>
    cases expanded
    cases entry
  | cons first rest ih =>
    obtain ⟨closure, walked, expanded⟩ := bind_ok expanded
    obtain ⟨others, found, expanded⟩ := bind_ok expanded
    cases expanded
    rcases List.mem_cons.mp entry with same | later
    · cases same
      cases limit with
      | none => exact ⟨mem_closure_within backward walked member, fun _ same => by cases same⟩
      | some limit =>
        obtain ⟨reached, inside⟩ := SortedSet.mem_inter.mp (SortedSet.mem_toList.mp member)
        refine ⟨mem_closure_within backward walked reached, fun _ same => ?_⟩
        cases same
        exact inside
    · exact ih found later

theorem mem_entail (backward : next.StepsWithin context r.predicate r.direction.opposite back)
    {limit : Option (SortedSet Term)} {rows entailed : List Triple}
    (stated : next.entail r context limit rows = .ok entailed) {row : Triple}
    (member : row ∈ entailed) : ∃ base ∈ rows, ∃ e,
      Relation.ReflTransGen back (base.get r.position) e ∧
        (∀ closure, limit = some closure → e ∈ closure) ∧ row = base.put r.position e := by
  obtain ⟨table, expanded, stated⟩ := bind_ok stated
  cases stated
  obtain ⟨base, present, inside⟩ := List.mem_flatMap.mp member
  obtain ⟨e, leads, rfl⟩ := List.mem_map.mp inside
  cases found : table.lookup (base.get r.position) with
  | none =>
    rw [found] at leads
    cases leads
  | some us =>
    rw [found] at leads
    obtain ⟨before, after, split, _⟩ := List.lookup_eq_some_iff.mp found
    have entry : (base.get r.position, us) ∈ table := by
      rw [split]
      simp
    obtain ⟨reached, limited⟩ := mem_expansions backward expanded entry leads
    exact ⟨base, present, e, reached, limited, rfl⟩

/-- A row of the layer below, stated again for a term that its own leads back to. -/
def Restated (next : Source) (context : Option Term) (position : Position)
    (back : Term → Term → Prop) (p : Pattern) (e : Term) (row : Triple) : Prop :=
  ∃ rows, next.choices p context = .ok rows ∧ ∃ base ∈ rows,
    Relation.ReflTransGen back (base.get position) e ∧ row = base.put position e

/-- What a closure stands for: the rows of patterns narrowed to its members, stated again for
other members, and its reflexive rows. -/
def Stands (next : Source) (context : Option Term) (r : ClosureRequest)
    (back : Term → Term → Prop) (p : Pattern) (closure : SortedSet Term) (row : Triple) : Prop :=
  (∃ slot : Slot, (∀ x, slot.accepts x = true → x ∈ closure) ∧
    ∃ e ∈ closure, next.Restated context r.position back (p.put r.position slot) e row) ∨
    r.Reflexive p closure row

theorem mem_entailWithin
    (backward : next.StepsWithin context r.predicate r.direction.opposite back)
    {reflexive : Bool} {p : Pattern} {closure : SortedSet Term} {rows found : SortedSet Triple}
    (answer : next.entailWithin reflexive r p context closure rows = .ok found) {row : Triple}
    (member : row ∈ found) : (∃ base ∈ rows, ∃ e ∈ closure,
      Relation.ReflTransGen back (base.get r.position) e ∧ row = base.put r.position e) ∨
        r.Reflexive p closure row := by
  obtain ⟨entailed, stated, answer⟩ := bind_ok answer
  cases answer
  refine (List.mem_append.mp (SortedSet.mem_ofList.mp member)).imp (fun inside => ?_) fun own => ?_
  · obtain ⟨base, present, e, leads, limited, rfl⟩ := mem_entail backward stated inside
    exact ⟨base, present, e, limited closure rfl, leads, rfl⟩
  · split at own
    · exact ClosureRequest.mem_reflexiveRows.mp own
    · cases own

theorem stands_of_selectWidened
    (forward : next.StepsWithin context r.predicate r.direction ahead)
    (backward : next.StepsWithin context r.predicate r.direction.opposite back)
    {reflexive : Bool} {p : Pattern} {starts : List Term} {found : SortedSet Triple}
    (answer : next.selectWidened reflexive r p context starts = .ok found) {row : Triple}
    (member : row ∈ found) : ∃ closure : SortedSet Term,
      (∀ t ∈ closure, ∃ start ∈ starts, Relation.ReflTransGen ahead start t) ∧
        next.Stands context r back p closure row := by
  obtain ⟨closure, walked, answer⟩ := bind_ok answer
  obtain ⟨rows, asked, answer⟩ := bind_ok answer
  refine ⟨closure, fun t inside => mem_closureAll_within forward walked inside, ?_⟩
  refine (mem_entailWithin backward answer member).imp_left fun found => ?_
  obtain ⟨base, present, e, inside, leads, rfl⟩ := found
  exact ⟨.oneOf closure, fun x => Slot.accepts_oneOf.mp, e, inside, rows, asked, base, present,
    leads, rfl⟩

theorem stands_of_selectEach
    (forward : next.StepsWithin context r.predicate r.direction ahead)
    (backward : next.StepsWithin context r.predicate r.direction.opposite back)
    {reflexive : Bool} {p : Pattern} {start : Term} {found : SortedSet Triple}
    (answer : next.selectEach reflexive r p context start = .ok found) {row : Triple}
    (member : row ∈ found) : ∃ closure : SortedSet Term,
      (∀ t ∈ closure, Relation.ReflTransGen ahead start t) ∧
        next.Stands context r back p closure row := by
  obtain ⟨closure, walked, answer⟩ := bind_ok answer
  obtain ⟨rows, united, answer⟩ := bind_ok answer
  refine ⟨closure, fun t inside => mem_closure_within forward walked inside, ?_⟩
  refine (mem_entailWithin backward answer member).imp_left fun found => ?_
  obtain ⟨base, present, e, inside, leads, rfl⟩ := found
  obtain ⟨part, listed, present⟩ := (Answer.mem_unite united base).mp present
  obtain ⟨t, asked, answer⟩ := List.mem_map.mp listed
  refine ⟨.exact t, fun x accepted => ?_, e, inside, part, answer, base, present, leads, rfl⟩
  exact of_decide_eq_true accepted ▸ asked

theorem mem_start_of_single {p : Pattern} {start : Term} (alone : r.single p = .ok start) :
    start ∈ r.start :=
  ClosureRequest.start_of_single alone ▸ List.mem_singleton_self _

/-- A request without a start restates the pattern's own rows; any other stands for a closure of
its starts and of the terms that the pattern names in its place. -/
theorem stands_of_selectRequested
    (forward : next.StepsWithin context r.predicate r.direction ahead)
    (backward : next.StepsWithin context r.predicate r.direction.opposite back)
    {reflexive : Bool} {mode : Mode} {p : Pattern} {found : SortedSet Triple}
    (answer : next.selectRequested reflexive r mode p context = .ok found) {row : Triple}
    (member : row ∈ found) :
    (r.start = [] ∧ ∃ e, next.Restated context r.position back p e row) ∨
      ∃ closure : SortedSet Term,
        (∀ t ∈ closure, ∃ seed, (seed ∈ r.start ∨ (p.get r.position).mentions seed = true) ∧
          Relation.ReflTransGen ahead seed t) ∧ next.Stands context r back p closure row := by
  unfold selectRequested at answer
  split at answer
  · rename_i unlimited
    obtain ⟨rows, asked, answer⟩ := bind_ok answer
    obtain ⟨entailed, stated, answer⟩ := bind_ok answer
    cases answer
    obtain ⟨base, present, e, leads, _, rfl⟩ :=
      mem_entail backward stated (SortedSet.mem_ofList.mp member)
    exact .inl ⟨List.isEmpty_iff.mp unlimited, e, rows, asked, base, present, leads, rfl⟩
  · refine .inr ?_
    split at answer
    · rename_i terms list
      obtain ⟨closure, reached, stands⟩ := stands_of_selectWidened forward backward answer member
      refine ⟨closure, fun t inside => ?_, stands⟩
      obtain ⟨seed, listed, leads⟩ := reached t inside
      refine ⟨seed, ?_, leads⟩
      refine (List.mem_append.mp (SortedSet.mem_ofList.mp listed)).symm.imp_right fun named => ?_
      rw [list]
      exact decide_eq_true named
    · obtain ⟨start, alone, answer⟩ := bind_ok answer
      obtain ⟨closure, reached, stands⟩ := stands_of_selectEach forward backward answer member
      exact ⟨closure, fun t inside => ⟨start, .inl (mem_start_of_single alone), reached t inside⟩,
        stands⟩
    · obtain ⟨start, alone, answer⟩ := bind_ok answer
      obtain ⟨closure, reached, stands⟩ := stands_of_selectWidened forward backward answer member
      refine ⟨closure, fun t inside => ?_, stands⟩
      obtain ⟨seed, only, leads⟩ := reached t inside
      rw [List.mem_singleton.mp only] at leads
      exact ⟨start, .inl (mem_start_of_single alone), leads⟩

end Source

/-! ### Sound sources -/

/-- None of the relations is asked about in one list with another predicate. -/
def Pattern.Apart (relations : List Term) (p : Pattern) : Prop :=
  ∀ relation ∈ relations, p.predicate.mentions relation = true →
    ∀ t, p.predicate.accepts t = true → t = relation

/-- A row that may be an answer. It restates an entailed statement that the pattern accepts, from
which it differs in predicate and object at most. -/
structure Justified (held : SortedSet Triple) (relations : List Term) (p : Pattern)
    (row : Triple) : Prop where
  entailed : Entailed held row
  related : ∀ relation ∈ relations, p.predicate.mentions relation = true → row.predicate = relation
  accepted : ∃ t, Entailed held t ∧ p.accepts t = true ∧ t.subject = row.subject ∧
    (p.object.named? = none → t.object = row.object)

def Source.Sound (s : Source) (context : Option Term) (held : SortedSet Triple)
    (relations : List Term) : Prop :=
  ∀ mode p rows, p.Apart relations → s.select mode p context = .ok rows →
    ∀ row ∈ rows, Justified held relations p row

variable {relations : List Term} {p : Pattern} {row : Triple}

theorem apart_exact {term : Term} (same : p.predicate = .exact term) : p.Apart relations := by
  intro relation _ mentioned t accepted
  rw [same] at mentioned accepted
  exact (of_decide_eq_true accepted).symm.trans (of_decide_eq_true mentioned)

theorem Justified.of_accepted (apart : p.Apart relations) (entailed : Entailed held row)
    (accepted : p.accepts row = true) : Justified held relations p row where
  entailed := entailed
  related relation known mentioned :=
    apart relation known mentioned _ (Pattern.accepts_iff.mp accepted .predicate)
  accepted := ⟨row, entailed, accepted, rfl, fun _ => rfl⟩

theorem Justified.within {bounds : Interval} (slot : p.object = .within bounds)
    (justified : Justified held relations (p.put .object .any) row)
    (inside : bounds.contains row.object = true) : Justified held relations p row where
  entailed := justified.entailed
  related := justified.related
  accepted := by
    obtain ⟨t, entailed, accepted, subject, object⟩ := justified.accepted
    refine ⟨t, entailed, ?_, subject, fun _ => object rfl⟩
    rw [← Pattern.accepts_within slot, accepted, object rfl, inside]
    rfl

namespace Source

variable {next : Source} {context : Option Term}

theorem sound_memory {m : Store.Memory} (built : m.Built) (context : Option Term) :
    m.source.Sound context (m.statementsIn context) relations := by
  intro mode p rows apart answer row member
  obtain ⟨stated, accepted⟩ := Store.Memory.accepts_of_mem_select built answer member
  exact .of_accepted apart (.stated stated) accepted

theorem sound_withIntervals (sound : next.Sound context held relations) :
    next.withIntervals.Sound context held relations := by
  intro mode p rows apart answer row member
  change next.selectByInterval mode p context = .ok rows at answer
  unfold selectByInterval at answer
  split at answer
  · rename_i bounds slot
    split at answer
    · rename_i unbounded
      refine (sound mode (p.put .object .any) rows apart answer row member).within slot ?_
      exact Interval.contains_of_not_isBounded (by simpa using unbounded) _
    · split at answer
      · exact sound mode p rows apart answer row member
      · obtain ⟨all, asked, rfl⟩ := map_ok answer
        obtain ⟨inside, fits⟩ := SortedSet.mem_filter.mp member
        exact (sound mode (p.put .object .any) all apart asked row inside).within slot fits
  · exact sound mode p rows apart answer row member

/-- What is typed as a container membership property is entailed to be one. -/
theorem justified_membership (sound : next.Sound context held relations)
    (apart : p.Apart relations) (asks : p.asksForMembers = true) {added : List Triple}
    (listed : next.membershipRows p context = .ok added) (member : row ∈ added) :
    Justified held relations p row := by
  obtain ⟨typed, asked, listed⟩ := bind_ok listed
  cases listed
  obtain ⟨found, present, rfl⟩ := List.mem_map.mp member
  obtain ⟨about, mentioned⟩ := Bool.and_eq_true_iff.mp asks
  obtain ⟨t, entailed, accepted, subject, _⟩ :=
    (sound _ p.typedMembers typed (apart_exact rfl) asked found present).accepted
  have fits := Pattern.accepts_iff.mp accepted
  have predicate : Vocabulary.type = t.predicate := of_decide_eq_true (fits .predicate)
  have object : Vocabulary.containerMembershipProperty = t.object :=
    of_decide_eq_true (fits .object)
  have typed_member : Entailed held
      ⟨found.subject, Vocabulary.type, Vocabulary.containerMembershipProperty⟩ := by
    rw [← subject, predicate, object]
    exact entailed
  refine .of_accepted apart typed_member.membership (Pattern.accepts_iff.mpr fun i => ?_)
  cases i with
  | subject => exact subject ▸ fits .subject
  | predicate => exact Slot.accepts_of_mentions about
  | object => exact Slot.accepts_of_mentions mentioned

theorem sound_withMemberships (sound : next.Sound context held relations) :
    next.withMemberships.Sound context held relations := by
  intro mode p rows apart answer row member
  obtain ⟨own, asked, answer⟩ := bind_ok answer
  split at answer
  · rename_i asks
    obtain ⟨added, listed, answer⟩ := bind_ok answer
    cases answer
    rcases SortedSet.mem_insertMany.mp member with new | old
    · exact justified_membership sound apart asks listed new
    · exact sound mode p own apart asked row old
  · cases answer
    exact sound mode p _ apart asked row member

/-! ### The closure layer -/

theorem stepsWithin_up (sound : next.Sound context held relations) (predicate : Term) :
    next.StepsWithin context predicate .up fun x t => Entailed held ⟨t, predicate, x⟩ := by
  intro terms others answer t member
  obtain ⟨rows, asked, rfl⟩ := map_ok answer
  obtain ⟨row, present, rfl⟩ := List.mem_map.mp (SortedSet.mem_ofList.mp member)
  obtain ⟨found, entailed, accepted, subject, _⟩ :=
    (sound .listed (stepPattern predicate .up terms) rows (apart_exact rfl) asked row
      present).accepted
  obtain ⟨rfl, listed⟩ := accepts_stepPattern.mp accepted
  refine ⟨found.object, listed, ?_⟩
  show Entailed held ⟨row.subject, found.predicate, found.object⟩
  rw [← subject]
  exact entailed

theorem stepsWithin_down (sound : next.Sound context held relations) (predicate : Term) :
    next.StepsWithin context predicate .down fun x t => Entailed held ⟨x, predicate, t⟩ := by
  intro terms others answer t member
  obtain ⟨rows, asked, rfl⟩ := map_ok answer
  obtain ⟨row, present, rfl⟩ := List.mem_map.mp (SortedSet.mem_ofList.mp member)
  obtain ⟨found, entailed, accepted, _, object⟩ :=
    (sound .listed (stepPattern predicate .down terms) rows (apart_exact rfl) asked row
      present).accepted
  obtain ⟨rfl, listed⟩ := accepts_stepPattern.mp accepted
  refine ⟨found.subject, listed, ?_⟩
  show Entailed held ⟨found.subject, found.predicate, row.object⟩
  rw [← object rfl]
  exact entailed

/-- A row of a class relation whose subject also has it to a term that one of those named at the
object leads to. -/
theorem Justified.of_lower (apart : p.Apart relations) {relation : Term}
    (classes : IsClassRelation relation) (mentioned : p.predicate.mentions relation = true)
    (named : p.object.named? ≠ none)
    (entailed : Entailed held row) (predicate : row.predicate = relation)
    (subject : p.subject.accepts row.subject = true) {x seed : Term}
    (below : Entailed held ⟨row.subject, relation, x⟩) (asked : p.object.mentions seed = true)
    (leads : Lower held Vocabulary.subClassOf seed x) : Justified held relations p row where
  entailed := entailed
  related other listed also :=
    predicate.trans (apart other listed also _ (Slot.accepts_of_mentions mentioned))
  accepted := by
    refine ⟨⟨row.subject, relation, seed⟩, below.object_higher classes (higher_iff_lower.mpr leads),
      Pattern.accepts_iff.mpr fun i => ?_, rfl, fun unnamed => absurd unnamed named⟩
    cases i with
    | subject => exact subject
    | predicate => exact Slot.accepts_of_mentions mentioned
    | object => exact Slot.accepts_of_mentions asked

/-- What is restated of rows whose objects lead to terms that the pattern names. -/
theorem justified_restated (sound : next.Sound context held relations) (apart : p.Apart relations)
    {relation : Term} (known : relation ∈ relations) (classes : IsClassRelation relation)
    (mentioned : p.predicate.mentions relation = true) (named : p.object.named? ≠ none)
    {slot : Slot} {e : Term} (lower : ∀ x, slot.accepts x = true →
      ∃ seed, p.object.mentions seed = true ∧ Lower held Vocabulary.subClassOf seed x)
    (again : next.Restated context .object
      (fun x t => Entailed held ⟨x, Vocabulary.subClassOf, t⟩) (p.put .object slot) e row) :
    Justified held relations p row := by
  obtain ⟨rows, asked, base, present, leads, rfl⟩ := again
  have justified := sound .listed (p.put .object slot) rows apart asked base present
  have predicate := justified.related relation known mentioned
  obtain ⟨t, entailed, accepted, subject, _⟩ := justified.accepted
  have fits := Pattern.accepts_iff.mp accepted
  obtain ⟨seed, asked_for, below⟩ := lower t.object (fits .object)
  have own : Entailed held ⟨base.subject, relation, t.object⟩ := by
    rw [← subject, ← apart relation known mentioned t.predicate (fits .predicate)]
    exact entailed
  have again : Entailed held (base.put .object e) := by
    have stated := justified.entailed
    cases base
    subst predicate
    exact stated.object_higher classes leads
  exact Justified.of_lower apart classes mentioned named again predicate
    (subject ▸ fits .subject) own asked_for below

/-- Along a rule for classes, both what a row restates and what it was asked for stay entailed:
the members of the closure lead to terms that the pattern names. -/
theorem justified_class (sound : next.Sound context held relations) (apart : p.Apart relations)
    {relation : Term} (known : relation ∈ relations) (classes : IsClassRelation relation)
    (mentioned : p.predicate.mentions relation = true) (named : p.object.named? ≠ none)
    {start : List Term} (listed : ∀ t ∈ start, p.object.mentions t = true) {reflexive : Bool}
    {mode : Mode} {found : SortedSet Triple}
    (answer : next.selectRequested reflexive (ClosureRule.classRequest start) mode p context =
      .ok found) (member : row ∈ found) : Justified held relations p row := by
  have forward := stepsWithin_up sound Vocabulary.subClassOf
  have backward := stepsWithin_down sound Vocabulary.subClassOf
  rcases stands_of_selectRequested forward backward answer member with
    ⟨_, e, again⟩ | ⟨closure, reached, stands⟩
  · have own : ∀ x, p.object.accepts x = true →
        ∃ seed, p.object.mentions seed = true ∧ Lower held Vocabulary.subClassOf seed x :=
      fun x accepted => ⟨x, Slot.mentions_of_accepts named accepted, .refl⟩
    exact justified_restated sound apart known classes mentioned named own again
  · have lower : ∀ x ∈ closure,
        ∃ seed, p.object.mentions seed = true ∧ Lower held Vocabulary.subClassOf seed x := by
      intro x inside
      obtain ⟨seed, asked, leads⟩ := reached x inside
      exact ⟨seed, asked.elim (listed seed) id, leads⟩
    rcases stands with ⟨slot, inside, e, _, again⟩ | own
    · refine justified_restated sound apart known classes mentioned named ?_ again
      exact fun x accepted => lower x (inside x accepted)
    · obtain ⟨about, _, ⟨⟩, x, inside, subject, rfl⟩ := own
      obtain ⟨seed, asked, leads⟩ := lower x inside
      obtain rfl : Vocabulary.subClassOf = relation := by
        rw [about] at mentioned
        exact of_decide_eq_true mentioned
      exact Justified.of_lower apart classes mentioned named (.reflexive x) rfl subject
        (.reflexive x) asked leads

/-- What is said with sub-properties of the one asked about. They name a class relation only if
they name nothing else. -/
theorem justified_renamed (sound : next.Sound context held relations) {property : Term}
    (separate : ∀ relation ∈ relations, Lower held Vocabulary.subPropertyOf property relation →
      ∀ q, Lower held Vocabulary.subPropertyOf property q → q = relation)
    (about : p.predicate = .exact property) {slot : Slot} {e : Term}
    (lower : ∀ q, slot.accepts q = true → Lower held Vocabulary.subPropertyOf property q)
    (chosen : Lower held Vocabulary.subPropertyOf property e)
    (again : next.Restated context .predicate
      (fun x t => Entailed held ⟨x, Vocabulary.subPropertyOf, t⟩) (p.put .predicate slot) e row) :
    Justified held relations p row := by
  obtain ⟨rows, asked, base, present, leads, rfl⟩ := again
  have apart : (p.put .predicate slot).Apart relations := by
    intro relation known mentioned t accepted
    exact separate relation known (lower relation (Slot.accepts_of_mentions mentioned)) t
      (lower t accepted)
  have justified := sound .listed _ rows apart asked base present
  obtain ⟨t, entailed, accepted, subject, object⟩ := justified.accepted
  have fits := Pattern.accepts_iff.mp accepted
  have below := lower t.predicate (fits .predicate)
  refine ⟨justified.entailed.predicate_higher leads, fun relation known mentioned => ?_,
    ⟨t.subject, property, t.object⟩, entailed.predicate_higher (higher_iff_lower.mpr below),
    Pattern.accepts_iff.mpr fun i => ?_, subject, object⟩
  · rw [about] at mentioned
    obtain rfl : property = relation := of_decide_eq_true mentioned
    exact separate property known .refl e chosen
  · cases i with
    | subject => exact fits .subject
    | predicate =>
      show p.predicate.accepts property = true
      rw [about]
      exact decide_eq_true rfl
    | object => exact fits .object

theorem justified_property (sound : next.Sound context held relations) {property : Term}
    (separate : ∀ relation ∈ relations, Lower held Vocabulary.subPropertyOf property relation →
      ∀ q, Lower held Vocabulary.subPropertyOf property q → q = relation)
    (about : p.predicate = .exact property) {reflexive : Bool} {mode : Mode}
    {found : SortedSet Triple} (answer : next.selectRequested reflexive
      ⟨[property], Vocabulary.subPropertyOf, .up, .predicate⟩ mode p context = .ok found)
    (member : row ∈ found) : Justified held relations p row := by
  have forward := stepsWithin_up sound Vocabulary.subPropertyOf
  have backward := stepsWithin_down sound Vocabulary.subPropertyOf
  rcases stands_of_selectRequested forward backward answer member with
    ⟨none, _⟩ | ⟨closure, reached, stands⟩
  · cases none
  have lower : ∀ q ∈ closure, Lower held Vocabulary.subPropertyOf property q := by
    intro q inside
    obtain ⟨seed, asked, leads⟩ := reached q inside
    obtain rfl : seed = property := by
      refine asked.elim List.mem_singleton.mp fun mentioned => ?_
      change p.predicate.mentions seed = true at mentioned
      rw [about] at mentioned
      exact (of_decide_eq_true mentioned).symm
    exact leads
  rcases stands with ⟨slot, inside, e, chosen, again⟩ | own
  · exact justified_renamed sound separate about (fun q accepted => lower q (inside q accepted))
      (lower e chosen) again
  · obtain ⟨_, _, ⟨⟩, _⟩ := own

end Source

/-! ### Configured layers -/

/-- A rule for sub-properties whose property has no class relation among its sub-properties, unless
that relation is the only one. -/
def ClosureRule.Separate (held : SortedSet Triple) (relations : List Term) : ClosureRule → Prop
  | subPropertiesOf property =>
    ∀ relation ∈ relations, Lower held Vocabulary.subPropertyOf property relation →
      ∀ q, Lower held Vocabulary.subPropertyOf property q → q = relation
  | types | typesOf _ | subClassesOf _ => True

namespace Source

theorem sound_withClosure {next : Source} {context : Option Term}
    (sound : next.Sound context held relations) {rule : ClosureRule}
    (known : ∀ relation ∈ rule.relation?, relation ∈ relations)
    (separate : rule.Separate held relations) (reflexive : Bool) :
    (next.withClosure rule.matcher reflexive).Sound context held relations := by
  intro mode p rows apart answer row member
  cases requested : rule.request? p with
  | none =>
    rw [select_withClosure_of_none requested] at answer
    exact sound mode p rows apart answer row member
  | some r =>
    rw [select_withClosure_of_some requested] at answer
    rcases ClosureRule.request_cases requested with
      ⟨relation, own, mentioned, start, rfl⟩ | ⟨property, rfl, about, rfl⟩
    · exact justified_class sound apart (known relation own) (ClosureRule.isClassRelation own)
        mentioned (ClosureRule.named_of_request requested)
        (fun t inside => ClosureRule.mentions_of_request requested inside) answer member
    · exact justified_property sound separate about answer member

end Source

namespace QueryConfig

/-- The relations that the rules of a configuration restate. -/
def restated (c : QueryConfig) : List Term := c.closures.filterMap fun s => s.rule.relation?

theorem sound_closures {base : Source} {context : Option Term} (settings : List ClosureSetting)
    (sound : base.Sound context held relations)
    (known : ∀ s ∈ settings, ∀ relation ∈ s.rule.relation?, relation ∈ relations)
    (separate : ∀ s ∈ settings, s.rule.Separate held relations) :
    (base.under (settings.map ClosureSetting.layer)).Sound context held relations := by
  induction settings with
  | nil => exact sound
  | cons first rest ih =>
    rw [List.forall_mem_cons] at known separate
    exact Source.sound_withClosure (ih known.2 separate.2) known.1 separate.1 first.reflexive

theorem sound_build {base : Source} {context : Option Term} (c : QueryConfig)
    (sound : base.Sound context held c.restated)
    (separate : ∀ s ∈ c.closures, s.rule.Separate held c.restated) :
    (c.build base).Sound context held c.restated := by
  have known : ∀ s ∈ c.closures, ∀ relation ∈ s.rule.relation?, relation ∈ c.restated :=
    fun s member relation own => List.mem_filterMap.mpr ⟨s, member, own⟩
  have closures := sound_closures c.closures sound known separate
  rw [build_eq]
  refine under_optional (Source.Sound · context held c.restated) _ ?_
    Source.sound_withIntervals
  exact under_optional (Source.Sound · context held c.restated) _ closures
    Source.sound_withMemberships

/-- What a configured store returns is entailed by the statements of the context. The pattern may
not list a restated relation together with another predicate, nor may a rule for sub-properties
come upon one beside another. -/
theorem entailed_of_mem_build {m : Store.Memory} (built : m.Built) (c : QueryConfig)
    (context : Option Term)
    (separate : ∀ s ∈ c.closures, s.rule.Separate (m.statementsIn context) c.restated)
    {mode : Mode} {p : Pattern} (apart : p.Apart c.restated) {rows : SortedSet Triple}
    (answer : (c.build m.source).select mode p context = .ok rows) :
    ∀ row ∈ rows, Entailed (m.statementsIn context) row := by
  intro row member
  have sound := sound_build c (Source.sound_memory built context) separate
  exact (sound mode p rows apart answer row member).entailed

end QueryConfig

/-! ### Rules for classes alone -/

/-- Without sub-properties and members held, only typing and sub-classes are added. -/
theorem Entailed.mem_of_other (no_property : ∀ t ∈ held, t.predicate ≠ Vocabulary.subPropertyOf)
    (no_members : ∀ t ∈ held, t.object ≠ Vocabulary.containerMembershipProperty) {t : Triple}
    (entailed : Entailed held t) (other : ¬ IsClassRelation t.predicate) : t ∈ held := by
  have type_ne : Vocabulary.type ≠ Vocabulary.subClassOf := by decide
  -- Nothing is typed as a member, since only the class of members is below itself.
  have kept : (t ∈ held ∨ IsClassRelation t.predicate) ∧
      (t.object = Vocabulary.containerMembershipProperty →
        t.predicate = Vocabulary.subClassOf ∧ t.subject = t.object) := by
    clear other
    induction entailed with
    | stated member => exact ⟨.inl member, fun same => absurd same (no_members _ member)⟩
    | reflexive x => exact ⟨.inr (.inr rfl), fun _ => ⟨rfl, rfl⟩⟩
    | typed _ _ type below =>
      refine ⟨.inr (.inl rfl), fun same => ?_⟩
      exact absurd (type.2 ((below.2 same).2.trans same)).1 type_ne
    | subClass _ _ first below =>
      refine ⟨.inr (.inr rfl), fun same => ⟨rfl, ?_⟩⟩
      have middle := (below.2 same).2
      exact (first.2 (middle.trans same)).2.trans middle
    | subProperty _ _ _ below =>
      rcases below.1 with member | class_relation
      · exact absurd rfl (no_property _ member)
      · exact absurd class_relation not_isClassRelation_subPropertyOf
    | membership _ typed => exact absurd (typed.2 rfl).1 type_ne
  exact kept.1.resolve_right other

namespace Sample

def dog : Term := .iri "Dog"

def animal : Term := .iri "Animal"

def likes : Term := .iri "likes"

theorem not_isClassRelation_likes : ¬ IsClassRelation likes := by
  rintro (same | same) <;> exact absurd same (by decide)

def pets : Store.Memory :=
  (Store.Memory.empty false).extend
    [⟨.iri "rex", Vocabulary.type, dog⟩, ⟨dog, Vocabulary.subClassOf, animal⟩,
      ⟨.iri "ann", likes, dog⟩] none

theorem built_pets : pets.Built := .extend (.empty false) _ none

theorem plain_pets : ∀ t ∈ (pets.statementsIn none).toList,
    t.predicate ≠ Vocabulary.subPropertyOf ∧
      t.object ≠ Vocabulary.containerMembershipProperty := by
  decide

theorem mem_pets_of_entailed {t : Triple} (entailed : Entailed (pets.statementsIn none) t)
    (other : ¬ IsClassRelation t.predicate) : t ∈ pets.statementsIn none :=
  entailed.mem_of_other (fun t member => (plain_pets t member).1)
    (fun t member => (plain_pets t member).2) other

/-- Whatever the predicate is, what is said of dogs is said of animals under a rule for classes. -/
theorem asked_of_animals {m : Store.Memory} (built : m.Built)
    (below : ⟨dog, Vocabulary.subClassOf, animal⟩ ∈ m.statementsIn none) (predicate : Slot)
    (plain : predicate.isInterval = false) (reflexive : Bool) : ∃ rows,
      m.source.selectRequested reflexive (ClosureRule.classRequest [animal]) .listed
        ⟨.any, predicate, .exact animal⟩ none = .ok rows ∧
      ∀ t ∈ m.statementsIn none, predicate.accepts t.predicate = true → t.object = dog →
        t.put .object animal ∈ rows := by
  have answers := (Store.Memory.answers_source built).answersIn none
  have no_interval : (⟨.any, predicate, .exact animal⟩ : Pattern).hasInterval = false := by
    show (false || predicate.isInterval || false) = false
    rw [plain]
    rfl
  have leads : Reaches (m.statementsIn none) Vocabulary.subClassOf .up animal dog :=
    .single ⟨⟨dog, Vocabulary.subClassOf, animal⟩, below, rfl, rfl, rfl⟩
  obtain ⟨closure, reached, rows, answer, exactly⟩ := Source.selectRequested_single
    (ClosureRule.classRequest [animal]) answers no_interval reflexive rfl
    fun (_ : Mode.listed = .listed) _ same => by cases same
  have animal_inside := (reached animal).mpr ⟨animal, List.mem_singleton_self _, .refl⟩
  have dog_inside := (reached dog).mpr ⟨animal, List.mem_singleton_self _, leads⟩
  refine ⟨rows, answer, fun t held fits object => (exactly _).mpr (.inl ?_)⟩
  refine ⟨t, held, ?_, animal, animal_inside, ?_, rfl⟩
  · refine Pattern.accepts_iff.mpr fun i => ?_
    cases i with
    | subject => rfl
    | predicate => exact fits
    | object => exact Slot.accepts_oneOf.mpr (show t.object ∈ closure from object ▸ dog_inside)
  · show Reaches _ _ _ animal t.object
    exact object ▸ leads

/-- A rule for what is liked, above the one for classes. -/
def petRules : QueryConfig := ⟨true, false, [⟨.subPropertiesOf likes, true⟩, ⟨.types, true⟩]⟩

theorem separate_petRules : ∀ s ∈ petRules.closures,
    s.rule.Separate (pets.statementsIn none) petRules.restated := by
  refine List.forall_mem_cons.mpr ⟨?_, List.forall_mem_singleton.mpr trivial⟩
  intro relation known leads
  have relation_type : relation = Vocabulary.type := List.mem_singleton.mp known
  rcases Relation.ReflTransGen.cases_head_iff.mp leads with same | ⟨x, step, _⟩
  · exact absurd (same.trans relation_type) (by decide)
  · have held := mem_pets_of_entailed step not_isClassRelation_subPropertyOf
    exact absurd rfl (plain_pets _ held).1

end Sample

namespace QueryConfig

theorem entailed_animals : ∃ rows,
    (Sample.petRules.build Sample.pets.source).choices
      ⟨.any, .exact Vocabulary.type, .exact Sample.animal⟩ none = .ok rows ∧
    ⟨.iri "rex", Vocabulary.type, Sample.animal⟩ ∈ rows ∧
    ∀ row ∈ rows, Entailed (Sample.pets.statementsIn none) row := by
  obtain ⟨rows, answer, animals⟩ := Sample.asked_of_animals Sample.built_pets (by decide)
    (.exact Vocabulary.type) rfl true
  have asked : (Sample.petRules.build Sample.pets.source).choices
      ⟨.any, .exact Vocabulary.type, .exact Sample.animal⟩ none = .ok rows := by
    exact answer
  refine ⟨rows, asked, animals ⟨.iri "rex", Vocabulary.type, Sample.dog⟩ ?_ ?_ rfl, ?_⟩
  · decide
  · decide
  · exact entailed_of_mem_build Sample.built_pets Sample.petRules none Sample.separate_petRules
      (apart_exact rfl) asked

/-- Listed beside `rdf:type`, another predicate is taken for it: liking a dog becomes liking all
animals, which nothing entails. -/
theorem not_entailed_beside_type : ∃ rows,
    ((⟨true, false, [⟨.types, true⟩]⟩ : QueryConfig).build Sample.pets.source).choices
      ⟨.any, .choices [Vocabulary.type, Sample.likes], .exact Sample.animal⟩ none = .ok rows ∧
    ⟨.iri "ann", Sample.likes, Sample.animal⟩ ∈ rows ∧
    ¬ Entailed (Sample.pets.statementsIn none) ⟨.iri "ann", Sample.likes, Sample.animal⟩ := by
  obtain ⟨rows, answer, animals⟩ := Sample.asked_of_animals Sample.built_pets (by decide)
    (.choices [Vocabulary.type, Sample.likes]) rfl true
  refine ⟨rows, answer, animals ⟨.iri "ann", Sample.likes, Sample.dog⟩ ?_ ?_ rfl,
    fun entailed => ?_⟩
  · decide
  · decide
  · exact absurd (Sample.mem_pets_of_entailed entailed Sample.not_isClassRelation_likes)
      (by decide)

end QueryConfig

end TripleQuery
