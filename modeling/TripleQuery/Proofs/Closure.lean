import Mathlib.Logic.Relation
import TripleQuery.Closure
import TripleQuery.Proofs.Source.Answers

/-!
Closures over a source that answers from fixed statements: they hold the terms that zero or more
steps lead to, no more and no less.
-/

namespace TripleQuery

/-! ### Steps -/

def Steps (held : SortedSet Triple) (predicate : Term) (d : Direction) (x y : Term) : Prop :=
  ∃ row ∈ held, row.predicate = predicate ∧ row.get d.source = x ∧ row.get d.target = y

/-- Zero or more steps. -/
def Reaches (held : SortedSet Triple) (predicate : Term) (d : Direction) : Term → Term → Prop :=
  Relation.ReflTransGen (Steps held predicate d)

/-- Zero or more steps, none of which leads to a term that was `seen`. -/
def ReachesPast (held : SortedSet Triple) (predicate : Term) (d : Direction)
    (seen : SortedSet Term) : Term → Term → Prop :=
  Relation.ReflTransGen fun x y => Steps held predicate d x y ∧ y ∉ seen

variable {held : SortedSet Triple} {predicate : Term} {d : Direction}

theorem steps_opposite {x y : Term} :
    Steps held predicate d.opposite x y ↔ Steps held predicate d y x := by
  cases d <;> exact exists_congr fun row => and_congr_right fun _ => and_congr_right fun _ => and_comm

theorem reaches_opposite {x y : Term} :
    Reaches held predicate d.opposite x y ↔ Reaches held predicate d y x := by
  have reversed : Steps held predicate d.opposite = Function.swap (Steps held predicate d) := by
    funext x y
    exact propext steps_opposite
  rw [Reaches, reversed, Relation.reflTransGen_swap]
  rfl

theorem reflTransGen_reaches :
    Relation.ReflTransGen (Reaches held predicate d) = Reaches held predicate d := by
  unfold Reaches
  exact Relation.reflTransGen_eq_self

theorem reachesPast_empty {x y : Term} :
    ReachesPast held predicate d ∅ x y ↔ Reaches held predicate d x y := by
  have same : (fun x y => Steps held predicate d x y ∧ y ∉ (∅ : SortedSet Term)) =
      Steps held predicate d := by
    funext x y
    exact propext (and_iff_left (SortedSet.not_mem_empty y))
  rw [ReachesPast, same]
  rfl

/-- No step leads out of the terms. -/
def ClosedUnder (held : SortedSet Triple) (predicate : Term) (d : Direction)
    (terms : SortedSet Term) : Prop :=
  ∀ x ∈ terms, ∀ y, Steps held predicate d x y → y ∈ terms

theorem closedUnder_empty : ClosedUnder held predicate d ∅ :=
  fun x member => absurd member (SortedSet.not_mem_empty x)

theorem ClosedUnder.union {terms others : SortedSet Term}
    (first : ClosedUnder held predicate d terms) (second : ClosedUnder held predicate d others) :
    ClosedUnder held predicate d (terms ∪ others) := by
  intro x member y step
  rw [SortedSet.mem_union] at member ⊢
  exact member.imp (fun old => first x old y step) fun new => second x new y step

theorem closedUnder_of_reaches {start : Term} {terms : SortedSet Term}
    (exactly : ∀ t, t ∈ terms ↔ Reaches held predicate d start t) :
    ClosedUnder held predicate d terms := by
  intro x member y step
  rw [exactly] at member ⊢
  exact member.tail step

theorem ClosedUnder.mem_of_reaches {terms : SortedSet Term}
    (closed : ClosedUnder held predicate d terms) {x y : Term} (member : x ∈ terms)
    (leads : Reaches held predicate d x y) : y ∈ terms := by
  induction leads with
  | refl => exact member
  | tail _ step ih => exact closed _ ih _ step

/-- A frontier and what its steps come upon past it make up what it reaches. -/
theorem reachesPast_frontier {seen frontier next : SortedSet Term}
    (ahead : ∀ t, t ∈ next ↔ (∃ x ∈ frontier, Steps held predicate d x t) ∧ t ∉ seen ∪ frontier)
    {t : Term} :
    (∃ x ∈ frontier, ReachesPast held predicate d seen x t) ↔
      t ∈ frontier ∨ ∃ x ∈ next, ReachesPast held predicate d (seen ∪ frontier) x t := by
  constructor
  · intro found
    obtain ⟨x, start, reaches⟩ := found
    induction reaches with
    | refl => exact .inl start
    | @tail u t _ step ih =>
      obtain ⟨step, fresh⟩ := step
      by_cases known : t ∈ frontier
      · exact .inl known
      have past : t ∉ seen ∪ frontier := by
        intro member
        exact (SortedSet.mem_union.mp member).elim fresh known
      rcases ih with last | ⟨y, first, reaches⟩
      · exact .inr ⟨t, (ahead t).mpr ⟨⟨u, last, step⟩, past⟩, .refl⟩
      · exact .inr ⟨y, first, reaches.tail ⟨step, past⟩⟩
  · rintro (start | ⟨y, first, reaches⟩)
    · exact ⟨t, start, .refl⟩
    · obtain ⟨⟨x, start, step⟩, past⟩ := (ahead y).mp first
      have fresh : ∀ z, z ∉ seen ∪ frontier → z ∉ seen := by
        intro z outside member
        exact outside (SortedSet.mem_union.mpr (.inl member))
      refine ⟨x, start, .head ⟨step, fresh y past⟩ ?_⟩
      exact Relation.ReflTransGen.mono (fun _ z both => ⟨both.1, fresh z both.2⟩) _ _ reaches

namespace Source

variable {s : Source} {context : Option Term}

/-! ### Batches -/

theorem hasInterval_stepPattern (predicate : Term) (d : Direction) (terms : SortedSet Term) :
    (stepPattern predicate d terms).hasInterval = false := by
  cases d <;> rfl

theorem batches_of_error {seen frontier : SortedSet Term} {fault : Fault}
    (failed : s.beyond predicate d context frontier = .error fault) :
    s.batches predicate d context seen frontier = .error fault := by
  rw [batches]
  split
  · rename_i same
    exact congrArg Except.error (Except.error.inj (same.symm.trans failed))
  · rename_i same
    cases same.symm.trans failed

theorem batches_of_ok {seen frontier others : SortedSet Term}
    (answer : s.beyond predicate d context frontier = .ok others) :
    s.batches predicate d context seen frontier =
      if (others.filter fun t => decide (t ∉ seen ∪ frontier)).isEmpty then .ok [frontier]
      else (s.batches predicate d context (seen ∪ frontier)
        (others.filter fun t => decide (t ∉ seen ∪ frontier))).map (frontier :: ·) := by
  rw [batches.eq_def s predicate d context seen frontier]
  split
  · rename_i same
    cases same.symm.trans answer
  · rename_i same
    cases same.symm.trans answer
    rfl

theorem accepts_stepPattern {terms : SortedSet Term} {row : Triple} :
    (stepPattern predicate d terms).accepts row = true ↔
      row.predicate = predicate ∧ row.get d.source ∈ terms := by
  have unset : (⟨.any, .exact predicate, .any⟩ : Pattern).get d.source = .any := by
    cases d <;> rfl
  rw [stepPattern, Pattern.accepts_put_of_any unset, Bool.and_eq_true, Slot.accepts_oneOf]
  simp [Pattern.accepts, Slot.accepts, eq_comm]

/-- Every query along the predicate is answered with the steps held. -/
def AnswersSteps (s : Source) (context : Option Term) (held : SortedSet Triple) (predicate : Term)
    (d : Direction) : Prop :=
  ∀ terms, s.choices (stepPattern predicate d terms) context =
    .ok (held.filter (stepPattern predicate d terms).accepts)

theorem AnswersIn.steps (answers : s.AnswersIn context held) (predicate : Term) (d : Direction) :
    s.AnswersSteps context held predicate d :=
  fun terms => answers .listed _ (hasInterval_stepPattern predicate d terms) (by simp)

section Steps

variable (answers : s.AnswersSteps context held predicate d)

include answers

theorem beyond_exact (terms : SortedSet Term) :
    ∃ others, s.beyond predicate d context terms = .ok others ∧
      ∀ t, t ∈ others ↔ ∃ x ∈ terms, Steps held predicate d x t := by
  refine ⟨_, by rw [beyond, answers terms]; rfl, fun t => ?_⟩
  rw [SortedSet.mem_ofList, List.mem_map]
  constructor
  · intro given
    obtain ⟨row, member, target⟩ := given
    obtain ⟨inside, accepted⟩ := SortedSet.mem_filter.mp member
    obtain ⟨along, source⟩ := accepts_stepPattern.mp accepted
    exact ⟨_, source, row, inside, along, rfl, target⟩
  · intro given
    obtain ⟨x, source, row, inside, along, rfl, target⟩ := given
    have accepted := accepts_stepPattern.mpr ⟨along, source⟩
    exact ⟨row, SortedSet.mem_filter.mpr ⟨inside, accepted⟩, target⟩

/-- The batches hold what the frontier reaches past the terms that were seen. -/
theorem batches_exact (seen frontier : SortedSet Term) :
    ∃ found, s.batches predicate d context seen frontier = .ok found ∧
      ∀ t, (∃ batch ∈ found, t ∈ batch) ↔
        ∃ x ∈ frontier, ReachesPast held predicate d seen x t := by
  have ahead : ∀ {seen frontier others : SortedSet Term},
      s.beyond predicate d context frontier = .ok others →
        ∀ t, t ∈ others.filter (fun t => decide (t ∉ seen ∪ frontier)) ↔
          (∃ x ∈ frontier, Steps held predicate d x t) ∧ t ∉ seen ∪ frontier := by
    intro seen frontier others answer t
    obtain ⟨_, same, exactly⟩ := beyond_exact answers frontier
    rw [answer] at same
    cases same
    rw [SortedSet.mem_filter, exactly, decide_eq_true_eq]
  fun_induction batches s predicate d context seen frontier with
  | case1 seen frontier fault failed =>
    obtain ⟨others, answer, _⟩ := beyond_exact answers frontier
    rw [failed] at answer
    cases answer
  | case2 seen frontier others answer next nothing =>
    refine ⟨[frontier], rfl, fun t => ?_⟩
    have none : next = ∅ := SortedSet.isEmpty_iff.mp nothing
    rw [reachesPast_frontier (ahead answer), show others.filter _ = ∅ from none]
    simp
  | case3 seen frontier others answer next something ih =>
    obtain ⟨found, asked, exactly⟩ := ih
    refine ⟨frontier :: found, by rw [asked]; rfl, fun t => ?_⟩
    rw [reachesPast_frontier (ahead answer), ← exactly]
    simp

/-- A closure adds to what was seen all that its start reaches past it. -/
theorem closure_exact (start : Term) (seen : SortedSet Term) :
    ∃ found, s.closure start predicate d context seen = .ok found ∧
      ∀ t, t ∈ found ↔ t ∈ seen ∨ ReachesPast held predicate d seen start t := by
  obtain ⟨asked, answer, exactly⟩ := batches_exact answers seen (.singleton start)
  refine ⟨gather seen asked, by rw [closure, answer]; rfl, fun t => ?_⟩
  rw [mem_gather, exactly]
  simp

end Steps

/-- Following a predicate from a term comes upon just what zero or more steps lead to. -/
def WalksFrom (s : Source) (context : Option Term) (held : SortedSet Triple) (predicate : Term)
    (d : Direction) (start : Term) : Prop :=
  ∃ found, s.closure start predicate d context ∅ = .ok found ∧
    ∀ t, t ∈ found ↔ Reaches held predicate d start t

/-- Following a predicate from any term comes upon just what zero or more steps lead to. -/
def Follows (s : Source) (context : Option Term) (held : SortedSet Triple) (predicate : Term) :
    Prop :=
  ∀ d start, ∃ found, s.closure start predicate d context ∅ = .ok found ∧
    ∀ t, t ∈ found ↔ Reaches held predicate d start t

theorem AnswersSteps.walksFrom (answers : s.AnswersSteps context held predicate d) (start : Term) :
    s.WalksFrom context held predicate d start := by
  obtain ⟨found, answer, exactly⟩ := closure_exact answers start ∅
  refine ⟨found, answer, fun t => ?_⟩
  rw [exactly, reachesPast_empty]
  simp

theorem AnswersIn.follows (answers : s.AnswersIn context held) (predicate : Term) :
    s.Follows context held predicate :=
  fun d => (answers.steps predicate d).walksFrom

/-- A start that is passed over adds nothing, since the closure that holds it holds all that it
reaches. -/
theorem closureFrom_exact {starts : List Term}
    (walks : ∀ start ∈ starts, s.WalksFrom context held predicate d start)
    {known : SortedSet Term} (closed : ClosedUnder held predicate d known) :
    ∃ found, s.closureFrom predicate d context known starts = .ok found ∧
      ∀ t, t ∈ found ↔ t ∈ known ∨ ∃ start ∈ starts, Reaches held predicate d start t := by
  induction starts generalizing known with
  | nil => exact ⟨known, rfl, fun t => by simp⟩
  | cons start rest ih =>
    obtain ⟨here, later⟩ := List.forall_mem_cons.mp walks
    unfold closureFrom
    split
    · rename_i passed
      obtain ⟨found, answer, exactly⟩ := ih later closed
      refine ⟨found, answer, fun t => ?_⟩
      have inside : Reaches held predicate d start t → t ∈ known := closed.mem_of_reaches passed
      simp only [List.mem_cons, exists_eq_or_imp]
      rw [exactly, ← or_assoc, or_iff_left_of_imp inside]
    · obtain ⟨more, reached, reaches⟩ := here
      have grown := closed.union (closedUnder_of_reaches reaches)
      obtain ⟨found, answer, exactly⟩ := ih later grown
      refine ⟨found, by rw [reached]; exact answer, fun t => ?_⟩
      simp only [List.mem_cons, exists_eq_or_imp]
      rw [exactly, SortedSet.mem_union, reaches, or_assoc]

theorem closureAll_of_walks {starts : List Term}
    (walks : ∀ start ∈ starts, s.WalksFrom context held predicate d start) :
    ∃ found, s.closureAll starts predicate d context = .ok found ∧
      ∀ t, t ∈ found ↔ ∃ start ∈ starts, Reaches held predicate d start t := by
  obtain ⟨found, answer, exactly⟩ := closureFrom_exact walks closedUnder_empty
  refine ⟨found, answer, fun t => ?_⟩
  rw [exactly]
  simp

theorem closureAll_exact (follows : s.Follows context held predicate) (d : Direction)
    (starts : List Term) :
    ∃ found, s.closureAll starts predicate d context = .ok found ∧
      ∀ t, t ∈ found ↔ ∃ start ∈ starts, Reaches held predicate d start t :=
  closureAll_of_walks fun start _ => follows d start

/-! ### Closures of two sources -/

section Congruence

variable {a b : Source} (inside : Term → Prop)

/-- Two sources whose steps are the same in a region that no step leaves have the same batches
there. -/
theorem batches_congr
    (same : ∀ terms : SortedSet Term, (∀ t ∈ terms, inside t) →
      a.beyond predicate d context terms = b.beyond predicate d context terms)
    (closed : ∀ terms others, (∀ t ∈ terms, inside t) →
      b.beyond predicate d context terms = .ok others → ∀ t ∈ others, inside t)
    {seen frontier : SortedSet Term} (start : ∀ t ∈ frontier, inside t) :
    a.batches predicate d context seen frontier = b.batches predicate d context seen frontier := by
  fun_induction batches b predicate d context seen frontier with
  | case1 seen frontier fault failed =>
    rw [batches_of_error ((same frontier start).trans failed)]
  | case2 seen frontier others answer next nothing =>
    rw [batches_of_ok ((same frontier start).trans answer), if_pos nothing]
  | case3 seen frontier others answer next something ih =>
    have further : ∀ t ∈ next, inside t :=
      fun t member => closed frontier others start answer t (SortedSet.mem_filter.mp member).1
    rw [batches_of_ok ((same frontier start).trans answer), if_neg something, ih further]

theorem closure_congr
    (same : ∀ terms : SortedSet Term, (∀ t ∈ terms, inside t) →
      a.beyond predicate d context terms = b.beyond predicate d context terms)
    (closed : ∀ terms others, (∀ t ∈ terms, inside t) →
      b.beyond predicate d context terms = .ok others → ∀ t ∈ others, inside t)
    {start : Term} (here : inside start) (seen : SortedSet Term) :
    a.closure start predicate d context seen = b.closure start predicate d context seen := by
  rw [closure, closure, batches_congr inside same closed]
  exact fun t only => SortedSet.mem_singleton.mp only ▸ here

theorem closureFrom_congr {starts : List Term}
    (same : ∀ start ∈ starts,
      a.closure start predicate d context ∅ = b.closure start predicate d context ∅)
    (known : SortedSet Term) :
    a.closureFrom predicate d context known starts =
      b.closureFrom predicate d context known starts := by
  induction starts generalizing known with
  | nil => rfl
  | cons start rest ih =>
    obtain ⟨here, later⟩ := List.forall_mem_cons.mp same
    simp only [closureFrom, ih later, here]

/-- What no single closure leaves, several do not leave together. -/
theorem mem_closureFrom_inside
    (closed : ∀ start found, inside start →
      s.closure start predicate d context ∅ = .ok found → ∀ t ∈ found, inside t)
    {starts : List Term} (starting : ∀ start ∈ starts, inside start) {known found : SortedSet Term}
    (seen : ∀ t ∈ known, inside t)
    (reached : s.closureFrom predicate d context known starts = .ok found) :
    ∀ t ∈ found, inside t := by
  induction starts generalizing known with
  | nil =>
    cases reached
    exact seen
  | cons start rest ih =>
    obtain ⟨here, later⟩ := List.forall_mem_cons.mp starting
    unfold closureFrom at reached
    split at reached
    · exact ih later seen reached
    · obtain ⟨more, walked, reached⟩ := bind_ok reached
      refine ih later (fun t member => ?_) reached
      exact (SortedSet.mem_union.mp member).elim (seen t) (closed start more here walked t)

end Congruence

end Source

/-! ### Closures over answers that go beyond what is held

A layer below may answer with more than statements held. A closure then holds no more than its
steps account for. -/

namespace Source

/-- The start is always asked about, and so it is always found. -/
theorem start_mem_closure {s : Source} {start predicate : Term} {d : Direction}
    {context : Option Term} {seen found : SortedSet Term}
    (reached : s.closure start predicate d context seen = .ok found) : start ∈ found := by
  obtain ⟨batches, asked, rfl⟩ := map_ok reached
  refine mem_gather.mpr (.inr ⟨.singleton start, ?_, SortedSet.mem_singleton.mpr rfl⟩)
  rw [Source.batches] at asked
  split at asked
  · cases asked
  · dsimp only at asked
    split at asked
    · cases asked
      exact List.mem_singleton_self _
    · obtain ⟨rest, _, rfl⟩ := map_ok asked
      exact List.mem_cons_self

theorem known_subset_closureFrom {s : Source} {starts : List Term} {predicate : Term}
    {d : Direction} {context : Option Term} {known found : SortedSet Term}
    (reached : s.closureFrom predicate d context known starts = .ok found) :
    ∀ t ∈ known, t ∈ found := by
  induction starts generalizing known with
  | nil =>
    cases reached
    exact fun _ => id
  | cons start rest ih =>
    unfold closureFrom at reached
    split at reached
    · exact ih reached
    · obtain ⟨more, _, reached⟩ := bind_ok reached
      exact fun t member => ih reached t (SortedSet.mem_union.mpr (.inl member))

/-- A start that is passed over was found before. -/
theorem start_mem_closureFrom {s : Source} {starts : List Term} {predicate : Term} {d : Direction}
    {context : Option Term} {known found : SortedSet Term}
    (reached : s.closureFrom predicate d context known starts = .ok found) :
    ∀ start ∈ starts, start ∈ found := by
  induction starts generalizing known with
  | nil => exact fun _ member => absurd member List.not_mem_nil
  | cons start rest ih =>
    refine List.forall_mem_cons.mpr ?_
    unfold closureFrom at reached
    split at reached
    · rename_i passed
      exact ⟨known_subset_closureFrom reached start passed, ih reached⟩
    · obtain ⟨more, walked, reached⟩ := bind_ok reached
      have fresh : start ∈ known ∪ more :=
        SortedSet.mem_union.mpr (.inr (start_mem_closure walked))
      exact ⟨known_subset_closureFrom reached start fresh, ih reached⟩

theorem closureAll_singleton (s : Source) (start predicate : Term) (d : Direction)
    (context : Option Term) :
    s.closureAll [start] predicate d context = s.closure start predicate d context ∅ := by
  rw [closureAll, closureFrom, if_neg (SortedSet.not_mem_empty start)]
  cases s.closure start predicate d context ∅ with
  | error _ => rfl
  | ok found =>
    have same : ∅ ∪ found = found := SortedSet.ext fun t => by simp
    exact congrArg Except.ok same

/-- Each step of a query along the predicate is a step of the relation. -/
def StepsWithin (s : Source) (context : Option Term) (predicate : Term) (d : Direction)
    (relation : Term → Term → Prop) : Prop :=
  ∀ terms others, s.beyond predicate d context terms = .ok others →
    ∀ t ∈ others, ∃ x ∈ terms, relation x t

variable {s : Source} {context : Option Term} {predicate : Term} {d : Direction}
  {relation : Term → Term → Prop} (within : s.StepsWithin context predicate d relation)

include within

theorem mem_batches_within {seen frontier : SortedSet Term} {found : List (SortedSet Term)}
    (asked : s.batches predicate d context seen frontier = .ok found) {batch : SortedSet Term}
    (present : batch ∈ found) {t : Term} (member : t ∈ batch) :
    ∃ x ∈ frontier, Relation.ReflTransGen relation x t := by
  fun_induction batches s predicate d context seen frontier generalizing found with
  | case1 => cases asked
  | case2 =>
    cases asked
    exact ⟨t, List.mem_singleton.mp present ▸ member, .refl⟩
  | case3 =>
    rename_i seen frontier others answer next something ih
    obtain ⟨rest, more, rfl⟩ := map_ok asked
    rcases List.mem_cons.mp present with rfl | later
    · exact ⟨t, member, .refl⟩
    · obtain ⟨y, fresh, leads⟩ := ih more later
      obtain ⟨x, start, step⟩ := within _ _ answer y (SortedSet.mem_filter.mp fresh).1
      exact ⟨x, start, .head step leads⟩

theorem mem_closure_within {start : Term} {found : SortedSet Term}
    (reached : s.closure start predicate d context ∅ = .ok found) {t : Term} (member : t ∈ found) :
    Relation.ReflTransGen relation start t := by
  obtain ⟨all, asked, rfl⟩ := map_ok reached
  rcases mem_gather.mp member with seen | ⟨batch, present, member⟩
  · exact absurd seen (SortedSet.not_mem_empty t)
  · obtain ⟨x, only, leads⟩ := mem_batches_within within asked present member
    exact SortedSet.mem_singleton.mp only ▸ leads

theorem mem_closureFrom_within {starts : List Term} {known found : SortedSet Term}
    (reached : s.closureFrom predicate d context known starts = .ok found) {t : Term}
    (member : t ∈ found) :
    t ∈ known ∨ ∃ start ∈ starts, Relation.ReflTransGen relation start t := by
  induction starts generalizing known with
  | nil =>
    cases reached
    exact .inl member
  | cons start rest ih =>
    have later : (∃ start ∈ rest, Relation.ReflTransGen relation start t) →
        ∃ first ∈ start :: rest, Relation.ReflTransGen relation first t := by
      intro found
      obtain ⟨first, listed, leads⟩ := found
      exact ⟨first, List.mem_cons_of_mem _ listed, leads⟩
    unfold closureFrom at reached
    split at reached
    · exact (ih reached).imp_right later
    · obtain ⟨more, walked, reached⟩ := bind_ok reached
      rcases ih reached with old | found
      · refine (SortedSet.mem_union.mp old).imp_right fun new => ?_
        exact ⟨start, List.mem_cons_self, mem_closure_within within walked new⟩
      · exact .inr (later found)

theorem mem_closureAll_within {starts : List Term} {found : SortedSet Term}
    (reached : s.closureAll starts predicate d context = .ok found) {t : Term}
    (member : t ∈ found) : ∃ start ∈ starts, Relation.ReflTransGen relation start t :=
  (mem_closureFrom_within within reached member).resolve_left (SortedSet.not_mem_empty t)

omit within

/-- Every query along the predicate is answered, at least with the steps held. -/
def StepsHeld (s : Source) (context : Option Term) (held : SortedSet Triple) (predicate : Term)
    (d : Direction) : Prop :=
  ∀ terms, ∃ others, s.beyond predicate d context terms = .ok others ∧
    ∀ x ∈ terms, ∀ t, Steps held predicate d x t → t ∈ others

theorem stepsHeld_of_stated {held : SortedSet Triple} (stated : ∀ terms, ∃ rows,
    s.choices (stepPattern predicate d terms) context = .ok rows ∧
      ∀ row ∈ held, (stepPattern predicate d terms).accepts row = true → row ∈ rows) :
    s.StepsHeld context held predicate d := by
  intro terms
  obtain ⟨rows, answer, stated⟩ := stated terms
  refine ⟨_, by rw [beyond, answer]; rfl, fun x start t step => ?_⟩
  obtain ⟨row, member, along, rfl, rfl⟩ := step
  have accepted := accepts_stepPattern.mpr ⟨along, start⟩
  exact SortedSet.mem_ofList.mpr (List.mem_map.mpr ⟨row, stated row member accepted, rfl⟩)

/-- The batches hold the frontier and, with what was seen, whatever a step leads to from them. -/
theorem batches_closed {held : SortedSet Triple} (complete : s.StepsHeld context held predicate d)
    (seen frontier : SortedSet Term) :
    ∃ found, s.batches predicate d context seen frontier = .ok found ∧
      (∀ x ∈ frontier, ∃ batch ∈ found, x ∈ batch) ∧
      ∀ batch ∈ found, ∀ x ∈ batch, ∀ t, Steps held predicate d x t →
        t ∈ seen ∨ ∃ batch ∈ found, t ∈ batch := by
  have ahead : ∀ (seen : SortedSet Term) {frontier others : SortedSet Term},
      s.beyond predicate d context frontier = .ok others →
        ∀ x ∈ frontier, ∀ t, Steps held predicate d x t →
          t ∈ seen ∪ frontier ∨ t ∈ others.filter fun t => decide (t ∉ seen ∪ frontier) := by
    intro seen frontier others answer x member t step
    obtain ⟨_, same, steps⟩ := complete frontier
    rw [answer] at same
    cases same
    by_cases old : t ∈ seen ∪ frontier
    · exact .inl old
    · exact .inr (SortedSet.mem_filter.mpr ⟨steps x member t step, decide_eq_true old⟩)
  fun_induction batches s predicate d context seen frontier with
  | case1 seen frontier fault failed =>
    obtain ⟨others, answer, _⟩ := complete frontier
    rw [failed] at answer
    cases answer
  | case2 seen frontier others answer next nothing =>
    refine ⟨[frontier], rfl, fun x member => ⟨frontier, List.mem_singleton_self _, member⟩, ?_⟩
    intro batch only x member t step
    rw [List.mem_singleton.mp only] at member
    have none : next = ∅ := SortedSet.isEmpty_iff.mp nothing
    have old := (ahead seen answer x member t step).resolve_right fun new =>
      SortedSet.not_mem_empty t (none ▸ new)
    exact (SortedSet.mem_union.mp old).imp_right fun start =>
      ⟨frontier, List.mem_singleton_self _, start⟩
  | case3 seen frontier others answer next something ih =>
    obtain ⟨found, asked, starts, closed⟩ := ih
    refine ⟨frontier :: found, by rw [asked]; rfl,
      fun x member => ⟨frontier, List.mem_cons_self, member⟩, ?_⟩
    have placed : ∀ t, (t ∈ seen ∪ frontier ∨ ∃ batch ∈ found, t ∈ batch) →
        t ∈ seen ∨ ∃ batch ∈ frontier :: found, t ∈ batch := by
      rintro t (old | ⟨batch, later, member⟩)
      · exact (SortedSet.mem_union.mp old).imp_right fun start =>
          ⟨frontier, List.mem_cons_self, start⟩
      · exact .inr ⟨batch, List.mem_cons_of_mem _ later, member⟩
    intro batch present x member t step
    refine placed t ?_
    rcases List.mem_cons.mp present with rfl | later
    · exact (ahead seen answer x member t step).imp_right (starts t)
    · exact closed batch later x member t step

/-- Following comes upon no more and no less than what is held leads to, even if single answers go
some steps ahead. -/
theorem walksFrom_of_between {held : SortedSet Triple}
    (complete : s.StepsHeld context held predicate d)
    (sound : s.StepsWithin context predicate d (Reaches held predicate d)) (start : Term) :
    s.WalksFrom context held predicate d start := by
  obtain ⟨found, asked, starts, closed⟩ := batches_closed complete ∅ (.singleton start)
  have reached : s.closure start predicate d context ∅ = .ok (gather ∅ found) := by
    rw [closure, asked]
    rfl
  refine ⟨gather ∅ found, reached, fun t => ⟨fun member => ?_, fun leads => ?_⟩⟩
  · rw [← reflTransGen_reaches]
    exact mem_closure_within sound reached member
  · refine mem_gather.mpr (.inr ?_)
    induction leads with
    | refl => exact starts start (SortedSet.mem_singleton.mpr rfl)
    | tail _ step ih =>
      obtain ⟨batch, present, member⟩ := ih
      exact (closed batch present _ member _ step).resolve_left (SortedSet.not_mem_empty _)

theorem follows_of_between {held : SortedSet Triple}
    (complete : ∀ d, s.StepsHeld context held predicate d)
    (sound : ∀ d, s.StepsWithin context predicate d (Reaches held predicate d)) :
    s.Follows context held predicate :=
  fun d => walksFrom_of_between (complete d) (sound d)

end Source

end TripleQuery
