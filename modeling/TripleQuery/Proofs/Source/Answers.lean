import TripleQuery.Layer.Interval
import TripleQuery.Proofs.Pattern
import TripleQuery.Proofs.SortedSet

/-!
What it means for a source to hold statements: it answers every query that it takes with the
statements it holds and the pattern accepts. The interval layer changes nothing about what is held
and takes intervals over any source.
-/

namespace TripleQuery

theorem Answer.unite_map_ok {α : Type} (l : List α) (rows : α → SortedSet Triple) :
    unite (l.map fun x => .ok (rows x)) = .ok (SortedSet.unions (l.map rows)) := by
  induction l with
  | nil => rfl
  | cons x rest ih =>
    rw [List.map_cons, unite, ih]
    rfl

theorem Pattern.hasChoices_of_mode {p : Pattern} (plain : p.mode = .plain) :
    p.hasChoices = false := by
  unfold mode at plain
  split at plain
  · cases plain
  · rename_i none
    exact Bool.eq_false_iff.mpr none

/-- What an interval accepts is what a filter leaves of what an open object accepts. -/
theorem Pattern.filter_accepts_within {p : Pattern} {bounds : Interval}
    (within : p.object = .within bounds) (held : SortedSet Triple) :
    held.filter p.accepts =
      (held.filter (p.put .object .any).accepts).filter fun t => bounds.contains t.object := by
  apply SortedSet.ext
  intro t
  rw [SortedSet.mem_filter, SortedSet.mem_filter, SortedSet.mem_filter, ← accepts_within within t,
    Bool.and_eq_true, and_assoc]

namespace Source

/-- The queries that a source takes: lists in listed mode only, intervals only where they can be
evaluated. -/
def Takes (s : Source) (mode : Mode) (p : Pattern) : Prop :=
  p.AtObject ∧ (p.hasInterval = true → s.evaluatesIntervals = true) ∧
    (mode = .plain → p.hasChoices = false)

/-- Every query that the source takes is answered from the statements held in the context, unless
its interval is not allowed. -/
def Answers (s : Source) (allowed : Interval → Prop) (held : Option Term → SortedSet Triple) :
    Prop :=
  ∀ mode p context, s.Takes mode p → p.Allowed allowed →
    s.select mode p context = .ok ((held context).filter p.accepts)

/-- The same for one context, and for queries without intervals. -/
def AnswersIn (s : Source) (context : Option Term) (held : SortedSet Triple) : Prop :=
  ∀ mode p, p.hasInterval = false → (mode = .plain → p.hasChoices = false) →
    s.select mode p context = .ok (held.filter p.accepts)

variable {s : Source} {allowed : Interval → Prop} {held : Option Term → SortedSet Triple}

theorem takes_mode {p : Pattern} (placed : p.AtObject)
    (evaluates : p.hasInterval = true → s.evaluatesIntervals = true) : s.Takes p.mode p :=
  ⟨placed, evaluates, Pattern.hasChoices_of_mode⟩

theorem takes_of_no_interval {mode : Mode} {p : Pattern} (none : p.hasInterval = false)
    (plain : mode = .plain → p.hasChoices = false) : s.Takes mode p := by
  refine ⟨Pattern.atObject_of_no_interval none, fun interval => ?_, plain⟩
  rw [none] at interval
  cases interval

theorem Answers.mono {fewer : Interval → Prop} (answers : s.Answers allowed held)
    (among : ∀ bounds, fewer bounds → allowed bounds) : s.Answers fewer held :=
  fun mode p context taken given =>
    answers mode p context taken fun bounds within => among bounds (given bounds within)

theorem Answers.answersIn (answers : s.Answers allowed held) (context : Option Term) :
    s.AnswersIn context (held context) := by
  intro mode p none plain
  exact answers mode p context (takes_of_no_interval none plain) (Pattern.allowed_of_no_interval none)

/-- The statements held that match the pattern of one statement are none or that statement. -/
theorem contains_eq_of_triples {t : Triple} {context : Option Term} {held : SortedSet Triple}
    (answer : s.triples (.ofTriple t) context = .ok (held.filter (Pattern.ofTriple t).accepts)) :
    s.contains t context = .ok (decide (t ∈ held)) := by
  rw [contains, answer]
  refine congrArg Except.ok ?_
  rw [Bool.eq_iff_iff, Bool.not_eq_true', SortedSet.isEmpty_eq_false_iff, decide_eq_true_eq]
  simp only [SortedSet.mem_filter, Pattern.accepts_ofTriple]
  constructor
  · rintro ⟨_, member, rfl⟩
    exact member
  · exact fun member => ⟨t, member, rfl⟩

theorem Answers.contains (answers : s.Answers allowed held) (t : Triple) (context : Option Term) :
    s.contains t context = .ok (decide (t ∈ held context)) :=
  contains_eq_of_triples (answers.answersIn context .plain (.ofTriple t) rfl fun _ => rfl)

/-! ### The interval layer -/

theorem answers_withIntervals (answers : s.Answers allowed held) :
    s.withIntervals.Answers allowed held := by
  intro mode p context ⟨placed, _, plain⟩ given
  have opened : s.select mode (p.put .object .any) context =
      .ok ((held context).filter (p.put .object .any).accepts) := by
    exact answers.answersIn context mode _ (Pattern.hasInterval_open placed) fun same =>
      Pattern.hasChoices_open (plain same)
  show s.selectByInterval mode p context = _
  unfold selectByInterval
  split
  · rename_i bounds within
    split
    · rename_i unbounded
      rw [opened]
      refine congrArg Except.ok (SortedSet.filter_congr (fun t => ?_) _)
      rw [← Pattern.accepts_within within t,
        Interval.contains_of_not_isBounded (by simpa using unbounded), Bool.and_true]
    · split
      · rename_i evaluates
        exact answers mode p context ⟨placed, fun _ => evaluates, plain⟩ given
      · rw [opened, Pattern.filter_accepts_within within]
        rfl
  · rename_i other
    refine answers mode p context ⟨placed, ?_, plain⟩ given
    intro interval
    rw [Pattern.hasInterval_of_atObject placed] at interval
    cases object : p.object with
    | within bounds => exact (other bounds object).elim
    | _ => rw [object] at interval; cases interval

end Source

end TripleQuery
