import TripleQuery.Proofs.Source.Answers
import TripleQuery.Proofs.Store.Indexed
import TripleQuery.Store.Memory

/-!
A memory store that was built by its operations answers from the statements of its graphs.
-/

namespace TripleQuery.Store.Memory

/-- The stores that additions and removals lead to. -/
inductive Built : Memory → Prop where
  | empty (evaluatesIntervals : Bool) : Built (.empty evaluatesIntervals)
  | add {m : Memory} (built : Built m) (t : Triple) (context : Option Term) :
      Built (m.add t context).2
  | extend {m : Memory} (built : Built m) (ts : List Triple) (context : Option Term) :
      Built (m.extend ts context)
  | remove {m : Memory} (built : Built m) (t : Triple) (context : Option Term) :
      Built (m.remove t context).2

def Consistent (m : Memory) : Prop := ∀ graph ∈ m.graphs.values, graph.Consistent

theorem consistent_get {m : Memory} (consistent : m.Consistent) (context : Option Term) :
    ((m.graphs.get? context).getD ∅).Consistent := by
  cases found : m.graphs.get? context with
  | none => exact Indexed.consistent_empty
  | some graph => exact consistent graph (SortedMap.mem_values_of_get? found)

theorem consistent_insert {m : Memory} (consistent : m.Consistent) {graph : Indexed}
    (fresh : graph.Consistent) (context : Option Term) :
    Consistent { m with graphs := m.graphs.insert context graph } := by
  intro other member
  rcases SortedMap.mem_values_insert member with rfl | old
  · exact fresh
  · exact consistent other old

theorem consistent_extend {m : Memory} (consistent : m.Consistent) (ts : List Triple)
    (context : Option Term) : (m.extend ts context).Consistent :=
  consistent_insert consistent (Indexed.consistent_extend (consistent_get consistent context) ts)
    context

/-- An addition leaves the store that an extension by one statement leaves. -/
theorem snd_add (m : Memory) (t : Triple) (context : Option Term) :
    (m.add t context).2 = m.extend [t] context := rfl

theorem consistent_add {m : Memory} (consistent : m.Consistent) (t : Triple)
    (context : Option Term) : (m.add t context).2.Consistent :=
  snd_add m t context ▸ consistent_extend consistent [t] context

theorem consistent_remove {m : Memory} (consistent : m.Consistent) (t : Triple)
    (context : Option Term) : (m.remove t context).2.Consistent := by
  cases context with
  | some context =>
    simp only [remove]
    split
    · exact consistent
    · rename_i graph found
      exact consistent_insert consistent (Indexed.consistent_erase
        (consistent graph (SortedMap.mem_values_of_get? found)) t) (some context)
  | none =>
    intro graph member
    obtain ⟨key, found⟩ := SortedMap.mem_values_iff.mp member
    rw [remove, SortedMap.get?_mapValues] at found
    obtain ⟨old, present, rfl⟩ := Option.map_eq_some_iff.mp found
    exact Indexed.consistent_erase (consistent old (SortedMap.mem_values_of_get? present)) t

theorem Built.consistent {m : Memory} (built : m.Built) : m.Consistent := by
  induction built with
  | empty => exact fun graph member => absurd member List.not_mem_nil
  | add _ t context ih => exact consistent_add ih t context
  | extend _ ts context ih => exact consistent_extend ih ts context
  | remove _ t context ih => exact consistent_remove ih t context

/-! ### Queries -/

/-- The statements of one graph, or of all graphs together. -/
def statementsIn (m : Memory) (context : Option Term) : SortedSet Triple :=
  .ofList ((m.graphsIn context).flatMap fun graph => graph.triples.toList)

theorem run_eq {m : Memory} (consistent : m.Consistent) {p : Pattern}
    (intervals : p.hasInterval = true → m.evaluatesIntervals = true) (context : Option Term) :
    m.run p context = .ok ((m.statementsIn context).filter p.accepts) := by
  have taken : (!m.evaluatesIntervals && p.hasInterval) = false := by
    cases interval : p.hasInterval with
    | false => simp
    | true => simp [intervals interval]
  unfold run
  rw [taken, if_neg Bool.false_ne_true]
  split
  · rename_i nothing
    refine congrArg Except.ok (SortedSet.ext fun t => ?_)
    simp [Pattern.accepts_of_matchesNothing nothing t]
  · refine congrArg Except.ok (SortedSet.ext fun t => ?_)
    simp only [SortedSet.mem_ofList, SortedSet.mem_filter, statementsIn, List.mem_flatMap,
      SortedSet.mem_toList]
    constructor
    · intro given
      obtain ⟨graph, inside, found⟩ := given
      have known := consistent graph (mem_values_of_mem_graphsIn inside)
      obtain ⟨member, accepted⟩ := (Indexed.mem_collect known).mp found
      exact ⟨⟨graph, inside, member⟩, accepted⟩
    · intro given
      obtain ⟨⟨graph, inside, member⟩, accepted⟩ := given
      have known := consistent graph (mem_values_of_mem_graphsIn inside)
      exact ⟨graph, inside, (Indexed.mem_collect known).mpr ⟨member, accepted⟩⟩

theorem answers_source {m : Memory} (built : m.Built) :
    m.source.Answers (fun _ => True) m.statementsIn := by
  intro mode p context ⟨_, intervals, plain⟩ _
  have answer := run_eq built.consistent intervals context
  cases mode with
  | listed => exact answer
  | plain =>
    show (if p.hasChoices then _ else m.run p context) = _
    rw [plain rfl, if_neg Bool.false_ne_true, answer]

theorem answersIn_extend_empty (evaluatesIntervals : Bool) (ts : List Triple) :
    let m := (empty evaluatesIntervals).extend ts none
    m.source.AnswersIn none (m.statementsIn none) :=
  (answers_source ((Built.empty evaluatesIntervals).extend ts none)).answersIn none

/-- Whatever is asked, only statements held that the pattern accepts are returned. -/
theorem accepts_of_mem_select {m : Memory} (built : m.Built) {mode : Mode} {p : Pattern}
    {context : Option Term} {rows : SortedSet Triple} (answer : m.select mode p context = .ok rows)
    {row : Triple} (member : row ∈ rows) :
    row ∈ m.statementsIn context ∧ p.accepts row = true := by
  have ran : m.run p context = .ok rows := by
    cases mode with
    | listed => exact answer
    | plain =>
      simp only [select] at answer
      split at answer
      · cases answer
      · exact answer
  have taken : p.hasInterval = true → m.evaluatesIntervals = true := by
    intro interval
    cases evaluates : m.evaluatesIntervals with
    | true => rfl
    | false =>
      rw [run, if_pos (by simp [interval, evaluates])] at ran
      cases ran
  rw [run_eq built.consistent taken] at ran
  cases ran
  exact SortedSet.mem_filter.mp member

end TripleQuery.Store.Memory
