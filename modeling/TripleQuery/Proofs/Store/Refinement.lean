import TripleQuery.Proofs.Store.Memory
import TripleQuery.Proofs.Store.Quads

/-!
A store in memory refines a set of quads. Whatever was done to it before, each operation returns
what the set says, and each query the statements of the set that the pattern accepts.
-/

namespace TripleQuery.Store

namespace Memory

/-! ### Histories -/

def change (m : Memory) : Change → Memory
  | .add t context => (m.add t context).2
  | .extend ts context => m.extend ts context
  | .remove t context => (m.remove t context).2

/-- What changes make of an empty store, from the first to the last. -/
def after (evaluatesIntervals : Bool) (history : List Change) : Memory :=
  history.foldl change (empty evaluatesIntervals)

theorem Built.change {m : Memory} (built : m.Built) (c : Change) : (m.change c).Built := by
  cases c with
  | add t context => exact .add built t context
  | extend ts context => exact .extend built ts context
  | remove t context => exact .remove built t context

theorem evaluatesIntervals_change (m : Memory) (c : Change) :
    (m.change c).evaluatesIntervals = m.evaluatesIntervals := by
  cases c with
  | add t context => rfl
  | extend ts context => rfl
  | remove t context =>
    show (m.remove t context).2.evaluatesIntervals = _
    cases context with
    | none => rfl
    | some c =>
      rw [remove]
      split <;> rfl

/-! ### Graphs -/

/-- A graph that nothing was put into is empty. -/
def graph (m : Memory) (context : Option Term) : Indexed := (m.graphs.get? context).getD ∅

variable {m : Memory} {t : Triple} {context : Option Term}

theorem mem_graph {name : Option Term} : t ∈ (m.graph name).triples ↔
    ∃ graph, m.graphs.get? name = some graph ∧ t ∈ graph.triples := by
  unfold graph
  cases m.graphs.get? name with
  | none => exact iff_of_false (SortedSet.not_mem_empty t) (by simp)
  | some graph => simp

theorem mem_graphsIn : (∃ graph ∈ m.graphsIn context, t ∈ graph.triples) ↔
    ∃ name, (⟨name, t⟩ : Quad).isIn context = true ∧ t ∈ (m.graph name).triples := by
  simp only [mem_graph]
  cases context with
  | none =>
    simp only [graphsIn, SortedMap.mem_values_iff]
    constructor
    · rintro ⟨graph, ⟨name, found⟩, member⟩
      exact ⟨name, rfl, graph, found, member⟩
    · rintro ⟨name, _, graph, found, member⟩
      exact ⟨graph, ⟨name, found⟩, member⟩
  | some c => simp [graphsIn, Quad.isIn]

theorem graph_insert (g : Indexed) (name : Option Term) :
    ({ m with graphs := m.graphs.insert context g } : Memory).graph name =
      if name = context then g else m.graph name := by
  unfold graph
  split
  · rename_i same
    subst same
    rw [SortedMap.get?_insert_self]
    rfl
  · rename_i different
    rw [SortedMap.get?_insert_of_ne _ (Ne.symm different)]

theorem fst_add : (m.add t context).1 = decide (t ∉ (m.graph context).triples) :=
  Indexed.fst_insert

theorem mem_graph_extend {ts : List Triple} {name : Option Term} {u : Triple} :
    u ∈ ((m.extend ts context).graph name).triples ↔
      (name = context ∧ u ∈ ts) ∨ u ∈ (m.graph name).triples := by
  show u ∈ (Memory.graph { m with graphs := m.graphs.insert context _ } name).triples ↔ _
  rw [graph_insert]
  split
  · rename_i same
    subst same
    show u ∈ ((m.graph name).extend ts).triples ↔ _
    rw [Indexed.mem_triples_extend]
    simp
  · rename_i different
    simp [different]

theorem mem_graph_add {name : Option Term} {u : Triple} :
    u ∈ ((m.add t context).2.graph name).triples ↔
      (name = context ∧ u = t) ∨ u ∈ (m.graph name).triples := by
  rw [snd_add, mem_graph_extend, List.mem_singleton]

theorem fst_remove : (m.remove t context).1 = true ↔
    ∃ graph ∈ m.graphsIn context, t ∈ graph.triples := by
  cases context with
  | none => simp [remove, graphsIn, Indexed.fst_erase]
  | some c =>
    simp only [remove, graphsIn]
    cases m.graphs.get? (some c) with
    | none => simp
    | some graph => simp [Indexed.fst_erase]

theorem mem_graph_remove {name : Option Term} {u : Triple} :
    u ∈ ((m.remove t context).2.graph name).triples ↔
      u ∈ (m.graph name).triples ∧ ¬ ((⟨name, u⟩ : Quad).isIn context = true ∧ u = t) := by
  cases context with
  | none =>
    have erased : (m.remove t none).2.graph name =
        ((m.graphs.get? name).map fun graph => (graph.erase t).2).getD ∅ := by
      rw [← SortedMap.get?_mapValues]
      rfl
    rw [erased, graph]
    cases m.graphs.get? name with
    | none => exact iff_of_false (SortedSet.not_mem_empty u) fun both => SortedSet.not_mem_empty u both.1
    | some graph => simp [Indexed.mem_triples_erase, Quad.isIn]
  | some c =>
    simp only [remove]
    cases found : m.graphs.get? (some c) with
    | none =>
      refine (and_iff_left_of_imp ?_).symm
      rintro member ⟨here, _⟩
      obtain rfl : name = some c := of_decide_eq_true here
      rw [graph, found] at member
      exact SortedSet.not_mem_empty u member
    | some g =>
      show u ∈ (Memory.graph { m with graphs := m.graphs.insert (some c) _ } name).triples ↔ _
      rw [graph_insert]
      split
      · rename_i same
        subst same
        rw [Indexed.mem_triples_erase]
        simp [graph, found, Quad.isIn]
      · rename_i different
        simp [Quad.isIn, different]

/-! ### The quads held -/

/-- The graphs of the store hold the quads, each in its own graph. -/
def Represents (m : Memory) (quads : Quads) : Prop :=
  ∀ name t, t ∈ (m.graph name).triples ↔ ⟨name, t⟩ ∈ quads

theorem represents_empty (evaluatesIntervals : Bool) : Represents (empty evaluatesIntervals) ∅ :=
  fun _ t => iff_of_false (SortedSet.not_mem_empty t) (SortedSet.not_mem_empty _)

variable {quads : Quads}

theorem Represents.change (represents : m.Represents quads) (c : Change) :
    (m.change c).Represents (quads.change c) := by
  intro name u
  cases c with
  | add t context =>
    refine mem_graph_add.trans ?_
    rw [represents, Quads.change, SortedSet.mem_insert, Quad.mk.injEq]
  | extend ts context =>
    refine mem_graph_extend.trans ?_
    rw [represents, Quads.mem_change_extend]
  | remove t context =>
    rw [Quads.mem_change_remove, ← represents]
    exact mem_graph_remove

theorem represents_after (evaluatesIntervals : Bool) (history : List Change) :
    (after evaluatesIntervals history).Represents (Quads.after history) :=
  List.foldl_rel (represents_empty evaluatesIntervals)
    fun c _ _ _ represents => represents.change c

theorem built_after (evaluatesIntervals : Bool) (history : List Change) :
    (after evaluatesIntervals history).Built :=
  List.foldlRecOn history Memory.change (.empty evaluatesIntervals)
    fun _ built c _ => built.change c

theorem evaluatesIntervals_after (evaluatesIntervals : Bool) (history : List Change) :
    (after evaluatesIntervals history).evaluatesIntervals = evaluatesIntervals := by
  refine List.foldlRecOn (motive := fun m => m.evaluatesIntervals = evaluatesIntervals) history
    Memory.change ?_ fun m same c _ => (evaluatesIntervals_change m c).trans same
  rfl

/-! ### What is returned -/

namespace Represents

variable (represents : m.Represents quads)

include represents

theorem mem_statementsIn : t ∈ m.statementsIn context ↔ t ∈ quads.statementsIn context := by
  rw [Quads.mem_statementsIn, statementsIn, SortedSet.mem_ofList, List.mem_flatMap]
  refine mem_graphsIn.trans (exists_congr fun name => ?_)
  rw [represents, and_comm]

theorem statementsIn_eq (context : Option Term) :
    m.statementsIn context = quads.statementsIn context :=
  SortedSet.ext fun _ => represents.mem_statementsIn

theorem fst_add (t : Triple) (context : Option Term) :
    (m.add t context).1 = decide (⟨context, t⟩ ∉ quads) :=
  Memory.fst_add.trans (decide_eq_decide.mpr (not_congr (represents context t)))

theorem fst_remove (t : Triple) (context : Option Term) :
    (m.remove t context).1 = !(quads.hits t context).isEmpty := by
  rw [Bool.eq_iff_iff, Memory.fst_remove, mem_graphsIn, Bool.not_eq_true',
    SortedSet.isEmpty_eq_false_iff]
  simp only [represents _ t, Quads.mem_hits]
  constructor
  · rintro ⟨name, inside, member⟩
    exact ⟨⟨name, t⟩, member, inside, rfl⟩
  · rintro ⟨⟨name, _⟩, member, inside, rfl⟩
    exact ⟨name, inside, member⟩

theorem size_eq : m.size = (quads.statementsIn none).size :=
  congrArg SortedSet.size (represents.statementsIn_eq none)

theorem isEmpty_eq : m.isEmpty = quads.isEmpty := by
  rw [← Quads.isEmpty_statementsIn, ← represents.statementsIn_eq, Bool.eq_iff_iff,
    SortedSet.isEmpty_iff_not_mem, isEmpty, List.all_eq_true]
  simp only [SortedSet.isEmpty_iff_not_mem, statementsIn, SortedSet.mem_ofList, List.mem_flatMap]
  constructor
  · rintro none t ⟨graph, held, member⟩
    exact none graph held t member
  · exact fun none graph held t member => none t ⟨graph, held, member⟩

theorem contexts_eq : m.contexts = quads.contexts.toList := by
  refine Increasing.ext ?_ quads.contexts.increasing fun c => ?_
  · have ordered := List.pairwise_map.mp m.graphs.increasing
    refine List.pairwise_filterMap.mpr (ordered.imp fun {entry other} less c named d also => ?_)
    obtain ⟨_, here⟩ := Option.ite_none_left_eq_some.mp named
    obtain ⟨_, there⟩ := Option.ite_none_left_eq_some.mp also
    rw [here, there] at less
    exact less
  · rw [SortedSet.mem_toList, Quads.mem_contexts, contexts, List.mem_filterMap]
    simp only [← represents (some c), mem_graph, ← SortedMap.mem_entries_iff]
    constructor
    · rintro ⟨⟨_, graph⟩, present, named⟩
      obtain ⟨nonempty, rfl⟩ := Option.ite_none_left_eq_some.mp named
      obtain ⟨t, member⟩ := SortedSet.isEmpty_eq_false_iff.mp (Bool.not_eq_true _ ▸ nonempty)
      exact ⟨t, graph, present, member⟩
    · rintro ⟨t, graph, present, member⟩
      have nonempty := SortedSet.isEmpty_eq_false_of_mem member
      exact ⟨_, present, by rw [nonempty]; rfl⟩

end Represents

/-- A new store holds what it was extended by. -/
theorem statementsIn_extend_empty (evaluatesIntervals : Bool) (ts : List Triple) :
    ((empty evaluatesIntervals).extend ts none).statementsIn none = .ofList ts := by
  have represents := (represents_empty evaluatesIntervals).change (.extend ts none)
  refine SortedSet.ext fun t => represents.mem_statementsIn.trans ?_
  simp [Quads.mem_statementsIn, Quads.change, Quad.isIn]

/-! ### Queries -/

theorem run_after {evaluatesIntervals : Bool} {history : List Change} {p : Pattern}
    (taken : p.hasInterval = true → evaluatesIntervals = true) (context : Option Term) :
    (after evaluatesIntervals history).run p context =
      .ok (((Quads.after history).statementsIn context).filter p.accepts) := by
  rw [← (represents_after evaluatesIntervals history).statementsIn_eq]
  refine run_eq (built_after evaluatesIntervals history).consistent (fun interval => ?_) context
  rw [evaluatesIntervals_after, taken interval]

theorem answers_after (evaluatesIntervals : Bool) (history : List Change) :
    (after evaluatesIntervals history).source.Answers (fun _ => True)
      (Quads.after history).statementsIn := by
  rw [← funext (represents_after evaluatesIntervals history).statementsIn_eq]
  exact answers_source (built_after evaluatesIntervals history)

theorem triples_eq_of_no_choices {p : Pattern} (none : p.hasChoices = false)
    (context : Option Term) : m.source.triples p context = m.source.choices p context := by
  show (if p.hasChoices then _ else m.run p context) = m.run p context
  rw [none, if_neg Bool.false_ne_true]

/-- The store answers as the quads do: it tells what is new and what was there, counts the
statements, lists the graphs in use, and finds what a pattern accepts. -/
structure Refines (m : Memory) (quads : Quads) : Prop where
  add : ∀ t context, (m.add t context).1 = decide (⟨context, t⟩ ∉ quads)
  remove : ∀ t context, (m.remove t context).1 = !(quads.hits t context).isEmpty
  size : m.size = (quads.statementsIn none).size
  isEmpty : m.isEmpty = quads.isEmpty
  contexts : m.contexts = quads.contexts.toList
  choices : ∀ p context, (p.hasInterval = true → m.evaluatesIntervals = true) →
    m.source.choices p context = .ok ((quads.statementsIn context).filter p.accepts)
  triples : ∀ p context, p.hasChoices = false →
    m.source.triples p context = m.source.choices p context
  contains : ∀ t context, m.source.contains t context = .ok (decide (t ∈ quads.statementsIn context))
  count : ∀ p context, p.hasChoices = false →
    m.source.count p context = (m.source.choices p context).map SortedSet.size

/-- Whatever was done to a store before, it answers as the quads that are left. -/
theorem refines_after (evaluatesIntervals : Bool) (history : List Change) :
    (after evaluatesIntervals history).Refines (Quads.after history) := by
  have represents := represents_after evaluatesIntervals history
  have same := evaluatesIntervals_after evaluatesIntervals history
  exact
    { add := represents.fst_add
      remove := represents.fst_remove
      size := represents.size_eq
      isEmpty := represents.isEmpty_eq
      contexts := represents.contexts_eq
      choices := fun _ context taken => run_after (same ▸ taken) context
      triples := fun _ context none => triples_eq_of_no_choices none context
      contains := fun t context => Source.contains_eq_of_triples <|
        (triples_eq_of_no_choices rfl context).trans <|
          run_after (fun interval => by cases interval) context
      count := fun p context none => by
        rw [Source.count, triples_eq_of_no_choices none] }

end Memory

end TripleQuery.Store
