import TripleQuery.Proofs.Encoding
import TripleQuery.Proofs.Source.Answers
import TripleQuery.Store.Table

/-!
A table that was built by its operations answers from the statements that its rows encode. What a
slot asks of the columns is what it asks of the terms.
-/

namespace TripleQuery.Store

namespace Row

/-! ### Rows of statements -/

theorem get_ofTriple (t : Triple) (context : Option Term) (i : Position) :
    (ofTriple t context).get i = (t.get i).encode := by
  cases i <;> rfl

theorem term_ofTriple (t : Triple) (context : Option Term) (i : Position) :
    (ofTriple t context).term i = .ok (t.get i) := by
  rw [term, get_ofTriple, Term.decode_encode]

theorem triple_ofTriple (t : Triple) (context : Option Term) :
    (ofTriple t context).triple = .ok t := by
  rw [triple, term_ofTriple, term_ofTriple, term_ofTriple]
  rfl

/-! ### Comparison by columns -/

theorem compare_of_sameKind {a b : Term} (same : a.kind = b.kind) :
    compare a b = (compare a.letters b.letters).then (compare a.number b.number) := by
  have ranks : compare a.kind.rank b.kind.rank = .eq := Nat.compare_eq_eq.mpr (congrArg _ same)
  show (compare a.kind.rank b.kind.rank).then _ = _
  rw [ranks]
  rfl

/-- A bound is compared with the column of numbers or with that of texts, as its kind has it. -/
theorem isBeyond_ofTriple (t : Triple) (context : Option Term) {bound : Term}
    (same : t.object.kind = bound.kind) (side : Ordering) :
    (ofTriple t context).isBeyond side bound = (compare t.object bound == side) := by
  rw [compare_of_sameKind same]
  obtain ⟨subject, predicate, object⟩ := t
  cases object <;> cases bound <;> cases same <;>
    simp [isBeyond, ofTriple, numberOf, lettersOf, Term.letters, Term.number]

theorem beyond_ofTriple (t : Triple) (context : Option Term) (bound : Term) (side : Ordering) :
    (decide ((ofTriple t context).kind = bound.kind.name) &&
      (ofTriple t context).isBeyond side bound) =
        (bound.sameKind t.object && compare t.object bound == side) := by
  by_cases same : t.object.kind = bound.kind
  · rw [isBeyond_ofTriple t context same]
    simp [ofTriple, Term.sameKind, same]
  · have names : t.object.kind.name ≠ bound.kind.name := by
      intro names
      exact same (Kind.name_injective names)
    simp [ofTriple, Term.sameKind, names, Ne.symm same]

theorem above_ofTriple (t : Triple) (context : Option Term) (low : Term) :
    (decide ((ofTriple t context).kind = low.kind.name) &&
      (ofTriple t context).isBeyond .gt low) = (low.sameKind t.object && low.precedes t.object) := by
  have swapped : compare low t.object = (compare t.object low).swap := Std.OrientedCmp.eq_swap
  have flipped : (compare t.object low == .gt) = low.precedes t.object := by
    rw [Term.precedes, swapped]
    cases compare t.object low <;> rfl
  rw [beyond_ofTriple, flipped]

theorem below_ofTriple (t : Triple) (context : Option Term) (high : Term) :
    (decide ((ofTriple t context).kind = high.kind.name) &&
      (ofTriple t context).isBeyond .lt high) =
        (high.sameKind t.object && t.object.precedes high) := by
  have side : (compare t.object high == .lt) = t.object.precedes high := by
    rw [Term.precedes]
    cases compare t.object high <;> rfl
  rw [beyond_ofTriple, side]

theorem isWithin_ofTriple (t : Triple) (context : Option Term) {bounds : Interval}
    (uniform : bounds.Uniform) : (ofTriple t context).isWithin bounds = bounds.contains t.object := by
  obtain ⟨_ | low, _ | high⟩ := bounds
  · rfl
  · have below := below_ofTriple t context high
    simpa [isWithin, Interval.contains] using below
  · have above := above_ofTriple t context low
    simpa [isWithin, Interval.contains] using above
  · have above := above_ofTriple t context low
    have below := below_ofTriple t context high
    rw [← uniform low rfl high rfl] at below
    simp only [isWithin, Interval.contains, Option.or, Option.all_some]
    rw [← above, ← below]
    cases decide ((ofTriple t context).kind = low.kind.name) <;> simp [Bool.and_comm]

/-! ### Conditions -/

theorem mem_encode {terms : List Term} {term : Term} :
    term.encode ∈ terms.map Term.encode ↔ term ∈ terms := by
  constructor
  · intro member
    obtain ⟨other, present, same⟩ := List.mem_map.mp member
    exact Term.encode_injective same ▸ present
  · exact List.mem_map_of_mem

theorem condition_ofTriple {p : Pattern} (placed : p.WellPlaced) (i : Position) :
    ∃ test, condition i (p.get i) = .ok test ∧
      ∀ t context, test (ofTriple t context) = (p.get i).accepts (t.get i) := by
  cases slot : p.get i with
  | any => exact ⟨_, rfl, fun t context => rfl⟩
  | exact term =>
    refine ⟨_, rfl, fun t context => ?_⟩
    simp only [get_ofTriple, Term.encode_inj, Slot.accepts]
    exact decide_eq_decide.mpr eq_comm
  | choices terms =>
    refine ⟨_, rfl, fun t context => ?_⟩
    simp only [get_ofTriple, mem_encode, Slot.accepts]
  | within bounds =>
    cases i with
    | subject =>
      have open_slot := placed.1.1
      rw [show p.subject = _ from slot] at open_slot
      cases open_slot
    | predicate =>
      have open_slot := placed.1.2
      rw [show p.predicate = _ from slot] at open_slot
      cases open_slot
    | object =>
      exact ⟨_, rfl, fun t context => isWithin_ofTriple t context (placed.2 bounds slot)⟩

end Row

namespace Table

/-- The tables that additions and removals lead to. -/
inductive Built : Table → Prop where
  | empty : Built .empty
  | add {t : Table} (built : Built t) (statement : Triple) (context : Option Term) :
      Built (t.add statement context).2
  | extend {t : Table} (built : Built t) (statements : List Triple) (context : Option Term) :
      Built (t.extend statements context).2
  | remove {t : Table} (built : Built t) (statement : Triple) (context : Option Term) :
      Built (t.remove statement context).2

def Lawful (t : Table) : Prop :=
  ∀ row ∈ t.rows, ∃ statement context, row = .ofTriple statement context

theorem lawful_add {t : Table} (lawful : t.Lawful) (statement : Triple) (context : Option Term) :
    (t.add statement context).2.Lawful := by
  simp only [add]
  split
  · exact lawful
  · intro row member
    rcases List.mem_append.mp member with old | new
    · exact lawful row old
    · exact ⟨statement, context, List.mem_singleton.mp new⟩

theorem lawful_extend {t : Table} (lawful : t.Lawful) (statements : List Triple)
    (context : Option Term) : (t.extend statements context).2.Lawful := by
  unfold extend
  generalize 0 = added
  induction statements generalizing t added with
  | nil => exact lawful
  | cons statement rest ih => exact ih (lawful_add lawful statement context) _

theorem lawful_remove {t : Table} (lawful : t.Lawful) (statement : Triple)
    (context : Option Term) : (t.remove statement context).2.Lawful :=
  fun row member => lawful row (List.mem_filter.mp member).1

theorem Built.lawful {t : Table} (built : t.Built) : t.Lawful := by
  induction built with
  | empty => exact fun row member => absurd member List.not_mem_nil
  | add _ statement context ih => exact lawful_add ih statement context
  | extend _ statements context ih => exact lawful_extend ih statements context
  | remove _ statement context ih => exact lawful_remove ih statement context

/-! ### Queries -/

def rowsIn (t : Table) (context : Option Term) : List Row :=
  t.rows.filter fun row => context.all fun c => decide (row.context = c.encode)

def statementsIn (t : Table) (context : Option Term) : SortedSet Triple :=
  .ofList ((t.rowsIn context).filterMap fun row => row.triple.toOption)

theorem readAll_ok {rows : List Row}
    (lawful : ∀ row ∈ rows, ∃ statement context, row = Row.ofTriple statement context) :
    readAll rows = .ok (.ofList (rows.filterMap fun row => row.triple.toOption)) := by
  induction rows with
  | nil => rfl
  | cons row rest ih =>
    obtain ⟨statement, context, rfl⟩ := lawful row List.mem_cons_self
    rw [readAll, ih fun row member => lawful row (List.mem_cons_of_mem _ member),
      List.filterMap_cons, Row.triple_ofTriple]
    rfl

theorem mem_statementsIn {t : Table} (lawful : t.Lawful) {context : Option Term}
    {statement : Triple} :
    statement ∈ t.statementsIn context ↔
      ∃ graph, Row.ofTriple statement graph ∈ t.rowsIn context := by
  rw [statementsIn, SortedSet.mem_ofList, List.mem_filterMap]
  constructor
  · intro found
    obtain ⟨row, inside, read⟩ := found
    obtain ⟨other, graph, rfl⟩ := lawful row (List.mem_filter.mp inside).1
    rw [Row.triple_ofTriple] at read
    cases read
    exact ⟨graph, inside⟩
  · intro found
    obtain ⟨graph, inside⟩ := found
    refine ⟨_, inside, ?_⟩
    rw [Row.triple_ofTriple]
    rfl

/-- Rows chosen by what they state are the statements chosen likewise. -/
theorem readAll_filter {t : Table} (lawful : t.Lawful) {context : Option Term}
    (test : Row → Bool) {accepts : Triple → Bool}
    (passes : ∀ statement graph, test (Row.ofTriple statement graph) = accepts statement) :
    readAll ((t.rowsIn context).filter test) = .ok ((t.statementsIn context).filter accepts) := by
  have stated : ∀ row ∈ (t.rowsIn context).filter test,
      ∃ statement graph, row = Row.ofTriple statement graph := by
    intro row member
    exact lawful row (List.mem_filter.mp (List.mem_filter.mp member).1).1
  rw [readAll_ok stated]
  refine congrArg Except.ok (SortedSet.ext fun statement => ?_)
  rw [SortedSet.mem_ofList, List.mem_filterMap, SortedSet.mem_filter, mem_statementsIn lawful]
  constructor
  · intro found
    obtain ⟨row, chosen, read⟩ := found
    obtain ⟨inside, test⟩ := List.mem_filter.mp chosen
    obtain ⟨other, graph, rfl⟩ := stated row chosen
    rw [Row.triple_ofTriple] at read
    cases read
    rw [passes] at test
    exact ⟨⟨graph, inside⟩, test⟩
  · intro found
    obtain ⟨⟨graph, inside⟩, accepted⟩ := found
    refine ⟨Row.ofTriple statement graph, List.mem_filter.mpr ⟨inside, ?_⟩, ?_⟩
    · rw [passes]
      exact accepted
    · rw [Row.triple_ofTriple]
      rfl

theorem run_eq {t : Table} (lawful : t.Lawful) {p : Pattern} (placed : p.WellPlaced)
    (context : Option Term) :
    t.run p context = .ok ((t.statementsIn context).filter p.accepts) := by
  unfold run
  split
  · rename_i nothing
    refine congrArg Except.ok (SortedSet.ext fun t => ?_)
    simp [Pattern.accepts_of_matchesNothing nothing t]
  · obtain ⟨subject, atSubject, readsSubject⟩ := Row.condition_ofTriple placed .subject
    obtain ⟨predicate, atPredicate, readsPredicate⟩ := Row.condition_ofTriple placed .predicate
    obtain ⟨object, atObject, readsObject⟩ := Row.condition_ofTriple placed .object
    have passes : ∀ statement graph, (subject (Row.ofTriple statement graph) &&
        predicate (Row.ofTriple statement graph) && object (Row.ofTriple statement graph)) =
          p.accepts statement := by
      intro statement graph
      rw [readsSubject, readsPredicate, readsObject]
      rfl
    rw [show Row.condition .subject p.subject = _ from atSubject,
      show Row.condition .predicate p.predicate = _ from atPredicate,
      show Row.condition .object p.object = _ from atObject]
    show readAll _ = _
    rw [← readAll_filter lawful (fun r => subject r && predicate r && object r) passes, rowsIn,
      List.filter_filter]
    refine congrArg readAll (List.filter_congr fun row _ => ?_)
    rw [Bool.and_assoc, Bool.and_assoc, ← Bool.and_assoc (subject row), Bool.and_comm]

theorem answers_source {t : Table} (built : t.Built) :
    t.source.Answers Interval.Uniform t.statementsIn := by
  intro mode p context ⟨placed, _, plain⟩ uniform
  have answer := run_eq built.lawful ⟨placed, uniform⟩ context
  cases mode with
  | listed => exact answer
  | plain =>
    show (if p.hasChoices then _ else t.run p context) = _
    rw [plain rfl, if_neg Bool.false_ne_true, answer]

end Table

end TripleQuery.Store
