import TripleQuery.Proofs.Store.Refinement
import TripleQuery.Proofs.Store.Table

/-!
A table simulates a store in memory that evaluates intervals. Its rows are the encoded quads, in
some order, so that both stores return the same whatever was done to them; where the store in memory
tells whether something was there, the table tells how often.
-/

namespace TripleQuery

namespace Store

namespace Row

def ofQuad (q : Quad) : Row := ofTriple q.triple q.context

theorem contextOf_inj {a b : Option Term} : contextOf a = contextOf b ↔ a = b := by
  cases a with
  | none =>
    cases b with
    | none => simp
    | some b => simpa [contextOf] using (b.encode_ne_empty).symm
  | some a =>
    cases b with
    | none => simpa [contextOf] using a.encode_ne_empty
    | some b => simp [contextOf, Term.encode_inj]

variable {t u : Triple} {context graph : Option Term}

theorem sameStatement_ofTriple :
    (ofTriple t context).sameStatement (ofTriple u graph) = decide (u = t) := by
  obtain ⟨a, b, c⟩ := t
  obtain ⟨x, y, z⟩ := u
  simp [sameStatement, ofTriple, Term.encode_inj, eq_comm]

theorem sameEntry_ofTriple : (ofTriple t context).sameEntry (ofTriple u graph) =
    decide (graph = context ∧ u = t) := by
  obtain ⟨a, b, c⟩ := t
  obtain ⟨x, y, z⟩ := u
  simp [sameEntry, ofTriple, Term.encode_inj, contextOf_inj, eq_comm]

theorem isIn_ofTriple : (context.all fun c => decide ((ofTriple t graph).context = c.encode)) =
    (⟨graph, t⟩ : Quad).isIn context := by
  cases context with
  | none => simp [Quad.isIn]
  | some c =>
    rw [Quad.isIn, Option.all_some, Option.all_some, decide_eq_decide]
    exact contextOf_inj (b := some c)

theorem ofQuad_inj {a b : Quad} : ofQuad a = ofQuad b ↔ a = b := by
  constructor
  · intro same
    have entries : (ofQuad a).sameEntry (ofQuad b) = true := by simp [same, sameEntry]
    rw [ofQuad, ofQuad, sameEntry_ofTriple, decide_eq_true_eq] at entries
    exact (Quad.mk.injEq ..).mpr ⟨entries.1.symm, entries.2.symm⟩
  · rintro rfl
    rfl

/-- Whether a removal takes the row. -/
def isTaken (t : Triple) (context : Option Term) (r : Row) : Bool :=
  if context.isSome then (ofTriple t context).sameEntry r else (ofTriple t context).sameStatement r

theorem isTaken_ofQuad (q : Quad) :
    (ofQuad q).isTaken t context = (q.isIn context && decide (q.triple = t)) := by
  cases context with
  | none => simp [isTaken, ofQuad, sameStatement_ofTriple, Quad.isIn]
  | some c => simp [isTaken, ofQuad, sameEntry_ofTriple, Quad.isIn]

end Row

namespace Table

/-! ### The quads held -/

def change (t : Table) : Change → Table
  | .add statement context => (t.add statement context).2
  | .extend statements context => (t.extend statements context).2
  | .remove statement context => (t.remove statement context).2

/-- What changes make of an empty table, from the first to the last. -/
def after (history : List Change) : Table := history.foldl change empty

/-- The rows are those of the quads, in some order. -/
def Represents (t : Table) (quads : Quads) : Prop :=
  ∃ order : List Quad, t.rows = order.map Row.ofQuad ∧ order.Perm quads.toList

theorem represents_empty : Represents empty ∅ := ⟨[], rfl, .nil⟩

variable {t : Table} {quads : Quads} {statement : Triple} {context : Option Term}

theorem any_sameEntry (represents : t.Represents quads) :
    t.rows.any (Row.ofTriple statement context).sameEntry =
      decide (⟨context, statement⟩ ∈ quads) := by
  obtain ⟨order, rows, same⟩ := represents
  rw [rows, List.any_map, Bool.eq_iff_iff, List.any_eq_true, decide_eq_true_eq,
    ← SortedSet.mem_toList, ← same.mem_iff]
  simp only [Function.comp, Row.ofQuad, Row.sameEntry_ofTriple, decide_eq_true_eq]
  constructor
  · rintro ⟨q, member, rfl, rfl⟩
    exact member
  · exact fun member => ⟨_, member, rfl, rfl⟩

theorem add_of_mem (represents : t.Represents quads) (member : ⟨context, statement⟩ ∈ quads) :
    t.add statement context = (false, t) := by
  rw [add, any_sameEntry represents, if_pos (decide_eq_true member)]

theorem add_of_not_mem (represents : t.Represents quads)
    (absent : ⟨context, statement⟩ ∉ quads) :
    t.add statement context = (true, ⟨t.rows ++ [Row.ofTriple statement context]⟩) := by
  rw [add, any_sameEntry represents, if_neg (by simpa using absent)]

theorem Represents.fst_add (represents : t.Represents quads) (statement : Triple)
    (context : Option Term) :
    (t.add statement context).1 = decide (⟨context, statement⟩ ∉ quads) := by
  by_cases member : (⟨context, statement⟩ : Quad) ∈ quads
  · simp [add_of_mem represents member, member]
  · simp [add_of_not_mem represents member, member]

theorem Represents.add (represents : t.Represents quads) (statement : Triple)
    (context : Option Term) :
    (t.add statement context).2.Represents (quads.change (.add statement context)) := by
  by_cases member : (⟨context, statement⟩ : Quad) ∈ quads
  · rw [add_of_mem represents member, Quads.change, SortedSet.insert_of_mem member]
    exact represents
  · rw [add_of_not_mem represents member]
    obtain ⟨order, rows, same⟩ := represents
    refine ⟨order ++ [⟨context, statement⟩], by rw [List.map_append, ← rows]; rfl, ?_⟩
    exact (List.perm_append_singleton _ _).trans
      ((same.cons _).trans (SortedSet.perm_insert member))

theorem remove_eq (t : Table) (statement : Triple) (context : Option Term) :
    t.remove statement context = ((t.rows.filter (Row.isTaken statement context)).length,
      ⟨t.rows.filter fun r => !r.isTaken statement context⟩) := rfl

theorem Represents.fst_remove (represents : t.Represents quads) (statement : Triple)
    (context : Option Term) :
    (t.remove statement context).1 = (quads.hits statement context).size := by
  obtain ⟨order, rows, same⟩ := represents
  rw [remove_eq, rows, List.filter_map, List.length_map,
    show Row.isTaken statement context ∘ Row.ofQuad = _ from funext Row.isTaken_ofQuad]
  exact (same.filter _).length_eq

theorem Represents.remove (represents : t.Represents quads) (statement : Triple)
    (context : Option Term) :
    (t.remove statement context).2.Represents (quads.change (.remove statement context)) := by
  obtain ⟨order, rows, same⟩ := represents
  rw [remove_eq]
  refine ⟨_, (congrArg (List.filter _) rows).trans List.filter_map,
    (same.filter _).trans (.of_eq (List.filter_congr fun q member => ?_))⟩
  rw [Function.comp, Row.isTaken_ofQuad, Bool.eq_iff_iff, Bool.not_eq_true', ← Bool.not_eq_true,
    Bool.and_eq_true, decide_eq_true_eq, decide_eq_true_eq, Quads.mem_hits,
    and_iff_right (SortedSet.mem_toList.mp member)]

/-- Adding one after another counts what the set grows by. -/
theorem Represents.extend (represents : t.Represents quads) (statements : List Triple)
    (context : Option Term) :
    (t.extend statements context).2.Represents (quads.change (.extend statements context)) ∧
      (t.extend statements context).1 + quads.size =
        (quads.change (.extend statements context)).size := by
  rw [← Nat.zero_add (quads.change (.extend statements context)).size]
  unfold Table.extend
  -- the count so far is carried along, so the induction is for any count
  generalize 0 = added
  induction statements generalizing t quads added with
  | nil => exact ⟨represents, rfl⟩
  | cons statement rest ih =>
    rw [Quads.change_extend_cons, List.foldl_cons]
    obtain ⟨left, counted⟩ := ih (represents.add statement context)
      (if (t.add statement context).1 then added + 1 else added)
    refine ⟨left, ?_⟩
    have step : (if (t.add statement context).1 then added + 1 else added) + quads.size =
        added + (quads.change (.add statement context)).size := by
      rw [represents.fst_add, Quads.size_change_add]
      by_cases member : (⟨context, statement⟩ : Quad) ∈ quads <;> simp [member]
      omega
    show (rest.foldl _ (if (t.add statement context).1 then added + 1 else added,
      (t.add statement context).2)).1 + quads.size = _
    omega

theorem Represents.fst_extend (represents : t.Represents quads) (statements : List Triple)
    (context : Option Term) :
    (t.extend statements context).1 = (quads.broughtBy (.extend statements context)).size := by
  have counted := (represents.extend statements context).2
  have grown : (quads.change (.extend statements context)).size =
      quads.size + (quads.broughtBy (.extend statements context)).size :=
    SortedSet.size_filter_not_mem fun q member => SortedSet.mem_insertMany.mpr (.inr member)
  omega

theorem Represents.change (represents : t.Represents quads) (c : Change) :
    (t.change c).Represents (quads.change c) := by
  cases c with
  | add statement context => exact represents.add statement context
  | extend statements context => exact (represents.extend statements context).1
  | remove statement context => exact represents.remove statement context

theorem represents_after (history : List Change) :
    (after history).Represents (Quads.after history) :=
  List.foldl_rel represents_empty fun c _ _ _ represents => represents.change c

theorem Built.change (built : t.Built) (c : Change) : (t.change c).Built := by
  cases c with
  | add statement context => exact .add built statement context
  | extend statements context => exact .extend built statements context
  | remove statement context => exact .remove built statement context

theorem built_after (history : List Change) : (after history).Built :=
  List.foldlRecOn history Table.change .empty fun _ built c _ => built.change c

/-! ### What is counted and found -/

/-- Of the rows that state the same, one is left. -/
theorem distinctRows_map (order : List Quad) :
    ∃ kept : List Quad, distinctRows (order.map Row.ofQuad) = kept.map Row.ofQuad ∧
      (kept.map Quad.triple).Nodup ∧
        ∀ t, t ∈ kept.map Quad.triple ↔ t ∈ order.map Quad.triple := by
  induction order with
  | nil => exact ⟨[], rfl, .nil, fun _ => .rfl⟩
  | cons q rest ih =>
    obtain ⟨kept, others, distinct, same⟩ := ih
    have repeated : (kept.map Row.ofQuad).any (Row.ofQuad q).sameStatement =
        decide (q.triple ∈ kept.map Quad.triple) := by
      rw [List.any_map, Bool.eq_iff_iff, List.any_eq_true, decide_eq_true_eq, List.mem_map]
      simp [Row.ofQuad, Row.sameStatement_ofTriple]
    rw [List.map_cons, distinctRows, others, repeated]
    split
    · rename_i member
      have member := of_decide_eq_true member
      refine ⟨kept, rfl, distinct, fun t => ?_⟩
      rw [List.map_cons, List.mem_cons, ← same, iff_or_self]
      rintro rfl
      exact member
    · rename_i absent
      refine ⟨q :: kept, rfl, List.nodup_cons.mpr ⟨by simpa using absent, distinct⟩, fun t => ?_⟩
      rw [List.map_cons, List.map_cons, List.mem_cons, List.mem_cons, same]

namespace Represents

variable (represents : t.Represents quads)

include represents

theorem size_eq : t.size = (quads.statementsIn none).size := by
  obtain ⟨order, rows, reordered⟩ := represents
  obtain ⟨kept, others, distinct, same⟩ := distinctRows_map order
  rw [size, rows, others, List.length_map, ← List.length_map Quad.triple]
  refine (SortedSet.perm_toList distinct fun t => ?_).length_eq
  rw [same, (reordered.map Quad.triple).mem_iff, Quads.mem_statementsIn, List.mem_map]
  constructor
  · rintro ⟨q, member, rfl⟩
    exact ⟨q.context, member, rfl⟩
  · rintro ⟨graph, member, _⟩
    exact ⟨_, member, rfl⟩

theorem isEmpty_eq : t.isEmpty = quads.isEmpty := by
  rw [← Quads.isEmpty_statementsIn, isEmpty, represents.size_eq, Bool.eq_iff_iff, beq_iff_eq]
  exact List.length_eq_zero_iff.trans List.isEmpty_iff.symm

theorem lawful : t.Lawful := by
  obtain ⟨order, rows, _⟩ := represents
  intro row member
  rw [rows] at member
  obtain ⟨q, _, rfl⟩ := List.mem_map.mp member
  exact ⟨q.triple, q.context, rfl⟩

theorem statementsIn_eq (context : Option Term) :
    t.statementsIn context = quads.statementsIn context := by
  apply SortedSet.ext
  intro statement
  rw [mem_statementsIn represents.lawful, Quads.mem_statementsIn]
  refine exists_congr fun graph => ?_
  obtain ⟨order, rows, same⟩ := represents
  have held : Row.ofTriple statement graph ∈ t.rows ↔ (⟨graph, statement⟩ : Quad) ∈ quads := by
    rw [rows, ← SortedSet.mem_toList, ← same.mem_iff]
    constructor
    · intro found
      obtain ⟨q, member, same⟩ := List.mem_map.mp found
      exact (Row.ofQuad_inj (b := ⟨graph, statement⟩)).mp same ▸ member
    · exact List.mem_map_of_mem
  rw [rowsIn, List.mem_filter, held, Row.isIn_ofTriple]

end Represents

theorem run_after (history : List Change) {p : Pattern} (placed : p.WellPlaced)
    (context : Option Term) : (after history).run p context =
      .ok (((Quads.after history).statementsIn context).filter p.accepts) := by
  rw [← (represents_after history).statementsIn_eq]
  exact run_eq (represents_after history).lawful placed context

theorem answers_after (history : List Change) :
    (after history).source.Answers Interval.Uniform (Quads.after history).statementsIn := by
  rw [← funext (represents_after history).statementsIn_eq]
  exact answers_source (built_after history)

theorem select_after (history : List Change) (mode : Mode) {p : Pattern} (placed : p.WellPlaced)
    (context : Option Term) : (after history).source.select mode p context =
      (Memory.after true history).source.select mode p context := by
  have run : (after history).run p context = (Memory.after true history).run p context := by
    rw [run_after history placed, Memory.run_after fun _ => rfl]
  cases mode with
  | plain => exact if_congr Iff.rfl rfl run
  | listed => exact run

/-- Both stores return the same; where the store in memory tells whether a statement was there, the
table tells in how many graphs. What a query meets that is not answered is an invalid input. -/
structure Simulates (t : Table) (m : Memory) (quads : Quads) : Prop where
  add : ∀ statement context, (t.add statement context).1 = (m.add statement context).1
  extend : ∀ statements context,
    (t.extend statements context).1 = (quads.broughtBy (.extend statements context)).size
  remove : ∀ statement context,
    (t.remove statement context).1 = (quads.hits statement context).size
  remove_pos : ∀ statement context,
    0 < (t.remove statement context).1 ↔ (m.remove statement context).1 = true
  size : t.size = m.size
  isEmpty : t.isEmpty = m.isEmpty
  select : ∀ mode p context, p.WellPlaced →
    t.source.select mode p context = m.source.select mode p context
  invalid : ∀ mode p context fault, p.WellPlaced →
    t.source.select mode p context = .error fault → fault.category = .invalidInput

/-- Whatever is done to a table and to a store in memory alike, the table simulates the store. -/
theorem simulates_after (history : List Change) :
    (after history).Simulates (Memory.after true history) (Quads.after history) := by
  have represents := represents_after history
  have inMemory := Memory.represents_after true history
  exact
    { add := fun statement context => by
        rw [represents.fst_add, inMemory.fst_add]
      extend := represents.fst_extend
      remove := represents.fst_remove
      remove_pos := fun statement context => by
        rw [represents.fst_remove, inMemory.fst_remove, Bool.not_eq_true', ← Bool.not_eq_true,
          SortedSet.isEmpty, List.isEmpty_iff_length_eq_zero]
        exact Nat.pos_iff_ne_zero
      size := represents.size_eq.trans inMemory.size_eq.symm
      isEmpty := represents.isEmpty_eq.trans inMemory.isEmpty_eq.symm
      select := fun mode p context placed => select_after history mode placed context
      invalid := fun mode p context fault placed failed => by
        have answered := run_after history placed context
        cases mode with
        | plain =>
          simp only [source, Table.select] at failed
          split at failed
          · cases failed
            rfl
          · rw [answered] at failed
            cases failed
        | listed =>
          rw [show (after history).source.select .listed p context = _ from answered] at failed
          cases failed }

/-- Removed from every graph, a statement is counted once for each graph that held it. -/
example : ((after [.add ⟨.iri "ann", .iri "age", .integer 3⟩ none,
    .extend [⟨.iri "ann", .iri "age", .integer 3⟩] (some (.iri "club"))]).remove
      ⟨.iri "ann", .iri "age", .integer 3⟩ none).1 = 2 := by
  decide

end Table

end Store

end TripleQuery
