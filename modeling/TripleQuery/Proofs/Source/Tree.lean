import TripleQuery.Layer.Stack
import TripleQuery.Proofs.Source.Views
import TripleQuery.Proofs.Store.Simulation
import TripleQuery.Sample

/-!
Trees of stores, chosen graphs, merged sources and interval layers. What a tree holds is told by
unions of the quads at its leaves, and every query that the tree takes is answered from that. Only
where intervals come to a table do their bounds have to be of one kind.
-/

namespace TripleQuery

open Store (Change Memory Table Quads)

/-- How a source was put together. A store is told by what was done to it. -/
inductive SourceTree where
  | memory (evaluatesIntervals : Bool) (history : List Change)
  | table (history : List Change)
  | subset (inner : SourceTree) (contexts : SortedSet Term)
  | merge (members : List SourceTree)
  | layered (inner : SourceTree)

namespace SourceTree

mutual

def source : SourceTree → Source
  | memory evaluatesIntervals history => (Memory.after evaluatesIntervals history).source
  | table history => (Table.after history).source
  | subset inner contexts => inner.source.subset contexts
  | merge members => .merge (sources members)
  | layered inner => inner.source.under [.interval]

def sources : List SourceTree → List Source
  | [] => []
  | first :: rest => first.source :: sources rest

end

mutual

/-- The statements in a context, or in all graphs. -/
def holds : SourceTree → Option Term → SortedSet Triple
  | memory _ history, context | table history, context => (Quads.after history).statementsIn context
  | subset inner contexts, context => Source.heldWithin contexts inner.holds context
  | merge members, context => holdTogether members context
  | layered inner, context => inner.holds context

def holdTogether : List SourceTree → Option Term → SortedSet Triple
  | [], _ => ∅
  | first :: rest, context => first.holds context ∪ holdTogether rest context

end

theorem sources_eq (members : List SourceTree) : sources members = members.map source := by
  induction members with
  | nil => rfl
  | cons first rest ih => exact congrArg (first.source :: ·) ih

theorem holdTogether_eq (members : List SourceTree) (context : Option Term) :
    holdTogether members context = .unions (members.map fun member => member.holds context) := by
  induction members with
  | nil => rfl
  | cons first rest ih => exact congrArg (first.holds context ∪ ·) ih

mutual

/-- Whether some table is asked for the intervals that the tree is asked for. -/
def asksTable : SourceTree → Bool
  | memory _ _ => false
  | table _ => true
  | subset inner _ => inner.asksTable
  | merge members => (Source.merge (sources members)).evaluatesIntervals && anyAsksTable members
  | layered inner => inner.asksTable

def anyAsksTable : List SourceTree → Bool
  | [] => false
  | first :: rest => first.asksTable || anyAsksTable rest

end

theorem anyAsksTable_of_mem {members : List SourceTree} {member : SourceTree}
    (present : member ∈ members) (asks : member.asksTable = true) :
    anyAsksTable members = true := by
  induction members with
  | nil => exact absurd present List.not_mem_nil
  | cons first rest ih =>
    rw [anyAsksTable, Bool.or_eq_true]
    rcases List.mem_cons.mp present with rfl | later
    · exact .inl asks
    · exact .inr (ih later)

/-- The intervals that the tree finds by their meaning: all of them, unless they come to a table. -/
def Reads (tree : SourceTree) (bounds : Interval) : Prop := tree.asksTable = true → bounds.Uniform

instance (tree : SourceTree) : DecidablePred tree.Reads := fun bounds =>
  inferInstanceAs (Decidable (tree.asksTable = true → bounds.Uniform))

mutual

theorem answers : ∀ tree : SourceTree, tree.source.Answers tree.Reads tree.holds
  | memory evaluatesIntervals history =>
    (Memory.answers_after evaluatesIntervals history).mono fun _ _ => trivial
  | table history => (Table.answers_after history).mono fun _ reads => reads rfl
  | subset inner contexts => Source.answers_subset (answers inner) contexts
  | merge members => by
    show (Source.merge (sources members)).Answers _ (holdTogether members)
    have passed : (Source.merge (sources members)).evaluatesIntervals = true →
        ∀ member ∈ members, ∀ bounds, (merge members).Reads bounds → member.Reads bounds := by
      intro evaluates member present bounds reads asks
      refine reads ?_
      rw [asksTable, evaluates, Bool.true_and]
      exact anyAsksTable_of_mem present asks
    rw [sources_eq] at passed ⊢
    rw [funext (holdTogether_eq members)]
    exact Source.answers_merge members (answers_members members) passed
  | layered inner => Source.answers_withIntervals (answers inner)

theorem answers_members : ∀ members : List SourceTree, ∀ member ∈ members,
    member.source.Answers member.Reads member.holds
  | [] => fun _ present => absurd present List.not_mem_nil
  | first :: rest => List.forall_mem_cons.mpr ⟨answers first, answers_members rest⟩

end

/-- What is held in the context and accepted is found by listing; where no lists are given, it is
also found and counted without them. -/
theorem choices_eq_holds (tree : SourceTree) (context : Option Term) (p : Pattern)
    (placed : p.WellPlaced)
    (taken : p.hasInterval = true → tree.source.evaluatesIntervals = true) :
    let found := (tree.holds context).filter p.accepts
    tree.source.choices p context = .ok found ∧
      (p.hasChoices = false → tree.source.triples p context = .ok found ∧
        tree.source.count p context = .ok found.size) ∧
      ∀ t, tree.source.contains t context = .ok (decide (t ∈ tree.holds context)) := by
  have reads : p.Allowed tree.Reads := fun bounds within _ => placed.2 bounds within
  refine ⟨tree.answers .listed p context ⟨placed.1, taken, by simp⟩ reads, fun none => ?_,
    fun t => ?_⟩
  · have found := tree.answers .plain p context ⟨placed.1, taken, fun _ => none⟩ reads
    refine ⟨found, ?_⟩
    rw [Source.count, show tree.source.triples p context = _ from found]
    rfl
  · exact (tree.answers.contains t context)

end SourceTree

namespace Sample

/-- Scores kept in three places. Of the first only the graph of the club is shown, and the second
takes intervals by its layer. -/
def scores : SourceTree :=
  .merge
    [.subset (.memory true
        [.add ⟨name "ann", score, .integer 3⟩ (some (name "club")),
          .add ⟨name "bob", score, .integer 4⟩ none])
      (.singleton (name "club")),
    .layered (.memory false
      [.extend [⟨name "cid", score, .integer 5⟩, ⟨name "dan", score, .integer 50⟩] none,
        .remove ⟨name "cid", score, .integer 5⟩ none]),
    .table [.extend [⟨name "ann", score, .integer 3⟩, ⟨name "eve", score, .integer 9⟩] none]]

def lowScore : Pattern := ⟨.any, .exact score, .within ⟨some (.integer 2), some (.integer 10)⟩⟩

theorem choices_lowScore :
    lowScore.WellPlaced ∧ scores.source.evaluatesIntervals = true ∧
      scores.source.choices lowScore none =
        .ok (.ofList [⟨name "ann", score, .integer 3⟩, ⟨name "eve", score, .integer 9⟩]) ∧
      scores.source.count lowScore none = .ok 2 ∧
      scores.source.contains ⟨name "bob", score, .integer 4⟩ none = .ok false := by
  have placed : lowScore.WellPlaced := by
    refine ⟨⟨rfl, rfl⟩, ?_⟩
    rintro _ ⟨⟩ _ ⟨⟩ _ ⟨⟩
    rfl
  have taken : scores.source.evaluatesIntervals = true := rfl
  have held : (scores.holds none).filter lowScore.accepts =
      .ofList [⟨name "ann", score, .integer 3⟩, ⟨name "eve", score, .integer 9⟩] := by
    decide +kernel
  have hidden : (⟨name "bob", score, .integer 4⟩ : Triple) ∉ scores.holds none := by decide
  obtain ⟨listed, plain, contains⟩ :=
    scores.choices_eq_holds none lowScore placed fun _ => taken
  rw [held] at listed plain
  refine ⟨placed, taken, listed, (plain rfl).2, ?_⟩
  rw [contains, decide_eq_false hidden]

end Sample

end TripleQuery
