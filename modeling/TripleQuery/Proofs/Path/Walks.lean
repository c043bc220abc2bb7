import TripleQuery.Proofs.Graph.Operations
import TripleQuery.Proofs.Path.Legs

/-!
The prepared paths of a graph as walks over its edges. The paths from a node are the hops of the
walks that pass no node twice and stop at the first anchor: each of these walks gives one path, and
no path is without its walk.
-/

namespace TripleQuery.Graph

variable {g : Graph}

/-! ### Walks -/

/-- The legs of a walk, the first of which is taken from where the walk starts. -/
abbrev Walk := List Leg

/-- The nodes that the legs of a walk are taken from. -/
def passed (n : NodeId) : Walk → List NodeId
  | [] => []
  | leg :: rest => n :: passed leg.next rest

def arrival (n : NodeId) : Walk → NodeId
  | [] => n
  | leg :: rest => arrival leg.next rest

def AllowsAll (g : Graph) (n : NodeId) : Walk → Prop
  | [] => True
  | leg :: rest => g.Allows n leg ∧ g.AllowsAll leg.next rest

def hopsAlong (g : Graph) (n : NodeId) : Walk → Path
  | [] => []
  | leg :: rest => g.hopAlong n leg :: g.hopsAlong leg.next rest

/-- A walk to an anchor that passes no anchor on its way, and no node twice. -/
structure Anchors (g : Graph) (start : NodeId) (walk : Walk) : Prop where
  ne_nil : walk ≠ []
  allowed : g.AllowsAll start walk
  nodup : (passed start walk).Nodup
  unsolved : ∀ n ∈ passed start walk, g.isAnchor n = false
  anchored : g.isAnchor (arrival start walk) = true

/-! ### Walks in the order of their paths -/

/-- The walks through free nodes to an anchor, a leg for each hop of `pathsThrough`. -/
def walksThrough (g : Graph) (free : List NodeId) (n : NodeId) : List Walk :=
  if g.isAnchor n then [[]]
  else if _inside : n ∈ free then
    (g.legs n).flatMap fun leg => (walksThrough g (free.erase n) leg.next).map (leg :: ·)
  else []
termination_by free.length
decreasing_by exact Traversal.length_erase_lt _inside

theorem pathsThrough_eq (g : Graph) (free : List NodeId) (n : NodeId) :
    g.pathsThrough free n = (g.walksThrough free n).map (g.hopsAlong n) := by
  fun_induction walksThrough g free n with
  | case1 free n anchor =>
    rw [pathsThrough, if_pos anchor]
    rfl
  | case2 free n unsolved inside ih =>
    rw [pathsThrough_eq_flatMap_legs unsolved inside, List.map_flatMap]
    congr 1
    funext leg
    rw [ih, List.map_map, List.map_map]
    rfl
  | case3 free n unsolved outside =>
    rw [pathsThrough, if_neg unsolved, dif_neg outside]
    rfl

theorem nodup_walksThrough (distinct : g.Distinct) (free : List NodeId) (n : NodeId) :
    (g.walksThrough free n).Nodup := by
  fun_induction walksThrough g free n with
  | case1 => exact List.pairwise_singleton _ _
  | case2 free n unsolved inside ih =>
    refine List.pairwise_flatMap.mpr ⟨fun leg _ => ?_, (nodup_legs distinct n).imp ?_⟩
    · exact List.pairwise_map.mpr ((ih leg).imp fun other same => other (List.cons.inj same).2)
    · intro leg leg' other walk first walk' second same
      obtain ⟨_, _, rfl⟩ := List.mem_map.mp first
      obtain ⟨_, _, rfl⟩ := List.mem_map.mp second
      exact other (List.cons.inj same).1
  | case3 => exact List.nodup_nil

theorem cons_mem_walksThrough (linked : g.Linked) {free : List NodeId} {n : NodeId} {leg : Leg}
    {rest : Walk} : leg :: rest ∈ g.walksThrough free n ↔
      g.isAnchor n = false ∧ n ∈ free ∧ g.Allows n leg ∧
        rest ∈ g.walksThrough (free.erase n) leg.next := by
  rw [walksThrough]
  by_cases anchor : g.isAnchor n = true
  · simp [anchor]
  by_cases inside : n ∈ free
  · simp [anchor, inside, mem_legs linked]
  · simp [anchor, inside]

theorem nil_mem_walksThrough {free : List NodeId} {n : NodeId} :
    [] ∈ g.walksThrough free n ↔ g.isAnchor n = true := by
  rw [walksThrough]
  split
  · rename_i anchor
    simp [anchor]
  · rename_i unsolved
    refine iff_of_false ?_ unsolved
    split <;> simp

/-- The walks that are enumerated keep to free nodes, and none of those that do is missing. -/
theorem mem_walksThrough (linked : g.Linked) {walk : Walk} {free : List NodeId}
    (distinct : free.Nodup) {n : NodeId} : walk ∈ g.walksThrough free n ↔
      g.AllowsAll n walk ∧ (passed n walk).Nodup ∧
        (∀ m ∈ passed n walk, m ∈ free ∧ g.isAnchor m = false) ∧
          g.isAnchor (arrival n walk) = true := by
  induction walk generalizing free n with
  | nil => simp [nil_mem_walksThrough, AllowsAll, passed, arrival]
  | cons leg rest ih =>
    have left : ∀ m, m ∈ free.erase n ↔ m ≠ n ∧ m ∈ free := fun m => distinct.mem_erase_iff
    rw [cons_mem_walksThrough linked, ih (distinct.erase n), AllowsAll, passed, arrival,
      List.nodup_cons, List.forall_mem_cons]
    simp only [left]
    constructor
    · rintro ⟨unsolved, inside, allowed, further, simple, through, anchored⟩
      have fresh : n ∉ passed leg.next rest := fun again => (through n again).1.1 rfl
      exact ⟨⟨allowed, further⟩, ⟨fresh, simple⟩,
        ⟨⟨inside, unsolved⟩, fun m member => ⟨(through m member).1.2, (through m member).2⟩⟩,
        anchored⟩
    · rintro ⟨⟨allowed, further⟩, ⟨fresh, simple⟩, ⟨⟨inside, unsolved⟩, through⟩, anchored⟩
      refine ⟨unsolved, inside, allowed, further, simple, fun m member => ?_, anchored⟩
      have other : m ≠ n := fun same => fresh (same ▸ member)
      exact ⟨⟨other, (through m member).1⟩, (through m member).2⟩

/-! ### Walks from a node -/

/-- What is no anchor is a node of the graph. -/
theorem mem_nodeIds_of_unsolved {n : NodeId} (unsolved : g.isAnchor n = false) : n ∈ g.nodeIds := by
  refine List.mem_range.mpr (Nat.lt_of_not_le fun outside => ?_)
  rw [isAnchor, token, node_of_le n outside] at unsolved
  cases unsolved

theorem mem_walks (linked : g.Linked) {start : NodeId} (unsolved : g.isAnchor start = false)
    {walk : Walk} : walk ∈ g.walksThrough g.nodeIds start ↔ g.Anchors start walk := by
  have distinct : g.nodeIds.Nodup := List.nodup_range
  rw [mem_walksThrough linked distinct]
  constructor
  · rintro ⟨allowed, simple, through, anchored⟩
    refine ⟨?_, allowed, simple, fun n member => (through n member).2, anchored⟩
    rintro rfl
    cases unsolved.symm.trans anchored
  · intro anchors
    refine ⟨anchors.allowed, anchors.nodup, fun n member => ?_, anchors.anchored⟩
    exact ⟨mem_nodeIds_of_unsolved (anchors.unsolved n member), anchors.unsolved n member⟩

theorem not_anchors_of_isAnchor {start : NodeId} (anchor : g.isAnchor start = true) (walk : Walk) :
    ¬ g.Anchors start walk := by
  intro anchors
  cases walk with
  | nil => exact anchors.ne_nil rfl
  | cons leg rest => cases anchor.symm.trans (anchors.unsolved start List.mem_cons_self)

/-- Whatever operations made a graph, its paths from a node are the hops of the walks from there to
an anchor, with one path for each walk. An anchor has none. -/
theorem paths_after {operations : List Operation} (made : Graph.empty.KnowsAll operations)
    (start : NodeId) :
    let g := Graph.empty.after operations
    (∃ walks : List Walk, walks.Nodup ∧ (∀ walk, walk ∈ walks ↔ g.Anchors start walk) ∧
      g.paths start = walks.map (g.hopsAlong start)) ∧
    (g.isAnchor start = true → g.paths start = []) := by
  intro g
  have tidy : g.Tidy := tidy_after made
  refine ⟨?_, fun anchor => if_pos anchor⟩
  cases anchor : g.isAnchor start with
  | true =>
    refine ⟨[], List.nodup_nil, fun walk => ?_, if_pos anchor⟩
    exact iff_of_false List.not_mem_nil (not_anchors_of_isAnchor anchor walk)
  | false =>
    refine ⟨g.walksThrough g.nodeIds start, nodup_walksThrough tidy.toDistinct _ _,
      fun walk => mem_walks tidy.toLinked anchor, ?_⟩
    rw [paths, anchor, if_neg Bool.false_ne_true, pathsThrough_eq]

end TripleQuery.Graph

namespace TripleQuery.Sample

/-- Three strangers who told one another something, the first told the second twice. The first is
known to ann and the last knows her; of the one nothing is asked by age, the other is grown up. -/
def rumour : List Graph.Operation :=
  [.addUnknown, .addUnknown, .addUnknown, .addDefined (.iri "ann"), .addInterval .unbounded,
    .addInterval (.above (.integer 18)),
    .relate 0 (.iri "told") 1, .relate 0 (.iri "told") 1, .relate 1 (.iri "told") 2,
    .relate 2 (.iri "told") 0, .relate 1 (.iri "told") 1, .relate 2 (.iri "knows") 3,
    .relate 3 (.iri "knows") 0, .relate 0 (.iri "age") 4, .relate 2 (.iri "age") 5]

theorem made_rumour : Graph.empty.KnowsAll rumour := by decide

/-- Neither the circle nor the stranger who talks to himself is walked through twice. -/
theorem walks_rumour : Graph.empty.KnowsAll rumour ∧
    (∃ walks : List Graph.Walk, walks.Nodup ∧ walks.length = 7 ∧
      ∀ walk, walk ∈ walks ↔ (Graph.empty.after rumour).Anchors 0 walk) ∧
    (Graph.empty.after rumour).paths 3 = [] := by
  obtain ⟨⟨walks, once, anchors, paths⟩, _⟩ := Graph.paths_after made_rumour 0
  refine ⟨made_rumour, ⟨walks, once, ?_, anchors⟩, (Graph.paths_after made_rumour 3).2 rfl⟩
  have count : ((Graph.empty.after rumour).paths 0).length = 7 := by decide +kernel
  rw [paths, List.length_map] at count
  exact count

end TripleQuery.Sample
