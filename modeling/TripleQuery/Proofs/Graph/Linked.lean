import TripleQuery.Proofs.Graph.Frames

/-!
Graphs whose edges and nodes know each other from both sides, with each unknown at one node. Every
operation on nodes and edges that are there keeps a graph so.
-/

namespace TripleQuery.Graph

/-- Edges and nodes know each other from both sides, whatever the nodes stand for. -/
structure Linked (g : Graph) : Prop where
  owner_lt : ∀ e, e < g.edges.length → g.owner e < g.nodes.length
  value_lt : ∀ e, ∀ value ∈ g.values e, value < g.nodes.length
  mem_properties : ∀ n e, e ∈ g.properties n ↔ e < g.edges.length ∧ g.owner e = n
  mem_owners : ∀ n e, e ∈ g.owners n ↔ n ∈ g.values e
  unknown_lt : ∀ n k, g.token n = .unknown k → k < g.nextUnknown
  unknown_inj : ∀ m n k, g.token m = .unknown k → g.token n = .unknown k → m = n

variable {g : Graph}

theorem lt_of_mem_values {e : EdgeId} {value : NodeId} (member : value ∈ g.values e) :
    e < g.edges.length := by
  by_cases inside : e < g.edges.length
  · exact inside
  · rw [values, edge_of_le (Nat.le_of_not_lt inside)] at member
    exact absurd member List.not_mem_nil

theorem lt_of_token_unknown {n : NodeId} {k : Nat} (token : g.token n = .unknown k) :
    n < g.nodes.length := by
  by_cases inside : n < g.nodes.length
  · exact inside
  · rw [Graph.token, node_of_le n (Nat.le_of_not_lt inside)] at token
    cases token

theorem linked_empty : Graph.empty.Linked where
  owner_lt e inside := absurd inside (Nat.not_lt_zero e)
  value_lt e _ member := absurd (lt_of_mem_values member) (Nat.not_lt_zero e)
  mem_properties _ e :=
    ⟨fun member => absurd member List.not_mem_nil, fun found => absurd found.1 (Nat.not_lt_zero e)⟩
  mem_owners _ _ :=
    ⟨fun member => absurd member List.not_mem_nil, fun member => absurd member List.not_mem_nil⟩
  unknown_lt n _ token := absurd (lt_of_token_unknown token) (Nat.not_lt_zero n)
  unknown_inj m _ _ token _ := absurd (lt_of_token_unknown token) (Nat.not_lt_zero m)

theorem Linked.addNode (linked : g.Linked) {token : Token}
    (fresh : ∀ k, token = .unknown k → k < g.nextUnknown ∧ ∀ n, g.token n ≠ .unknown k) :
    (g.addNode token).2.Linked where
  owner_lt e inside := by
    rw [length_nodes_addNode]
    exact Nat.lt_succ_of_lt (linked.owner_lt e inside)
  value_lt e value member := by
    rw [length_nodes_addNode]
    exact Nat.lt_succ_of_lt (linked.value_lt e value member)
  mem_properties n e := by
    rw [properties_addNode]
    exact linked.mem_properties n e
  mem_owners n e := by
    rw [owners_addNode]
    exact linked.mem_owners n e
  unknown_lt n k same := by
    rw [token_addNode] at same
    split at same
    · exact (fresh k same).1
    · exact linked.unknown_lt n k same
  unknown_inj m n k here there := by
    rw [token_addNode] at here there
    split at here
    · split at there
      · rename_i first second
        rw [first, second]
      · exact absurd there ((fresh k here).2 n)
    · split at there
      · exact absurd here ((fresh k there).2 m)
      · exact linked.unknown_inj m n k here there

theorem Linked.addUnknown (linked : g.Linked) : g.addUnknown.2.Linked := by
  have counted : Linked { g with nextUnknown := g.nextUnknown + 1 } :=
    { linked with
      unknown_lt := fun n k same => Nat.lt_succ_of_lt (linked.unknown_lt n k same) }
  refine counted.addNode ?_
  rintro _ ⟨⟩
  refine ⟨Nat.lt_succ_self _, fun n same => ?_⟩
  exact Nat.lt_irrefl _ (linked.unknown_lt n _ same)

/-- Operations on edges leave the tokens as they are. -/
theorem Linked.of_edges (linked : g.Linked) {g' : Graph}
    (tokens : ∀ n, g'.token n = g.token n) (counter : g'.nextUnknown = g.nextUnknown)
    (owner_lt : ∀ e, e < g'.edges.length → g'.owner e < g'.nodes.length)
    (value_lt : ∀ e, ∀ value ∈ g'.values e, value < g'.nodes.length)
    (mem_properties : ∀ n e, e ∈ g'.properties n ↔ e < g'.edges.length ∧ g'.owner e = n)
    (mem_owners : ∀ n e, e ∈ g'.owners n ↔ n ∈ g'.values e) : g'.Linked where
  owner_lt := owner_lt
  value_lt := value_lt
  mem_properties := mem_properties
  mem_owners := mem_owners
  unknown_lt n k same := by
    rw [tokens] at same
    rw [counter]
    exact linked.unknown_lt n k same
  unknown_inj m n k here there := by
    rw [tokens] at here there
    exact linked.unknown_inj m n k here there

theorem Linked.mem_properties_addProperty (linked : g.Linked) {owner : NodeId}
    (known : owner < g.nodes.length) (link : Term) (n : NodeId) (e : EdgeId) :
    e ∈ (g.addProperty owner link).2.properties n ↔
      e < (g.addProperty owner link).2.edges.length ∧ (g.addProperty owner link).2.owner e = n := by
  rw [properties_addProperty known, length_edges_addProperty, owner_addProperty]
  have old := linked.mem_properties n e
  by_cases new : e = g.edges.length
  · have absent : e ∉ g.properties n := by
      intro member
      exact Nat.lt_irrefl _ (new ▸ (old.mp member).1)
    rw [if_pos new]
    split
    · rename_i same
      simp [same, new]
    · rename_i other
      simp only [absent, false_iff]
      intro found
      exact other found.2.symm
  · have inside : e < g.edges.length + 1 ↔ e < g.edges.length :=
      ⟨fun below => Nat.lt_of_le_of_ne (Nat.le_of_lt_succ below) new, Nat.lt_succ_of_lt⟩
    rw [if_neg new, inside, ← old]
    split
    · simp [new]
    · rfl

theorem Linked.addProperty (linked : g.Linked) {owner : NodeId}
    (known : owner < g.nodes.length) (link : Term) : (g.addProperty owner link).2.Linked := by
  refine linked.of_edges (token_addProperty known link) rfl ?_ ?_
    (linked.mem_properties_addProperty known link) ?_
  · intro e inside
    rw [length_nodes_addProperty, owner_addProperty]
    rw [length_edges_addProperty] at inside
    split
    · exact known
    · rename_i old
      exact linked.owner_lt e (Nat.lt_of_le_of_ne (Nat.le_of_lt_succ inside) old)
  · intro e value member
    rw [values_addProperty] at member
    rw [length_nodes_addProperty]
    exact linked.value_lt e value member
  · intro n e
    rw [owners_addProperty known, values_addProperty]
    exact linked.mem_owners n e

theorem Linked.mem_owners_addValue (linked : g.Linked) {e : EdgeId} {value : NodeId}
    (edge_known : e < g.edges.length) (value_known : value < g.nodes.length) (n : NodeId)
    (x : EdgeId) : x ∈ (g.addValue e value).owners n ↔ n ∈ (g.addValue e value).values x := by
  have old := linked.mem_owners n x
  by_cases present : value ∈ g.values e
  · rw [Graph.addValue, if_pos present]
    exact old
  · rw [owners_addValue value_known present, values_addValue edge_known]
    split
    · rename_i here
      rw [mem_appendNew, old]
      split
      · rename_i same
        rw [mem_appendNew]
        simp [here, same]
      · rename_i other
        simp [other]
    · rename_i elsewhere
      rw [old]
      split
      · rw [mem_appendNew]
        simp [elsewhere]
      · rfl

theorem Linked.addValue (linked : g.Linked) {e : EdgeId} {value : NodeId}
    (edge_known : e < g.edges.length) (value_known : value < g.nodes.length) :
    (g.addValue e value).Linked := by
  refine linked.of_edges (token_addValue value_known) (nextUnknown_addValue ..) ?_ ?_ ?_
    (linked.mem_owners_addValue edge_known value_known)
  · intro x inside
    rw [length_nodes_addValue, owner_addValue edge_known]
    rw [length_edges_addValue] at inside
    exact linked.owner_lt x inside
  · intro x v member
    rw [length_nodes_addValue]
    rw [values_addValue edge_known] at member
    split at member
    · rcases mem_appendNew.mp member with old | rfl
      · exact linked.value_lt x v old
      · exact value_known
    · exact linked.value_lt x v member
  · intro n x
    rw [properties_addValue value_known, length_edges_addValue, owner_addValue edge_known]
    exact linked.mem_properties n x

theorem Linked.mem_owners_clearValues (linked : g.Linked) {e : EdgeId}
    (edge_known : e < g.edges.length) (n : NodeId) (x : EdgeId) :
    x ∈ (g.clearValues e).owners n ↔ n ∈ (g.clearValues e).values x := by
  have old := linked.mem_owners n x
  rw [owners_clearValues e (linked.value_lt e), values_clearValues e edge_known]
  by_cases same : x = e
  · subst same
    split
    · simp
    · rename_i absent
      simp [old, absent]
  · rw [if_neg same, ← old]
    split
    · simp [same]
    · rfl

theorem Linked.clearValues (linked : g.Linked) {e : EdgeId}
    (edge_known : e < g.edges.length) : (g.clearValues e).Linked := by
  have values_known := linked.value_lt e
  refine linked.of_edges (token_clearValues e values_known) rfl ?_ ?_ ?_
    (linked.mem_owners_clearValues edge_known)
  · intro x inside
    rw [length_nodes_clearValues, owner_clearValues e edge_known]
    rw [length_edges_clearValues] at inside
    exact linked.owner_lt x inside
  · intro x value member
    rw [length_nodes_clearValues]
    rw [values_clearValues e edge_known] at member
    split at member
    · exact absurd member List.not_mem_nil
    · exact linked.value_lt x value member
  · intro n x
    rw [properties_clearValues e values_known, length_edges_clearValues,
      owner_clearValues e edge_known]
    exact linked.mem_properties n x

theorem Linked.setValue (linked : g.Linked) {e : EdgeId} {value : NodeId}
    (edge_known : e < g.edges.length) (value_known : value < g.nodes.length) :
    (g.setValue e value).Linked := by
  refine (linked.clearValues edge_known).addValue ?_ ?_
  · rw [length_edges_clearValues]
    exact edge_known
  · rw [length_nodes_clearValues]
    exact value_known

end TripleQuery.Graph
