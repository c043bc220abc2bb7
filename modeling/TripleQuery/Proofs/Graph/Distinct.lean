import TripleQuery.Proofs.Graph.Linked

/-!
Nothing is listed twice in a graph that its operations made: neither an edge at a node nor a value
on an edge. This is what makes references countable.
-/

namespace TripleQuery.Graph

structure Distinct (g : Graph) : Prop where
  properties : ∀ n, (g.properties n).Nodup
  owners : ∀ n, (g.owners n).Nodup
  values : ∀ e, (g.values e).Nodup

theorem nodup_append_one {l : List Nat} {a : Nat} (distinct : l.Nodup) (absent : a ∉ l) :
    (l ++ [a]).Nodup := by
  refine List.nodup_append.mpr ⟨distinct, List.pairwise_singleton _ _, fun x old y new same => ?_⟩
  rw [same, List.mem_singleton.mp new] at old
  exact absent old

theorem nodup_appendNew {l : List Nat} (distinct : l.Nodup) (a : Nat) : (appendNew l a).Nodup := by
  unfold appendNew
  split
  · exact distinct
  · rename_i absent
    exact nodup_append_one distinct absent

variable {g : Graph}

theorem distinct_empty : Graph.empty.Distinct :=
  ⟨fun _ => List.nodup_nil, fun _ => List.nodup_nil, fun _ => List.nodup_nil⟩

theorem Distinct.addNode (distinct : g.Distinct) (token : Token) :
    (g.addNode token).2.Distinct where
  properties n := by
    rw [properties_addNode]
    exact distinct.properties n
  owners n := by
    rw [owners_addNode]
    exact distinct.owners n
  values := distinct.values

theorem Distinct.addUnknown (distinct : g.Distinct) : g.addUnknown.2.Distinct := by
  have counted : Distinct { g with nextUnknown := g.nextUnknown + 1 } :=
    ⟨distinct.properties, distinct.owners, distinct.values⟩
  exact counted.addNode _

/-- The number of a new edge is larger than those of all edges before it. -/
theorem Distinct.addProperty (distinct : g.Distinct) (linked : g.Linked) {owner : NodeId}
    (known : owner < g.nodes.length) (link : Term) : (g.addProperty owner link).2.Distinct where
  properties n := by
    rw [properties_addProperty known]
    split
    · refine nodup_append_one (distinct.properties n) fun old => ?_
      exact Nat.lt_irrefl _ ((linked.mem_properties n _).mp old).1
    · exact distinct.properties n
  owners n := by
    rw [owners_addProperty known]
    exact distinct.owners n
  values e := by
    rw [values_addProperty]
    exact distinct.values e

theorem Distinct.addValue (distinct : g.Distinct) {e : EdgeId} {value : NodeId}
    (edge_known : e < g.edges.length) (value_known : value < g.nodes.length) :
    (g.addValue e value).Distinct where
  properties n := by
    rw [properties_addValue value_known]
    exact distinct.properties n
  owners n := by
    by_cases present : value ∈ g.values e
    · rw [Graph.addValue, if_pos present]
      exact distinct.owners n
    · rw [owners_addValue value_known present]
      split
      · exact nodup_appendNew (distinct.owners n) e
      · exact distinct.owners n
  values x := by
    rw [values_addValue edge_known]
    split
    · exact nodup_appendNew (distinct.values x) value
    · exact distinct.values x

theorem Distinct.clearValues (distinct : g.Distinct) (linked : g.Linked) {e : EdgeId}
    (edge_known : e < g.edges.length) : (g.clearValues e).Distinct where
  properties n := by
    rw [properties_clearValues e (linked.value_lt e)]
    exact distinct.properties n
  owners n := by
    rw [owners_clearValues e (linked.value_lt e)]
    split
    · exact (distinct.owners n).filter _
    · exact distinct.owners n
  values x := by
    rw [values_clearValues e edge_known]
    split
    · exact List.nodup_nil
    · exact distinct.values x

theorem Distinct.setValue (distinct : g.Distinct) (linked : g.Linked) {e : EdgeId}
    {value : NodeId} (edge_known : e < g.edges.length) (value_known : value < g.nodes.length) :
    (g.setValue e value).Distinct := by
  refine (distinct.clearValues linked edge_known).addValue ?_ ?_
  · rw [length_edges_clearValues]
    exact edge_known
  · rw [length_nodes_clearValues]
    exact value_known

end TripleQuery.Graph
