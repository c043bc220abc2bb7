import TripleQuery.Graph.Basic

/-!
What each operation on a graph changes, read back through the functions that read a graph.
Everything that an operation's lemmas do not name stays as it was.
-/

namespace TripleQuery.Graph

variable {g : Graph}

/-! ### Entries of a list -/

section Entries

variable {α : Type} {l : List α} {i j : Nat} {a fallback : α}

theorem getD_of_le (outside : l.length ≤ j) : l.getD j fallback = fallback := by
  rw [List.getD_eq_getElem?_getD, List.getElem?_eq_none outside]
  rfl

theorem getD_append_one :
    (l ++ [a]).getD j fallback = if j = l.length then a else l.getD j fallback := by
  by_cases last : j = l.length
  · subst last
    simp
  · rw [if_neg last]
    by_cases inside : j < l.length
    · rw [List.getD_eq_getElem?_getD, List.getElem?_append_left inside,
        List.getD_eq_getElem?_getD]
    · have beyond : (l ++ [a]).length ≤ j := by
        rw [List.length_append, List.length_singleton]
        omega
      rw [getD_of_le (Nat.le_of_not_lt inside), getD_of_le beyond]

theorem getD_modify (f : α → α) (inside : i < l.length) :
    (l.modify i f).getD j fallback = if j = i then f (l.getD j fallback) else l.getD j fallback := by
  by_cases here : j = i
  · subst here
    simp [List.getD_eq_getElem?_getD, inside]
  · simp [List.getD_eq_getElem?_getD, here, Ne.symm here]

theorem mem_appendNew {l : List Nat} {a x : Nat} : x ∈ appendNew l a ↔ x ∈ l ∨ x = a := by
  unfold appendNew
  split
  · rename_i present
    constructor
    · exact .inl
    · rintro (old | rfl)
      · exact old
      · exact present
  · simp

end Entries

/-! ### New nodes -/

section Nodes

variable (token : Token) (n : NodeId)

theorem node_addNode : (g.addNode token).2.node n =
    if n = g.nodes.length then ⟨token, [], []⟩ else g.node n := getD_append_one

theorem token_addNode : (g.addNode token).2.token n =
    if n = g.nodes.length then token else g.token n := by
  rw [Graph.token, node_addNode]
  split <;> rfl

theorem node_of_le (outside : g.nodes.length ≤ n) : g.node n = default := getD_of_le outside

theorem properties_addNode : (g.addNode token).2.properties n = g.properties n := by
  rw [properties, node_addNode]
  split
  · rename_i new
    rw [properties, node_of_le n (Nat.le_of_eq new.symm)]
    rfl
  · rfl

theorem owners_addNode : (g.addNode token).2.owners n = g.owners n := by
  rw [owners, node_addNode]
  split
  · rename_i new
    rw [owners, node_of_le n (Nat.le_of_eq new.symm)]
    rfl
  · rfl

theorem length_nodes_addNode : (g.addNode token).2.nodes.length = g.nodes.length + 1 := by
  simp [addNode]

end Nodes

/-! ### New edges -/

section Properties

variable {owner : NodeId} (known : owner < g.nodes.length) (link : Term)

theorem edge_addProperty (owner : NodeId) (e : EdgeId) : (g.addProperty owner link).2.edge e =
    if e = g.edges.length then ⟨owner, link, []⟩ else g.edge e := getD_append_one

theorem edge_of_le {e : EdgeId} (outside : g.edges.length ≤ e) : g.edge e = default :=
  getD_of_le outside

theorem owner_addProperty (owner : NodeId) (e : EdgeId) : (g.addProperty owner link).2.owner e =
    if e = g.edges.length then owner else g.owner e := by
  rw [Graph.owner, edge_addProperty]
  split <;> rfl

theorem link_addProperty (owner : NodeId) (e : EdgeId) : (g.addProperty owner link).2.link e =
    if e = g.edges.length then link else g.link e := by
  rw [Graph.link, edge_addProperty]
  split <;> rfl

theorem values_addProperty (owner : NodeId) (e : EdgeId) :
    (g.addProperty owner link).2.values e = g.values e := by
  rw [values, edge_addProperty]
  split
  · rename_i new
    rw [values, edge_of_le (Nat.le_of_eq new.symm)]
    rfl
  · rfl

include known in
theorem node_addProperty (n : NodeId) : (g.addProperty owner link).2.node n =
    if n = owner then { g.node n with properties := g.properties n ++ [g.edges.length] }
    else g.node n := getD_modify _ known

include known in
theorem properties_addProperty (n : NodeId) : (g.addProperty owner link).2.properties n =
    if n = owner then g.properties n ++ [g.edges.length] else g.properties n := by
  rw [properties, node_addProperty known]
  split <;> rfl

include known in
theorem token_addProperty (n : NodeId) : (g.addProperty owner link).2.token n = g.token n := by
  rw [token, node_addProperty known]
  split <;> rfl

include known in
theorem owners_addProperty (n : NodeId) : (g.addProperty owner link).2.owners n = g.owners n := by
  rw [owners, node_addProperty known]
  split <;> rfl

theorem length_edges_addProperty (owner : NodeId) :
    (g.addProperty owner link).2.edges.length = g.edges.length + 1 := by
  simp [addProperty]

theorem lt_length_addProperty (owner : NodeId) :
    g.edges.length < (g.addProperty owner link).2.edges.length := by
  rw [length_edges_addProperty]
  exact Nat.lt_succ_self _

theorem length_nodes_addProperty (owner : NodeId) :
    (g.addProperty owner link).2.nodes.length = g.nodes.length := by
  simp [addProperty]

/-- Either the owner has the property already, or it is made. -/
theorem attach_cases (owner : NodeId) (d : Descriptor) :
    (∃ e ∈ g.properties owner, g.attach owner d = (e, g)) ∨
      g.attach owner d = g.addProperty owner d.link := by
  unfold attach
  split
  · rename_i e found
    exact .inl ⟨e, List.mem_of_find?_eq_some found, rfl⟩
  · exact .inr rfl

end Properties

/-! ### New values -/

section Values

variable {e : EdgeId} {value : NodeId} (edge_known : e < g.edges.length)
  (value_known : value < g.nodes.length)

include edge_known in
theorem edge_addValue (x : EdgeId) : (g.addValue e value).edge x =
    if x = e then { g.edge x with values := appendNew (g.values x) value } else g.edge x := by
  unfold addValue
  split
  · rename_i present
    split
    · rename_i same
      subst same
      rw [appendNew, if_pos present]
      rfl
    · rfl
  · rename_i absent
    rw [edge, getD_modify _ edge_known]
    split
    · rename_i same
      subst same
      rw [appendNew, if_neg absent]
      rfl
    · rfl

include edge_known in
theorem values_addValue (x : EdgeId) : (g.addValue e value).values x =
    if x = e then appendNew (g.values x) value else g.values x := by
  rw [values, edge_addValue edge_known]
  split <;> rfl

include edge_known in
theorem owner_addValue (x : EdgeId) : (g.addValue e value).owner x = g.owner x := by
  rw [owner, edge_addValue edge_known]
  split <;> rfl

include edge_known in
theorem link_addValue (x : EdgeId) : (g.addValue e value).link x = g.link x := by
  rw [link, edge_addValue edge_known]
  split <;> rfl

include value_known in
theorem node_addValue (absent : value ∉ g.values e) (n : NodeId) : (g.addValue e value).node n =
    if n = value then { g.node n with owners := appendNew (g.owners n) e } else g.node n := by
  rw [addValue, if_neg absent]
  exact getD_modify _ value_known

include value_known in
theorem token_addValue (n : NodeId) : (g.addValue e value).token n = g.token n := by
  by_cases present : value ∈ g.values e
  · rw [addValue, if_pos present]
  · rw [token, node_addValue value_known present]
    split <;> rfl

include value_known in
theorem properties_addValue (n : NodeId) :
    (g.addValue e value).properties n = g.properties n := by
  by_cases present : value ∈ g.values e
  · rw [addValue, if_pos present]
  · rw [properties, node_addValue value_known present]
    split <;> rfl

include value_known in
theorem owners_addValue (absent : value ∉ g.values e) (n : NodeId) :
    (g.addValue e value).owners n = if n = value then appendNew (g.owners n) e else g.owners n := by
  rw [owners, node_addValue value_known absent]
  split <;> rfl

theorem length_edges_addValue (e : EdgeId) (value : NodeId) :
    (g.addValue e value).edges.length = g.edges.length := by
  unfold addValue
  split <;> simp

theorem length_nodes_addValue (e : EdgeId) (value : NodeId) :
    (g.addValue e value).nodes.length = g.nodes.length := by
  unfold addValue
  split <;> simp

theorem nextUnknown_addValue (e : EdgeId) (value : NodeId) :
    (g.addValue e value).nextUnknown = g.nextUnknown := by
  unfold addValue
  split <;> rfl

end Values

/-! ### Values taken away -/

section Clearing

/-- Takes an edge from the owners of each of some values. -/
def disown (e : EdgeId) (values : List NodeId) (nodes : List Node) : List Node :=
  values.foldl
    (fun nodes value => nodes.modify value fun n =>
      { n with owners := n.owners.filter fun o => decide (o ≠ e) })
    nodes

theorem length_disown (e : EdgeId) (values : List NodeId) (nodes : List Node) :
    (disown e values nodes).length = nodes.length := by
  induction values generalizing nodes with
  | nil => rfl
  | cons value rest ih =>
    show (disown e rest _).length = _
    rw [ih, List.length_modify]

theorem getD_disown (e : EdgeId) {values : List NodeId} {nodes : List Node}
    (known : ∀ value ∈ values, value < nodes.length) (n : NodeId) :
    (disown e values nodes).getD n default =
      if n ∈ values then { nodes.getD n default with
        owners := (nodes.getD n default).owners.filter fun o => decide (o ≠ e) }
      else nodes.getD n default := by
  induction values generalizing nodes with
  | nil => simp [disown]
  | cons value rest ih =>
    show (disown e rest _).getD n default = _
    rw [ih fun later member => by
      rw [List.length_modify]
      exact known later (List.mem_cons_of_mem _ member)]
    rw [getD_modify _ (known value List.mem_cons_self)]
    by_cases here : n = value
    · by_cases again : n ∈ rest <;> simp [here, List.filter_filter]
    · simp [here]

variable (e : EdgeId) (edge_known : e < g.edges.length)
  (values_known : ∀ value ∈ g.values e, value < g.nodes.length)

include values_known in
theorem node_clearValues (n : NodeId) : (g.clearValues e).node n =
    if n ∈ g.values e then { g.node n with
      owners := (g.owners n).filter fun o => decide (o ≠ e) }
    else g.node n := getD_disown e values_known n

include values_known in
theorem token_clearValues (n : NodeId) : (g.clearValues e).token n = g.token n := by
  rw [token, node_clearValues e values_known]
  split <;> rfl

include values_known in
theorem properties_clearValues (n : NodeId) :
    (g.clearValues e).properties n = g.properties n := by
  rw [properties, node_clearValues e values_known]
  split <;> rfl

include values_known in
theorem owners_clearValues (n : NodeId) : (g.clearValues e).owners n =
    if n ∈ g.values e then (g.owners n).filter fun o => decide (o ≠ e) else g.owners n := by
  rw [owners, node_clearValues e values_known]
  split <;> rfl

include edge_known in
theorem edge_clearValues (x : EdgeId) : (g.clearValues e).edge x =
    if x = e then { g.edge x with values := [] } else g.edge x := getD_modify _ edge_known

include edge_known in
theorem values_clearValues (x : EdgeId) :
    (g.clearValues e).values x = if x = e then [] else g.values x := by
  rw [values, edge_clearValues e edge_known]
  split <;> rfl

include edge_known in
theorem owner_clearValues (x : EdgeId) : (g.clearValues e).owner x = g.owner x := by
  rw [owner, edge_clearValues e edge_known]
  split <;> rfl

include edge_known in
theorem link_clearValues (x : EdgeId) : (g.clearValues e).link x = g.link x := by
  rw [link, edge_clearValues e edge_known]
  split <;> rfl

theorem length_edges_clearValues : (g.clearValues e).edges.length = g.edges.length := by
  simp [clearValues]

theorem length_nodes_clearValues : (g.clearValues e).nodes.length = g.nodes.length :=
  length_disown e (g.values e) g.nodes

end Clearing

/-! ### Values replaced -/

section Setting

variable {e : EdgeId} {value : NodeId}

theorem token_setValue (values_known : ∀ v ∈ g.values e, v < g.nodes.length)
    (value_known : value < g.nodes.length) (n : NodeId) :
    (g.setValue e value).token n = g.token n := by
  rw [← length_nodes_clearValues e] at value_known
  exact (token_addValue value_known n).trans (token_clearValues e values_known n)

theorem owner_setValue (edge_known : e < g.edges.length) (x : EdgeId) :
    (g.setValue e value).owner x = g.owner x := by
  have still : e < (g.clearValues e).edges.length := by
    rw [length_edges_clearValues]
    exact edge_known
  exact (owner_addValue still x).trans (owner_clearValues e edge_known x)

theorem link_setValue (edge_known : e < g.edges.length) (x : EdgeId) :
    (g.setValue e value).link x = g.link x := by
  have still : e < (g.clearValues e).edges.length := by
    rw [length_edges_clearValues]
    exact edge_known
  exact (link_addValue still x).trans (link_clearValues e edge_known x)

theorem length_nodes_setValue (e : EdgeId) (value : NodeId) :
    (g.setValue e value).nodes.length = g.nodes.length :=
  (length_nodes_addValue e value).trans (length_nodes_clearValues e)

theorem length_edges_setValue (e : EdgeId) (value : NodeId) :
    (g.setValue e value).edges.length = g.edges.length :=
  (length_edges_addValue e value).trans (length_edges_clearValues e)

end Setting

end TripleQuery.Graph
