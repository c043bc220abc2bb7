import TripleQuery.Proofs.Graph.Operations

/-!
What an edit of one edge leaves alone. A value is added to an edge or takes the place of its
values, and no other edge leads anywhere else for it: nodes keep their properties in order and,
apart from the edited edge, the edges that lead to them in order. An owner has one edge for a link
in use, the first of its properties with that link, and comes back to it as long as the graph lasts.
-/

namespace TripleQuery.Graph

variable {g : Graph}

/-! ### Edits -/

/-- After an edit the edge `e` leads to `values`. All else is as before, except that an edge made by
the edit stands last among its owner's properties. -/
structure Edited (before after : Graph) (e : EdgeId) (values : List NodeId) : Prop
    extends before.Keeps after where
  node_count : after.nodes.length = before.nodes.length
  edge_lt : ∀ x, x < after.edges.length ↔ x < before.edges.length ∨ x = e
  values_self : after.values e = values
  values_other : ∀ x, x ≠ e → after.values x = before.values x
  properties : ∀ n, after.properties n =
    before.properties n ++ if e = before.edges.length ∧ n = after.owner e then [e] else []
  owners_other : ∀ n, (after.owners n).filter (fun x => decide (x ≠ e)) =
    (before.owners n).filter fun x => decide (x ≠ e)

theorem Edited.properties_of_known {after : Graph} {e : EdgeId} {values : List NodeId}
    (edited : g.Edited after e values) (known : e < g.edges.length) (n : NodeId) :
    after.properties n = g.properties n := by
  rw [edited.properties, if_neg fun new => Nat.ne_of_lt known new.1, List.append_nil]

theorem Edited.lt {after : Graph} {e : EdgeId} {values : List NodeId}
    (edited : g.Edited after e values) : e < after.edges.length :=
  (edited.edge_lt e).mpr (.inr rfl)

/-- The second edit decides where the edge leads. -/
theorem Edited.trans {a b c : Graph} {e : EdgeId} {values replaced : List NodeId}
    (first : a.Edited b e replaced) (second : b.Edited c e values) : a.Edited c e values where
  toKeeps := first.toKeeps.trans second.toKeeps
  node_count := second.node_count.trans first.node_count
  edge_lt x := by
    rw [second.edge_lt, first.edge_lt, or_assoc, or_self]
  values_self := second.values_self
  values_other x other := (second.values_other x other).trans (first.values_other x other)
  properties n := by
    rw [second.properties_of_known first.lt, first.properties, second.owner e first.lt]
  owners_other n := (second.owners_other n).trans (first.owners_other n)

theorem lt_or_eq_iff {e : EdgeId} (known : e < g.edges.length) (x : EdgeId) :
    x < g.edges.length ↔ x < g.edges.length ∨ x = e := by
  refine (or_iff_left_of_imp ?_).symm
  rintro rfl
  exact known

theorem edited_self {e : EdgeId} (known : e < g.edges.length) : g.Edited g e (g.values e) where
  toKeeps := .refl g
  node_count := rfl
  edge_lt := lt_or_eq_iff known
  values_self := rfl
  values_other _ _ := rfl
  properties n := by
    rw [if_neg fun new => Nat.ne_of_lt known new.1, List.append_nil]
  owners_other _ := rfl

/-! ### Values of an edge -/

section Values

variable {e : EdgeId} {value : NodeId} (edge_known : e < g.edges.length)
  (value_known : value < g.nodes.length)

theorem filter_appendNew (l : List Nat) (a : Nat) :
    (appendNew l a).filter (fun x => decide (x ≠ a)) = l.filter fun x => decide (x ≠ a) := by
  unfold appendNew
  split
  · rfl
  · simp

include edge_known value_known

theorem edited_addValue : g.Edited (g.addValue e value) e
    (if value ∈ g.values e then g.values e else g.values e ++ [value]) where
  toKeeps := keeps_addValue edge_known value_known
  node_count := length_nodes_addValue e value
  edge_lt := by
    rw [length_edges_addValue]
    exact lt_or_eq_iff edge_known
  values_self := by
    rw [values_addValue edge_known, if_pos rfl]
    rfl
  values_other x other := by
    rw [values_addValue edge_known, if_neg other]
  properties n := by
    rw [properties_addValue value_known, if_neg fun new => Nat.ne_of_lt edge_known new.1,
      List.append_nil]
  owners_other n := by
    by_cases present : value ∈ g.values e
    · rw [addValue, if_pos present]
    · rw [owners_addValue value_known present]
      split
      · exact filter_appendNew (g.owners n) e
      · rfl

omit value_known in
theorem Linked.edited_clearValues (linked : g.Linked) : g.Edited (g.clearValues e) e [] where
  nodes_le := Nat.le_of_eq (length_nodes_clearValues e).symm
  edges_le := Nat.le_of_eq (length_edges_clearValues e).symm
  token n _ := token_clearValues e (linked.value_lt e) n
  owner x _ := owner_clearValues e edge_known x
  link x _ := link_clearValues e edge_known x
  node_count := length_nodes_clearValues e
  edge_lt := by
    rw [length_edges_clearValues]
    exact lt_or_eq_iff edge_known
  values_self := by
    rw [values_clearValues e edge_known, if_pos rfl]
  values_other x other := by
    rw [values_clearValues e edge_known, if_neg other]
  properties n := by
    rw [properties_clearValues e (linked.value_lt e),
      if_neg fun new => Nat.ne_of_lt edge_known new.1, List.append_nil]
  owners_other n := by
    rw [owners_clearValues e (linked.value_lt e)]
    split
    · simp
    · rfl

/-- What other edges have in common with the old values or the new one is theirs still. -/
theorem Linked.edited_setValue (linked : g.Linked) : g.Edited (g.setValue e value) e [value] := by
  have cleared := linked.edited_clearValues edge_known
  have value_still : value < (g.clearValues e).nodes.length := by
    rw [cleared.node_count]
    exact value_known
  have added := edited_addValue cleared.lt value_still
  rw [cleared.values_self] at added
  exact cleared.trans added

end Values

/-! ### The edge for a link -/

/-- The edge that an owner has for a link: the first of its properties with that link or, if none
has it, the next edge to be made. -/
def Serves (g : Graph) (owner : NodeId) (link : Term) (e : EdgeId) : Prop :=
  (∃ earlier later, g.properties owner = earlier ++ e :: later ∧ g.link e = link ∧
      ∀ x ∈ earlier, g.link x ≠ link) ∨
    (e = g.edges.length ∧ ∀ x ∈ g.properties owner, g.link x ≠ link)

theorem propertyWithLink?_eq_some_iff {owner : NodeId} {link : Term} {e : EdgeId} :
    g.propertyWithLink? owner link = some e ↔
      ∃ earlier later, g.properties owner = earlier ++ e :: later ∧ g.link e = link ∧
        ∀ x ∈ earlier, g.link x ≠ link := by
  unfold propertyWithLink?
  simp only [List.find?_eq_some_iff_append, decide_eq_true_eq, Bool.not_eq_true',
    decide_eq_false_iff_not]
  constructor
  · intro found
    obtain ⟨here, earlier, later, split, first⟩ := found
    exact ⟨earlier, later, split, here, first⟩
  · intro found
    obtain ⟨earlier, later, split, here, first⟩ := found
    exact ⟨here, earlier, later, split, first⟩

theorem propertyWithLink?_eq_none_iff {owner : NodeId} {link : Term} :
    g.propertyWithLink? owner link = none ↔ ∀ x ∈ g.properties owner, g.link x ≠ link := by
  simp [propertyWithLink?]

theorem serves_attach (owner : NodeId) (d : Descriptor) :
    g.Serves owner d.link (g.attach owner d).1 := by
  unfold attach
  split
  · rename_i e found
    exact .inl (propertyWithLink?_eq_some_iff.mp found)
  · rename_i missing
    exact .inr ⟨rfl, propertyWithLink?_eq_none_iff.mp missing⟩

section Attaching

variable {owner : NodeId} (known : owner < g.nodes.length) (link : Term)

include known

theorem edited_addProperty : g.Edited (g.addProperty owner link).2 g.edges.length [] where
  toKeeps := keeps_addProperty known link
  node_count := length_nodes_addProperty link owner
  edge_lt x := by
    rw [length_edges_addProperty, Nat.lt_succ_iff_lt_or_eq]
  values_self := by
    rw [values_addProperty, values, edge_of_le (Nat.le_refl _)]
    rfl
  values_other x _ := values_addProperty link owner x
  properties n := by
    rw [properties_addProperty known, owner_addProperty, if_pos rfl]
    by_cases here : n = owner <;> simp [here]
  owners_other n := by
    rw [owners_addProperty known]

theorem Linked.propertyWithLink?_addProperty (linked : g.Linked)
    (missing : g.propertyWithLink? owner link = none) :
    (g.addProperty owner link).2.propertyWithLink? owner link = some g.edges.length := by
  refine propertyWithLink?_eq_some_iff.mpr ⟨g.properties owner, [], ?_, ?_, ?_⟩
  · rw [properties_addProperty known, if_pos rfl]
  · rw [link_addProperty, if_pos rfl]
  · intro x member
    have old : x < g.edges.length := ((linked.mem_properties owner x).mp member).1
    rw [(edited_addProperty known link).link x old]
    exact propertyWithLink?_eq_none_iff.mp missing x member

/-- Attaching changes where no edge leads. -/
theorem Linked.edited_attach (linked : g.Linked) (d : Descriptor) :
    g.Edited (g.attach owner d).2 (g.attach owner d).1 (g.values (g.attach owner d).1) ∧
      (g.attach owner d).2.owner (g.attach owner d).1 = owner ∧
      (g.attach owner d).2.link (g.attach owner d).1 = d.link ∧
      (g.attach owner d).2.propertyWithLink? owner d.link = some (g.attach owner d).1 := by
  unfold attach
  split
  · rename_i e found
    obtain ⟨earlier, later, split, here, -⟩ := propertyWithLink?_eq_some_iff.mp found
    have property : e ∈ g.properties owner := by simp [split]
    obtain ⟨edge_known, owned⟩ := (linked.mem_properties owner e).mp property
    exact ⟨edited_self edge_known, owned, here, found⟩
  · rename_i missing
    have unused : g.values g.edges.length = [] := by
      rw [values, edge_of_le (Nat.le_refl _)]
      rfl
    refine ⟨?_, ?_, ?_, linked.propertyWithLink?_addProperty known d.link missing⟩
    · show g.Edited _ g.edges.length (g.values g.edges.length)
      rw [unused]
      exact edited_addProperty known d.link
    · show (g.addProperty owner d.link).2.owner g.edges.length = owner
      rw [owner_addProperty, if_pos rfl]
    · show (g.addProperty owner d.link).2.link g.edges.length = d.link
      rw [link_addProperty, if_pos rfl]

omit known in
theorem set_eq (d : Descriptor) (value : NodeId) : g.set owner d value =
    ((g.attach owner d).1, if d.multiple
      then (g.attach owner d).2.addValue (g.attach owner d).1 value
      else (g.attach owner d).2.setValue (g.attach owner d).1 value) := rfl

theorem Linked.edited_set (linked : g.Linked) (d : Descriptor) {value : NodeId}
    (value_known : value < g.nodes.length) :
    g.Edited (g.set owner d value).2 (g.attach owner d).1
      (if d.multiple then
        if value ∈ g.values (g.attach owner d).1 then g.values (g.attach owner d).1
        else g.values (g.attach owner d).1 ++ [value]
      else [value]) := by
  obtain ⟨attached, -, -, -⟩ := linked.edited_attach known d
  have linked_still : (g.attach owner d).2.Linked := by
    rcases attach_cases owner d with ⟨e, -, same⟩ | same
    · rw [same]
      exact linked
    · rw [same]
      exact linked.addProperty known d.link
  have value_still : value < (g.attach owner d).2.nodes.length := by
    rw [attached.node_count]
    exact value_known
  rw [set_eq]
  cases d.multiple with
  | true =>
    have added := edited_addValue attached.lt value_still
    rw [attached.values_self] at added
    exact attached.trans added
  | false => exact attached.trans (linked_still.edited_setValue attached.lt value_still)

end Attaching

/-! ### Properties in the course of a run -/

/-- Whatever an operation does to the properties of a node, those that were there stay in front. -/
theorem Tidy.properties_perform (tidy : g.Tidy) {operation : Operation}
    (known : g.Knows operation) (n : NodeId) :
    g.properties n <+: (g.perform operation).properties n := by
  have edited : ∀ {after : Graph} {e : EdgeId} {values : List NodeId},
      g.Edited after e values → g.properties n <+: after.properties n := by
    intro after e values edited
    rw [edited.properties]
    exact List.prefix_append _ _
  have noded : ∀ {after : Graph},
      after.properties n = g.properties n → g.properties n <+: after.properties n := by
    intro after same
    exact same ▸ List.prefix_refl _
  cases operation with
  | addDefined identifier => exact noded (properties_addNode _ n)
  | addUnknown => exact noded (properties_addNode _ n)
  | addInterval bounds => exact noded (properties_addNode _ n)
  | addProperty owner link => exact edited (edited_addProperty known link)
  | addValue e value => exact edited (edited_addValue known.1 known.2)
  | setValue e value => exact edited (tidy.toLinked.edited_setValue known.1 known.2)
  | relate owner link value =>
    have made := edited_addProperty known.1 link
    have value_still : value < (g.addProperty owner link).2.nodes.length := by
      rw [made.node_count]
      exact known.2
    exact edited (made.trans (edited_addValue made.lt value_still))
  | attach owner d => exact edited (tidy.toLinked.edited_attach known d).1
  | set owner d value => exact edited (tidy.toLinked.edited_set known.1 d known.2)

theorem Tidy.properties_after (tidy : g.Tidy) {operations : List Operation}
    (known : g.KnowsAll operations) (n : NodeId) :
    g.properties n <+: (g.after operations).properties n := by
  induction operations generalizing g with
  | nil => exact List.prefix_refl _
  | cons operation rest ih =>
    have step := tidy.yields_perform known.1
    exact (tidy.properties_perform known.1 n).trans (ih step.1 known.2)

/-- An edge that serves for a link goes on serving for it. -/
theorem Tidy.attach_after (tidy : g.Tidy) {owner : NodeId} {link : Term} {e : EdgeId}
    (found : g.propertyWithLink? owner link = some e) {operations : List Operation}
    (known : g.KnowsAll operations) {d : Descriptor} (same : d.link = link) :
    (g.after operations).attach owner d = (e, g.after operations) := by
  have keeps := (tidy.yields_after known).2
  obtain ⟨further, grown⟩ := tidy.properties_after known owner
  obtain ⟨earlier, later, split, here, first⟩ := propertyWithLink?_eq_some_iff.mp found
  have old : ∀ x ∈ g.properties owner, (g.after operations).link x = g.link x := fun x member =>
    keeps.link x ((tidy.mem_properties owner x).mp member).1
  have again : (g.after operations).propertyWithLink? owner d.link = some e := by
    rw [same]
    refine propertyWithLink?_eq_some_iff.mpr ⟨earlier, later ++ further, ?_, ?_, ?_⟩
    · rw [← grown, split]
      simp
    · rw [old e (by simp [split]), here]
    · intro x member
      rw [old x (by simp [split, member])]
      exact first x member
  rw [attach, again]

/-- Whatever comes after attaching, the edge stays with its owner and serves for its link. -/
theorem Tidy.attach_lasts (tidy : g.Tidy) {owner : NodeId} (known : owner < g.nodes.length)
    (d : Descriptor) {operations : List Operation}
    (later : (g.attach owner d).2.KnowsAll operations) :
    ((g.attach owner d).2.after operations).owner (g.attach owner d).1 = owner ∧
    ((g.attach owner d).2.after operations).link (g.attach owner d).1 = d.link ∧
    ∀ again : Descriptor, again.link = d.link →
      ((g.attach owner d).2.after operations).attach owner again =
        ((g.attach owner d).1, (g.attach owner d).2.after operations) := by
  obtain ⟨attached, owned, linked, found⟩ := tidy.toLinked.edited_attach known d
  have attached_tidy := (tidy.yields_attach known d).1.1
  have keeps := (attached_tidy.yields_after later).2
  refine ⟨(keeps.owner _ attached.lt).trans owned, (keeps.link _ attached.lt).trans linked, ?_⟩
  intro again same
  exact attached_tidy.attach_after found later same

/-- Setting a value is attaching, followed by one more operation on the edge. -/
theorem Linked.exists_perform_attach (linked : g.Linked) {owner value : NodeId}
    (known : owner < g.nodes.length) (value_known : value < g.nodes.length) (d : Descriptor) :
    ∃ step, (g.attach owner d).2.Knows step ∧
      g.perform (.set owner d value) = (g.attach owner d).2.perform step := by
  have attached := (linked.edited_attach known d).1
  have value_still : value < (g.attach owner d).2.nodes.length := by
    rw [attached.node_count]
    exact value_known
  rw [perform, set_eq]
  cases d.multiple with
  | true => exact ⟨.addValue (g.attach owner d).1 value, ⟨attached.lt, value_still⟩, rfl⟩
  | false => exact ⟨.setValue (g.attach owner d).1 value, ⟨attached.lt, value_still⟩, rfl⟩

/-- In a graph made by operations an edit of an edge decides where this edge leads and leaves all
others alone. Setting a value edits the one edge that serves for the descriptor's link, which every
later use of that link comes back to. -/
theorem edited_after {operations : List Operation} (made : Graph.empty.KnowsAll operations) :
    let g := Graph.empty.after operations
    ∀ value < g.nodes.length,
      (∀ e < g.edges.length,
        g.Edited (g.addValue e value) e
          (if value ∈ g.values e then g.values e else g.values e ++ [value]) ∧
        g.Edited (g.setValue e value) e [value]) ∧
      ∀ owner < g.nodes.length, ∀ d : Descriptor, ∃ e, g.Serves owner d.link e ∧
        ((g.attach owner d).1 = e ∧ g.Edited (g.attach owner d).2 e (g.values e)) ∧
        ((g.set owner d value).1 = e ∧ g.Edited (g.set owner d value).2 e
          (if d.multiple then
            if value ∈ g.values e then g.values e else g.values e ++ [value]
          else [value])) ∧
        ∀ use ∈ [Operation.attach owner d, .set owner d value],
          (g.perform use).owner e = owner ∧ (g.perform use).link e = d.link ∧
            ∀ later, (g.perform use).KnowsAll later → ∀ again : Descriptor, again.link = d.link →
              ((g.perform use).after later).attach owner again =
                (e, (g.perform use).after later) := by
  intro g value value_known
  have tidy : g.Tidy := tidy_after made
  refine ⟨fun e known => ⟨edited_addValue known value_known,
    tidy.toLinked.edited_setValue known value_known⟩, fun owner known d => ?_⟩
  have attached := (tidy.toLinked.edited_attach known d).1
  have change := tidy.toLinked.edited_set known d value_known
  refine ⟨(g.attach owner d).1, serves_attach owner d, ⟨rfl, attached⟩, ⟨rfl, change⟩, ?_⟩
  intro use member
  simp only [List.mem_cons, List.not_mem_nil, or_false] at member
  rcases member with rfl | rfl
  · have none : (g.attach owner d).2.KnowsAll [] := trivial
    obtain ⟨owned, linked, -⟩ := tidy.attach_lasts known d none
    exact ⟨owned, linked, fun later further => (tidy.attach_lasts known d further).2.2⟩
  · obtain ⟨step, step_known, stepped⟩ :=
      tidy.toLinked.exists_perform_attach known value_known d
    have one : (g.attach owner d).2.KnowsAll [step] := ⟨step_known, trivial⟩
    obtain ⟨owned, linked, -⟩ := tidy.attach_lasts known d one
    rw [stepped]
    refine ⟨owned, linked, fun later further => ?_⟩
    have all : (g.attach owner d).2.KnowsAll (step :: later) := ⟨step_known, further⟩
    exact (tidy.attach_lasts known d all).2.2

end TripleQuery.Graph

namespace TripleQuery.Sample

def keeper : Descriptor := ⟨"keeper", .iri "keeper", false⟩

/-- Two edges of one dog lead to the same keeper, one of them to someone else as well. -/
def boarding : List Graph.Operation :=
  [.addDefined (.iri "rex"), .addDefined (.iri "ann"), .addDefined (.iri "bob"),
    .relate 0 (.iri "keeper") 1, .relate 0 (.iri "keeper") 1, .addValue 0 2,
    .relate 2 (.iri "feeds") 1]

def boarded : Graph := Graph.empty.after boarding

/-- The keeper that both edges share is set anew on the first of them. -/
theorem edited_boarded : Graph.empty.KnowsAll boarding ∧ 1 < boarded.nodes.length ∧
    boarded.values 0 = [1, 2] ∧ (boarded.set 0 keeper 1).2.values 0 = [1] ∧
    (∀ x, x ≠ 0 → (boarded.set 0 keeper 1).2.values x = boarded.values x) ∧
    (boarded.set 0 keeper 1).2.owners 1 = [1, 2, 0] ∧
    (boarded.set 0 keeper 1).2.attach 0 keeper = (0, (boarded.set 0 keeper 1).2) := by
  have made : Graph.empty.KnowsAll boarding := by decide
  obtain ⟨-, setting⟩ := Graph.edited_after made 1 (by decide)
  obtain ⟨e, -, -, ⟨served, edited⟩, uses⟩ := setting 0 (by decide) keeper
  have first : (boarded.set 0 keeper 1).1 = 0 := by decide
  obtain rfl : (0 : EdgeId) = e := first.symm.trans served
  obtain ⟨-, -, lasting⟩ := uses (.set 0 keeper 1) (by simp)
  exact ⟨made, by decide, by decide, edited.values_self, edited.values_other, by decide,
    lasting [] trivial keeper rfl⟩

end TripleQuery.Sample
