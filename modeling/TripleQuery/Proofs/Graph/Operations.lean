import TripleQuery.Proofs.Graph.Distinct

/-!
Runs of operations on a graph. Whatever operations made it, a graph refers to nodes and edges that
it has, from both sides alike and nowhere twice. No operation changes what an earlier node stands
for, nor the owner or the link of an earlier edge.
-/

namespace TripleQuery.Graph

/-! ### Operations -/

inductive Operation where
  | addDefined (identifier : Term)
  | addUnknown
  | addInterval (bounds : Interval)
  | addProperty (owner : NodeId) (link : Term)
  | addValue (edge : EdgeId) (value : NodeId)
  | setValue (edge : EdgeId) (value : NodeId)
  | relate (owner : NodeId) (link : Term) (value : NodeId)
  | attach (owner : NodeId) (descriptor : Descriptor)
  | set (owner : NodeId) (descriptor : Descriptor) (value : NodeId)

def perform (g : Graph) : Operation → Graph
  | .addDefined identifier => (g.addDefined identifier).2
  | .addUnknown => g.addUnknown.2
  | .addInterval bounds => (g.addInterval bounds).2
  | .addProperty owner link => (g.addProperty owner link).2
  | .addValue edge value => g.addValue edge value
  | .setValue edge value => g.setValue edge value
  | .relate owner link value => (g.relate owner link value).2
  | .attach owner descriptor => (g.attach owner descriptor).2
  | .set owner descriptor value => (g.set owner descriptor value).2

def after (g : Graph) (operations : List Operation) : Graph := operations.foldl perform g

/-- The nodes and edges that an operation is about are the graph's own. -/
def Knows (g : Graph) : Operation → Prop
  | .addDefined _ | .addUnknown | .addInterval _ => True
  | .addProperty owner _ | .attach owner _ => owner < g.nodes.length
  | .addValue edge value | .setValue edge value => edge < g.edges.length ∧ value < g.nodes.length
  | .relate owner _ value | .set owner _ value => owner < g.nodes.length ∧ value < g.nodes.length

instance (g : Graph) : (operation : Operation) → Decidable (g.Knows operation)
  | .addDefined _ | .addUnknown | .addInterval _ => inferInstanceAs (Decidable True)
  | .addProperty _ _ | .attach _ _ => inferInstanceAs (Decidable (_ < _))
  | .addValue _ _ | .setValue _ _ => inferInstanceAs (Decidable (_ ∧ _))
  | .relate _ _ _ | .set _ _ _ => inferInstanceAs (Decidable (_ ∧ _))

/-- Each operation of a run is about nodes and edges that are there by then. -/
def KnowsAll (g : Graph) : List Operation → Prop
  | [] => True
  | operation :: rest => g.Knows operation ∧ (g.perform operation).KnowsAll rest

instance decidableKnowsAll (g : Graph) :
    (operations : List Operation) → Decidable (g.KnowsAll operations)
  | [] => inferInstanceAs (Decidable True)
  | operation :: rest =>
    have := decidableKnowsAll (g.perform operation) rest
    inferInstanceAs (Decidable (_ ∧ _))

variable {g : Graph}

theorem knowsAll_append {earlier later : List Operation} :
    g.KnowsAll (earlier ++ later) ↔ g.KnowsAll earlier ∧ (g.after earlier).KnowsAll later := by
  induction earlier generalizing g with
  | nil => exact (iff_of_eq (true_and _)).symm
  | cons operation rest ih => exact (and_congr_right fun _ => ih).trans and_assoc.symm

/-! ### What stays as it was -/

structure Keeps (before after : Graph) : Prop where
  nodes_le : before.nodes.length ≤ after.nodes.length
  edges_le : before.edges.length ≤ after.edges.length
  token : ∀ n < before.nodes.length, after.token n = before.token n
  owner : ∀ e < before.edges.length, after.owner e = before.owner e
  link : ∀ e < before.edges.length, after.link e = before.link e

theorem Keeps.refl (g : Graph) : g.Keeps g :=
  ⟨Nat.le_refl _, Nat.le_refl _, fun _ _ => rfl, fun _ _ => rfl, fun _ _ => rfl⟩

theorem Keeps.trans {a b c : Graph} (first : a.Keeps b) (second : b.Keeps c) : a.Keeps c where
  nodes_le := Nat.le_trans first.nodes_le second.nodes_le
  edges_le := Nat.le_trans first.edges_le second.edges_le
  token n known := by
    rw [second.token n (Nat.lt_of_lt_of_le known first.nodes_le), first.token n known]
  owner e known := by
    rw [second.owner e (Nat.lt_of_lt_of_le known first.edges_le), first.owner e known]
  link e known := by
    rw [second.link e (Nat.lt_of_lt_of_le known first.edges_le), first.link e known]

theorem keeps_addNode (token : Token) : g.Keeps (g.addNode token).2 where
  nodes_le := by
    rw [length_nodes_addNode]
    exact Nat.le_succ _
  edges_le := Nat.le_refl _
  token n known := by
    rw [token_addNode, if_neg (Nat.ne_of_lt known)]
  owner _ _ := rfl
  link _ _ := rfl

theorem keeps_addProperty {owner : NodeId} (known : owner < g.nodes.length) (link : Term) :
    g.Keeps (g.addProperty owner link).2 where
  nodes_le := Nat.le_of_eq (length_nodes_addProperty link owner).symm
  edges_le := Nat.le_of_lt (lt_length_addProperty link owner)
  token n _ := token_addProperty known link n
  owner e earlier := by
    rw [owner_addProperty, if_neg (Nat.ne_of_lt earlier)]
  link e earlier := by
    rw [link_addProperty, if_neg (Nat.ne_of_lt earlier)]

section Values

variable {e : EdgeId} {value : NodeId} (edge_known : e < g.edges.length)
  (value_known : value < g.nodes.length)

include edge_known value_known

theorem keeps_addValue : g.Keeps (g.addValue e value) where
  nodes_le := Nat.le_of_eq (length_nodes_addValue e value).symm
  edges_le := Nat.le_of_eq (length_edges_addValue e value).symm
  token n _ := token_addValue value_known n
  owner x _ := owner_addValue edge_known x
  link x _ := link_addValue edge_known x

theorem Linked.keeps_setValue (linked : g.Linked) : g.Keeps (g.setValue e value) where
  nodes_le := Nat.le_of_eq (length_nodes_setValue e value).symm
  edges_le := Nat.le_of_eq (length_edges_setValue e value).symm
  token n _ := token_setValue (linked.value_lt e) value_known n
  owner x _ := owner_setValue edge_known x
  link x _ := link_setValue edge_known x

end Values

/-! ### How many unknowns there are -/

/-- The number of unknown nodes. -/
def unknownCount (g : Graph) : Nat := g.nodeIds.countP fun n => (g.token n).unknown?.isSome

theorem unknownCount_addNode (token : Token) : (g.addNode token).2.unknownCount =
    g.unknownCount + if token.unknown?.isSome then 1 else 0 := by
  have earlier : ∀ n ∈ g.nodeIds, (g.addNode token).2.token n = g.token n := fun n member =>
    (keeps_addNode token).token n (List.mem_range.mp member)
  have new : (g.addNode token).2.token g.nodes.length = token := by
    rw [token_addNode, if_pos rfl]
  have nodes : (g.addNode token).2.nodeIds = g.nodeIds ++ [g.nodes.length] := by
    rw [nodeIds, length_nodes_addNode, List.range_succ, nodeIds]
  rw [unknownCount, nodes, List.countP_append, List.countP_singleton, new, unknownCount]
  congr 1
  exact List.countP_congr fun n member => by rw [earlier n member]

theorem unknownCount_of_edges {g' : Graph} (nodes : g'.nodes.length = g.nodes.length)
    (tokens : ∀ n, g'.token n = g.token n) : g'.unknownCount = g.unknownCount := by
  simp only [unknownCount, nodeIds, nodes, tokens]

/-! ### What every operation preserves -/

/-- Each unknown has a number of its own, and the numbers are as many as the unknowns. -/
structure Tidy (g : Graph) : Prop extends g.Linked, g.Distinct where
  counted : g.nextUnknown = g.unknownCount

theorem tidy_empty : Graph.empty.Tidy := ⟨linked_empty, distinct_empty, rfl⟩

theorem Tidy.addNode (tidy : g.Tidy) {token : Token} (known : token.unknown? = none) :
    (g.addNode token).2.Tidy where
  toLinked := tidy.toLinked.addNode fun k same => by
    rw [same] at known
    cases known
  toDistinct := tidy.toDistinct.addNode token
  counted := by
    rw [unknownCount_addNode, known]
    exact tidy.counted

theorem Tidy.addUnknown (tidy : g.Tidy) : g.addUnknown.2.Tidy where
  toLinked := tidy.toLinked.addUnknown
  toDistinct := tidy.toDistinct.addUnknown
  counted := by
    show g.nextUnknown + 1 =
      (Graph.addNode { g with nextUnknown := g.nextUnknown + 1 } _).2.unknownCount
    rw [unknownCount_addNode, tidy.counted]
    rfl

theorem Tidy.addProperty (tidy : g.Tidy) {owner : NodeId} (known : owner < g.nodes.length)
    (link : Term) : (g.addProperty owner link).2.Tidy where
  toLinked := tidy.toLinked.addProperty known link
  toDistinct := tidy.toDistinct.addProperty tidy.toLinked known link
  counted := by
    rw [unknownCount_of_edges (length_nodes_addProperty link owner) (token_addProperty known link)]
    exact tidy.counted

section Values

variable {e : EdgeId} {value : NodeId} (edge_known : e < g.edges.length)
  (value_known : value < g.nodes.length)

include edge_known value_known

theorem Tidy.addValue (tidy : g.Tidy) : (g.addValue e value).Tidy where
  toLinked := tidy.toLinked.addValue edge_known value_known
  toDistinct := tidy.toDistinct.addValue edge_known value_known
  counted := by
    rw [nextUnknown_addValue,
      unknownCount_of_edges (length_nodes_addValue e value) (token_addValue value_known)]
    exact tidy.counted

theorem Tidy.setValue (tidy : g.Tidy) : (g.setValue e value).Tidy where
  toLinked := tidy.toLinked.setValue edge_known value_known
  toDistinct := tidy.toDistinct.setValue tidy.toLinked edge_known value_known
  counted := by
    rw [unknownCount_of_edges (length_nodes_setValue e value)
      (token_setValue (tidy.value_lt e) value_known)]
    exact (nextUnknown_addValue e value).trans tidy.counted

end Values

/-- A graph that an operation may lead to. -/
def Yields (before after : Graph) : Prop := after.Tidy ∧ before.Keeps after

theorem Yields.trans {a b c : Graph} (first : a.Yields b) (second : b.Yields c) : a.Yields c :=
  ⟨second.1, first.2.trans second.2⟩

section Steps

variable (tidy : g.Tidy)

include tidy

theorem Tidy.yields_addUnknown : g.Yields g.addUnknown.2 := by
  have counted : g.Keeps { g with nextUnknown := g.nextUnknown + 1 } :=
    ⟨Nat.le_refl _, Nat.le_refl _, fun _ _ => rfl, fun _ _ => rfl, fun _ _ => rfl⟩
  exact ⟨tidy.addUnknown, counted.trans (keeps_addNode _)⟩

theorem Tidy.yields_addValue {e : EdgeId} {value : NodeId} (edge_known : e < g.edges.length)
    (value_known : value < g.nodes.length) : g.Yields (g.addValue e value) :=
  ⟨tidy.addValue edge_known value_known, keeps_addValue edge_known value_known⟩

theorem Tidy.yields_setValue {e : EdgeId} {value : NodeId} (edge_known : e < g.edges.length)
    (value_known : value < g.nodes.length) : g.Yields (g.setValue e value) :=
  ⟨tidy.setValue edge_known value_known, tidy.toLinked.keeps_setValue edge_known value_known⟩

theorem Tidy.yields_addProperty {owner : NodeId} (known : owner < g.nodes.length) (link : Term) :
    g.Yields (g.addProperty owner link).2 :=
  ⟨tidy.addProperty known link, keeps_addProperty known link⟩

theorem Tidy.yields_relate {owner value : NodeId} (known : owner < g.nodes.length) (link : Term)
    (value_known : value < g.nodes.length) : g.Yields (g.relate owner link value).2 := by
  have made := tidy.yields_addProperty known link
  have value_still := Nat.lt_of_lt_of_le value_known made.2.nodes_le
  exact made.trans (made.1.yields_addValue (lt_length_addProperty link owner) value_still)

/-- Attaching comes with an edge of the graph that it leads to. -/
theorem Tidy.yields_attach {owner : NodeId} (known : owner < g.nodes.length) (d : Descriptor) :
    g.Yields (g.attach owner d).2 ∧
      (g.attach owner d).1 < (g.attach owner d).2.edges.length := by
  rcases attach_cases owner d with ⟨e, property, same⟩ | same
  · rw [same]
    exact ⟨⟨tidy, .refl g⟩, ((tidy.mem_properties owner e).mp property).1⟩
  · rw [same]
    exact ⟨tidy.yields_addProperty known d.link, lt_length_addProperty d.link owner⟩

theorem Tidy.yields_set {owner value : NodeId} (known : owner < g.nodes.length) (d : Descriptor)
    (value_known : value < g.nodes.length) : g.Yields (g.set owner d value).2 := by
  obtain ⟨attached, edge_known⟩ := tidy.yields_attach known d
  have value_still := Nat.lt_of_lt_of_le value_known attached.2.nodes_le
  refine attached.trans ?_
  show Yields _ (if d.multiple then _ else _)
  split
  · exact attached.1.yields_addValue edge_known value_still
  · exact attached.1.yields_setValue edge_known value_still

theorem Tidy.yields_perform {operation : Operation} (known : g.Knows operation) :
    g.Yields (g.perform operation) := by
  cases operation with
  | addDefined identifier => exact ⟨tidy.addNode rfl, keeps_addNode _⟩
  | addUnknown => exact tidy.yields_addUnknown
  | addInterval bounds => exact ⟨tidy.addNode rfl, keeps_addNode _⟩
  | addProperty owner link => exact tidy.yields_addProperty known link
  | addValue edge value => exact tidy.yields_addValue known.1 known.2
  | setValue edge value => exact tidy.yields_setValue known.1 known.2
  | relate owner link value => exact tidy.yields_relate known.1 link known.2
  | attach owner descriptor => exact (tidy.yields_attach known descriptor).1
  | set owner descriptor value => exact tidy.yields_set known.1 descriptor known.2

end Steps

theorem Tidy.yields_after (tidy : g.Tidy) {operations : List Operation}
    (known : g.KnowsAll operations) : g.Yields (g.after operations) := by
  induction operations generalizing g with
  | nil => exact ⟨tidy, .refl g⟩
  | cons operation rest ih =>
    have step := tidy.yields_perform known.1
    exact step.trans (ih step.1 known.2)

theorem tidy_after {operations : List Operation} (made : Graph.empty.KnowsAll operations) :
    (Graph.empty.after operations).Tidy :=
  (tidy_empty.yields_after made).1

/-! ### Consistent graphs -/

/-- What a graph stores about its nodes and edges agrees. The numbers of the unknowns are below
how many unknowns there are, so that `2 ^ 32` of them take 32 bits. -/
structure Consistent (g : Graph) : Prop where
  owner_lt : ∀ e < g.edges.length, g.owner e < g.nodes.length
  value_lt : ∀ e < g.edges.length, ∀ value ∈ g.values e, value < g.nodes.length
  property_lt : ∀ n < g.nodes.length, ∀ e ∈ g.properties n, e < g.edges.length
  owners_lt : ∀ n < g.nodes.length, ∀ e ∈ g.owners n, e < g.edges.length
  count_properties : ∀ n < g.nodes.length, ∀ e < g.edges.length,
    (g.properties n).count e = if g.owner e = n then 1 else 0
  nodup_values : ∀ e < g.edges.length, (g.values e).Nodup
  nodup_owners : ∀ n < g.nodes.length, (g.owners n).Nodup
  mem_owners : ∀ n < g.nodes.length, ∀ e < g.edges.length, e ∈ g.owners n ↔ n ∈ g.values e
  unknown_inj : ∀ m < g.nodes.length, ∀ n < g.nodes.length, ∀ k,
    g.token m = .unknown k → g.token n = .unknown k → m = n
  unknown_lt : ∀ n < g.nodes.length, ∀ k, g.token n = .unknown k → k < g.unknownCount

theorem Tidy.consistent (tidy : g.Tidy) : g.Consistent where
  owner_lt := tidy.owner_lt
  value_lt e _ := tidy.value_lt e
  property_lt n _ e member := ((tidy.mem_properties n e).mp member).1
  owners_lt n _ e member := lt_of_mem_values ((tidy.mem_owners n e).mp member)
  count_properties n _ e known := by
    rw [(tidy.properties n).count]
    simp only [tidy.mem_properties, known, true_and]
  nodup_values e _ := tidy.values e
  nodup_owners n _ := tidy.owners n
  mem_owners n _ e _ := tidy.mem_owners n e
  unknown_inj m _ n _ := tidy.unknown_inj m n
  unknown_lt n _ k token := by
    rw [← tidy.counted]
    exact tidy.unknown_lt n k token

/-- A graph is consistent after every run of operations, and what it says of its nodes and edges
stands whatever operations follow. -/
theorem consistent_after (earlier later : List Operation)
    (known : Graph.empty.KnowsAll (earlier ++ later)) :
    (Graph.empty.after earlier).Consistent ∧
      (Graph.empty.after earlier).Keeps (Graph.empty.after (earlier ++ later)) := by
  obtain ⟨known_earlier, known_later⟩ := knowsAll_append.mp known
  have tidy := (tidy_empty.yields_after known_earlier).1
  have run : Graph.empty.after (earlier ++ later) = (Graph.empty.after earlier).after later :=
    List.foldl_append
  rw [run]
  exact ⟨tidy.consistent, (tidy.yields_after known_later).2⟩

end TripleQuery.Graph

namespace TripleQuery.Sample

def shelter : Descriptor := ⟨"shelter", .iri "shelter", false⟩

def visitor : Descriptor := ⟨"visitor", .iri "visitor", true⟩

/-- A dog with its keeper and its age. -/
def takeIn : List Graph.Operation :=
  [.addDefined (.iri "rex"), .addUnknown, .addInterval ⟨some (.integer 2), none⟩,
    .relate 0 (.iri "keeper") 1, .addProperty 0 (.iri "age"), .addValue 1 2,
    .attach 1 visitor]

/-- The keeper changes, and so does the place. -/
def handOver : List Graph.Operation :=
  [.addUnknown, .setValue 0 3, .set 0 shelter 1, .set 0 shelter 3, .set 1 visitor 0,
    .set 1 visitor 3]

theorem consistent_takeIn : (Graph.empty.after takeIn).Consistent ∧
    (Graph.empty.after takeIn).Keeps (Graph.empty.after (takeIn ++ handOver)) :=
  Graph.consistent_after takeIn handOver (by decide)

end TripleQuery.Sample
