import TripleQuery.Graph.Component
import TripleQuery.Proofs.Graph.Cursor
import TripleQuery.Proofs.Graph.Operations
import TripleQuery.Proofs.Graph.Trees

/-!
What the walk over a component reports: each statement between two nodes that edges connect to the
start, in whatever direction they are taken, and no other. Only nodes that may be entered are
crossed on the way. The statement of an edge and one of its values is met from both ends, and so
it is reported twice.
-/

namespace TripleQuery.Graph

/-- An edge, taken in either direction, to a node that may be entered. -/
def Crosses (g : Graph) (unknowns : Bool) (a b : NodeId) : Prop :=
  g.admits unknowns b = true ∧ ∃ e, g.Links e a b

/-- Any number of such edges. From a node that may be entered, only such nodes are crossed. -/
def Connected (g : Graph) (unknowns : Bool) : NodeId → NodeId → Prop :=
  Relation.ReflTransGen (g.Crosses unknowns)

/-- What the edge states of one of its values, whatever its ends stand for. -/
def statement (g : Graph) (e : EdgeId) (value : NodeId) : Statement :=
  ⟨g.token (g.owner e), g.link e, g.token value⟩

/-- The nodes that the walk enters, the first first. -/
def componentOrder (g : Graph) (start : NodeId) (unknowns : Bool) : List NodeId :=
  Traversal.order (fun n => (g.componentSteps unknowns n).map Prod.snd) g.nodeIds [start]

variable {g : Graph} {unknowns : Bool} {start n b : NodeId} {statement : Statement}

theorem Connected.admits (connected : g.Connected unknowns start n)
    (entered : g.admits unknowns start = true) : g.admits unknowns n = true := by
  cases connected with
  | refl => exact entered
  | tail _ crosses => exact crosses.1

/-- A region that no edge between admitted nodes leaves or enters holds all that is connected to a
node in it. -/
theorem Connected.mem_region {region : List NodeId}
    (closed : ∀ e < g.edges.length, ∀ value ∈ g.values e, g.admits unknowns (g.owner e) = true →
      g.admits unknowns value = true → (g.owner e ∈ region ↔ value ∈ region))
    (entered : g.admits unknowns start = true) (here : start ∈ region)
    (connected : g.Connected unknowns start n) : n ∈ region := by
  induction connected with
  | refl => exact here
  | tail before crosses ih =>
    have admitted := Connected.admits before entered
    obtain ⟨into, e, ⟨rfl, member⟩ | ⟨rfl, member⟩⟩ := crosses
    · exact (closed e (lt_of_mem_values member) _ member admitted into).mp ih
    · exact (closed e (lt_of_mem_values member) _ member into admitted).mpr ih

/-! ### Steps -/

section Steps

variable (linked : g.Linked)

include linked

theorem mem_stepsUp : (statement, b) ∈ g.stepsUp unknowns n ↔ g.admits unknowns b = true ∧
    ∃ e, g.Joins e b n ∧ statement = g.statement e n := by
  rw [stepsUp, List.mem_filterMap]
  constructor
  · intro found
    obtain ⟨e, owned, made⟩ := found
    obtain ⟨admitted, made⟩ := Option.ite_none_right_eq_some.mp made
    cases made
    exact ⟨admitted, e, ⟨rfl, (linked.mem_owners n e).mp owned⟩, rfl⟩
  · intro found
    obtain ⟨admitted, e, ⟨rfl, value⟩, rfl⟩ := found
    exact ⟨e, (linked.mem_owners n e).mpr value, if_pos admitted⟩

theorem mem_stepsDown : (statement, b) ∈ g.stepsDown unknowns n ↔ g.admits unknowns b = true ∧
    ∃ e, g.Joins e n b ∧ statement = g.statement e b := by
  simp only [stepsDown, List.mem_flatMap, List.mem_filterMap]
  constructor
  · intro found
    obtain ⟨e, property, value, member, made⟩ := found
    obtain ⟨admitted, made⟩ := Option.ite_none_right_eq_some.mp made
    cases made
    obtain ⟨_, owner⟩ := (linked.mem_properties n e).mp property
    exact ⟨admitted, e, ⟨owner, member⟩, by rw [Graph.statement, owner]⟩
  · intro found
    obtain ⟨admitted, e, ⟨rfl, member⟩, rfl⟩ := found
    have property := (linked.mem_properties _ e).mpr ⟨lt_of_mem_values member, rfl⟩
    exact ⟨e, property, b, member, if_pos admitted⟩

theorem mem_componentSteps : (statement, b) ∈ g.componentSteps unknowns n ↔
    g.admits unknowns n = true ∧ g.admits unknowns b = true ∧ ∃ e,
      (g.Joins e b n ∧ statement = g.statement e n) ∨
        (g.Joins e n b ∧ statement = g.statement e b) := by
  unfold componentSteps
  split
  · rename_i entered
    rw [List.mem_append, mem_stepsUp linked, mem_stepsDown linked, ← and_or_left, ← exists_or]
    exact (and_iff_right entered).symm
  · rename_i refused
    exact iff_of_false List.not_mem_nil fun found => refused found.1

theorem mem_neighbours : b ∈ (g.componentSteps unknowns n).map Prod.snd ↔
    g.admits unknowns n = true ∧ g.Crosses unknowns n b := by
  constructor
  · intro found
    obtain ⟨⟨_, _⟩, step, rfl⟩ := List.mem_map.mp found
    obtain ⟨entered, admitted, e, ⟨joins, _⟩ | ⟨joins, _⟩⟩ := (mem_componentSteps linked).mp step
    · exact ⟨entered, admitted, e, .inr joins⟩
    · exact ⟨entered, admitted, e, .inl joins⟩
  · rintro ⟨entered, admitted, e, joins | joins⟩
    · exact List.mem_map.mpr ⟨(g.statement e b, b),
        (mem_componentSteps linked).mpr ⟨entered, admitted, e, .inr ⟨joins, rfl⟩⟩, rfl⟩
    · exact List.mem_map.mpr ⟨(g.statement e n, b),
        (mem_componentSteps linked).mpr ⟨entered, admitted, e, .inl ⟨joins, rfl⟩⟩, rfl⟩

theorem lt_of_crosses (crosses : g.Crosses unknowns n b) : b < g.nodes.length := by
  obtain ⟨_, e, ⟨rfl, member⟩ | ⟨rfl, member⟩⟩ := crosses
  · exact linked.value_lt e b member
  · exact linked.owner_lt e (lt_of_mem_values member)

theorem leads_iff_connected (entered : g.admits unknowns start = true) :
    Traversal.Leads (fun n => (g.componentSteps unknowns n).map Prod.snd) start n ↔
      g.Connected unknowns start n := by
  constructor
  · intro leads
    exact Relation.ReflTransGen.mono (fun a b step => ((mem_neighbours linked).mp step).2) _ _ leads
  · intro connected
    induction connected with
    | refl => exact .refl
    | tail before crosses ih =>
      exact ih.tail ((mem_neighbours linked).mpr ⟨Connected.admits before entered, crosses⟩)

/-! ### The nodes of the component -/

theorem lt_of_mem_neighbours : ∀ a ∈ g.nodeIds, ∀ b ∈ (g.componentSteps unknowns a).map Prod.snd,
    b ∈ g.nodeIds := by
  intro a _ b step
  exact List.mem_range.mpr (lt_of_crosses linked ((mem_neighbours linked).mp step).2)

theorem mem_componentOrder (inside : start < g.nodes.length)
    (entered : g.admits unknowns start = true) :
    n ∈ g.componentOrder start unknowns ↔ g.Connected unknowns start n := by
  rw [componentOrder, Traversal.mem_order_iff (lt_of_mem_neighbours linked),
    leads_iff_connected linked entered]
  exact and_iff_right (List.mem_range.mpr inside)

end Steps

/-! ### From both ends -/

/-- The edges up from a node, each with the node as its value. -/
def partsUp (g : Graph) (unknowns : Bool) (n : NodeId) : List (EdgeId × NodeId) :=
  ((g.owners n).filter fun e => g.admits unknowns (g.owner e)).map (·, n)

/-- The edges down from a node, each with each of its values. -/
def partsDown (g : Graph) (unknowns : Bool) (n : NodeId) : List (EdgeId × NodeId) :=
  (g.properties n).flatMap fun e => ((g.values e).filter (g.admits unknowns)).map (e, ·)

theorem map_stepsUp : (g.stepsUp unknowns n).map Prod.fst =
    (g.partsUp unknowns n).map fun part => g.statement part.1 part.2 := by
  rw [stepsUp, partsUp, List.map_filterMap, List.map_map, ← List.filterMap_eq_map,
    List.filterMap_filter]
  congr 1
  funext e
  cases admitted : g.admits unknowns (g.owner e) <;> simp [admitted, Graph.statement]

theorem map_stepsDown (linked : g.Linked) : (g.stepsDown unknowns n).map Prod.fst =
    (g.partsDown unknowns n).map fun part => g.statement part.1 part.2 := by
  rw [stepsDown, partsDown, List.map_flatMap, List.map_flatMap]
  refine List.flatMap_congr fun e property => ?_
  obtain ⟨_, rfl⟩ := (linked.mem_properties n e).mp property
  rw [List.map_filterMap, List.map_map, ← List.filterMap_eq_map, List.filterMap_filter]
  congr 1
  funext value
  cases g.admits unknowns value <;> simp [Graph.statement]

theorem mem_partsUp (linked : g.Linked) {e : EdgeId} {value : NodeId} :
    (e, value) ∈ g.partsUp unknowns n ↔
      value = n ∧ value ∈ g.values e ∧ g.admits unknowns (g.owner e) = true := by
  simp only [partsUp, List.mem_map, List.mem_filter, linked.mem_owners, Prod.mk.injEq]
  constructor
  · intro found
    obtain ⟨_, ⟨member, admitted⟩, rfl, rfl⟩ := found
    exact ⟨rfl, member, admitted⟩
  · intro found
    obtain ⟨rfl, member, admitted⟩ := found
    exact ⟨e, ⟨member, admitted⟩, rfl, rfl⟩

theorem mem_partsDown (linked : g.Linked) {e : EdgeId} {value : NodeId} :
    (e, value) ∈ g.partsDown unknowns n ↔
      g.owner e = n ∧ value ∈ g.values e ∧ g.admits unknowns value = true := by
  simp only [partsDown, List.mem_flatMap, List.mem_map, List.mem_filter, linked.mem_properties,
    Prod.mk.injEq]
  constructor
  · intro found
    obtain ⟨_, ⟨_, owner⟩, _, ⟨member, admitted⟩, rfl, rfl⟩ := found
    exact ⟨owner, member, admitted⟩
  · intro found
    obtain ⟨owner, member, admitted⟩ := found
    exact ⟨e, ⟨lt_of_mem_values member, owner⟩, value, ⟨member, admitted⟩, rfl, rfl⟩

section Nodup

variable (linked : g.Linked) (distinct : g.Distinct) {nodes : List NodeId} (once : nodes.Nodup)

include linked distinct once

theorem nodup_partsUp : (nodes.flatMap (g.partsUp unknowns)).Nodup := by
  refine List.pairwise_flatMap.mpr ⟨fun n _ => ?_, once.imp ?_⟩
  · refine List.pairwise_map.mpr (((distinct.owners n).filter _).imp fun other same => ?_)
    exact other (Prod.mk.inj same).1
  · rintro m n other ⟨e, value⟩ first _ second rfl
    exact other (((mem_partsUp linked).mp first).1.symm.trans ((mem_partsUp linked).mp second).1)

theorem nodup_partsDown : (nodes.flatMap (g.partsDown unknowns)).Nodup := by
  refine List.pairwise_flatMap.mpr ⟨fun n _ => List.pairwise_flatMap.mpr
    ⟨fun e _ => ?_, (distinct.properties n).imp ?_⟩, once.imp ?_⟩
  · refine List.pairwise_map.mpr (((distinct.values e).filter _).imp fun other same => ?_)
    exact other (Prod.mk.inj same).2
  · intro e e' other part first part' second same
    obtain ⟨_, _, rfl⟩ := List.mem_map.mp first
    obtain ⟨_, _, rfl⟩ := List.mem_map.mp second
    exact other (Prod.mk.inj same).1
  · rintro m n other ⟨e, value⟩ first _ second rfl
    exact other (((mem_partsDown linked).mp first).1.symm.trans
      ((mem_partsDown linked).mp second).1)

end Nodup

section Twice

variable (linked : g.Linked) (distinct : g.Distinct) (inside : start < g.nodes.length)
  (entered : g.admits unknowns start = true)

include linked inside entered

theorem mem_component_partsUp {e : EdgeId} {value : NodeId} :
    (e, value) ∈ (g.componentOrder start unknowns).flatMap (g.partsUp unknowns) ↔
      value ∈ g.values e ∧ g.Connected unknowns start (g.owner e) ∧
        g.Connected unknowns start value := by
  simp only [List.mem_flatMap, mem_componentOrder linked inside entered, mem_partsUp linked]
  constructor
  · intro found
    obtain ⟨_, connected, rfl, member, admitted⟩ := found
    exact ⟨member, connected.tail ⟨admitted, e, .inr ⟨rfl, member⟩⟩, connected⟩
  · intro found
    obtain ⟨member, owner, connected⟩ := found
    exact ⟨value, connected, rfl, member, owner.admits entered⟩

theorem mem_component_partsDown {e : EdgeId} {value : NodeId} :
    (e, value) ∈ (g.componentOrder start unknowns).flatMap (g.partsDown unknowns) ↔
      value ∈ g.values e ∧ g.Connected unknowns start (g.owner e) ∧
        g.Connected unknowns start value := by
  simp only [List.mem_flatMap, mem_componentOrder linked inside entered, mem_partsDown linked]
  constructor
  · intro found
    obtain ⟨_, connected, rfl, member, admitted⟩ := found
    exact ⟨member, connected, connected.tail ⟨admitted, e, .inl ⟨rfl, member⟩⟩⟩
  · intro found
    obtain ⟨member, owner, connected⟩ := found
    exact ⟨_, owner, rfl, member, connected.admits entered⟩

/-- What is reported at the nodes of the walk, on the way up and on the way down. -/
theorem componentTrail_perm : (g.componentTrail start unknowns).Perm
    (((g.componentOrder start unknowns).flatMap (g.partsUp unknowns) ++
      (g.componentOrder start unknowns).flatMap (g.partsDown unknowns)).map
        fun part => g.statement part.1 part.2) := by
  have here : ∀ n ∈ g.componentOrder start unknowns,
      (g.componentSteps unknowns n).map Prod.fst =
        ((g.partsUp unknowns n).map fun part => g.statement part.1 part.2) ++
          (g.partsDown unknowns n).map fun part => g.statement part.1 part.2 := by
    intro n member
    have connected := (mem_componentOrder linked inside entered).mp member
    rw [componentSteps, if_pos (connected.admits entered), List.map_append, map_stepsUp,
      map_stepsDown linked]
  refine Traversal.trailFrom_perm.trans ?_
  rw [List.map_append, List.map_flatMap, List.map_flatMap]
  exact (List.Perm.of_eq (List.flatMap_congr here)).trans (List.flatMap_append_perm _ _ _).symm

theorem mem_componentTrail : statement ∈ g.componentTrail start unknowns ↔
    ∃ e value, value ∈ g.values e ∧ g.Connected unknowns start (g.owner e) ∧
      g.Connected unknowns start value ∧ statement = g.statement e value := by
  rw [(componentTrail_perm linked inside entered).mem_iff]
  simp only [List.mem_map, List.mem_append, Prod.exists, mem_component_partsUp linked inside entered,
    mem_component_partsDown linked inside entered, or_self, and_assoc, eq_comm]

include distinct

/-- Each statement of the component is met at its object and at its subject. -/
theorem exists_parts : ∃ parts : List (EdgeId × NodeId), parts.Nodup ∧
    (∀ e value, (e, value) ∈ parts ↔ value ∈ g.values e ∧
      g.Connected unknowns start (g.owner e) ∧ g.Connected unknowns start value) ∧
    (g.componentTrail start unknowns).Perm
      ((parts ++ parts).map fun part => g.statement part.1 part.2) := by
  have once : (g.componentOrder start unknowns).Nodup :=
    Traversal.nodup_order List.nodup_range _
  have down : ((g.componentOrder start unknowns).flatMap (g.partsDown unknowns)).Nodup :=
    nodup_partsDown linked distinct once
  have same : ((g.componentOrder start unknowns).flatMap (g.partsUp unknowns)).Perm
      ((g.componentOrder start unknowns).flatMap (g.partsDown unknowns)) := by
    refine (List.perm_ext_iff_of_nodup (nodup_partsUp linked distinct once) down).mpr ?_
    rintro ⟨e, value⟩
    exact (mem_component_partsUp linked inside entered).trans
      (mem_component_partsDown linked inside entered).symm
  refine ⟨_, down, fun e value => mem_component_partsDown linked inside entered, ?_⟩
  exact (componentTrail_perm linked inside entered).trans ((same.append_right _).map _)

end Twice

/-- Nothing is reported from a node that may not be entered. -/
theorem componentTrail_of_not_admits (refused : g.admits unknowns start = false) :
    g.componentTrail start unknowns = [] := by
  have none : g.componentSteps unknowns start = [] := by
    rw [componentSteps, refused, if_neg Bool.false_ne_true]
  rw [componentTrail, Traversal.trailFrom, none, Traversal.trail, ite_self]

/-- Whatever operations made a graph, the walk over a component ends, however it is drawn. From a
node that may be entered it reports the statement of each edge of the component and each of its
values there twice, and nothing else; from another node it reports nothing. -/
theorem componentTrail_after {operations : List Operation}
    (made : Graph.empty.KnowsAll operations) {start : NodeId}
    (inside : start < (Graph.empty.after operations).nodes.length) (unknowns : Bool) :
    let g := Graph.empty.after operations
    (∀ reports, Traversal.Cursor.Draws (g.componentSteps unknowns)
      (.start (g.componentSteps unknowns) start) reports ↔
        reports = g.componentTrail start unknowns) ∧
    (g.admits unknowns start = true → ∃ parts : List (EdgeId × NodeId), parts.Nodup ∧
      (∀ e value, (e, value) ∈ parts ↔ value ∈ g.values e ∧
        g.Connected unknowns start (g.owner e) ∧ g.Connected unknowns start value) ∧
      (g.componentTrail start unknowns).Perm
        ((parts ++ parts).map fun part => g.statement part.1 part.2)) ∧
    (g.admits unknowns start = false → g.componentTrail start unknowns = []) := by
  intro g
  have tidy : g.Tidy := tidy_after made
  have known : start ∈ g.nodeIds := List.mem_range.mpr inside
  refine ⟨fun reports => ?_, fun entered => ?_, componentTrail_of_not_admits⟩
  · exact Traversal.Cursor.draws_start_iff (lt_of_mem_neighbours tidy.toLinked)
      List.nodup_range known
  · exact exists_parts tidy.toLinked tidy.toDistinct inside entered

end TripleQuery.Graph

namespace TripleQuery.Sample

/-- Ann and bob blame each other, and bob blames himself as well. Ann also blames a stranger, who
knows cid. -/
def quarrel : List Graph.Operation :=
  [.addDefined (.iri "ann"), .addDefined (.iri "bob"), .addUnknown, .addDefined (.iri "cid"),
    .relate 0 (.iri "blames") 1, .relate 1 (.iri "blames") 0, .addValue 1 1, .addValue 0 2,
    .relate 2 (.iri "knows") 3]

theorem made_quarrel : Graph.empty.KnowsAll quarrel := by decide

/-- That bob blames himself is said twice. Of cid nothing is said unless strangers are asked. -/
theorem componentTrail_quarrel :
    let g := Graph.empty.after quarrel
    Graph.empty.KnowsAll quarrel ∧ 0 < g.nodes.length ∧ g.admits false 0 = true ∧
    (∃ parts : List (EdgeId × NodeId), parts.Nodup ∧ (1, 1) ∈ parts ∧ (2, 3) ∉ parts ∧
      (g.componentTrail 0 false).Perm
        ((parts ++ parts).map fun part => g.statement part.1 part.2)) ∧
    g.componentTrail 2 false = [] := by
  intro g
  have ann : 0 < g.nodes.length := by decide
  have stranger : 2 < g.nodes.length := by decide
  have entered : g.admits false 0 = true := by decide
  obtain ⟨parts, once, found, twice⟩ :=
    (Graph.componentTrail_after made_quarrel ann false).2.1 entered
  refine ⟨made_quarrel, ann, entered, ⟨parts, once, (found 1 1).mpr ?_, fun cid => ?_, twice⟩,
    (Graph.componentTrail_after made_quarrel stranger false).2.2 (by decide)⟩
  · have bob : g.Connected false 0 1 :=
      .single ⟨by decide, 0, .inl ⟨by decide, by decide⟩⟩
    exact ⟨by decide, bob, bob⟩
  · have asked : g.admits false 2 = true := ((found 2 3).mp cid).2.1.admits entered
    cases asked

end TripleQuery.Sample
