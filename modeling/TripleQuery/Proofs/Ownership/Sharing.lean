import Mathlib.Data.List.Nodup
import TripleQuery.Ownership.Sharing
import TripleQuery.Proofs.Graph.Operations
import TripleQuery.Proofs.Graph.Traversal
import TripleQuery.Proofs.SortedMap

/-!
What legends and heroes are in a graph. Legends are the nodes below a start that a node outside
still refers to; heroes are reached without entering a legend. Since a legend is kept together
with what it refers to, heroes can be given up safely just if no legend leads to one of them.
-/

namespace TripleQuery

namespace Graph

/-! ### Nodes below a node -/

/-- Zero or more edges, none of which leads to a node that is avoided. -/
def LeadsPast (g : Graph) (avoided : NodeId → Prop) : NodeId → NodeId → Prop :=
  Relation.ReflTransGen fun a b => b ∈ g.children a ∧ ¬ avoided b

def Below (g : Graph) : NodeId → NodeId → Prop := Traversal.Leads g.children

variable {g : Graph} {start : NodeId}

theorem LeadsPast.below {avoided : NodeId → Prop} {a b : NodeId} (leads : g.LeadsPast avoided a b) :
    g.Below a b :=
  Relation.ReflTransGen.mono (fun _ _ step => step.1) _ _ leads

theorem leads_filter {keep : NodeId → Prop} [DecidablePred keep] {a b : NodeId} :
    Traversal.Leads (fun n => (g.children n).filter fun value => decide (keep value)) a b ↔
      g.LeadsPast (fun n => ¬ keep n) a b := by
  have same : (fun x y : NodeId => y ∈ (g.children x).filter fun value => decide (keep value)) =
      fun x y => y ∈ g.children x ∧ ¬ ¬ keep y := by
    funext x y
    simp [List.mem_filter]
  rw [Traversal.Leads, same]
  rfl

/-- Nothing below a node is lost if the edges back to it are left out. -/
theorem leadsPast_start {n : NodeId} : g.LeadsPast (· = start) start n ↔ g.Below start n := by
  refine ⟨LeadsPast.below, fun below => ?_⟩
  induction below with
  | refl => exact .refl
  | @tail a b _ child ih =>
    by_cases back : b = start
    · exact back ▸ .refl
    · exact ih.tail ⟨child, back⟩

theorem mem_children (linked : g.Linked) {a b : NodeId} :
    b ∈ g.children a ↔ ∃ e, g.owner e = a ∧ b ∈ g.values e := by
  rw [children, List.mem_flatMap]
  constructor
  · intro found
    obtain ⟨e, property, value⟩ := found
    exact ⟨e, ((linked.mem_properties a e).mp property).2, value⟩
  · intro found
    obtain ⟨e, owner, value⟩ := found
    exact ⟨e, (linked.mem_properties a e).mpr ⟨lt_of_mem_values value, owner⟩, value⟩

theorem mem_nodeIds {n : NodeId} : n ∈ g.nodeIds ↔ n < g.nodes.length := List.mem_range

theorem mem_nodeIds_of_child (linked : g.Linked) {a b : NodeId} (child : b ∈ g.children a) :
    a ∈ g.nodeIds ∧ b ∈ g.nodeIds := by
  obtain ⟨e, rfl, value⟩ := (mem_children linked).mp child
  exact ⟨mem_nodeIds.mpr (linked.owner_lt e (lt_of_mem_values value)),
    mem_nodeIds.mpr (linked.value_lt e b value)⟩

theorem lt_of_below (linked : g.Linked) (inside : start < g.nodes.length) {n : NodeId}
    (below : g.Below start n) : n < g.nodes.length := by
  obtain same | ⟨_, _, child⟩ := (Relation.ReflTransGen.cases_tail_iff _ _ _).mp below
  · exact same ▸ inside
  · exact mem_nodeIds.mp (mem_nodeIds_of_child linked child).2

/-- A walk from a node enters all that it can, if its steps are edges of the graph. -/
theorem mem_order_nodeIds (linked : g.Linked) {next : NodeId → List NodeId}
    (edges : ∀ a, ∀ b ∈ next a, b ∈ g.children a) {n : NodeId} :
    n ∈ Traversal.order next g.nodeIds [start] ↔ start ∈ g.nodeIds ∧ Traversal.Leads next start n :=
  Traversal.mem_order_iff fun a _ b step => (mem_nodeIds_of_child linked (edges a b step)).2

/-! ### References that are spent -/

/-- The nodes that are entered below a start, each once. -/
def entered (g : Graph) (start : NodeId) : List NodeId :=
  Traversal.order (fun n => (g.children n).filter fun value => decide (value ≠ start)) g.nodeIds
    [start]

theorem mem_entered (linked : g.Linked) {n : NodeId} :
    n ∈ g.entered start ↔ start ∈ g.nodeIds ∧ g.Below start n := by
  have back : (fun n : NodeId => ¬ n ≠ start) = (· = start) :=
    funext fun n => propext Decidable.not_not
  rw [entered, mem_order_nodeIds linked fun a b step => (List.mem_filter.mp step).1,
    leads_filter, back, leadsPast_start]

theorem nodup_entered : (g.entered start).Nodup := Traversal.nodup_order List.nodup_range _

theorem count_flatMap_values (distinct : g.Distinct) (v : NodeId) (edges : List EdgeId) :
    (edges.flatMap g.values).count v = edges.countP fun e => decide (v ∈ g.values e) := by
  induction edges with
  | nil => rfl
  | cons e rest ih =>
    rw [List.flatMap_cons, List.count_append, ih, List.countP_cons, (distinct.values e).count]
    split <;> simp_all [Nat.add_comm]

theorem nodup_flatMap_properties (linked : g.Linked) (distinct : g.Distinct)
    {nodes : List NodeId} (once : nodes.Nodup) : (nodes.flatMap g.properties).Nodup := by
  refine List.nodup_flatMap.mpr ⟨fun n _ => distinct.properties n, once.imp ?_⟩
  intro a b different e here there
  exact different (((linked.mem_properties a e).mp here).2.symm.trans
    ((linked.mem_properties b e).mp there).2)

/-- Among the values of some nodes, a node is found once for each edge that leads to it from one of
them. -/
theorem count_values (linked : g.Linked) (distinct : g.Distinct) {nodes : List NodeId}
    (once : nodes.Nodup) (v : NodeId) : ((nodes.flatMap g.properties).flatMap g.values).count v =
      ((g.owners v).filter fun e => decide (g.owner e ∈ nodes)).length := by
  have same_edges : ((nodes.flatMap g.properties).filter fun e => decide (v ∈ g.values e)).Perm
      ((g.owners v).filter fun e => decide (g.owner e ∈ nodes)) := by
    refine (List.perm_ext_iff_of_nodup
      ((nodup_flatMap_properties linked distinct once).filter _)
      ((distinct.owners v).filter _)).mpr fun e => ?_
    simp only [List.mem_filter, List.mem_flatMap, decide_eq_true_eq, linked.mem_owners]
    constructor
    · intro found
      obtain ⟨⟨n, inside, property⟩, value⟩ := found
      exact ⟨value, ((linked.mem_properties n e).mp property).2 ▸ inside⟩
    · intro found
      obtain ⟨value, inside⟩ := found
      have property := (linked.mem_properties _ e).mpr ⟨lt_of_mem_values value, rfl⟩
      exact ⟨⟨_, inside, property⟩, value⟩
  rw [count_flatMap_values distinct, List.countP_eq_length_filter, same_edges.length_eq]

/-- The edges met from the nodes that pass a test, by their values. -/
theorem map_filter_edgesBelow (keep : NodeId → Bool) :
    ((g.edgesBelow start).filter fun edge => keep edge.1).map Prod.snd =
      ((((g.entered start).filter keep).flatMap g.properties).flatMap g.values).filter
        fun value => decide (value ≠ start) := by
  show ((((g.entered start).flatMap _).filter _).map _) = _
  induction g.entered start with
  | nil => rfl
  | cons n rest ih =>
    rw [List.flatMap_cons, List.filter_append, List.map_append, ih, List.filter_cons]
    split
    · rename_i kept
      simp [children, List.filter_map, Function.comp_def, kept]
    · rename_i dropped
      simp [List.filter_map, Function.comp_def, dropped]

/-- How often a node is met by some edges. -/
def meetings (v : NodeId) (edges : List (NodeId × NodeId)) : Nat :=
  edges.countP fun edge => decide (edge.2 = v)

/-- How often meeting a node spends a reference. -/
def spendings (g : Graph) (store : Option Source) (v : NodeId) (edges : List (NodeId × NodeId)) :
    Nat :=
  edges.countP fun edge => g.spends store edge.1 && decide (edge.2 = v)

theorem spendings_none (v : NodeId) (edges : List (NodeId × NodeId)) :
    g.spendings none v edges = meetings v edges := rfl

/-- Below a start, a reference to a node is spent once for each edge that leads to it from a node
that was entered and spends. -/
theorem spendings_edgesBelow (linked : g.Linked) (distinct : g.Distinct) {v : NodeId}
    (other : v ≠ start) (store : Option Source) : g.spendings store v (g.edgesBelow start) =
      ((g.owners v).filter fun e =>
        decide (g.owner e ∈ (g.entered start).filter (g.spends store))).length := by
  have once : ((g.entered start).filter (g.spends store)).Nodup := nodup_entered.filter _
  calc g.spendings store v (g.edgesBelow start)
      = (((g.edgesBelow start).filter fun edge => g.spends store edge.1).map Prod.snd).count v := by
        rw [List.count, List.countP_map, List.countP_filter]
        simp only [spendings, Bool.and_comm, Function.comp_def, beq_eq_decide]
    _ = _ := by
        rw [map_filter_edgesBelow, List.count_filter (by simpa using other),
          count_values linked distinct once]

theorem meetings_edgesBelow (linked : g.Linked) (distinct : g.Distinct) {v : NodeId}
    (other : v ≠ start) : meetings v (g.edgesBelow start) =
      ((g.owners v).filter fun e => decide (g.owner e ∈ g.entered start)).length := by
  have met := spendings_edgesBelow linked distinct other none
  have all : (g.entered start).filter (g.spends none) = g.entered start :=
    List.filter_eq_self.mpr fun _ _ => rfl
  rwa [all] at met

section Spending

variable {store : Option Source} {count : NodeId → Int}
  (counted : ∀ v, g.referenceCount store v = .ok (count v))

include counted

theorem spendAll_cons (left : SortedMap NodeId Int) (owner value : NodeId)
    (rest : List (NodeId × NodeId)) :
    g.spendAll store left ((owner, value) :: rest) = g.spendAll store
      (left.insert value
        ((left.get? value).getD (count value) - if g.spends store owner then 1 else 0)) rest := by
  rw [spendAll, counted]
  cases left.get? value <;> rfl

/-- Every meeting that spends takes one of the references that a node had when it was first met. -/
theorem spendAll_counted (edges : List (NodeId × NodeId)) (left : SortedMap NodeId Int) :
    ∃ spent, g.spendAll store left edges = .ok spent ∧ ∀ v, spent.get? v =
      if meetings v edges = 0 then left.get? v
      else some ((left.get? v).getD (count v) - g.spendings store v edges) := by
  induction edges generalizing left with
  | nil => exact ⟨left, rfl, fun v => rfl⟩
  | cons edge rest ih =>
    obtain ⟨owner, value⟩ := edge
    obtain ⟨spent, answer, remaining⟩ := ih _
    refine ⟨spent, (spendAll_cons counted left owner value rest).trans answer, fun v => ?_⟩
    rw [remaining]
    by_cases here : value = v
    · subst here
      have met : meetings value ((owner, value) :: rest) = meetings value rest + 1 := by
        simp [meetings]
      have more : g.spendings store value ((owner, value) :: rest) =
          g.spendings store value rest + if g.spends store owner then 1 else 0 := by
        simp [spendings, List.countP_cons]
      rw [SortedMap.get?_insert_self, met, more, if_neg (Nat.succ_ne_zero _), Option.getD_some]
      split
      · rename_i last
        have unspent : g.spendings store value rest = 0 := by
          refine Nat.eq_zero_of_le_zero (last ▸ List.countP_mono_left fun edge _ spends => ?_)
          exact (Bool.and_eq_true_iff.mp spends).2
        split <;> simp [unspent]
      · congr 1
        split <;> omega
    · have same : meetings v ((owner, value) :: rest) = meetings v rest := by
        simp [meetings, here]
      have still : g.spendings store v ((owner, value) :: rest) = g.spendings store v rest := by
        simp [spendings, here]
      rw [SortedMap.get?_insert_of_ne left here, same, still]

end Spending

/-! ### Legends -/

theorem below_iff (linked : g.Linked) {v : NodeId} (other : v ≠ start) :
    g.Below start v ↔ ∃ e, v ∈ g.values e ∧ g.Below start (g.owner e) := by
  constructor
  · intro below
    obtain same | ⟨a, before, child⟩ := (Relation.ReflTransGen.cases_tail_iff _ _ _).mp below
    · exact absurd same other
    · obtain ⟨e, rfl, value⟩ := (mem_children linked).mp child
      exact ⟨e, value, before⟩
  · intro found
    obtain ⟨e, value, before⟩ := found
    exact before.tail ((mem_children linked).mpr ⟨e, rfl, value⟩)

theorem mem_nodeIds_of_below (linked : g.Linked) {v : NodeId} (other : v ≠ start)
    (below : g.Below start v) : start ∈ g.nodeIds := by
  obtain same | ⟨a, child, _⟩ := Relation.ReflTransGen.cases_head_iff.mp below
  · exact absurd same.symm other
  · exact (mem_nodeIds_of_child linked child).1

theorem meetings_start : meetings start (g.edgesBelow start) = 0 := by
  refine List.countP_eq_zero.mpr fun edge met => ?_
  obtain ⟨n, _, edge_met⟩ := List.mem_flatMap.mp met
  obtain ⟨value, kept, rfl⟩ := List.mem_map.mp edge_met
  simpa using (List.mem_filter.mp kept).2

/-- What is met and has references left when all edges below the start are met. -/
theorem legends_counted {store : Option Source} {count : NodeId → Int}
    (counted : ∀ v, g.referenceCount store v = .ok (count v)) (start : NodeId) :
    ∃ legends : SortedSet NodeId, g.legends start store = .ok legends ∧ ∀ v, v ∈ legends ↔
      meetings v (g.edgesBelow start) ≠ 0 ∧
        g.spendings store v (g.edgesBelow start) < count v := by
  obtain ⟨spent, answer, remaining⟩ := spendAll_counted counted (g.edgesBelow start) ∅
  refine ⟨_, by rw [legends, answer]; rfl, fun v => ?_⟩
  have positive : (∃ left, spent.get? v = some left ∧ 0 < left) ↔
      meetings v (g.edgesBelow start) ≠ 0 ∧
        g.spendings store v (g.edgesBelow start) < count v := by
    rw [remaining]
    split
    · rename_i unmet
      simp [unmet]
    · rename_i met
      simp [met]
  rw [SortedSet.mem_ofList, List.mem_filterMap, ← positive]
  constructor
  · intro found
    obtain ⟨⟨n, left⟩, entry, kept⟩ := found
    obtain ⟨some_left, same⟩ := Option.ite_none_right_eq_some.mp kept
    obtain rfl := Option.some.inj same
    exact ⟨left, SortedMap.mem_entries_iff.mp entry, some_left⟩
  · intro found
    obtain ⟨left, entry, positive⟩ := found
    exact ⟨(v, left), SortedMap.mem_entries_iff.mpr entry, if_pos positive⟩

theorem legends_eq (start : NodeId) :
    ∃ legends : SortedSet NodeId, g.legends start none = .ok legends ∧ ∀ v, v ∈ legends ↔
      meetings v (g.edgesBelow start) ≠ 0 ∧
        meetings v (g.edgesBelow start) < (g.owners v).length := by
  have counted : ∀ v, g.referenceCount none v = .ok ((g.owners v).length : Int) := fun v => rfl
  obtain ⟨legends, answer, exactly⟩ := legends_counted counted start
  refine ⟨legends, answer, fun v => ?_⟩
  rw [exactly, spendings_none, Int.ofNat_lt]

theorem meetings_ne_zero_iff (linked : g.Linked) (distinct : g.Distinct) {v : NodeId}
    (other : v ≠ start) : meetings v (g.edgesBelow start) ≠ 0 ↔ g.Below start v := by
  rw [meetings_edgesBelow linked distinct other, ← Nat.pos_iff_ne_zero,
    List.length_pos_iff_exists_mem]
  simp only [List.mem_filter, decide_eq_true_eq, linked.mem_owners, mem_entered linked]
  constructor
  · intro found
    obtain ⟨e, value, _, below⟩ := found
    exact (below_iff linked other).mpr ⟨e, value, below⟩
  · intro below
    obtain ⟨e, value, before⟩ := (below_iff linked other).mp below
    exact ⟨e, value, mem_nodeIds_of_below linked other below, before⟩

/-- Legends are the nodes below the start that something outside refers to. -/
theorem mem_legends (linked : g.Linked) (distinct : g.Distinct) (start : NodeId) :
    ∃ legends, g.legends start none = .ok legends ∧ ∀ v, v ∈ legends ↔
      v ≠ start ∧ g.Below start v ∧ ∃ e, v ∈ g.values e ∧ ¬ g.Below start (g.owner e) := by
  obtain ⟨legends, answer, shared⟩ := g.legends_eq start
  refine ⟨legends, answer, fun v => ?_⟩
  rw [shared]
  by_cases other : v = start
  · simp [other, meetings_start]
  · rw [meetings_ne_zero_iff linked distinct other, and_iff_right (show v ≠ start from other)]
    refine and_congr_right fun below => ?_
    have inside := mem_nodeIds_of_below linked other below
    rw [meetings_edgesBelow linked distinct other, List.length_filter_lt_length_iff_exists]
    simp only [decide_eq_true_eq, linked.mem_owners, mem_entered linked, inside, true_and]

/-! ### Heroes -/

theorem ownTriples_none (g : Graph) (n : NodeId) :
    g.ownTriples none n = .ok (.ofList ((g.ownSteps n).map Prod.fst)) := by
  unfold ownTriples
  split
  · rename_i same
    cases same
  · rfl

theorem ownTriples_of_unknown {n : NodeId} (unknown : g.identifier? n = none)
    (store : Option Source) : g.ownTriples store n = .ok ∅ := by
  simp only [ownTriples, ownSteps, unknown]
  rfl

theorem ownTriples_of_known {n : NodeId} {x : Term} (known : g.identifier? n = some x)
    (s : Source) : g.ownTriples (some s) n = s.triples (Source.about x) none := by
  simp only [ownTriples, known]

theorem mem_heroNodes (linked : g.Linked) {legends : SortedSet NodeId} {n : NodeId} :
    n ∈ g.heroNodes start legends ↔ g.LeadsPast (· ∈ legends) start n := by
  have walk : ∀ n, n ∈ Traversal.order
      (fun n => ((g.children n).filter fun value => decide (value ∉ legends)).reverse) g.nodeIds
      [start] ↔ start ∈ g.nodeIds ∧ g.LeadsPast (· ∈ legends) start n := by
    intro n
    rw [mem_order_nodeIds linked fun a b step =>
      (List.mem_filter.mp (List.mem_reverse.mp step)).1]
    refine and_congr_right fun _ => ?_
    simp only [Traversal.Leads, LeadsPast, List.mem_reverse, List.mem_filter, decide_eq_true_eq]
  rw [heroNodes, List.mem_eraseDups, List.mem_append, List.mem_flatMap, List.mem_singleton]
  constructor
  · rintro (⟨a, entered, child⟩ | rfl)
    · obtain ⟨child, kept⟩ := List.mem_filter.mp child
      exact ((walk a).mp entered).2.tail ⟨child, of_decide_eq_true kept⟩
    · exact .refl
  · intro leads
    obtain same | ⟨a, before, child, kept⟩ := (Relation.ReflTransGen.cases_tail_iff _ _ _).mp leads
    · exact .inr same
    · have inside : start ∈ g.nodeIds := by
        by_cases same : a = start
        · exact same ▸ (mem_nodeIds_of_child linked child).1
        · exact mem_nodeIds_of_below linked same (LeadsPast.below before)
      exact .inl ⟨a, (walk a).mpr ⟨inside, before⟩,
        List.mem_filter.mpr ⟨child, decide_eq_true kept⟩⟩

/-- What is below the start and no hero is kept by a legend. -/
theorem leadsPast_or_legend {legends : SortedSet NodeId} {n : NodeId}
    (below : g.LeadsPast (· = start) start n) :
    g.LeadsPast (· ∈ legends) start n ∨
      ∃ legend ∈ legends, g.LeadsPast (· = start) legend n := by
  induction below with
  | refl => exact .inl .refl
  | @tail a b _ step ih =>
    rcases ih with hero | ⟨legend, shared, kept⟩
    · by_cases shared : b ∈ legends
      · exact .inr ⟨b, shared, .refl⟩
      · exact .inl (hero.tail ⟨step.1, shared⟩)
    · exact .inr ⟨legend, shared, kept.tail step⟩

theorem not_mem_legends_of_hero {legends : SortedSet NodeId} {hero : NodeId}
    (owned : g.LeadsPast (· ∈ legends) start hero) (other : hero ≠ start) : hero ∉ legends := by
  obtain same | ⟨_, _, step⟩ := (Relation.ReflTransGen.cases_tail_iff _ _ _).mp owned
  · exact absurd same other
  · exact step.2

/-- Deleting the heroes leaves no reference to one of them just if no legend leads to a hero other
than the start. Edges back to the start do not count, as references to the start are not asked
about. -/
theorem heroes_owned_iff {operations : List Operation} (made : Graph.empty.KnowsAll operations)
    (start : NodeId) :
    let g := Graph.empty.after operations
    ∃ legends, g.legends start none = .ok legends ∧
      ((∀ e, ∀ hero ∈ g.values e, hero ∈ g.heroNodes start legends → hero ≠ start →
          g.owner e ∈ g.heroNodes start legends) ↔
        ∀ legend ∈ legends, ∀ hero ∈ g.heroNodes start legends, hero ≠ start →
          ¬ g.LeadsPast (· = start) legend hero) := by
  intro g
  have tidy : g.Tidy := tidy_after made
  have linked := tidy.toLinked
  obtain ⟨legends, answer, shared⟩ := mem_legends linked tidy.toDistinct start
  refine ⟨legends, answer, ?_⟩
  simp only [mem_heroNodes linked]
  constructor
  · intro closed legend kept hero owned other leads
    -- Backwards along the way from the legend, what refers to a hero is a hero.
    have backwards : ∀ n, g.LeadsPast (· = start) n hero → g.LeadsPast (· ∈ legends) start n := by
      intro n leads
      induction leads using Relation.ReflTransGen.head_induction_on with
      | refl => exact owned
      | @head a b step _ ih =>
        obtain ⟨e, rfl, value⟩ := (mem_children linked).mp step.1
        exact closed e b value ih step.2
    exact not_mem_legends_of_hero (backwards legend leads) ((shared legend).mp kept).1 kept
  · intro apart e hero value owned other
    have inside : g.Below start (g.owner e) := by
      by_contra outside
      refine not_mem_legends_of_hero owned other ((shared hero).mpr ⟨other, owned.below, e, ?_⟩)
      exact ⟨value, outside⟩
    rcases leadsPast_or_legend (leadsPast_start.mpr inside) with owner_owned | found
    · exact owner_owned
    · obtain ⟨legend, kept, leads⟩ := found
      refine absurd (leads.tail ⟨?_, other⟩) (apart legend kept hero owned other)
      exact (mem_children linked).mpr ⟨e, rfl, value⟩

end Graph

namespace Sample

/-- A dog and its owner, who a friend knows too. -/
def keeping : List Graph.Operation :=
  [.addDefined (.iri "rex"), .addDefined (.iri "ann"), .addDefined (.iri "bob"),
    .addDefined (.blank "collar"), .relate 0 (.iri "owner") 1, .relate 0 (.iri "wears") 3,
    .relate 2 (.iri "knows") 1]

def keptDog : Graph := Graph.empty.after keeping

theorem made_keptDog : Graph.empty.KnowsAll keeping := by decide

/-- No legend has values of its own: those of the friend's edge are not below the dog. -/
theorem owner_of_keptDog {e : EdgeId} {v : NodeId} (value : v ∈ keptDog.values e) :
    v ≠ 2 ∧ (keptDog.owner e = 0 ∨ keptDog.owner e = 2) := by
  have edges : ∀ e < keptDog.edges.length, ∀ v ∈ keptDog.values e,
      v ≠ 2 ∧ (keptDog.owner e = 0 ∨ keptDog.owner e = 2) := by
    decide
  exact edges e (Graph.lt_of_mem_values value) v value

theorem heroes_owned_keptDog : ∃ legends, keptDog.legends 0 none = .ok legends ∧
    ∀ e, ∀ hero ∈ keptDog.values e, hero ∈ keptDog.heroNodes 0 legends → hero ≠ 0 →
      keptDog.owner e ∈ keptDog.heroNodes 0 legends := by
  have tidy : keptDog.Tidy := Graph.tidy_after made_keptDog
  have linked := tidy.toLinked
  obtain ⟨legends, answer, owned_iff⟩ := Graph.heroes_owned_iff made_keptDog 0
  obtain ⟨_, same, shared⟩ := Graph.mem_legends linked tidy.toDistinct 0
  cases answer.symm.trans same
  refine ⟨legends, answer, owned_iff.mpr fun legend kept hero owned other leads => ?_⟩
  obtain ⟨legend_other, below, _⟩ := (shared legend).mp kept
  rcases Relation.ReflTransGen.cases_head_iff.mp leads with rfl | ⟨_, step, _⟩
  · exact Graph.not_mem_legends_of_hero ((Graph.mem_heroNodes linked).mp owned) other kept
  · obtain ⟨e, rfl, value⟩ := (Graph.mem_children linked).mp step.1
    rcases (owner_of_keptDog value).2 with start | friend
    · exact legend_other start
    · obtain ⟨_, met, _⟩ := (Graph.below_iff linked legend_other).mp below
      exact (owner_of_keptDog met).1 friend

/-- What `s` owns by itself is also referred to by `x`, which `r` keeps. -/
def holding : List Graph.Operation :=
  [.addDefined (.iri "s"), .addDefined (.iri "x"), .addDefined (.iri "h"), .addDefined (.iri "r"),
    .addDefined (.text "v"), .relate 0 (.iri "p") 1, .relate 0 (.iri "q") 2,
    .relate 1 (.iri "k") 2, .relate 3 (.iri "k") 1, .relate 2 (.iri "name") 4]

def keptHolder : Graph := Graph.empty.after holding

theorem made_keptHolder : Graph.empty.KnowsAll holding := by decide

/-- The edge from `x` to `h` is kept with `x`, though `h` is deleted with `s`. -/
theorem hero_referred_to : ∃ legends, keptHolder.legends 0 none = .ok legends ∧
    2 ∈ keptHolder.values 2 ∧ 2 ∈ keptHolder.heroNodes 0 legends ∧
      keptHolder.owner 2 ∈ legends ∧ keptHolder.owner 2 ∉ keptHolder.heroNodes 0 legends := by
  have tidy : keptHolder.Tidy := Graph.tidy_after made_keptHolder
  have linked := tidy.toLinked
  have reached : keptHolder.Below 0 1 := .single (by decide)
  have unreached : ¬ keptHolder.Below 0 3 := fun below => by
    obtain ⟨e, value, _⟩ := (Graph.below_iff linked (by decide)).mp below
    have edges : ∀ e < keptHolder.edges.length, 3 ∉ keptHolder.values e := by decide
    exact edges e (Graph.lt_of_mem_values value) value
  obtain ⟨legends, answer, shared⟩ := Graph.mem_legends linked tidy.toDistinct 0
  have kept : 1 ∈ legends := (shared 1).mpr ⟨by decide, reached, 3, by decide, unreached⟩
  have free : 2 ∉ legends := fun kept => by
    obtain ⟨_, _, e, value, outside⟩ := (shared 2).mp kept
    have edges : ∀ e < keptHolder.edges.length, 2 ∈ keptHolder.values e →
        keptHolder.owner e = 0 ∨ keptHolder.owner e = 1 := by
      decide
    rcases edges e (Graph.lt_of_mem_values value) value with owner | owner
    · exact outside (owner ▸ .refl)
    · exact outside (owner ▸ reached)
  refine ⟨legends, answer, by decide, ?_, kept, fun owned => ?_⟩
  · exact (Graph.mem_heroNodes linked).mpr (.single ⟨by decide, free⟩)
  · exact Graph.not_mem_legends_of_hero ((Graph.mem_heroNodes linked).mp owned) (by decide) kept

end Sample

end TripleQuery
