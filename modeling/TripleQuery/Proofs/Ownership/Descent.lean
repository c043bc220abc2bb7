import Mathlib.Order.Bounds.Basic
import TripleQuery.Proofs.Graph.Component
import TripleQuery.Proofs.Ownership.Sharing
import TripleQuery.Proofs.Ownership.Statements
import TripleQuery.Proofs.Store.Memory

/-!
The statements below a node, one by one. A walk down keeps which nodes it entered and which edges it
took up. It reports what each edge states of each of its known values, once, for the edges of the
start and of the nodes that edges lead to from there through known nodes. Read from a source, the
statements below a node are those about the terms of the least region that grows from its term.
-/

namespace TripleQuery

namespace Graph

/-! ### Drawn one at a time -/

/-- The steps along one edge of a known node. -/
def stepsAlong (g : Graph) (subject : Term) (e : EdgeId) : List (Triple × NodeId) :=
  (g.values e).filterMap fun value =>
    (g.identifier? value).map fun object => (⟨subject, g.link e, object⟩, value)

/-- A walk down between two statements. The node that was entered last is on top of the frames. -/
structure Descent where
  entered : List NodeId
  taken : List EdgeId
  frames : List (List (Triple × NodeId))

namespace Descent

/-- The edges that were not taken up before, each of them once. -/
def fresh (taken : List EdgeId) : List EdgeId → List EdgeId
  | [] => []
  | e :: rest => if e ∈ taken then fresh taken rest else e :: fresh (e :: taken) rest

/-- Enters a node, unless it was entered before. From a node that stands for no term nothing goes
on. -/
def enter (g : Graph) (d : Descent) (n : NodeId) : Descent :=
  if n ∈ d.entered then d
  else
    match g.identifier? n with
    | none => { d with entered := n :: d.entered }
    | some subject =>
      let edges := fresh d.taken (g.properties n)
      ⟨n :: d.entered, edges ++ d.taken, edges.flatMap (g.stepsAlong subject) :: d.frames⟩

def start (g : Graph) (n : NodeId) : Descent := enter g ⟨[], [], []⟩ n

/-- The topmost statement that is left. By the time it is reported its object is entered, if the
walk is to go on from there. -/
def next? (g : Graph) (transitive : Bool) (d : Descent) : Option (Triple × Descent) :=
  (Traversal.pop d.frames).map fun (step, later) =>
    let d := { d with frames := later }
    (step.1, if transitive then d.enter g step.2 else d)

theorem fresh_eq_self {taken edges : List EdgeId} (once : edges.Nodup)
    (new : ∀ e ∈ edges, e ∉ taken) : fresh taken edges = edges := by
  induction edges generalizing taken with
  | nil => rfl
  | cons e rest ih =>
    obtain ⟨here, later⟩ := List.forall_mem_cons.mp new
    obtain ⟨other, once⟩ := List.nodup_cons.mp once
    rw [fresh, if_neg here, ih once fun f member taken => ?_]
    rcases List.mem_cons.mp taken with rfl | old
    · exact other member
    · exact later f member old

end Descent

variable {g : Graph} {start n value : NodeId} {transitive : Bool}

theorem ownSteps_of_unknown (unknown : g.identifier? n = none) : g.ownSteps n = [] := by
  rw [ownSteps, unknown]

theorem ownSteps_of_known {subject : Term} (known : g.identifier? n = some subject) :
    g.ownSteps n = (g.properties n).flatMap (g.stepsAlong subject) := by
  rw [ownSteps, known]
  rfl

namespace Descent

/-- The walk down is where a walk is that remembers nodes only. All edges that were taken up belong
to nodes that were entered. -/
structure Tracks (g : Graph) (cursor : Traversal.Cursor Triple) (d : Descent) : Prop where
  entered : d.entered = cursor.seen
  left : d.frames.flatten = cursor.frames.flatten
  taken : ∀ e ∈ d.taken, g.owner e ∈ d.entered

variable {cursor : Traversal.Cursor Triple} {d : Descent} (linked : g.Linked)
  (distinct : g.Distinct)

include linked distinct

/-- None of the edges of a new node was taken up before. -/
theorem Tracks.enter (tracks : Tracks g cursor d) (n : NodeId) :
    Tracks g (cursor.enter g.ownSteps n) (d.enter g n) := by
  unfold Descent.enter Traversal.Cursor.enter
  rw [← tracks.entered]
  by_cases old : n ∈ d.entered
  · rw [if_pos old, if_pos old]
    exact tracks
  rw [if_neg old, if_neg old]
  split
  · rename_i unknown
    rw [ownSteps_of_unknown unknown]
    exact ⟨rfl, tracks.left, fun e member => List.mem_cons_of_mem _ (tracks.taken e member)⟩
  · rename_i subject known
    have owned : ∀ e ∈ g.properties n, g.owner e = n := fun e property =>
      ((linked.mem_properties n e).mp property).2
    have all : fresh d.taken (g.properties n) = g.properties n :=
      fresh_eq_self (distinct.properties n) fun e property taken =>
        old (owned e property ▸ tracks.taken e taken)
    rw [all]
    dsimp only
    rw [← ownSteps_of_known known]
    refine ⟨rfl, ?_, fun e member => ?_⟩
    · rw [List.flatten_cons, List.flatten_cons, tracks.left]
    · rcases List.mem_append.mp member with property | old
      · exact owned e property ▸ List.mem_cons_self
      · exact List.mem_cons_of_mem _ (tracks.taken e old)

theorem begins (start : NodeId) : Tracks g (.start g.ownSteps start) (.start g start) :=
  Tracks.enter linked distinct ⟨rfl, rfl, fun _ member => absurd member List.not_mem_nil⟩ start

omit linked distinct in
theorem Tracks.ends (tracks : Tracks g cursor d) (ended : cursor.next? g.ownSteps = none) :
    d.next? g true = none := by
  cases left : cursor.frames.flatten with
  | nil =>
    rw [next?, Traversal.pop_of_flatten_nil (tracks.left.trans left)]
    rfl
  | cons step rest =>
    obtain ⟨_, _, drawn⟩ := Traversal.Cursor.draw_of_flatten_cons g.ownSteps left
    cases ended.symm.trans drawn

theorem Tracks.goes_on (tracks : Tracks g cursor d) {t : Triple}
    {later : Traversal.Cursor Triple} (drawn : cursor.next? g.ownSteps = some (t, later)) :
    ∃ further, d.next? g true = some (t, further) ∧ Tracks g later further := by
  cases left : cursor.frames.flatten with
  | nil => cases drawn.symm.trans (Traversal.Cursor.draw_of_flatten_nil left)
  | cons step rest =>
    obtain ⟨frames, flat, also⟩ := Traversal.Cursor.draw_of_flatten_cons g.ownSteps left
    cases drawn.symm.trans also
    obtain ⟨further, same, popped⟩ := Traversal.pop_of_flatten_cons (tracks.left.trans left)
    have before : Tracks g ⟨cursor.seen, frames⟩ { d with frames := further } :=
      ⟨tracks.entered, same.trans flat.symm, tracks.taken⟩
    refine ⟨_, ?_, before.enter linked distinct step.2⟩
    rw [next?, popped]
    rfl

/-- A walk that remembers edges as well as nodes reports what one reports that remembers nodes. -/
theorem reports_start (inside : start < g.nodes.length) :
    Traversal.Reports (next? g true) (.start g start) (g.descendantTrail start true) := by
  have drawn := (Traversal.Cursor.draws_start_iff (mem_nodeIds_of_ownValues linked) List.nodup_range
    (List.mem_range.mpr inside)).mpr rfl
  have begun := begins linked distinct start
  exact (Traversal.Cursor.draws_iff_reports.mp drawn).of_alike begun (fun _ _ => Tracks.ends)
    fun _ _ tracks _ _ => tracks.goes_on linked distinct

omit linked distinct in
/-- A walk that enters nothing reports what is left of its frames. -/
theorem reports_left (d : Descent) :
    Traversal.Reports (next? g false) d (d.frames.flatten.map Prod.fst) := by
  generalize rest : d.frames.flatten = steps
  induction steps generalizing d with
  | nil =>
    refine .done ?_
    rw [next?, Traversal.pop_of_flatten_nil rest]
    rfl
  | cons step steps ih =>
    obtain ⟨later, further, popped⟩ := Traversal.pop_of_flatten_cons rest
    have drawn : d.next? g false = some (step.1, { d with frames := later }) := by
      rw [next?, popped]
      rfl
    exact .step drawn (ih _ further)

/-- The walk down comes to an end, with the statements below the start in the order of the walk. -/
theorem reports_start_iff (inside : start < g.nodes.length) (transitive : Bool)
    {reports : List Triple} : Traversal.Reports (next? g transitive) (.start g start) reports ↔
      reports = g.descendantTrail start transitive := by
  have drawn : Traversal.Reports (next? g transitive) (.start g start)
      (g.descendantTrail start transitive) := by
    cases transitive with
    | true => exact reports_start linked distinct inside
    | false =>
      have begun := begins linked distinct start
      have left : (Descent.start g start).frames.flatten = g.ownSteps start :=
        begun.left.trans (List.append_nil _)
      show Traversal.Reports _ _ ((g.ownSteps start).map Prod.fst)
      rw [← left]
      exact reports_left _
  exact ⟨fun other => other.unique drawn, fun same => same ▸ drawn⟩

end Descent

/-! ### What is reported -/

/-- The walk comes to the node from its start. If it is to go on, it does so through known nodes. -/
def Descends (g : Graph) (start : NodeId) : (transitive : Bool) → NodeId → Prop
  | true, n => g.LeadsPast (fun m => g.isDefined m = false) start n
  | false, n => n = start

/-- The nodes whose statements are reported, the first first, if they are known. -/
def descentOrder (g : Graph) (start : NodeId) (transitive : Bool) : List NodeId :=
  if transitive then
    Traversal.order (fun n => (g.ownSteps n).map Prod.snd) g.nodeIds [start]
  else [start]

theorem descendantTrail_perm : (g.descendantTrail start transitive).Perm
    ((g.descentOrder start transitive).flatMap fun n => (g.ownSteps n).map Prod.fst) := by
  cases transitive with
  | true => exact Traversal.trailFrom_perm
  | false => exact .of_eq (List.append_nil _).symm

theorem nodup_descentOrder : (g.descentOrder start transitive).Nodup := by
  cases transitive with
  | true => exact Traversal.nodup_order List.nodup_range _
  | false => exact List.nodup_singleton _

/-- A node without a term states nothing. -/
theorem flatMap_ownSteps (nodes : List NodeId) :
    (nodes.flatMap fun n => (g.ownSteps n).map Prod.fst) =
      (nodes.filter g.isDefined).flatMap fun n => (g.ownSteps n).map Prod.fst := by
  induction nodes with
  | nil => rfl
  | cons n rest ih =>
    rw [List.flatMap_cons, ih]
    cases known : g.isDefined n with
    | true => rw [List.filter_cons_of_pos known, List.flatMap_cons]
    | false =>
      rw [List.filter_cons_of_neg (Bool.eq_false_iff.mp known),
        ownSteps_of_unknown (Option.not_isSome_iff_eq_none.mp (Bool.eq_false_iff.mp known))]
      rfl

/-- The steps along an edge are what it states of its known values, one by one. -/
theorem forall₂_stepsAlong {subject : Term} {e : EdgeId}
    (known : g.identifier? (g.owner e) = some subject) {values : List NodeId}
    (own : ∀ v ∈ values, v ∈ g.values e) :
    List.Forall₂ (fun part t => g.States part.1 part.2 t)
      ((values.filter (g.admits false)).map (e, ·))
      ((values.filterMap fun v => (g.identifier? v).map fun object =>
        ((⟨subject, g.link e, object⟩ : Triple), v)).map Prod.fst) := by
  induction values with
  | nil => exact .nil
  | cons v rest ih =>
    obtain ⟨here, later⟩ := List.forall_mem_cons.mp own
    cases named : g.identifier? v with
    | none =>
      have unknown : g.admits false v = false := by
        rw [admits, isDefined, named]
        rfl
      rw [List.filter_cons_of_neg (Bool.eq_false_iff.mp unknown), List.filterMap_cons, named]
      exact ih later
    | some object =>
      have admitted : g.admits false v = true := by
        rw [admits, isDefined, named]
        rfl
      rw [List.filter_cons_of_pos admitted, List.filterMap_cons, named]
      exact .cons ⟨here, known, rfl, named⟩ (ih later)

theorem forall₂_ownSteps (linked : g.Linked) (known : g.isDefined n = true) :
    List.Forall₂ (fun part t => g.States part.1 part.2 t) (g.partsDown false n)
      ((g.ownSteps n).map Prod.fst) := by
  obtain ⟨subject, named⟩ := Option.isSome_iff_exists.mp known
  rw [ownSteps_of_known named, List.map_flatMap, partsDown]
  have owned : List.Forall₂ (fun e f => e = f ∧ g.owner e = n) (g.properties n) (g.properties n) :=
    List.forall₂_same.mpr fun e property => ⟨rfl, ((linked.mem_properties n e).mp property).2⟩
  refine List.rel_flatMap owned fun e f same => ?_
  obtain ⟨rfl, owner⟩ := same
  exact forall₂_stepsAlong (owner ▸ named) fun _ member => member

/-! ### Through known nodes -/

section Known

variable (linked : g.Linked)

include linked

theorem mem_ownValues_iff : value ∈ (g.ownSteps n).map Prod.snd ↔
    g.isDefined n = true ∧ g.isDefined value = true ∧ value ∈ g.children n := by
  rw [mem_ownValues linked, mem_children linked]
  constructor
  · rintro ⟨e, t, rfl, states⟩
    refine ⟨?_, ?_, e, rfl, states.mem_values⟩
    · rw [isDefined, states.subject]
      rfl
    · rw [isDefined, states.object]
      rfl
  · rintro ⟨owner_known, value_known, e, rfl, member⟩
    obtain ⟨subject, owner_named⟩ := Option.isSome_iff_exists.mp owner_known
    obtain ⟨object, value_named⟩ := Option.isSome_iff_exists.mp value_known
    exact ⟨e, ⟨subject, g.link e, object⟩, rfl, member, owner_named, rfl, value_named⟩

omit linked in
theorem Descends.isDefined (known : g.isDefined start = true)
    (descends : g.Descends start transitive n) : g.isDefined n = true := by
  cases transitive with
  | true =>
    cases descends with
    | refl => exact known
    | tail _ step => exact (Bool.not_eq_false _).mp step.2
  | false => exact (show n = start from descends) ▸ known

theorem knownBelow_iff (known : g.isDefined n = true) : g.KnownBelow start n ↔
    g.isDefined start = true ∧ g.Descends start true n := by
  constructor
  · intro below
    induction below with
    | refl => exact ⟨known, .refl⟩
    | tail _ step ih =>
      obtain ⟨owner_known, value_known, child⟩ := (mem_ownValues_iff linked).mp step
      obtain ⟨start_known, descends⟩ := ih owner_known
      exact ⟨start_known, Relation.ReflTransGen.tail descends
        ⟨child, (Bool.not_eq_false _).mpr value_known⟩⟩
  · rintro ⟨start_known, descends⟩
    induction descends with
    | refl => exact .refl
    | tail before step ih =>
      have descends : g.Descends start true _ := before
      have owner_known := descends.isDefined start_known
      exact (ih owner_known).tail ((mem_ownValues_iff linked).mpr ⟨owner_known, known, step.1⟩)

theorem mem_descentOrder (inside : start < g.nodes.length) :
    n ∈ g.descentOrder start transitive ∧ g.isDefined n = true ↔
      g.isDefined start = true ∧ g.Descends start transitive n := by
  cases transitive with
  | true =>
    have entered : n ∈ g.descentOrder start true ↔ g.KnownBelow start n :=
      (Traversal.mem_order_iff (mem_nodeIds_of_ownValues linked)).trans
        (and_iff_right (List.mem_range.mpr inside))
    rw [entered]
    constructor
    · rintro ⟨below, known⟩
      exact (knownBelow_iff linked known).mp below
    · rintro ⟨start_known, descends⟩
      have known := descends.isDefined start_known
      exact ⟨(knownBelow_iff linked known).mpr ⟨start_known, descends⟩, known⟩
  | false =>
    show n ∈ [start] ∧ _ ↔ _ ∧ n = start
    rw [List.mem_singleton, and_comm]
    exact and_congr_left fun same => same ▸ Iff.rfl

/-- The reports are, one by one, what the edges of the walk state of their known values. -/
theorem exists_parts_descendantTrail (distinct : g.Distinct) (inside : start < g.nodes.length) :
    ∃ parts : List (EdgeId × NodeId), parts.Nodup ∧
      (∀ e value, (e, value) ∈ parts ↔ value ∈ g.values e ∧ g.isDefined value = true ∧
        g.isDefined start = true ∧ g.Descends start transitive (g.owner e)) ∧
      List.Forall₂ (fun part t => g.States part.1 part.2 t) parts
        (g.descendantTrail start transitive) := by
  let nodes := (g.descentOrder start transitive).filter g.isDefined
  have stated : List.Forall₂ (fun part t => g.States part.1 part.2 t)
      (nodes.flatMap (g.partsDown false))
      ((g.descentOrder start transitive).flatMap fun n => (g.ownSteps n).map Prod.fst) := by
    rw [flatMap_ownSteps]
    have known : List.Forall₂ (fun m n => m = n ∧ g.isDefined n = true) nodes nodes :=
      List.forall₂_same.mpr fun n member => ⟨rfl, (List.mem_filter.mp member).2⟩
    refine List.rel_flatMap known fun m n same => ?_
    obtain ⟨rfl, known⟩ := same
    exact forall₂_ownSteps linked known
  obtain ⟨parts, along, perm⟩ := List.perm_comp_forall₂ descendantTrail_perm stated.flip
  have once : (nodes.flatMap (g.partsDown false)).Nodup :=
    nodup_partsDown linked distinct (nodup_descentOrder.filter _)
  refine ⟨parts, perm.nodup_iff.mpr once, fun e value => ?_, along.flip⟩
  rw [perm.mem_iff]
  simp only [nodes, List.mem_flatMap, List.mem_filter, mem_partsDown linked,
    mem_descentOrder linked inside]
  constructor
  · rintro ⟨_, ⟨known, descends⟩, rfl, member, admitted⟩
    exact ⟨member, admitted, known, descends⟩
  · rintro ⟨member, admitted, known, descends⟩
    exact ⟨_, ⟨known, descends⟩, rfl, member, admitted⟩

end Known

/-- Whatever operations made a graph, a walk down from a node comes to its end, however it is drawn.
It reports once what each edge states of each of its known values, for the edges of the start, if
that is known, and of the nodes that it leads to through known nodes. If the walk is not to go on,
only the edges of the start count. -/
theorem descendantTrail_after {operations : List Operation}
    (made : Graph.empty.KnowsAll operations) {start : NodeId}
    (inside : start < (Graph.empty.after operations).nodes.length) (transitive : Bool) :
    let g := Graph.empty.after operations
    (∀ reports, Traversal.Reports (Descent.next? g transitive) (.start g start) reports ↔
      reports = g.descendantTrail start transitive) ∧
    ∃ parts : List (EdgeId × NodeId), parts.Nodup ∧
      (∀ e value, (e, value) ∈ parts ↔ value ∈ g.values e ∧ g.isDefined value = true ∧
        g.isDefined start = true ∧ g.Descends start transitive (g.owner e)) ∧
      List.Forall₂ (fun part t => g.States part.1 part.2 t) parts
        (g.descendantTrail start transitive) := by
  intro g
  have tidy : g.Tidy := tidy_after made
  exact ⟨fun reports => Descent.reports_start_iff tidy.toLinked tidy.toDistinct inside transitive,
    exists_parts_descendantTrail tidy.toLinked tidy.toDistinct inside⟩

end Graph

namespace Sample

/-- Ann knows bob, a stranger and cid, bob knows cid as well, and cid knows ann. Only the stranger
knows dan. -/
def greetings : List Graph.Operation :=
  [.addDefined (.iri "ann"), .addDefined (.iri "bob"), .addUnknown, .addDefined (.iri "cid"),
    .addDefined (.iri "dan"), .relate 0 (.iri "knows") 1, .addValue 0 2, .addValue 0 3,
    .relate 1 (.iri "knows") 3, .relate 3 (.iri "knows") 0, .relate 2 (.iri "knows") 4]

theorem made_greetings : Graph.empty.KnowsAll greetings := by decide

/-- That bob and ann both know cid are two statements. The stranger hides dan, but not cid. -/
theorem descendantTrail_greetings :
    let g := Graph.empty.after greetings
    Graph.empty.KnowsAll greetings ∧ 0 < g.nodes.length ∧
    (∃ parts : List (EdgeId × NodeId), parts.Nodup ∧ (0, 3) ∈ parts ∧ (1, 3) ∈ parts ∧
      (2, 0) ∈ parts ∧ (0, 2) ∉ parts ∧ (3, 4) ∉ parts ∧
      List.Forall₂ (fun part t => g.States part.1 part.2 t) parts (g.descendantTrail 0 true)) ∧
    ∃ parts : List (EdgeId × NodeId), (0, 3) ∈ parts ∧ (1, 3) ∉ parts ∧
      List.Forall₂ (fun part t => g.States part.1 part.2 t) parts (g.descendantTrail 0 false) := by
  intro g
  have inside : 0 < g.nodes.length := by decide
  have known : ∀ n ∈ [0, 1, 3], g.isDefined n = true := by decide
  have bob : g.Descends 0 true 1 := .single (by decide)
  have cid : g.Descends 0 true 3 := .single (by decide)
  obtain ⟨parts, once, found, along⟩ :=
    (Graph.descendantTrail_after made_greetings inside true).2
  obtain ⟨own, _, alone, stated⟩ := (Graph.descendantTrail_after made_greetings inside false).2
  refine ⟨made_greetings, inside, ⟨parts, once, ?_, ?_, ?_, ?_, ?_, along⟩, own, ?_, ?_, stated⟩
  · exact (found 0 3).mpr ⟨by decide, by decide, known 0 (by decide), .refl⟩
  · exact (found 1 3).mpr ⟨by decide, by decide, known 0 (by decide), bob⟩
  · exact (found 2 0).mpr ⟨by decide, by decide, known 0 (by decide), cid⟩
  · intro stranger
    cases ((found 0 2).mp stranger).2.1
  · intro dan
    have stranger := ((found 3 4).mp dan).2.2.2.isDefined (known 0 (by decide))
    cases stranger
  · exact (alone 0 3).mpr ⟨by decide +kernel, by decide, known 0 (by decide), rfl⟩
  · intro further
    cases ((alone 1 3).mp further).2.2.2

end Sample

/-! ### In a source -/

namespace Source

/-- The start is in the region, and so is what is stated of a subject in it, unless that is a
literal. -/
structure GrownBelow (held : SortedSet Triple) (start : Term) (region : Set Term) : Prop where
  start_mem : start ∈ region
  object_mem : ∀ row ∈ held, row.subject ∈ region → row.object.isLiteral = false →
    row.object ∈ region

theorem isLeast_termsBelow (held : SortedSet Triple) (start : Term) :
    IsLeast {region | GrownBelow held start region} {t | TermsBelow held start t} := by
  constructor
  · exact ⟨.refl, fun row member below plain => below.tail ⟨plain, row, member, rfl, rfl⟩⟩
  · intro region grown t below
    induction below with
    | refl => exact grown.start_mem
    | tail _ step ih =>
      obtain ⟨plain, row, member, rfl, rfl⟩ := step
      exact grown.object_mem row member ih plain

end Source

/-- A source that holds statements gives those whose subject is in the least region that grows from
the term of the node, or those about that term alone. A node without a term has none. -/
theorem Graph.descendants_stored {s : Source} {held : SortedSet Triple}
    (answers : s.AnswersIn none held) (g : Graph) (start : NodeId) :
    (∀ identifier, g.identifier? start = some identifier →
      (∃ rows region, g.descendants start true (some s) = .ok rows ∧
        IsLeast {region | Source.GrownBelow held identifier region} region ∧
        ∀ t, t ∈ rows ↔ t ∈ held ∧ t.subject ∈ region) ∧
      g.descendants start false (some s) =
        .ok (held.filter fun t => decide (t.subject = identifier))) ∧
    (g.identifier? start = none →
      ∀ transitive, g.descendants start transitive (some s) = .ok ∅) := by
  constructor
  · intro identifier known
    have asked : ∀ transitive, g.descendants start transitive (some s) =
        s.descendants identifier transitive := by
      intro transitive
      rw [Graph.descendants, known]
    obtain ⟨rows, answer, exactly⟩ := Source.descendants_exact answers identifier
    have least := Source.isLeast_termsBelow held identifier
    refine ⟨⟨rows, _, (asked true).trans answer, least, exactly⟩,
      (asked false).trans ((Source.triples_about answers identifier).trans ?_)⟩
    refine congrArg Except.ok (SortedSet.filter_congr (fun t => ?_) held)
    rw [Bool.eq_iff_iff, Source.accepts_about, decide_eq_true_eq]
  · intro unknown transitive
    rw [Graph.descendants, unknown]

namespace Sample

/-- Ann and bob know each other. What is said of a name is not said of its bearer. -/
def gossip : Store.Memory :=
  (Store.Memory.empty false).extend
    [⟨.iri "ann", .iri "knows", .iri "bob"⟩, ⟨.iri "bob", .iri "knows", .iri "ann"⟩,
      ⟨.iri "ann", .iri "name", .text "Ann"⟩, ⟨.text "Ann", .iri "letters", .integer 3⟩]
    none

def gossiped : Graph :=
  Graph.empty.after [.addDefined (.iri "ann"), .addDefined (.text "Ann"), .addUnknown]

theorem descendants_gossip :
    gossip.source.AnswersIn none (gossip.statementsIn none) ∧
    gossiped.descendants 0 true (some gossip.source) =
      .ok (.ofList [⟨.iri "ann", .iri "knows", .iri "bob"⟩, ⟨.iri "bob", .iri "knows", .iri "ann"⟩,
        ⟨.iri "ann", .iri "name", .text "Ann"⟩]) ∧
    gossiped.descendants 1 false (some gossip.source) =
      .ok (.ofList [⟨.text "Ann", .iri "letters", .integer 3⟩]) ∧
    gossiped.descendants 2 true (some gossip.source) = .ok ∅ := by
  have answers : gossip.source.AnswersIn none (gossip.statementsIn none) :=
    Store.Memory.answersIn_extend_empty false _
  obtain ⟨below_ann, _⟩ := Graph.descendants_stored answers gossiped 0
  obtain ⟨⟨rows, region, answer, least, exactly⟩, _⟩ := below_ann (.iri "ann") (by decide)
  obtain ⟨name, _⟩ := Graph.descendants_stored answers gossiped 1
  obtain ⟨_, of_name⟩ := name (.text "Ann") (by decide)
  refine ⟨answers, ?_, of_name.trans (congrArg Except.ok (by decide)),
    (Graph.descendants_stored answers gossiped 2).2 (by decide) true⟩
  have ann : .iri "ann" ∈ region := least.1.start_mem
  have bob : .iri "bob" ∈ region :=
    least.1.object_mem ⟨.iri "ann", .iri "knows", .iri "bob"⟩ (by decide) ann rfl
  have others : ∀ x ∈ region, x ∈ [Term.iri "ann", .iri "bob"] := by
    have closed : ∀ row ∈ (gossip.statementsIn none).toList,
        row.subject ∈ [Term.iri "ann", .iri "bob"] → row.object.isLiteral = false →
          row.object ∈ [Term.iri "ann", .iri "bob"] := by
      decide
    exact least.2 ⟨List.mem_cons_self, closed⟩
  have found : rows = (gossip.statementsIn none).filter fun t : Triple =>
      decide (t.subject ∈ [Term.iri "ann", .iri "bob"]) := by
    apply SortedSet.ext
    intro t
    rw [exactly, SortedSet.mem_filter, decide_eq_true_eq]
    refine and_congr_right fun _ => ⟨others _, fun listed => ?_⟩
    simp only [List.mem_cons, List.not_mem_nil, or_false] at listed
    rcases listed with same | same
    · exact same ▸ ann
    · exact same ▸ bob
  rw [answer, found]
  decide

end Sample

end TripleQuery
