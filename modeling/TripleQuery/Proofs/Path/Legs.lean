import TripleQuery.Path.Enumeration
import TripleQuery.Proofs.Graph.Distinct

/-!
The edges behind the hops of a graph. A leg is an edge taken from one of its ends to the other: up
to its owner or down to a value. Each hop from a node is made from a leg, and no leg is listed
twice, although different legs may make the same hop.
-/

namespace TripleQuery.Graph

variable {g : Graph}

def Joins (g : Graph) (e : EdgeId) (a b : NodeId) : Prop := g.owner e = a ∧ b ∈ g.values e

/-- An edge, with the end that it is taken to. -/
structure Leg where
  edge : EdgeId
  direction : Direction
  next : NodeId
  deriving DecidableEq

/-- Where a leg may be taken from a node. No statement has an interval for a subject, and an
interval without bounds says nothing about an object. -/
def Allows (g : Graph) (n : NodeId) (leg : Leg) : Prop :=
  match leg.direction with
  | .up => g.Joins leg.edge leg.next n ∧ ∀ bounds, g.token leg.next ≠ .interval bounds
  | .down => g.Joins leg.edge n leg.next ∧
    ∀ bounds, g.token leg.next = .interval bounds → bounds.isBounded = true

/-- The statement along a leg, to be solved for the node that the leg is taken from. -/
def hopAlong (g : Graph) (n : NodeId) (leg : Leg) : Hop :=
  ⟨g.link leg.edge, g.token leg.next, leg.direction.source, n⟩

theorem isCondition_iff {token : Token} : token.isCondition = true ↔
    ∀ bounds, token = .interval bounds → bounds.isBounded = true := by
  cases token <;> simp [Token.isCondition]

/-- A leg ends at an anchor or at an unknown, since intervals without bounds are passed over. -/
theorem Allows.anchor_or_unknown {n : NodeId} {leg : Leg} (allowed : g.Allows n leg) :
    g.isAnchor leg.next = true ∨ ∃ k, g.token leg.next = .unknown k := by
  obtain ⟨e, direction, next⟩ := leg
  cases token : g.token next with
  | term t => exact .inl (by rw [isAnchor, token]; rfl)
  | unknown k => exact .inr ⟨k, rfl⟩
  | interval bounds =>
    cases direction with
    | up => exact absurd token (allowed.2 bounds)
    | down =>
      have bounded := allowed.2 bounds token
      exact .inl (by rw [isAnchor, token]; exact bounded)

/-! ### Legs in order -/

def ownerLeg? (g : Graph) (e : EdgeId) : Option Leg :=
  match g.token (g.owner e) with
  | .interval _ => none
  | _ => some ⟨e, .up, g.owner e⟩

def valueLegs (g : Graph) (e : EdgeId) : List Leg :=
  (g.values e).filterMap fun value =>
    if (g.token value).isCondition then some ⟨e, .down, value⟩ else none

def legs (g : Graph) (n : NodeId) : List Leg :=
  (g.owners n).filterMap g.ownerLeg? ++ (g.properties n).flatMap g.valueLegs

theorem hopsUp_eq (g : Graph) (n : NodeId) : g.hopsUp n =
    ((g.owners n).filterMap g.ownerLeg?).map fun leg => (g.hopAlong n leg, leg.next) := by
  rw [hopsUp, List.map_filterMap]
  congr 1
  funext e
  cases token : g.token (g.owner e) <;> simp [ownerLeg?, hopAlong, token, Direction.source]

theorem hopsDown_eq (g : Graph) (n : NodeId) : g.hopsDown n =
    ((g.properties n).flatMap g.valueLegs).map fun leg => (g.hopAlong n leg, leg.next) := by
  rw [hopsDown, List.map_flatMap]
  congr 1
  funext e
  rw [valueLegs, List.map_filterMap]
  congr 1
  funext value
  cases condition : (g.token value).isCondition <;> simp [hopAlong, condition, Direction.source]

theorem hops_eq (g : Graph) (n : NodeId) :
    g.hops n = (g.legs n).map fun leg => (g.hopAlong n leg, leg.next) := by
  rw [hops, legs, List.map_append, hopsUp_eq, hopsDown_eq]

theorem pathsThrough_anchor {free : List NodeId} {n : NodeId} (anchor : g.isAnchor n = true) :
    g.pathsThrough free n = [[]] := by
  rw [pathsThrough, if_pos anchor]

/-- The paths through a free node, by the legs that they set out with. -/
theorem pathsThrough_eq_flatMap_legs {free : List NodeId} {n : NodeId}
    (unsolved : ¬ g.isAnchor n = true) (inside : n ∈ free) : g.pathsThrough free n =
      (g.legs n).flatMap fun leg =>
        (g.pathsThrough (free.erase n) leg.next).map (g.hopAlong n leg :: ·) := by
  rw [pathsThrough, if_neg unsolved, dif_pos inside, hops_eq, List.flatMap_map]

/-! ### Which legs there are -/

theorem ownerLeg?_eq_some_iff {e : EdgeId} {leg : Leg} : g.ownerLeg? e = some leg ↔
    leg = ⟨e, .up, g.owner e⟩ ∧ ∀ bounds, g.token (g.owner e) ≠ .interval bounds := by
  cases token : g.token (g.owner e) <;> simp [ownerLeg?, token, eq_comm]

theorem mem_valueLegs {e : EdgeId} {leg : Leg} : leg ∈ g.valueLegs e ↔
    ∃ value ∈ g.values e, leg = ⟨e, .down, value⟩ ∧
      ∀ bounds, g.token value = .interval bounds → bounds.isBounded = true := by
  simp only [valueLegs, List.mem_filterMap, Option.ite_none_right_eq_some, isCondition_iff,
    Option.some.injEq]
  exact exists_congr fun value => and_congr_right fun _ => and_comm.trans
    (and_congr_left' eq_comm)

theorem mem_legs (linked : g.Linked) {n : NodeId} {leg : Leg} :
    leg ∈ g.legs n ↔ g.Allows n leg := by
  obtain ⟨e, direction, next⟩ := leg
  simp only [legs, List.mem_append, List.mem_filterMap, List.mem_flatMap, ownerLeg?_eq_some_iff,
    mem_valueLegs, linked.mem_owners, linked.mem_properties]
  cases direction with
  | up =>
    constructor
    · rintro (⟨_, value, same, other⟩ | ⟨_, _, _, _, same, _⟩)
      · cases same
        exact ⟨⟨rfl, value⟩, other⟩
      · cases same
    · rintro ⟨⟨owner, value⟩, other⟩
      obtain rfl : g.owner e = next := owner
      exact .inl ⟨e, value, rfl, other⟩
  | down =>
    constructor
    · rintro (⟨_, _, same, _⟩ | ⟨_, ⟨_, owner⟩, _, member, same, condition⟩)
      · cases same
      · cases same
        exact ⟨⟨owner, member⟩, condition⟩
    · rintro ⟨⟨owner, member⟩, condition⟩
      exact .inr ⟨e, ⟨lt_of_mem_values member, owner⟩, next, member, rfl, condition⟩

theorem nodup_legs (distinct : g.Distinct) (n : NodeId) : (g.legs n).Nodup := by
  refine List.nodup_append.mpr ⟨?_, ?_, ?_⟩
  · refine List.pairwise_filterMap.mpr ((distinct.owners n).imp fun other leg first _ second => ?_)
    rintro rfl
    obtain ⟨rfl, _⟩ := ownerLeg?_eq_some_iff.mp first
    cases (ownerLeg?_eq_some_iff.mp second).1
    exact other rfl
  · refine List.pairwise_flatMap.mpr ⟨fun e _ => ?_, (distinct.properties n).imp ?_⟩
    · refine List.pairwise_filterMap.mpr ((distinct.values e).imp fun other leg first _ second => ?_)
      rintro rfl
      cases (Option.ite_none_right_eq_some.mp first).2
      cases (Option.ite_none_right_eq_some.mp second).2
      exact other rfl
    · rintro e f other leg first _ second rfl
      obtain ⟨_, _, rfl, _⟩ := mem_valueLegs.mp first
      obtain ⟨_, _, same, _⟩ := mem_valueLegs.mp second
      cases same
      exact other rfl
  · -- Only a leg up to an owner is also a leg up.
    rintro leg up _ down rfl
    obtain ⟨_, _, made⟩ := List.mem_filterMap.mp up
    obtain ⟨rfl, _⟩ := ownerLeg?_eq_some_iff.mp made
    obtain ⟨_, _, down⟩ := List.mem_flatMap.mp down
    obtain ⟨_, _, same, _⟩ := mem_valueLegs.mp down
    cases same

end TripleQuery.Graph
