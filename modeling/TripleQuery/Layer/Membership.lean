import TripleQuery.Source.Basic
import TripleQuery.Vocabulary

/-!
The layer for container membership: every term typed as a container membership property counts as
a sub-property of `rdfs:member`, when a query asks for those.
-/

namespace TripleQuery

def Pattern.asksForMembers (p : Pattern) : Bool :=
  p.predicate.mentions Vocabulary.subPropertyOf && p.object.mentions Vocabulary.member

/-- Asks which of the pattern's subjects are container membership properties. -/
def Pattern.typedMembers (p : Pattern) : Pattern :=
  ⟨p.subject, .exact Vocabulary.type, .exact Vocabulary.containerMembershipProperty⟩

namespace Source

/-- The statements that the layer adds for a pattern. -/
def membershipRows (next : Source) (p : Pattern) (context : Option Term) :
    Except Fault (List Triple) := do
  let typed ← next.select p.typedMembers.mode p.typedMembers context
  return typed.toList.map fun row => ⟨row.subject, Vocabulary.subPropertyOf, Vocabulary.member⟩

def selectByMembership (next : Source) (mode : Mode) (p : Pattern) (context : Option Term) :
    Answer := do
  let rows ← next.select mode p context
  if p.asksForMembers then
    let added ← next.membershipRows p context
    return rows.insertMany added
  else return rows

theorem names_of_typedMembers {p : Pattern} {t : Term} (h : p.typedMembers.Names t) :
    p.Names t ∨ t = Vocabulary.type ∨ t = Vocabulary.containerMembershipProperty := by
  obtain ⟨_ | _ | _, h⟩ := h
  · exact .inl ⟨.subject, h⟩
  · exact .inr (.inl (of_decide_eq_true h).symm)
  · exact .inr (.inr (of_decide_eq_true h).symm)

def membershipTerms : List Term :=
  [Vocabulary.type, Vocabulary.containerMembershipProperty, Vocabulary.subPropertyOf,
    Vocabulary.member]

theorem bounded_selectByMembership {next : Source} {names : List Term}
    (bounded : Bounded next.select names) :
    Bounded next.selectByMembership (names ++ membershipTerms) := by
  intro mode p context rows h row member i
  have below : ∀ {mode' p' rows'}, next.select mode' p' context = .ok rows' → ∀ row' ∈ rows', ∀ j,
      (∀ t, p'.Names t → p.Names t ∨ t ∈ membershipTerms) →
      row'.get j ∈ names ++ membershipTerms ∨ p.Names (row'.get j) := by
    intro mode' p' rows' h' row' member' j named
    rcases bounded _ _ _ rows' h' row' member' j with known | name
    · exact .inl (List.mem_append_left _ known)
    · exact (named _ name).symm.imp_left (List.mem_append_right _)
  obtain ⟨own, answer, h⟩ := bind_ok h
  split at h
  · obtain ⟨added, entailed, h⟩ := bind_ok h
    obtain ⟨typed, members, entailed⟩ := bind_ok entailed
    cases entailed
    cases h
    rcases SortedSet.mem_insertMany.mp member with new | own_row
    · obtain ⟨source, present, rfl⟩ := List.mem_map.mp new
      cases i with
      | subject =>
        refine below members source present .subject fun t named => ?_
        exact (names_of_typedMembers named).imp_right fun same => by
          rcases same with rfl | rfl <;> simp [membershipTerms]
      | predicate => exact .inl (by simp [Triple.get, membershipTerms])
      | object => exact .inl (by simp [Triple.get, membershipTerms])
    · exact below answer row own_row i fun t named => .inl named
  · cases h
    exact below answer row member i fun t named => .inl named

def withMemberships (next : Source) : Source where
  select := next.selectByMembership
  evaluatesIntervals := next.evaluatesIntervals
  bounded := next.bounded.elim fun _ bounded => ⟨_, bounded_selectByMembership bounded⟩

end Source

end TripleQuery
