import TripleQuery.Pattern

/-!
Patterns whose intervals can be evaluated: they stand at the object. A table also needs their bounds
to be of one kind.
-/

namespace TripleQuery

theorem Slot.mentions_exact {x t : Term} : (Slot.exact x).mentions t = true ↔ x = t :=
  decide_eq_true_iff

theorem Slot.mentions_choices {terms : List Term} {t : Term} :
    (Slot.choices terms).mentions t = true ↔ t ∈ terms :=
  decide_eq_true_iff

/-! ### Intervals in their place -/

def Interval.Uniform (r : Interval) : Prop :=
  ∀ low ∈ r.min, ∀ high ∈ r.max, low.kind = high.kind

/-- Bounds of one kind are those that an interval can be made of. -/
theorem Interval.isOk_ofBounds {r : Interval} :
    (ofBounds r.min r.max).isOk = true ↔ r.Uniform := by
  obtain ⟨_ | low, _ | high⟩ := r
  case some.some =>
    by_cases same : low.kind = high.kind <;>
      simp [ofBounds, Uniform, Term.sameKind, same, Except.isOk, Except.toBool]
  all_goals simp [ofBounds, Uniform, Except.isOk, Except.toBool]

instance (r : Interval) : Decidable r.Uniform := decidable_of_iff _ Interval.isOk_ofBounds

theorem Interval.uniform_of_contains {r : Interval} {value : Term}
    (inside : r.contains value = true) : r.Uniform := by
  intro low hasLow high hasHigh
  simp only [contains, Bool.and_eq_true, Option.all_eq_true] at inside
  obtain ⟨below, above⟩ := inside
  have high_kind : high.kind = value.kind := of_decide_eq_true (below high hasHigh).1
  have low_kind : low.kind = value.kind := of_decide_eq_true (above low hasLow).1
  exact low_kind.trans high_kind.symm

namespace Pattern

/-- Intervals stand at the object only. -/
def AtObject (p : Pattern) : Prop :=
  p.subject.isInterval = false ∧ p.predicate.isInterval = false

/-- An interval at the object is one of those allowed. -/
def Allowed (p : Pattern) (allowed : Interval → Prop) : Prop :=
  ∀ bounds, p.object = .within bounds → allowed bounds

/-- Intervals stand at the object only, with bounds of one kind. -/
def WellPlaced (p : Pattern) : Prop := p.AtObject ∧ p.Allowed Interval.Uniform

theorem hasInterval_of_atObject {p : Pattern} (placed : p.AtObject) :
    p.hasInterval = p.object.isInterval := by
  simp [hasInterval, placed.1, placed.2]

theorem hasInterval_of_within {p : Pattern} {bounds : Interval} (within : p.object = .within bounds) :
    p.hasInterval = true := by
  rw [hasInterval, within, Slot.isInterval, Bool.or_true]

theorem atObject_of_no_interval {p : Pattern} (none : p.hasInterval = false) : p.AtObject := by
  simp only [hasInterval, Bool.or_eq_false_iff] at none
  exact none.1

theorem allowed_of_no_interval {p : Pattern} {allowed : Interval → Prop}
    (none : p.hasInterval = false) : p.Allowed allowed := by
  intro bounds within
  rw [hasInterval_of_within within] at none
  cases none

theorem wellPlaced_of_no_interval {p : Pattern} (none : p.hasInterval = false) : p.WellPlaced :=
  ⟨atObject_of_no_interval none, allowed_of_no_interval none⟩

theorem accepts_of_matchesNothing {p : Pattern} (nothing : p.matchesNothing = true)
    (t : Triple) : p.accepts t = false := by
  have refuses : ∀ s : Slot, s.isEmptyChoice = true → ∀ x, s.accepts x = false := by
    intro s empty x
    rw [Slot.isEmptyChoice.eq_def] at empty
    split at empty
    · rfl
    · cases empty
  simp only [matchesNothing, Bool.or_eq_true] at nothing
  rcases nothing with (subject | predicate) | object
  · simp [accepts, refuses _ subject]
  · simp [accepts, refuses _ predicate]
  · simp [accepts, refuses _ object]

/-! ### One position changed -/

theorem atObject_put {p : Pattern} {slot : Slot} (placed : p.AtObject) (i : Position)
    (plain : slot.isInterval = false) : (p.put i slot).AtObject := by
  cases i with
  | subject => exact ⟨plain, placed.2⟩
  | predicate => exact ⟨placed.1, plain⟩
  | object => exact placed

theorem allowed_put {p : Pattern} {slot : Slot} {allowed : Interval → Prop}
    (given : p.Allowed allowed) (i : Position) (plain : slot.isInterval = false) :
    (p.put i slot).Allowed allowed := by
  cases i with
  | subject | predicate => exact given
  | object =>
    intro bounds same
    rw [show slot = _ from same] at plain
    cases plain

theorem wellPlaced_put {p : Pattern} {slot : Slot} (placed : p.WellPlaced) (i : Position)
    (plain : slot.isInterval = false) : (p.put i slot).WellPlaced :=
  ⟨atObject_put placed.1 i plain, allowed_put placed.2 i plain⟩

theorem accepts_put (p : Pattern) (i : Position) (slot : Slot) (t : Triple) :
    (p.put i slot).accepts t = ((p.put i .any).accepts t && slot.accepts (t.get i)) := by
  rw [Bool.eq_iff_iff, Bool.and_eq_true, accepts_iff, accepts_iff]
  constructor
  · intro all
    refine ⟨fun j => ?_, ?_⟩
    · by_cases same : j = i
      · subst same
        rw [get_put_self]
        rfl
      · rw [get_put_of_ne p same, ← get_put_of_ne p same slot]
        exact all j
    · rw [← get_put_self p i slot]
      exact all i
  · rintro ⟨others, here⟩ j
    by_cases same : j = i
    · subst same
      rw [get_put_self]
      exact here
    · rw [get_put_of_ne p same, ← get_put_of_ne p same .any]
      exact others j

theorem accepts_restated {p : Pattern} {i : Position} {t : Triple}
    (fits : (p.put i .any).accepts t = true) {x : Term} (accepted : (p.get i).accepts x = true) :
    p.accepts (t.put i x) = true := by
  refine accepts_iff.mpr fun j => ?_
  by_cases same : j = i
  · subst same
    rw [Triple.get_put_self]
    exact accepted
  · rw [Triple.get_put_of_ne t same, ← get_put_of_ne p same .any]
    exact accepts_iff.mp fits j

theorem accepts_put_of_any {p : Pattern} {i : Position} (unset : p.get i = .any) (slot : Slot)
    (t : Triple) : (p.put i slot).accepts t = (p.accepts t && slot.accepts (t.get i)) := by
  have same : p.put i .any = p := by
    rw [← unset]
    cases i <;> rfl
  rw [accepts_put, same]

theorem put_put (p : Pattern) (i : Position) (a b : Slot) : (p.put i a).put i b = p.put i b := by
  cases i <;> rfl

@[simp] theorem put_get (p : Pattern) (i : Position) : p.put i (p.get i) = p := by
  cases i <;> rfl

theorem hasInterval_iff {p : Pattern} :
    p.hasInterval = true ↔ ∃ i, (p.get i).isInterval = true := by
  simp only [hasInterval, Bool.or_eq_true]
  constructor
  · rintro ((subject | predicate) | object)
    · exact ⟨.subject, subject⟩
    · exact ⟨.predicate, predicate⟩
    · exact ⟨.object, object⟩
  · rintro ⟨_ | _ | _, here⟩
    · exact .inl (.inl here)
    · exact .inl (.inr here)
    · exact .inr here

theorem get_ne_choices {p : Pattern} (none : p.hasChoices = false) {i : Position}
    (terms : List Term) : p.get i ≠ .choices terms := by
  intro list
  simp only [hasChoices, Bool.or_eq_false_iff] at none
  obtain ⟨⟨subject, predicate⟩, object⟩ := none
  cases i with
  | subject => rw [show p.subject = _ from list] at subject; cases subject
  | predicate => rw [show p.predicate = _ from list] at predicate; cases predicate
  | object => rw [show p.object = _ from list] at object; cases object

theorem hasInterval_put {p : Pattern} {slot : Slot} (none : p.hasInterval = false) (i : Position)
    (plain : slot.isInterval = false) : (p.put i slot).hasInterval = false := by
  simp only [hasInterval, Bool.or_eq_false_iff] at none
  obtain ⟨⟨subject, predicate⟩, object⟩ := none
  cases i <;> simp [hasInterval, put, subject, predicate, object, plain]

theorem hasChoices_put {p : Pattern} {slot : Slot} (none : p.hasChoices = false) (i : Position)
    (plain : slot.isChoices = false) : (p.put i slot).hasChoices = false := by
  simp only [hasChoices, Bool.or_eq_false_iff] at none
  obtain ⟨⟨subject, predicate⟩, object⟩ := none
  cases i <;> simp [hasChoices, put, subject, predicate, object, plain]

theorem hasInterval_of_put {p : Pattern} {i : Position} {slot : Slot}
    (plain : slot.isInterval = false) (interval : (p.put i slot).hasInterval = true) :
    p.hasInterval = true := by
  cases own : p.hasInterval with
  | true => rfl
  | false =>
    rw [hasInterval_put own i plain] at interval
    cases interval

theorem put_comm (p : Pattern) {i j : Position} (distinct : i ≠ j) (a b : Slot) :
    (p.put i a).put j b = (p.put j b).put i a := by
  cases i <;> cases j <;> first | rfl | exact absurd rfl distinct

/-! ### An open object -/

theorem hasInterval_open {p : Pattern} (placed : p.AtObject) :
    (p.put .object .any).hasInterval = false := by
  show (p.subject.isInterval || p.predicate.isInterval || false) = false
  rw [placed.1, placed.2]
  rfl

theorem hasChoices_open {p : Pattern} (none : p.hasChoices = false) :
    (p.put .object .any).hasChoices = false := by
  simp only [hasChoices, Bool.or_eq_false_iff] at none
  show (p.subject.isChoices || p.predicate.isChoices || false) = false
  rw [none.1.1, none.1.2]
  rfl

/-- Leaving the object open and filtering afterwards amounts to the interval. -/
theorem accepts_within {p : Pattern} {bounds : Interval} (within : p.object = .within bounds)
    (t : Triple) :
    ((p.put .object .any).accepts t && bounds.contains t.object) = p.accepts t := by
  simp [accepts, put, within, Slot.accepts]

end Pattern

end TripleQuery
