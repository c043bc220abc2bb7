import TripleQuery.Term

/-!
Open intervals of terms. Both bounds are exclusive, and a value lies only between bounds of its
own kind.
-/

namespace TripleQuery

structure Interval where
  min : Option Term
  max : Option Term
  deriving DecidableEq

structure KindClash where
  min : Kind
  max : Kind
  deriving DecidableEq

namespace Interval

/-- A missing bound comes before any bound. -/
instance : Ord Interval where
  compare := compareLex (compareOn min) (compareOn max)

instance : Std.TransOrd Interval := inferInstanceAs (Std.TransCmp (compareLex _ _))

instance : Std.LawfulEqOrd Interval where
  compare_self := Std.ReflCmp.compare_self
  eq_of_compare {a b} h := by
    obtain ⟨lows, highs⟩ := Ordering.then_eq_eq.mp h
    cases a
    cases b
    simp only [compareOn] at lows highs
    rw [Std.LawfulEqOrd.eq_of_compare lows, Std.LawfulEqOrd.eq_of_compare highs]

def ofBounds (min max : Option Term) : Except KindClash Interval :=
  match min, max with
  | some low, some high =>
    if low.sameKind high then .ok ⟨min, max⟩ else .error ⟨low.kind, high.kind⟩
  | _, _ => .ok ⟨min, max⟩

def below (max : Term) : Interval := ⟨none, some max⟩

def above (min : Term) : Interval := ⟨some min, none⟩

def unbounded : Interval := ⟨none, none⟩

def isBounded (r : Interval) : Bool := r.min.isSome || r.max.isSome

def contains (r : Interval) (value : Term) : Bool :=
  (r.max.all fun high => high.sameKind value && value.precedes high) &&
    (r.min.all fun low => low.sameKind value && low.precedes value)

theorem contains_of_not_isBounded {r : Interval} (h : r.isBounded = false) (value : Term) :
    r.contains value = true := by
  obtain ⟨_ | low, _ | high⟩ := r
  · rfl
  all_goals cases h

def render (r : Interval) : String :=
  match r.min, r.max with
  | some low, some high => "(" ++ low.render ++ ", " ++ high.render ++ ")"
  | some low, none => "(" ++ low.render ++ ", ..)"
  | none, some high => "(.., " ++ high.render ++ ")"
  | none, none => "(..)"

end Interval

end TripleQuery
