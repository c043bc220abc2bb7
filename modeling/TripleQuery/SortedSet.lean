/-!
Finite sets kept as strictly increasing lists, so that a set has one representation and equal
members give equal sets.
-/

namespace TripleQuery

variable {α β : Type}

/-! ### Insertion into an increasing list -/

/-- Puts `a` in its place, unless it is there already. -/
def insertSorted [Ord α] (a : α) : List α → List α
  | [] => [a]
  | b :: bs =>
    match compare a b with
    | .lt => a :: b :: bs
    | .eq => b :: bs
    | .gt => b :: insertSorted a bs

theorem mem_insertSorted [Ord α] [Std.LawfulEqOrd α] {a x : α} {l : List α} :
    x ∈ insertSorted a l ↔ x = a ∨ x ∈ l := by
  induction l with
  | nil => simp [insertSorted]
  | cons b bs ih =>
    rw [insertSorted]
    split
    · simp
    · rename_i h
      rw [Std.LawfulEqOrd.eq_of_compare h]
      simp
    · simp only [List.mem_cons, ih]
      exact or_left_comm

abbrev Increasing [Ord α] (l : List α) : Prop :=
  l.Pairwise (fun a b => compare a b = .lt)

theorem Increasing.nil [Ord α] : Increasing ([] : List α) := List.Pairwise.nil

theorem increasing_insertSorted [Ord α] [Std.TransOrd α] [Std.LawfulEqOrd α] (a : α) {l : List α}
    (h : Increasing l) : Increasing (insertSorted a l) := by
  induction l with
  | nil => simp [insertSorted]
  | cons b bs ih =>
    obtain ⟨below, rest⟩ := List.pairwise_cons.mp h
    rw [insertSorted]
    split
    · rename_i less
      refine List.pairwise_cons.mpr ⟨fun x member => ?_, h⟩
      rcases List.mem_cons.mp member with rfl | later
      · exact less
      · exact Std.TransCmp.lt_trans less (below x later)
    · exact h
    · rename_i greater
      refine List.pairwise_cons.mpr ⟨fun x member => ?_, ih rest⟩
      rcases mem_insertSorted.mp member with rfl | later
      · exact Std.OrientedCmp.gt_iff_lt.mp greater
      · exact below x later

/-- An increasing list is determined by its members. -/
theorem Increasing.ext [Ord α] [Std.TransOrd α] {l m : List α} (hl : Increasing l)
    (hm : Increasing m) (h : ∀ x, x ∈ l ↔ x ∈ m) : l = m := by
  induction l generalizing m with
  | nil =>
    exact (List.eq_nil_iff_forall_not_mem.mpr fun x member => absurd ((h x).mpr member)
      List.not_mem_nil).symm
  | cons a as ih =>
    obtain ⟨belowA, restA⟩ := List.pairwise_cons.mp hl
    cases m with
    | nil => exact absurd ((h a).mp (by simp)) (by simp)
    | cons b bs =>
      obtain ⟨belowB, restB⟩ := List.pairwise_cons.mp hm
      have irreflexive : ∀ x : α, compare x x ≠ .lt := fun x less => by
        simp [Std.ReflOrd.compare_self] at less
      have same : a = b := by
        rcases List.mem_cons.mp ((h a).mp (by simp)) with equal | laterA
        · exact equal
        · rcases List.mem_cons.mp ((h b).mpr (by simp)) with equal | laterB
          · exact equal.symm
          · exact absurd (Std.TransCmp.lt_trans (belowB a laterA) (belowA b laterB)) (irreflexive b)
      subst same
      rw [ih restA restB fun x => ?_]
      constructor
      · intro member
        rcases List.mem_cons.mp ((h x).mp (List.mem_cons_of_mem _ member)) with rfl | later
        · exact absurd (belowA x member) (irreflexive x)
        · exact later
      · intro member
        rcases List.mem_cons.mp ((h x).mpr (List.mem_cons_of_mem _ member)) with rfl | later
        · exact absurd (belowB x member) (irreflexive x)
        · exact later

/-! ### The type -/

structure SortedSet (α : Type) [Ord α] where
  toList : List α
  increasing : Increasing toList
  deriving DecidableEq

namespace SortedSet

variable [Ord α]

instance : Membership α (SortedSet α) := ⟨fun s a => a ∈ s.toList⟩

instance [DecidableEq α] (a : α) (s : SortedSet α) : Decidable (a ∈ s) :=
  inferInstanceAs (Decidable (a ∈ s.toList))

@[simp] theorem mem_toList {s : SortedSet α} {a : α} : a ∈ s.toList ↔ a ∈ s := Iff.rfl

theorem eq_of_toList {s t : SortedSet α} (h : s.toList = t.toList) : s = t := by
  cases s; cases t; cases h; rfl

theorem ext [Std.TransOrd α] {s t : SortedSet α} (h : ∀ a, a ∈ s ↔ a ∈ t) : s = t :=
  eq_of_toList (Increasing.ext s.increasing t.increasing h)

def empty : SortedSet α := ⟨[], Increasing.nil⟩

instance : EmptyCollection (SortedSet α) := ⟨empty⟩

instance : Inhabited (SortedSet α) := ⟨empty⟩

@[simp] theorem not_mem_empty (a : α) : a ∉ (∅ : SortedSet α) := List.not_mem_nil

def singleton (a : α) : SortedSet α := ⟨[a], List.pairwise_singleton _ _⟩

@[simp] theorem mem_singleton {a x : α} : x ∈ singleton a ↔ x = a := List.mem_singleton

def size (s : SortedSet α) : Nat := s.toList.length

def isEmpty (s : SortedSet α) : Bool := s.toList.isEmpty

theorem isEmpty_iff [Std.TransOrd α] {s : SortedSet α} : s.isEmpty = true ↔ s = ∅ :=
  ⟨fun h => eq_of_toList (List.isEmpty_iff.mp h), fun h => by rw [h]; rfl⟩

def filter (p : α → Bool) (s : SortedSet α) : SortedSet α :=
  ⟨s.toList.filter p, s.increasing.filter p⟩

@[simp] theorem mem_filter {p : α → Bool} {s : SortedSet α} {a : α} :
    a ∈ s.filter p ↔ a ∈ s ∧ p a = true := List.mem_filter

def inter [DecidableEq α] (s t : SortedSet α) : SortedSet α := s.filter fun a => decide (a ∈ t)

instance [DecidableEq α] : Inter (SortedSet α) := ⟨inter⟩

@[simp] theorem mem_inter [DecidableEq α] {s t : SortedSet α} {a : α} :
    a ∈ s ∩ t ↔ a ∈ s ∧ a ∈ t := by
  show a ∈ s.filter _ ↔ _
  simp

variable [Std.TransOrd α] [Std.LawfulEqOrd α]

def insert (a : α) (s : SortedSet α) : SortedSet α :=
  ⟨insertSorted a s.toList, increasing_insertSorted a s.increasing⟩

@[simp] theorem mem_insert {a x : α} {s : SortedSet α} : x ∈ s.insert a ↔ x = a ∨ x ∈ s :=
  mem_insertSorted

def insertMany (l : List α) (s : SortedSet α) : SortedSet α := l.foldr insert s

@[simp] theorem mem_insertMany {l : List α} {s : SortedSet α} {x : α} :
    x ∈ s.insertMany l ↔ x ∈ l ∨ x ∈ s := by
  induction l with
  | nil => simp [insertMany]
  | cons a as ih =>
    show x ∈ (s.insertMany as).insert a ↔ _
    rw [mem_insert, ih, List.mem_cons, or_assoc]

def ofList (l : List α) : SortedSet α := insertMany l ∅

@[simp] theorem mem_ofList {l : List α} {x : α} : x ∈ ofList l ↔ x ∈ l := by
  simp [ofList]

@[simp] theorem ofList_toList (s : SortedSet α) : ofList s.toList = s :=
  ext fun x => by simp

def union (s t : SortedSet α) : SortedSet α := t.insertMany s.toList

instance : Union (SortedSet α) := ⟨union⟩

@[simp] theorem mem_union {s t : SortedSet α} {a : α} : a ∈ s ∪ t ↔ a ∈ s ∨ a ∈ t := by
  show a ∈ t.insertMany s.toList ↔ _
  simp

end SortedSet

end TripleQuery
