import TripleQuery.SortedSet

/-!
Unions of several sets, sets cut down by a test, and how many members a set has.
-/

namespace TripleQuery.SortedSet

variable {α : Type} [Ord α] [Std.TransOrd α] [Std.LawfulEqOrd α]

/-- The union of several sets. -/
def unions (sets : List (SortedSet α)) : SortedSet α := sets.foldr (· ∪ ·) ∅

@[simp] theorem mem_unions {sets : List (SortedSet α)} {a : α} :
    a ∈ unions sets ↔ ∃ s ∈ sets, a ∈ s := by
  induction sets with
  | nil => simp [unions]
  | cons s rest ih =>
    show a ∈ s ∪ unions rest ↔ _
    rw [mem_union, ih]
    simp

theorem filter_unions (p : α → Bool) (sets : List (SortedSet α)) :
    (unions sets).filter p = unions (sets.map (filter p)) := by
  apply ext
  intro a
  simp only [mem_filter, mem_unions, List.mem_map]
  constructor
  · intro found
    obtain ⟨⟨s, present, member⟩, passes⟩ := found
    exact ⟨s.filter p, ⟨s, present, rfl⟩, mem_filter.mpr ⟨member, passes⟩⟩
  · intro found
    obtain ⟨_, ⟨s, present, rfl⟩, member⟩ := found
    obtain ⟨member, passes⟩ := mem_filter.mp member
    exact ⟨⟨s, present, member⟩, passes⟩

omit [Std.TransOrd α] [Std.LawfulEqOrd α] in
theorem filter_congr {p q : α → Bool} (same : ∀ a, p a = q a) (s : SortedSet α) :
    s.filter p = s.filter q :=
  congrArg s.filter (funext same)

omit [Std.LawfulEqOrd α] in
theorem isEmpty_eq_false_of_mem {s : SortedSet α} {a : α} (member : a ∈ s) : s.isEmpty = false := by
  cases empty : s.isEmpty with
  | false => rfl
  | true =>
    rw [isEmpty_iff.mp empty] at member
    exact absurd member (not_mem_empty a)

omit [Std.LawfulEqOrd α] in
theorem isEmpty_iff_not_mem {s : SortedSet α} : s.isEmpty = true ↔ ∀ a, a ∉ s := by
  rw [isEmpty_iff]
  constructor
  · rintro rfl
    exact not_mem_empty
  · exact fun none => ext fun a => iff_of_false (none a) (not_mem_empty a)

omit [Std.LawfulEqOrd α] in
theorem isEmpty_eq_false_iff {s : SortedSet α} : s.isEmpty = false ↔ ∃ a, a ∈ s := by
  rw [← Bool.not_eq_true, isEmpty_iff_not_mem, Classical.not_forall]
  simp only [Classical.not_not]

/-! ### Size -/

omit [Std.LawfulEqOrd α] in
theorem nodup_toList (s : SortedSet α) : s.toList.Nodup := by
  refine s.increasing.imp fun less => ?_
  rintro rfl
  simp [Std.ReflOrd.compare_self] at less

omit [Std.LawfulEqOrd α] in
theorem perm_toList {s : SortedSet α} {l : List α} (distinct : l.Nodup)
    (same : ∀ a, a ∈ l ↔ a ∈ s) : l.Perm s.toList :=
  (List.perm_ext_iff_of_nodup distinct s.nodup_toList).mpr same

theorem perm_insert {s : SortedSet α} {a : α} (absent : a ∉ s) :
    (a :: s.toList).Perm (s.insert a).toList :=
  perm_toList (List.nodup_cons.mpr ⟨absent, s.nodup_toList⟩) fun x => by simp

theorem insert_of_mem {s : SortedSet α} {a : α} (member : a ∈ s) : s.insert a = s := by
  apply ext
  intro x
  rw [mem_insert, or_iff_right_of_imp]
  rintro rfl
  exact member

theorem size_insert_of_not_mem {s : SortedSet α} {a : α} (absent : a ∉ s) :
    (s.insert a).size = s.size + 1 :=
  (perm_insert absent).length_eq.symm

omit [Std.LawfulEqOrd α] in
/-- The members that a larger set has beside those of a smaller one make up the difference. -/
theorem size_filter_not_mem [DecidableEq α] {s t : SortedSet α} (subset : ∀ a ∈ s, a ∈ t) :
    t.size = s.size + (t.filter fun a => decide (a ∉ s)).size := by
  have common : t.filter (fun a => decide (a ∈ s)) = s := by
    apply ext
    intro a
    simpa using subset a
  calc
    t.size = (t.filter fun a => decide (a ∈ s)).size + (t.filter fun a => decide (a ∉ s)).size := by
      simpa [size, filter, List.countP_eq_length_filter] using
        List.length_eq_countP_add_countP (fun a => decide (a ∈ s)) (l := t.toList)
    _ = s.size + (t.filter fun a => decide (a ∉ s)).size := by rw [common]

end TripleQuery.SortedSet
