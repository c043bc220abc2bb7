import TripleQuery.SortedMap

/-!
Lookups in a sorted map: an entry is found under its key, and a change under one key is seen there
and nowhere else.
-/

namespace TripleQuery.SortedMap

variable {κ α : Type}

/-! ### Lists of entries -/

section Entries

variable [DecidableEq κ]

def lookup (key : κ) (l : List (κ × α)) : Option α :=
  (l.find? fun entry => decide (entry.1 = key)).map Prod.snd

theorem lookup_cons_self (key : κ) (a : α) (l : List (κ × α)) :
    lookup key ((key, a) :: l) = some a := by
  simp [lookup]

theorem lookup_cons_of_ne {key k : κ} (different : k ≠ key) (a : α) (l : List (κ × α)) :
    lookup key ((k, a) :: l) = lookup key l := by
  simp [lookup, different]

theorem lookup_prepend_self (key : κ) (o : Option α) {l : List (κ × α)}
    (absent : lookup key l = none) : lookup key (o.toList.map (key, ·) ++ l) = o := by
  cases o with
  | none => exact absent
  | some a => exact lookup_cons_self key a l

theorem lookup_prepend_of_ne {key other : κ} (different : key ≠ other) (o : Option α)
    (l : List (κ × α)) : lookup other (o.toList.map (key, ·) ++ l) = lookup other l := by
  cases o with
  | none => rfl
  | some a => exact lookup_cons_of_ne different a l

end Entries

/-! ### Increasing keys -/

variable [Ord κ] [Std.TransOrd κ]

theorem ne_of_lt {a b : κ} (less : compare a b = .lt) : b ≠ a := by
  rintro rfl
  simp [Std.ReflOrd.compare_self] at less

variable [DecidableEq κ]

theorem lookup_of_below {key : κ} {l : List (κ × α)}
    (below : ∀ x ∈ l.map Prod.fst, compare key x = .lt) : lookup key l = none := by
  induction l with
  | nil => rfl
  | cons entry rest ih =>
    obtain ⟨k, a⟩ := entry
    rw [lookup_cons_of_ne (ne_of_lt (below k List.mem_cons_self))]
    exact ih fun x member => below x (List.mem_cons_of_mem _ member)

theorem lookup_of_mem {l : List (κ × α)} (increasing : Increasing (l.map Prod.fst)) {key : κ}
    {a : α} (member : (key, a) ∈ l) : lookup key l = some a := by
  induction l with
  | nil => cases member
  | cons entry rest ih =>
    obtain ⟨below, sorted⟩ := List.pairwise_cons.mp increasing
    rcases List.mem_cons.mp member with rfl | later
    · exact lookup_cons_self key a rest
    · obtain ⟨k, b⟩ := entry
      have less := below key (List.mem_map.mpr ⟨_, later, rfl⟩)
      rw [lookup_cons_of_ne (ne_of_lt less).symm, ih sorted later]

variable {m : SortedMap κ α}

theorem mem_entries_iff {key : κ} {a : α} : (key, a) ∈ m.entries ↔ m.get? key = some a := by
  constructor
  · exact lookup_of_mem m.increasing
  · intro found
    obtain ⟨⟨_, _⟩, present, rfl⟩ := Option.map_eq_some_iff.mp found
    have same := List.find?_some present
    obtain rfl := of_decide_eq_true same
    exact List.mem_of_find?_eq_some present

theorem mem_keys_iff {key : κ} : key ∈ m.keys ↔ ∃ a, m.get? key = some a := by
  constructor
  · intro member
    obtain ⟨⟨_, a⟩, present, rfl⟩ := List.mem_map.mp member
    exact ⟨a, mem_entries_iff.mp present⟩
  · intro given
    obtain ⟨a, found⟩ := given
    exact List.mem_map.mpr ⟨_, mem_entries_iff.mpr found, rfl⟩

theorem mem_values_iff {a : α} : a ∈ m.values ↔ ∃ key, m.get? key = some a := by
  constructor
  · intro member
    obtain ⟨⟨key, b⟩, present, rfl⟩ := List.mem_map.mp member
    exact ⟨key, lookup_of_mem m.increasing present⟩
  · intro given
    obtain ⟨key, found⟩ := given
    exact mem_values_of_get? found

omit [Std.TransOrd κ] in
@[simp] theorem get?_empty (key : κ) : (∅ : SortedMap κ α).get? key = none := rfl

omit [Std.TransOrd κ] in
theorem get?_mapValues (f : α → α) (key : κ) :
    (m.mapValues f).get? key = (m.get? key).map f := by
  simp [get?, mapValues, List.find?_map, Function.comp_def]

/-! ### Changes -/

variable [Std.LawfulEqOrd κ]

theorem lookup_alterEntries_self (key : κ) (f : Option α → Option α) {l : List (κ × α)}
    (increasing : Increasing (l.map Prod.fst)) :
    lookup key (alterEntries key f l) = f (lookup key l) := by
  induction l with
  | nil =>
    have alone := lookup_prepend_self key (f none) (l := []) rfl
    rwa [List.append_nil] at alone
  | cons entry rest ih =>
    obtain ⟨k, a⟩ := entry
    obtain ⟨below, sorted⟩ := List.pairwise_cons.mp increasing
    rw [alterEntries]
    split
    · rename_i less
      have absent : lookup key ((k, a) :: rest) = none := by
        refine lookup_of_below fun x member => ?_
        rcases List.mem_cons.mp member with rfl | later
        · exact less
        · exact Std.TransCmp.lt_trans less (below x later)
      rw [lookup_prepend_self key _ absent, absent]
    · rename_i same
      obtain rfl := Std.LawfulEqOrd.eq_of_compare same
      rw [lookup_prepend_self key _ (lookup_of_below below), lookup_cons_self]
    · rename_i greater
      have different : k ≠ key := (ne_of_lt (Std.OrientedCmp.gt_iff_lt.mp greater)).symm
      rw [lookup_cons_of_ne different, lookup_cons_of_ne different, ih sorted]

omit [Std.TransOrd κ] in
theorem lookup_alterEntries_of_ne {key other : κ} (different : key ≠ other)
    (f : Option α → Option α) (l : List (κ × α)) :
    lookup other (alterEntries key f l) = lookup other l := by
  induction l with
  | nil =>
    have alone := lookup_prepend_of_ne different (f none) []
    rwa [List.append_nil] at alone
  | cons entry rest ih =>
    obtain ⟨k, a⟩ := entry
    rw [alterEntries]
    split
    · exact lookup_prepend_of_ne different _ _
    · rename_i same
      obtain rfl := Std.LawfulEqOrd.eq_of_compare same
      rw [lookup_prepend_of_ne different, lookup_cons_of_ne different]
    · by_cases found : k = other
      · subst found
        rw [lookup_cons_self, lookup_cons_self]
      · rw [lookup_cons_of_ne found, lookup_cons_of_ne found, ih]

@[simp] theorem get?_alter_self (m : SortedMap κ α) (key : κ) (f : Option α → Option α) :
    (m.alter key f).get? key = f (m.get? key) :=
  lookup_alterEntries_self key f m.increasing

theorem get?_alter_of_ne (m : SortedMap κ α) {key other : κ} (different : key ≠ other)
    (f : Option α → Option α) : (m.alter key f).get? other = m.get? other :=
  lookup_alterEntries_of_ne different f m.entries

@[simp] theorem get?_insert_self (m : SortedMap κ α) (key : κ) (a : α) :
    (m.insert key a).get? key = some a :=
  get?_alter_self m key _

theorem get?_insert_of_ne (m : SortedMap κ α) {key other : κ} (different : key ≠ other) (a : α) :
    (m.insert key a).get? other = m.get? other :=
  get?_alter_of_ne m different _

/-- What a map holds after an insertion was inserted or was there before. -/
theorem mem_values_insert {key : κ} {a b : α} (member : b ∈ (m.insert key a).values) :
    b = a ∨ b ∈ m.values := by
  obtain ⟨other, found⟩ := mem_values_iff.mp member
  by_cases same : key = other
  · subst same
    rw [get?_insert_self] at found
    exact .inl (Option.some.inj found).symm
  · rw [get?_insert_of_ne m same] at found
    exact .inr (mem_values_iff.mpr ⟨other, found⟩)

end TripleQuery.SortedMap
