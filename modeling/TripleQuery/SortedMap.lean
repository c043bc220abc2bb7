import TripleQuery.SortedSet

/-!
Finite maps kept as lists of entries in the order of their keys.
-/

namespace TripleQuery

variable {κ α : Type}

structure SortedMap (κ α : Type) [Ord κ] where
  entries : List (κ × α)
  increasing : Increasing (entries.map Prod.fst)

namespace SortedMap

/-- Changes what stands under one key; no value means no entry. -/
def alterEntries [Ord κ] (key : κ) (f : Option α → Option α) : List (κ × α) → List (κ × α)
  | [] => (f none).toList.map (key, ·)
  | (k, a) :: rest =>
    match compare key k with
    | .lt => (f none).toList.map (key, ·) ++ (k, a) :: rest
    | .eq => (f (some a)).toList.map (key, ·) ++ rest
    | .gt => (k, a) :: alterEntries key f rest

theorem key_mem_alterEntries [Ord κ] {key x : κ} {f : Option α → Option α} {l : List (κ × α)}
    (h : x ∈ (alterEntries key f l).map Prod.fst) : x = key ∨ x ∈ l.map Prod.fst := by
  have single : ∀ {o : Option α}, x ∈ (o.toList.map (key, ·)).map Prod.fst → x = key := by
    intro o member
    cases o with
    | none => simp at member
    | some a => simpa using member
  induction l with
  | nil => exact .inl (single h)
  | cons entry rest ih =>
    obtain ⟨k, a⟩ := entry
    rw [alterEntries] at h
    split at h
    · rw [List.map_append] at h
      rcases List.mem_append.mp h with new | old
      · exact .inl (single new)
      · exact .inr old
    · rw [List.map_append] at h
      rcases List.mem_append.mp h with new | old
      · exact .inl (single new)
      · exact .inr (List.mem_cons_of_mem _ old)
    · rcases List.mem_cons.mp h with rfl | later
      · exact .inr List.mem_cons_self
      · exact (ih later).imp_right (List.mem_cons_of_mem _)

theorem increasing_alterEntries [Ord κ] [Std.TransOrd κ] [Std.LawfulEqOrd κ] (key : κ)
    (f : Option α → Option α) {l : List (κ × α)} (h : Increasing (l.map Prod.fst)) :
    Increasing ((alterEntries key f l).map Prod.fst) := by
  have prepend : ∀ {o : Option α} {m : List (κ × α)}, Increasing (m.map Prod.fst) →
      (∀ x ∈ m.map Prod.fst, compare key x = .lt) →
      Increasing ((o.toList.map (key, ·) ++ m).map Prod.fst) := by
    intro o m sorted below
    cases o with
    | none => simpa using sorted
    | some a => exact List.pairwise_cons.mpr ⟨below, sorted⟩
  induction l with
  | nil =>
    have alone := prepend (o := f none) (m := []) Increasing.nil fun _ member =>
      absurd member List.not_mem_nil
    rwa [List.append_nil] at alone
  | cons entry rest ih =>
    obtain ⟨k, a⟩ := entry
    obtain ⟨below, sorted⟩ := List.pairwise_cons.mp h
    rw [alterEntries]
    split
    · rename_i less
      refine prepend h fun x member => ?_
      rcases List.mem_cons.mp member with rfl | later
      · exact less
      · exact Std.TransCmp.lt_trans less (below x later)
    · rename_i same
      rw [Std.LawfulEqOrd.eq_of_compare same] at prepend ⊢
      exact prepend sorted below
    · rename_i greater
      refine List.pairwise_cons.mpr ⟨fun x member => ?_, ih sorted⟩
      rcases key_mem_alterEntries member with rfl | later
      · exact Std.OrientedCmp.gt_iff_lt.mp greater
      · exact below x later

variable [Ord κ]

def empty : SortedMap κ α := ⟨[], Increasing.nil⟩

instance : EmptyCollection (SortedMap κ α) := ⟨empty⟩

instance : Inhabited (SortedMap κ α) := ⟨empty⟩

def keys (m : SortedMap κ α) : List κ := m.entries.map Prod.fst

def values (m : SortedMap κ α) : List α := m.entries.map Prod.snd

def get? [DecidableEq κ] (m : SortedMap κ α) (key : κ) : Option α :=
  (m.entries.find? fun entry => decide (entry.1 = key)).map Prod.snd

theorem mem_values_of_get? [DecidableEq κ] {m : SortedMap κ α} {key : κ} {a : α}
    (h : m.get? key = some a) : a ∈ m.values := by
  obtain ⟨entry, found, rfl⟩ := Option.map_eq_some_iff.mp h
  exact List.mem_map_of_mem (List.mem_of_find?_eq_some found)

def mapValues (f : α → α) (m : SortedMap κ α) : SortedMap κ α where
  entries := m.entries.map fun entry => (entry.1, f entry.2)
  increasing := by simpa [Function.comp_def] using m.increasing

variable [Std.TransOrd κ] [Std.LawfulEqOrd κ]

def alter (m : SortedMap κ α) (key : κ) (f : Option α → Option α) : SortedMap κ α :=
  ⟨alterEntries key f m.entries, increasing_alterEntries key f m.increasing⟩

def insert (m : SortedMap κ α) (key : κ) (a : α) : SortedMap κ α := m.alter key fun _ => some a

end SortedMap

end TripleQuery
