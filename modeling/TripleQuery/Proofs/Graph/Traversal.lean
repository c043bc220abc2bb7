import Mathlib.Logic.Relation
import TripleQuery.Graph.Traversal

/-!
Which nodes a depth-first walk enters: those that its steps lead to, each of them once. All steps of
these nodes are reported.
-/

namespace TripleQuery.Traversal

variable {next : Nat → List Nat}

/-- Zero or more steps of a walk. -/
def Leads (next : Nat → List Nat) : Nat → Nat → Prop :=
  Relation.ReflTransGen fun a b => b ∈ next a

/-! ### Each node once -/

theorem mem_free_of_mem_order {free pending : List Nat} {n : Nat}
    (entered : n ∈ order next free pending) : n ∈ free := by
  fun_induction order next free pending with
  | case1 => exact absurd entered List.not_mem_nil
  | case2 free m rest inside ih =>
    rcases List.mem_cons.mp entered with rfl | later
    · exact inside
    · exact List.mem_of_mem_erase (ih later)
  | case3 free m rest outside ih => exact ih entered

theorem nodup_order {free : List Nat} (distinct : free.Nodup) (pending : List Nat) :
    (order next free pending).Nodup := by
  fun_induction order next free pending with
  | case1 => exact List.nodup_nil
  | case2 free m rest inside ih =>
    refine List.nodup_cons.mpr ⟨fun again => ?_, ih (distinct.erase m)⟩
    exact distinct.not_mem_erase (mem_free_of_mem_order again)
  | case3 free m rest outside ih => exact ih distinct

/-! ### Where a walk leads -/

theorem leads_of_mem_order {free pending : List Nat} {n : Nat}
    (entered : n ∈ order next free pending) : ∃ m ∈ pending, Leads next m n := by
  fun_induction order next free pending with
  | case1 => exact absurd entered List.not_mem_nil
  | case2 free m rest inside ih =>
    rcases List.mem_cons.mp entered with rfl | later
    · exact ⟨n, List.mem_cons_self, .refl⟩
    · obtain ⟨k, waiting, leads⟩ := ih later
      rcases List.mem_append.mp waiting with child | old
      · exact ⟨m, List.mem_cons_self, .head child leads⟩
      · exact ⟨k, List.mem_cons_of_mem _ old, leads⟩
  | case3 free m rest outside ih =>
    obtain ⟨k, waiting, leads⟩ := ih entered
    exact ⟨k, List.mem_cons_of_mem _ waiting, leads⟩

/-- A walk enters all that is pending and all that comes after what it enters, as far as these
nodes are free. -/
theorem order_exhausts (free pending : List Nat) :
    (∀ n ∈ pending, n ∈ free → n ∈ order next free pending) ∧
      ∀ n ∈ order next free pending, ∀ k ∈ next n, k ∈ free → k ∈ order next free pending := by
  fun_induction order next free pending with
  | case1 =>
    exact ⟨fun n waiting => absurd waiting List.not_mem_nil,
      fun n entered => absurd entered List.not_mem_nil⟩
  | case2 free m rest inside ih =>
    obtain ⟨waiting, after⟩ := ih
    have settle : ∀ {k}, k ∈ free → (k ≠ m → k ∈ order next (free.erase m) (next m ++ rest)) →
        k ∈ m :: order next (free.erase m) (next m ++ rest) := by
      intro k allowed later
      by_cases same : k = m
      · exact same ▸ List.mem_cons_self
      · exact List.mem_cons_of_mem _ (later same)
    refine ⟨fun n pending allowed => settle allowed fun other => ?_,
      fun n entered k child allowed => settle allowed fun other => ?_⟩
    · have old := (List.mem_cons.mp pending).resolve_left other
      exact waiting n (List.mem_append_right _ old) ((List.mem_erase_of_ne other).mpr allowed)
    · have free_still := (List.mem_erase_of_ne other).mpr allowed
      rcases List.mem_cons.mp entered with rfl | later
      · exact waiting k (List.mem_append_left _ child) free_still
      · exact after n later k child free_still
  | case3 free m rest outside ih =>
    obtain ⟨waiting, after⟩ := ih
    refine ⟨fun n pending allowed => ?_, after⟩
    rcases List.mem_cons.mp pending with rfl | old
    · exact absurd allowed outside
    · exact waiting n old allowed

theorem mem_order_iff {free : List Nat} (closed : ∀ a ∈ free, ∀ b ∈ next a, b ∈ free)
    {start n : Nat} :
    n ∈ order next free [start] ↔ start ∈ free ∧ Leads next start n := by
  constructor
  · intro entered
    obtain ⟨m, waiting, leads⟩ := leads_of_mem_order entered
    obtain rfl := List.mem_singleton.mp waiting
    refine ⟨?_, leads⟩
    by_cases inside : m ∈ free
    · exact inside
    · rw [order, dif_neg inside, order] at entered
      exact absurd entered List.not_mem_nil
  · rintro ⟨inside, leads⟩
    obtain ⟨waiting, after⟩ := @order_exhausts next free [start]
    induction leads with
    | refl => exact waiting start (List.mem_singleton_self _) inside
    | tail _ child entered =>
      exact after _ entered _ child (closed _ (mem_free_of_mem_order entered) _ child)

/-! ### Steps that are reported -/

section Trail

variable {α : Type} {steps : Nat → List (α × Nat)}

/-- A walk reports what is pending and all steps of the nodes that it enters. -/
theorem trail_perm (free : List Nat) (pending : List (α × Nat)) :
    (trail steps free pending).Perm (pending.map Prod.fst ++
      (order (fun n => (steps n).map Prod.snd) free (pending.map Prod.snd)).flatMap
        fun n => (steps n).map Prod.fst) := by
  fun_induction trail steps free pending with
  | case1 free => simp [order]
  | case2 free step n rest inside ih =>
    rw [List.map_append, List.map_append] at ih
    rw [List.map_cons, List.map_cons, order, dif_pos inside, List.flatMap_cons, List.cons_append]
    refine .cons step (ih.trans ?_)
    rw [List.append_assoc]
    exact List.perm_append_comm_assoc ..
  | case3 free step n rest outside ih =>
    rw [List.map_cons, List.map_cons, order, dif_neg outside, List.cons_append]
    exact .cons step ih

/-- A walk reports each step of each node that it enters, once. -/
theorem trailFrom_perm {nodes : List Nat} {start : Nat} :
    (trailFrom steps nodes start).Perm
      ((order (fun n => (steps n).map Prod.snd) nodes [start]).flatMap
        fun n => (steps n).map Prod.fst) := by
  unfold trailFrom
  split
  · rename_i inside
    rw [order, dif_pos inside, List.flatMap_cons, List.append_nil]
    exact trail_perm _ _
  · rename_i outside
    rw [order, dif_neg outside, order, List.flatMap_nil]

end Trail

end TripleQuery.Traversal
