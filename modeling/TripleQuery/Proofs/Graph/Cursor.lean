import TripleQuery.Proofs.Graph.Traversal

/-!
Depth-first walks that are drawn one step at a time. Such a walk remembers which nodes it entered,
and what is left of the steps of each node on its way. Drawn until it has nothing more, it has
reported its trail, and it does come to its end. Walks that go along with it, step by step, report
the same, whatever else they remember.
-/

namespace TripleQuery.Traversal

/-! ### Drawing to the end -/

/-- All that is reported by something that is drawn from until it has nothing more. -/
inductive Reports {σ α : Type} (next? : σ → Option (α × σ)) : σ → List α → Prop
  | done {s} : next? s = none → Reports next? s []
  | step {s later reported reports} : next? s = some (reported, later) →
      Reports next? later reports → Reports next? s (reported :: reports)

section Reports

variable {σ τ α : Type} {next? : σ → Option (α × σ)} {other? : τ → Option (α × τ)}

theorem Reports.unique {s : σ} {first second : List α} (one : Reports next? s first)
    (other : Reports next? s second) : first = second := by
  induction one generalizing second with
  | done ended =>
    cases other with
    | done _ => rfl
    | step next _ => cases ended.symm.trans next
  | step next _ ih =>
    cases other with
    | done ended => cases ended.symm.trans next
    | step again further =>
      cases next.symm.trans again
      rw [ih further]

/-- What goes along with another, step by step, reports the same. -/
theorem Reports.of_alike {s : σ} {reports : List α} (drawn : Reports next? s reports)
    {Alike : σ → τ → Prop} {t : τ} (alike : Alike s t)
    (ends : ∀ s t, Alike s t → next? s = none → other? t = none)
    (goes_on : ∀ s t, Alike s t → ∀ reported later, next? s = some (reported, later) →
      ∃ further, other? t = some (reported, further) ∧ Alike later further) :
    Reports other? t reports := by
  induction drawn generalizing t with
  | done ended => exact .done (ends _ _ alike ended)
  | step next _ ih =>
    obtain ⟨further, also, alike⟩ := goes_on _ _ alike _ _ next
    exact .step also (ih alike)

end Reports

/-- The topmost item of a stack of frames, with what is below it. Frames that are used up go. -/
def pop {β : Type} : List (List β) → Option (β × List (List β))
  | [] => none
  | [] :: frames => pop frames
  | (item :: frame) :: frames => some (item, frame :: frames)

section Frames

variable {β : Type} {frames : List (List β)}

theorem pop_of_flatten_nil (nothing : frames.flatten = []) : pop frames = none := by
  induction frames with
  | nil => rfl
  | cons frame frames ih =>
    obtain ⟨rfl, further⟩ := List.append_eq_nil_iff.mp nothing
    exact ih further

theorem pop_of_flatten_cons {item : β} {rest : List β} (left : frames.flatten = item :: rest) :
    ∃ later, later.flatten = rest ∧ pop frames = some (item, later) := by
  induction frames with
  | nil => cases left
  | cons frame frames ih =>
    cases frame with
    | nil => exact ih left
    | cons _ frame =>
      cases left
      exact ⟨frame :: frames, rfl, rfl⟩

end Frames

/-! ### Walks -/

variable {α : Type} {steps : Nat → List (α × Nat)}

/-- A walk between two steps. The node that was entered last is on top of the frames. -/
structure Cursor (α : Type) where
  seen : List Nat
  frames : List (List (α × Nat))

namespace Cursor

/-- Enters a node, unless it was entered before. Where nothing goes on, an empty frame is put. -/
def enter (steps : Nat → List (α × Nat)) (cursor : Cursor α) (n : Nat) : Cursor α :=
  if n ∈ cursor.seen then cursor else ⟨n :: cursor.seen, steps n :: cursor.frames⟩

def start (steps : Nat → List (α × Nat)) (n : Nat) : Cursor α := enter steps ⟨[], []⟩ n

/-- The topmost step that is left. By the time it is reported, the node it leads to is entered. -/
def draw (steps : Nat → List (α × Nat)) (seen : List Nat) :
    List (List (α × Nat)) → Option (α × Cursor α)
  | [] => none
  | [] :: frames => draw steps seen frames
  | ((step, n) :: frame) :: frames => some (step, enter steps ⟨seen, frame :: frames⟩ n)

def next? (steps : Nat → List (α × Nat)) (cursor : Cursor α) : Option (α × Cursor α) :=
  draw steps cursor.seen cursor.frames

/-- All that a walk reports until it has nothing more. -/
inductive Draws (steps : Nat → List (α × Nat)) : Cursor α → List α → Prop
  | done {cursor} : cursor.next? steps = none → Draws steps cursor []
  | step {cursor later reported reports} : cursor.next? steps = some (reported, later) →
      Draws steps later reports → Draws steps cursor (reported :: reports)

theorem draws_iff_reports {cursor : Cursor α} {reports : List α} :
    Draws steps cursor reports ↔ Reports (next? steps) cursor reports := by
  constructor
  · intro drawn
    induction drawn with
    | done ended => exact .done ended
    | step next _ ih => exact .step next ih
  · intro drawn
    induction drawn with
    | done ended => exact .done ended
    | step next _ ih => exact .step next ih

theorem Draws.unique {cursor : Cursor α} {first second : List α}
    (one : Draws steps cursor first) (other : Draws steps cursor second) : first = second :=
  (draws_iff_reports.mp one).unique (draws_iff_reports.mp other)

/-! ### What is left of a walk -/

theorem draw_eq (seen : List Nat) (frames : List (List (α × Nat))) : draw steps seen frames =
    (pop frames).map fun (step, later) => (step.1, enter steps ⟨seen, later⟩ step.2) := by
  fun_induction draw steps seen frames with
  | case1 => rfl
  | case2 frames ih => exact ih
  | case3 step n frame frames => rfl

theorem draw_of_flatten_nil {seen : List Nat} {frames : List (List (α × Nat))}
    (nothing : frames.flatten = []) : draw steps seen frames = none := by
  rw [draw_eq, pop_of_flatten_nil nothing]
  rfl

theorem draw_of_flatten_cons (steps : Nat → List (α × Nat)) {seen : List Nat}
    {frames : List (List (α × Nat))} {step : α} {n : Nat} {rest : List (α × Nat)}
    (left : frames.flatten = (step, n) :: rest) :
    ∃ later, later.flatten = rest ∧
      draw steps seen frames = some (step, enter steps ⟨seen, later⟩ n) := by
  obtain ⟨later, further, popped⟩ := pop_of_flatten_cons left
  exact ⟨later, further, by rw [draw_eq, popped]; rfl⟩

/-- The walk may still enter the free nodes and has the pending steps left. -/
structure Leaves (cursor : Cursor α) (nodes free : List Nat) (pending : List (α × Nat)) :
    Prop where
  free : ∀ n ∈ nodes, n ∈ free ↔ n ∉ cursor.seen
  pending : cursor.frames.flatten = pending

section Steps

variable {cursor : Cursor α} {nodes free : List Nat} {step : α} {n : Nat} {rest : List (α × Nat)}
  (leaves : cursor.Leaves nodes free ((step, n) :: rest)) (known : n ∈ nodes)

include leaves known

theorem Leaves.next_of_mem (distinct : free.Nodup) (inside : n ∈ free) :
    ∃ later, cursor.next? steps = some (step, later) ∧
      later.Leaves nodes (free.erase n) (steps n ++ rest) := by
  obtain ⟨later, further, drawn⟩ := draw_of_flatten_cons steps leaves.pending
  rw [enter, if_neg ((leaves.free n known).mp inside)] at drawn
  refine ⟨_, drawn, fun m member => ?_, by rw [List.flatten_cons, further]⟩
  rw [distinct.mem_erase_iff, leaves.free m member, List.mem_cons, not_or]

theorem Leaves.next_of_not_mem (outside : n ∉ free) :
    ∃ later, cursor.next? steps = some (step, later) ∧ later.Leaves nodes free rest := by
  obtain ⟨later, further, drawn⟩ := draw_of_flatten_cons steps leaves.pending
  rw [enter, if_pos (Decidable.of_not_not fun new => outside ((leaves.free n known).mpr new))]
    at drawn
  exact ⟨_, drawn, leaves.free, further⟩

end Steps

section Runs

variable {nodes : List Nat} (closed : ∀ a ∈ nodes, ∀ b ∈ (steps a).map Prod.snd, b ∈ nodes)

include closed

theorem Leaves.draws {cursor : Cursor α} {free : List Nat} {pending : List (α × Nat)}
    (leaves : cursor.Leaves nodes free pending) (distinct : free.Nodup)
    (known : ∀ n ∈ pending.map Prod.snd, n ∈ nodes) :
    Draws steps cursor (trail steps free pending) := by
  -- Each call of `trail` is one step of the cursor, which `Leaves` carries over to the next.
  fun_induction trail steps free pending generalizing cursor with
  | case1 free => exact .done (draw_of_flatten_nil leaves.pending)
  | case2 free step n rest inside ih =>
    obtain ⟨here, later⟩ := List.forall_mem_cons.mp known
    obtain ⟨after, next, left⟩ := leaves.next_of_mem here distinct inside
    refine .step next (ih left (distinct.erase n) ?_)
    rw [List.map_append, List.forall_mem_append]
    exact ⟨closed n here, later⟩
  | case3 free step n rest outside ih =>
    obtain ⟨here, later⟩ := List.forall_mem_cons.mp known
    obtain ⟨after, next, left⟩ := leaves.next_of_not_mem here outside
    exact .step next (ih left distinct later)

/-- A walk that is drawn to its end has reported its trail, and it can be. -/
theorem draws_start_iff (distinct : nodes.Nodup) {n : Nat} (known : n ∈ nodes)
    {reports : List α} : Draws steps (start steps n) reports ↔
      reports = trailFrom steps nodes n := by
  have leaves : (start steps n).Leaves nodes (nodes.erase n) (steps n) := by
    rw [start, enter, if_neg List.not_mem_nil]
    refine ⟨fun m member => ?_, List.append_nil _⟩
    rw [distinct.mem_erase_iff, List.mem_singleton]
    exact and_iff_left member
  have drawn := leaves.draws closed (distinct.erase n) (closed n known)
  rw [trailFrom, if_pos known]
  exact ⟨fun other => other.unique drawn, fun same => same ▸ drawn⟩

end Runs

end Cursor

end TripleQuery.Traversal
