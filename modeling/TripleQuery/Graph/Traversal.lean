/-!
Depth-first walks over numbered nodes, each of which is entered once. A walk holds the nodes that
it may still enter, which is why cycles end.
-/

namespace TripleQuery.Traversal

theorem length_erase_lt {l : List Nat} {n : Nat} (h : n ∈ l) : (l.erase n).length < l.length := by
  rw [List.length_erase_of_mem h]
  exact Nat.sub_lt (List.length_pos_of_mem h) Nat.one_pos

/-- The nodes of a walk in the order in which they are entered. `next` gives what is entered after
a node, the first first. -/
def order (next : Nat → List Nat) (free : List Nat) : List Nat → List Nat
  | [] => []
  | n :: rest =>
    if _inside : n ∈ free then n :: order next (free.erase n) (next n ++ rest)
    else order next free rest
termination_by pending => (free.length, pending.length)
decreasing_by
  · exact Prod.Lex.left _ _ (length_erase_lt _inside)
  · exact Prod.Lex.right _ (Nat.lt_succ_self _)

/-- The steps of a walk in the order in which they are taken. A step is reported even if it leads
to a node that was entered before. -/
def trail {α : Type} (steps : Nat → List (α × Nat)) (free : List Nat) : List (α × Nat) → List α
  | [] => []
  | (step, n) :: rest =>
    if _inside : n ∈ free then step :: trail steps (free.erase n) (steps n ++ rest)
    else step :: trail steps free rest
termination_by pending => (free.length, pending.length)
decreasing_by
  · exact Prod.Lex.left _ _ (length_erase_lt _inside)
  · exact Prod.Lex.right _ (Nat.lt_succ_self _)

def trailFrom {α : Type} (steps : Nat → List (α × Nat)) (nodes : List Nat) (start : Nat) :
    List α :=
  if start ∈ nodes then trail steps (nodes.erase start) (steps start) else []

end TripleQuery.Traversal
