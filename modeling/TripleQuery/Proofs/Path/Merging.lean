import TripleQuery.Proofs.Path.Spelling
import TripleQuery.Proofs.Path.Walks

/-!
The trie of the paths of a graph. It spells out these paths in their order, but for those that came
before. Paths are enumerated leg by leg, and legs that make the same hop lead to the same node, or
else to anchors: so whatever begins with a hop is there as a whole, or once more as a whole.
-/

namespace TripleQuery

/-! ### Lists without what came before -/

section FirstSeen

variable {α β : Type}

/-- Induction on a list with what is kept of its tail after its head. -/
theorem filter_induction {motive : List α → Prop} (kept : α → α → Bool) (nil : motive [])
    (cons : ∀ a l, motive (l.filter (kept a)) → motive (a :: l)) : ∀ l, motive l
  | [] => nil
  | a :: l => cons a l (filter_induction kept nil cons (l.filter (kept a)))
termination_by l => l.length
decreasing_by exact Nat.lt_succ_of_le (List.length_filter_le _ _)

variable [BEq α] [LawfulBEq α] [BEq β] [LawfulBEq β]

theorem eraseDups_map {f : α → β} (injective : ∀ a b, f a = f b → a = b) (l : List α) :
    (l.map f).eraseDups = l.eraseDups.map f := by
  induction l using filter_induction (fun a b : α => !b == a) with
  | nil => simp
  | cons a l ih =>
    have same : ((fun b => !b == f a) ∘ f) = fun b => !b == a := by
      funext b
      have iff : (f b == f a) = (b == a) := by
        rw [Bool.eq_iff_iff, beq_iff_eq, beq_iff_eq]
        exact ⟨injective b a, congrArg f⟩
      rw [Function.comp_apply, iff]
    rw [List.map_cons, List.eraseDups_cons, List.filter_map, same, ih, List.eraseDups_cons,
      List.map_cons]

end FirstSeen

namespace Trie

variable {t : Trie}

/-! ### Paths that a trie has already -/

/-- A path leads down a trie, to a leaf or not. -/
def Holds : Path → Trie → Prop
  | [], _ => True
  | hop :: rest, t => ∃ below, t.below? hop = some below ∧ Holds rest below

theorem graft_eq_self {hop : Hop} {change : Trie → Trie} {below : Trie}
    (found : t.below? hop = some below) (same : change below = below) : graft hop change t = t := by
  induction t with
  | leaf => cases found
  | branch first inner beside _ ih =>
    rw [below?] at found
    rw [graft]
    split at found
    · rename_i here
      cases found
      rw [if_pos here, same]
    · rename_i elsewhere
      rw [if_neg elsewhere, ih found]

theorem insert_of_holds {path : Path} (holds : Holds path t) : insert path t = t := by
  induction path generalizing t with
  | nil => rfl
  | cons hop rest ih =>
    obtain ⟨below, found, further⟩ := holds
    exact graft_eq_self found (ih further)

theorem holds_insert_self (path : Path) (t : Trie) : Holds path (insert path t) := by
  induction path generalizing t with
  | nil => trivial
  | cons hop rest ih =>
    refine ⟨insert rest ((t.below? hop).getD leaf), ?_, ih _⟩
    rw [insert, below?_graft, if_pos rfl]

theorem Holds.insert {path : Path} (holds : Holds path t) (other : Path) :
    Holds path (insert other t) := by
  induction path generalizing t other with
  | nil => trivial
  | cons hop rest ih =>
    obtain ⟨below, found, further⟩ := holds
    cases other with
    | nil => exact ⟨below, found, further⟩
    | cons first more =>
      rw [Holds, Trie.insert, below?_graft, found]
      split
      · exact ⟨_, rfl, ih further more⟩
      · exact ⟨below, rfl, further⟩

theorem insertAll_filter {path : Path} (holds : Holds path t) (paths : List Path) :
    t.insertAll (paths.filter fun other => !other == path) = t.insertAll paths := by
  induction paths generalizing t with
  | nil => rfl
  | cons other others ih =>
    by_cases same : other = path
    · rw [List.filter_cons_of_neg (by simp [same]), ih holds, same]
      show _ = (insert path t).insertAll others
      rw [insert_of_holds holds]
    · rw [List.filter_cons_of_pos (by simp [same])]
      exact ih (holds.insert other)

/-- Paths that come again change nothing. -/
theorem insertAll_eraseDups (t : Trie) (paths : List Path) :
    t.insertAll paths.eraseDups = t.insertAll paths := by
  induction paths using filter_induction (fun a b : Path => !b == a) generalizing t with
  | nil => rfl
  | cons path others ih =>
    rw [List.eraseDups_cons]
    show (insert path t).insertAll _ = (insert path t).insertAll others
    rw [ih, insertAll_filter (holds_insert_self path t)]

/-! ### Paths in the order of a trie -/

/-- Without those that came before, the paths are what a trie spells out. -/
def Spells (t : Trie) (paths : List Path) : Prop := t.Distinct ∧ t.paths = paths.eraseDups

theorem Spells.spelled {paths : List Path} (spells : t.Spells paths) :
    (ofPaths paths).paths = paths.eraseDups := by
  have refolded : ofPaths paths = t := by
    rw [← spells.1.ofPaths_paths, spells.2]
    exact (insertAll_eraseDups leaf paths).symm
  rw [refolded, spells.2]

/-- What a trie spells out may also stand below a branch, unless there is nothing. -/
theorem Spells.block {paths : List Path} (spells : t.Spells paths) :
    paths = [] ∨ ∃ below : Trie, below.Distinct ∧ below.endings = paths.eraseDups := by
  cases paths with
  | nil => exact .inl rfl
  | cons path others =>
    refine .inr ⟨t, spells.1, (endings_of_ne_leaf ?_).trans spells.2⟩
    rintro rfl
    have nothing := spells.2
    rw [List.eraseDups_cons] at nothing
    cases nothing

section Blocks

variable {α : Type} {key : α → Hop} {block : α → List Path}

/-- Paths that begin with the hop of `a` are all among those of `a`, where the hop tells which paths
go on from it. -/
theorem flatMap_removeAll {steps : List α} {a : α}
    (agree : ∀ b ∈ steps, key b = key a → block b = block a) :
    (steps.flatMap fun b => (block b).map (key b :: ·)).removeAll ((block a).map (key a :: ·)) =
      (steps.filter fun b => decide (key b ≠ key a)).flatMap fun b =>
        (block b).map (key b :: ·) := by
  induction steps with
  | nil => rfl
  | cons b rest ih =>
    obtain ⟨here, later⟩ := List.forall_mem_cons.mp agree
    rw [List.removeAll] at ih ⊢
    rw [List.flatMap_cons, List.filter_append, ih later]
    by_cases same : key b = key a
    · have none : ((block b).map (key b :: ·)).filter
          (fun path => !((block a).map (key a :: ·)).elem path) = [] := by
        rw [here same, same, List.filter_eq_nil_iff]
        simp
      rw [none, List.filter_cons_of_neg (by simp [same]), List.nil_append]
    · have all : ((block b).map (key b :: ·)).filter
          (fun path => !((block a).map (key a :: ·)).elem path) = (block b).map (key b :: ·) := by
        rw [List.filter_eq_self]
        simp [Ne.symm same]
      rw [all, List.filter_cons_of_pos (by simp [same]), List.flatMap_cons]

/-- Blocks of paths that each begin with the hop of their block are in the order of a trie if each
of the blocks is, and equal hops have equal blocks. -/
theorem exists_spells_flatMap (steps : List α)
    (agree : ∀ a ∈ steps, ∀ b ∈ steps, key b = key a → block b = block a)
    (blocks : ∀ a ∈ steps, block a = [] ∨
      ∃ below : Trie, below.Distinct ∧ below.endings = (block a).eraseDups) :
    ∃ t : Trie, t.Spells (steps.flatMap fun a => (block a).map (key a :: ·)) := by
  induction steps using filter_induction (fun a b => decide (key b ≠ key a)) with
  | nil => exact ⟨leaf, trivial, by simp [paths]⟩
  | cons a rest ih =>
    have kept : ∀ b ∈ rest.filter fun b => decide (key b ≠ key a), b ∈ a :: rest :=
      fun b member => List.mem_cons_of_mem _ (List.mem_filter.mp member).1
    -- What has other hops stands beside the branch of `a`, in the same order.
    obtain ⟨beside, others, rows⟩ := ih
      (fun b first c second => agree b (kept b first) c (kept c second))
      (fun b member => blocks b (kept b member))
    have split : (((a :: rest).flatMap fun b => (block b).map (key b :: ·))).eraseDups =
        (block a).eraseDups.map (key a :: ·) ++ beside.paths := by
      rw [List.flatMap_cons, List.eraseDups_append, rows, flatMap_removeAll fun b member =>
        agree a List.mem_cons_self b (List.mem_cons_of_mem _ member)]
      rw [eraseDups_map fun _ _ same => (List.cons.inj same).2]
    rcases blocks a List.mem_cons_self with none | ⟨below, inner, ends⟩
    · refine ⟨beside, others, ?_⟩
      rw [split, none]
      simp
    · refine ⟨branch (key a) below beside, ⟨?_, inner, others⟩, ?_⟩
      · intro again
        obtain ⟨path, member⟩ := mem_hops_iff.mp again
        rw [rows, List.mem_eraseDups, List.mem_flatMap] at member
        obtain ⟨b, kept, made⟩ := member
        obtain ⟨_, _, same⟩ := List.mem_map.mp made
        exact of_decide_eq_true (List.mem_filter.mp kept).2 (List.cons.inj same).1
      · rw [split, paths_branch, ends]

end Blocks

end Trie

namespace Graph

variable {g : Graph}

/-! ### Legs that make the same hop -/

/-- What goes on from a hop depends on the hop alone. -/
theorem pathsThrough_of_hopAlong_eq (linked : g.Linked) {free : List NodeId} {n : NodeId}
    {a b : Leg} (allowed : g.Allows n a) (same : g.hopAlong n b = g.hopAlong n a) :
    g.pathsThrough free b.next = g.pathsThrough free a.next := by
  have tokens : g.token b.next = g.token a.next := congrArg Hop.other same
  rcases allowed.anchor_or_unknown with anchor | ⟨k, unknown⟩
  · have also : g.isAnchor b.next = true := by
      rw [isAnchor, tokens]
      exact anchor
    rw [pathsThrough_anchor anchor, pathsThrough_anchor also]
  · -- Different nodes may stand for one term, but never for one unknown.
    rw [linked.unknown_inj b.next a.next k (tokens.trans unknown) unknown]

theorem exists_spells_pathsThrough (linked : g.Linked) (free : List NodeId) (n : NodeId)
    (unsolved : g.isAnchor n = false) : ∃ t : Trie, t.Spells (g.pathsThrough free n) := by
  induction free, n using walksThrough.induct g with
  | case1 free n anchor => cases unsolved.symm.trans anchor
  | case2 free n unanchored inside ih =>
    rw [pathsThrough_eq_flatMap_legs unanchored inside]
    refine Trie.exists_spells_flatMap _ (fun a first b _ same => ?_) (fun leg _ => ?_)
    · exact pathsThrough_of_hopAlong_eq linked ((mem_legs linked).mp first) same
    · cases anchor : g.isAnchor leg.next with
      | true =>
        rw [pathsThrough_anchor anchor]
        exact .inr ⟨.leaf, trivial, rfl⟩
      | false =>
        obtain ⟨t, spells⟩ := ih leg anchor
        exact spells.block
  | case3 free n unanchored outside =>
    refine ⟨.leaf, trivial, ?_⟩
    rw [pathsThrough, if_neg unanchored, dif_neg outside]
    rfl

theorem exists_spells_paths (linked : g.Linked) (start : NodeId) :
    ∃ t : Trie, t.Spells (g.paths start) := by
  cases anchor : g.isAnchor start with
  | true =>
    rw [paths, if_pos anchor]
    exact ⟨.leaf, trivial, rfl⟩
  | false =>
    rw [paths, anchor, if_neg Bool.false_ne_true]
    exact exists_spells_pathsThrough linked _ _ anchor

/-- Whatever operations made a graph, the trie of its paths from a node spells out these paths in
their order, but for those that came before, and has a leaf for each. -/
theorem merged_after {operations : List Operation} (made : Graph.empty.KnowsAll operations)
    (start : NodeId) :
    let paths := (Graph.empty.after operations).paths start
    (Trie.ofPaths paths).paths = paths.eraseDups ∧
      (Trie.ofPaths paths).leafCount = paths.eraseDups.length := by
  intro paths
  obtain ⟨t, spells⟩ := exists_spells_paths (tidy_after made).toLinked start
  have spelled := spells.spelled
  exact ⟨spelled, by rw [Trie.leafCount_eq, spelled]⟩

end Graph

namespace Sample

/-- What the first stranger told twice makes two paths that come again. -/
theorem merged_rumour : Graph.empty.KnowsAll rumour ∧
    (Trie.ofPaths ((Graph.empty.after rumour).paths 0)).paths =
      ((Graph.empty.after rumour).paths 0).eraseDups ∧
    ((Graph.empty.after rumour).paths 0).length = 7 ∧
    (Trie.ofPaths ((Graph.empty.after rumour).paths 0)).leafCount = 5 := by
  obtain ⟨spelled, leaves⟩ := Graph.merged_after made_rumour 0
  exact ⟨made_rumour, spelled, by decide +kernel, leaves.trans (by decide +kernel)⟩

end Sample

end TripleQuery
