import TripleQuery.Proofs.Path.Trie

/-!
The paths that a trie spells out. A trie of paths spells out those of them that no other goes on
from, each of them once. Beside one another its branches have different hops, and a trie of which
this is true is the trie of what it spells out.
-/

namespace TripleQuery

/-- One of some paths, none of which goes on from where it ends. -/
def Path.Unextended (paths : List Path) (path : Path) : Prop :=
  path ∈ paths ∧ ∀ other ∈ paths, path <+: other → path = other

namespace Trie

open TripleQuery.Path (rests rests_ne_nil mem_rests Unextended)

variable {t : Trie}

/-! ### What lies below a branch -/

/-- What a trie adds to a path that leads to it. A leaf ends the path. -/
def endings (t : Trie) : List Path := if t.isLeaf then [[]] else t.paths

theorem endings_of_ne_leaf (inner : t ≠ leaf) : t.endings = t.paths := by
  cases t with
  | leaf => exact absurd rfl inner
  | branch hop below beside => rfl

theorem paths_branch (hop : Hop) (below beside : Trie) :
    (branch hop below beside).paths = below.endings.map (hop :: ·) ++ beside.paths := by
  rw [paths, endings]
  split <;> rfl

theorem endings_ne_nil (t : Trie) : t.endings ≠ [] := by
  induction t with
  | leaf => exact List.cons_ne_nil _ _
  | branch hop below beside ih _ =>
    rw [endings_of_ne_leaf Trie.noConfusion, paths_branch]
    simp [ih]

theorem cons_mem_paths {hop : Hop} {rest : Path} :
    hop :: rest ∈ t.paths ↔ ∃ below, (hop, below) ∈ t.branches ∧ rest ∈ below.endings := by
  induction t with
  | leaf => simp [paths, branches]
  | branch first below beside _ ih =>
    rw [paths_branch, List.mem_append, ih, branches]
    simp only [List.mem_map, List.mem_cons, Prod.mk.injEq, List.cons.injEq]
    constructor
    · rintro (⟨_, ending, rfl, rfl⟩ | ⟨sub, later, ending⟩)
      · exact ⟨below, .inl ⟨rfl, rfl⟩, ending⟩
      · exact ⟨sub, .inr later, ending⟩
    · rintro ⟨sub, ⟨rfl, rfl⟩ | later, ending⟩
      · exact .inl ⟨rest, ending, rfl, rfl⟩
      · exact .inr ⟨sub, later, ending⟩

theorem nil_not_mem_paths (t : Trie) : [] ∉ t.paths := by
  induction t with
  | leaf => exact List.not_mem_nil
  | branch hop below beside _ ih => simp [paths_branch, ih]

theorem mem_hops_iff {hop : Hop} :
    hop ∈ t.branches.map Prod.fst ↔ ∃ rest, hop :: rest ∈ t.paths := by
  simp only [cons_mem_paths, List.mem_map]
  constructor
  · rintro ⟨⟨_, below⟩, member, rfl⟩
    obtain ⟨rest, ending⟩ := List.exists_mem_of_ne_nil _ below.endings_ne_nil
    exact ⟨rest, below, member, ending⟩
  · rintro ⟨_, below, member, _⟩
    exact ⟨(hop, below), member, rfl⟩

/-! ### How many paths there are -/

theorem leafCount_eq (t : Trie) : t.leafCount = t.paths.length := by
  induction t with
  | leaf => rfl
  | branch hop below beside ih ih' =>
    have ends : max 1 below.leafCount = below.endings.length := by
      cases below with
      | leaf => rfl
      | branch first inner others =>
        have positive := List.length_pos_iff.mpr (endings_ne_nil (branch first inner others))
        rw [ih, endings_of_ne_leaf Trie.noConfusion] at *
        omega
    rw [leafCount, ends, ih', paths_branch, List.length_append, List.length_map]

/-! ### Distinct branches -/

/-- At every level, different branches have different hops. -/
def Distinct : Trie → Prop
  | leaf => True
  | branch hop below beside =>
    hop ∉ beside.branches.map Prod.fst ∧ below.Distinct ∧ beside.Distinct

theorem Distinct.graft {hop : Hop} {change : Trie → Trie} (distinct : t.Distinct)
    (keeps : ∀ below : Trie, below.Distinct → (change below).Distinct) :
    (graft hop change t).Distinct := by
  induction t with
  | leaf => exact ⟨List.not_mem_nil, keeps leaf trivial, trivial⟩
  | branch first below beside _ ih =>
    obtain ⟨fresh, inner, others⟩ := distinct
    rw [Trie.graft]
    by_cases here : first = hop
    · rw [if_pos here]
      exact ⟨fresh, keeps below inner, others⟩
    · rw [if_neg here]
      refine ⟨?_, inner, ih others⟩
      rw [fst_branches_graft]
      split
      · exact fresh
      · simp [fresh, here]

theorem Distinct.insert (distinct : t.Distinct) (path : Path) : (insert path t).Distinct := by
  induction path generalizing t with
  | nil => exact distinct
  | cons hop rest ih => exact distinct.graft fun _ inner => ih inner

def insertAll (t : Trie) (paths : List Path) : Trie :=
  paths.foldl (fun trie path => trie.insert path) t

theorem Distinct.insertAll (distinct : t.Distinct) (paths : List Path) :
    (t.insertAll paths).Distinct := by
  induction paths generalizing t with
  | nil => exact distinct
  | cons path others ih => exact ih (distinct.insert path)

theorem distinct_ofPaths (paths : List Path) : (ofPaths paths).Distinct :=
  Distinct.insertAll (t := leaf) trivial paths

theorem Distinct.nodup_paths (distinct : t.Distinct) : t.paths.Nodup := by
  induction t with
  | leaf => exact List.nodup_nil
  | branch hop below beside ih ih' =>
    obtain ⟨fresh, inner, others⟩ := distinct
    have ends : below.endings.Nodup := by
      unfold endings
      split
      · exact List.pairwise_singleton _ _
      · exact ih inner
    rw [paths_branch]
    refine List.nodup_append.mpr ⟨?_, ih' others, ?_⟩
    · exact List.pairwise_map.mpr (ends.imp fun other same => other (List.cons.inj same).2)
    · rintro path here _ there rfl
      obtain ⟨rest, _, rfl⟩ := List.mem_map.mp here
      exact fresh (mem_hops_iff.mpr ⟨rest, there⟩)

/-! ### Folding what is spelled out -/

theorem insertAll_append (t : Trie) (paths others : List Path) :
    t.insertAll (paths ++ others) = (t.insertAll paths).insertAll others := List.foldl_append

/-- Paths that begin with the hop of a branch go below it. -/
theorem insertAll_below (hop : Hop) (below beside : Trie) (paths : List Path) :
    (branch hop below beside).insertAll (paths.map (hop :: ·)) =
      branch hop (below.insertAll paths) beside := by
  induction paths generalizing below with
  | nil => rfl
  | cons path others ih =>
    have first : insert (hop :: path) (branch hop below beside) =
        branch hop (insert path below) beside := if_pos rfl
    rw [List.map_cons, insertAll, List.foldl_cons, first]
    exact ih (insert path below)

theorem insertAll_leaf (hop : Hop) {paths : List Path} (some_path : paths ≠ []) :
    leaf.insertAll (paths.map (hop :: ·)) = branch hop (leaf.insertAll paths) leaf := by
  cases paths with
  | nil => exact absurd rfl some_path
  | cons path others => exact insertAll_below hop (insert path leaf) leaf others

/-- Paths that do not begin with the hop of a branch go beside it. -/
theorem insertAll_beside {hop : Hop} {paths : List Path}
    (other : ∀ rest, hop :: rest ∉ paths) (below beside : Trie) :
    (branch hop below beside).insertAll paths = branch hop below (beside.insertAll paths) := by
  induction paths generalizing beside with
  | nil => rfl
  | cons path others ih =>
    have later : ∀ rest, hop :: rest ∉ others := fun rest member =>
      other rest (List.mem_cons_of_mem _ member)
    cases path with
    | nil => exact ih later beside
    | cons first rest =>
      have apart : hop ≠ first := by
        rintro rfl
        exact other rest List.mem_cons_self
      have passed : insert (first :: rest) (branch hop below beside) =
          branch hop below (insert (first :: rest) beside) := if_neg apart
      rw [insertAll, List.foldl_cons, passed]
      exact ih later (insert (first :: rest) beside)

theorem Distinct.ofPaths_paths (distinct : t.Distinct) : ofPaths t.paths = t := by
  induction t with
  | leaf => rfl
  | branch hop below beside ih ih' =>
    obtain ⟨fresh, inner, others⟩ := distinct
    have refolded : leaf.insertAll below.endings = below := by
      unfold endings
      split
      · rename_i ends
        cases below with
        | leaf => rfl
        | branch => cases ends
      · exact ih inner
    have apart : ∀ rest, hop :: rest ∉ beside.paths := fun rest member =>
      fresh (mem_hops_iff.mpr ⟨rest, member⟩)
    show leaf.insertAll _ = _
    rw [paths_branch, insertAll_append, insertAll_leaf hop below.endings_ne_nil, refolded,
      insertAll_beside apart]
    exact congrArg (branch hop below) (ih' others)

/-! ### Paths that no other goes on from -/

theorem ofPaths_eq_leaf_iff {paths : List Path} :
    ofPaths paths = leaf ↔ ∀ path ∈ paths, path = [] := by
  constructor
  · intro ends path member
    cases path with
    | nil => rfl
    | cons hop rest =>
      have begun : rests hop paths ≠ [] := rests_ne_nil.mpr ⟨rest, member⟩
      exact absurd ends (ofPaths_ne_leaf.mpr ⟨hop, begun⟩)
  · intro empty
    refine Decidable.byContradiction fun inner => ?_
    obtain ⟨hop, begun⟩ := ofPaths_ne_leaf.mp inner
    obtain ⟨rest, member⟩ := rests_ne_nil.mp begun
    cases empty _ member

theorem cons_mem_paths_ofPaths {paths : List Path} {hop : Hop} {rest : Path} :
    hop :: rest ∈ (ofPaths paths).paths ↔
      rests hop paths ≠ [] ∧ rest ∈ (ofPaths (rests hop paths)).endings := by
  simp only [cons_mem_paths, mem_branches_ofPaths, and_assoc, exists_and_left, exists_eq_left]

theorem unextended_cons_iff {paths : List Path} {hop : Hop} {rest : Path} :
    Unextended paths (hop :: rest) ↔ Unextended (rests hop paths) rest := by
  rw [Unextended, Unextended, mem_rests]
  refine and_congr_right fun _ => ⟨fun last other member goesOn => ?_, fun last other member => ?_⟩
  · have longer := last (hop :: other) (mem_rests.mp member)
    exact (List.cons.inj (longer (List.cons_prefix_cons.mpr ⟨rfl, goesOn⟩))).2
  · intro goesOn
    obtain ⟨more, rfl⟩ := goesOn
    exact congrArg (hop :: ·) (last _ (mem_rests.mpr member) (List.prefix_append rest more))

/-- A trie of paths spells out those of them that no other extends, but for the empty path. -/
theorem mem_paths_ofPaths {paths : List Path} {path : Path} :
    path ∈ (ofPaths paths).paths ↔ path ≠ [] ∧ Unextended paths path := by
  induction path generalizing paths with
  | nil => exact iff_of_false (nil_not_mem_paths _) fun found => found.1 rfl
  | cons hop rest ih =>
    rw [cons_mem_paths_ofPaths, unextended_cons_iff]
    refine Iff.trans ?_ (and_iff_right (List.cons_ne_nil _ _)).symm
    by_cases ends : ofPaths (rests hop paths) = leaf
    · -- Nothing is left of the paths with this hop.
      have empty := ofPaths_eq_leaf_iff.mp ends
      rw [ends]
      constructor
      · rintro ⟨begun, only⟩
        obtain rfl := List.mem_singleton.mp only
        obtain ⟨other, member⟩ := List.exists_mem_of_ne_nil _ begun
        exact ⟨empty other member ▸ member, fun other member _ => (empty other member).symm⟩
      · rintro ⟨member, _⟩
        exact ⟨List.ne_nil_of_mem member, List.mem_singleton.mpr (empty rest member)⟩
    · rw [endings_of_ne_leaf ends, ih]
      constructor
      · rintro ⟨_, _, unextended⟩
        exact unextended
      · intro unextended
        refine ⟨List.ne_nil_of_mem unextended.1, ?_, unextended⟩
        rintro rfl
        exact ends (ofPaths_eq_leaf_iff.mpr fun other member =>
          (unextended.2 other member List.nil_prefix).symm)

/-- Whatever paths are folded, what the trie spells out are those that have a hop and that no other
extends, each once and as many as the trie has leaves, and these make the same trie again. -/
theorem paths_ofPaths (paths : List Path) :
    let trie := ofPaths paths
    trie.paths.Nodup ∧ (∀ path, path ∈ trie.paths ↔ path ≠ [] ∧ Unextended paths path) ∧
      trie.leafCount = trie.paths.length ∧ ofPaths trie.paths = trie := by
  have distinct := distinct_ofPaths paths
  exact ⟨distinct.nodup_paths, fun _ => mem_paths_ofPaths, leafCount_eq _, distinct.ofPaths_paths⟩

end Trie

end TripleQuery
