import TripleQuery.Path.Trie

/-!
A trie of paths by its branches. The branches of `Trie.ofPaths` are the hops with which paths
begin, and below each lies the trie of what is left of those paths, so that a fact about tries of
paths is proved by following the paths.
-/

namespace TripleQuery

/-! ### What is left of paths after a hop -/

/-- The paths that begin with a hop, without it. -/
def Path.rests (hop : Hop) (paths : List Path) : List Path :=
  paths.filterMap fun
    | [] => none
    | first :: rest => if first = hop then some rest else none

namespace Path

theorem mem_rests {hop : Hop} {paths : List Path} {rest : Path} :
    rest ∈ rests hop paths ↔ hop :: rest ∈ paths := by
  rw [rests, List.mem_filterMap]
  constructor
  · intro found
    obtain ⟨path, member, kept⟩ := found
    cases path with
    | nil => cases kept
    | cons first tail =>
      obtain ⟨same, kept⟩ := Option.ite_none_right_eq_some.mp kept
      rw [← same, ← Option.some.inj kept]
      exact member
  · intro member
    exact ⟨hop :: rest, member, if_pos rfl⟩

theorem rests_ne_nil {hop : Hop} {paths : List Path} :
    rests hop paths ≠ [] ↔ ∃ rest, hop :: rest ∈ paths := by
  constructor
  · intro some_rest
    obtain ⟨rest, member⟩ := List.exists_mem_of_ne_nil _ some_rest
    exact ⟨rest, mem_rests.mp member⟩
  · intro found
    obtain ⟨rest, member⟩ := found
    exact List.ne_nil_of_mem (mem_rests.mpr member)

theorem rests_cons_self (hop : Hop) (rest : Path) (paths : List Path) :
    rests hop ((hop :: rest) :: paths) = rest :: rests hop paths :=
  List.filterMap_cons_some (if_pos rfl)

theorem rests_cons_of_ne {hop first : Hop} (other : first ≠ hop) (rest : Path)
    (paths : List Path) : rests hop ((first :: rest) :: paths) = rests hop paths :=
  List.filterMap_cons_none (if_neg other)

theorem rests_cons_nil (hop : Hop) (paths : List Path) : rests hop ([] :: paths) = rests hop paths :=
  List.filterMap_cons_none rfl

def hopCount : List Path → Nat
  | [] => 0
  | path :: others => path.length + hopCount others

theorem hopCount_rests_le (hop : Hop) (paths : List Path) :
    hopCount (rests hop paths) + (rests hop paths).length ≤ hopCount paths := by
  induction paths with
  | nil => exact Nat.le_refl _
  | cons path others ih =>
    cases path with
    | nil =>
      rw [rests_cons_nil, hopCount]
      omega
    | cons first rest =>
      by_cases same : first = hop
      · subst same
        rw [rests_cons_self, hopCount, hopCount]
        simp only [List.length_cons]
        omega
      · rw [rests_cons_of_ne same, hopCount]
        omega

/-- Induction along paths: what holds of the rests after every first hop is carried back to the
paths themselves. -/
theorem rests_induction {motive : List Path → Prop}
    (step : ∀ paths, (∀ hop, rests hop paths ≠ [] → motive (rests hop paths)) → motive paths)
    (paths : List Path) : motive paths := by
  induction size : hopCount paths using Nat.strongRecOn generalizing paths with
  | _ n ih =>
    apply step
    intro hop some_rest
    have fewer := hopCount_rests_le hop paths
    have positive : 0 < (rests hop paths).length := List.length_pos_iff.mpr some_rest
    exact ih (hopCount (rests hop paths)) (by omega) _ rfl

end Path

namespace Trie

open TripleQuery.Path (rests)

/-! ### Branches by hop -/

def below? (probe : Hop) : Trie → Option Trie
  | leaf => none
  | branch hop below beside => if hop = probe then some below else below? probe beside

theorem mem_branches_of_below? {t sub : Trie} {hop : Hop} (found : t.below? hop = some sub) :
    (hop, sub) ∈ t.branches := by
  induction t with
  | leaf => cases found
  | branch first below beside _ ih =>
    unfold below? at found
    split at found
    · rename_i same
      cases found
      rw [same]
      exact List.mem_cons_self
    · exact List.mem_cons_of_mem _ (ih found)

theorem below?_of_mem_branches {t sub : Trie} {hop : Hop}
    (distinct : (t.branches.map Prod.fst).Nodup) (member : (hop, sub) ∈ t.branches) :
    t.below? hop = some sub := by
  induction t with
  | leaf => cases member
  | branch first below beside _ ih =>
    obtain ⟨fresh, rest⟩ := List.nodup_cons.mp distinct
    rw [below?]
    rcases List.mem_cons.mp member with here | later
    · cases here
      rw [if_pos rfl]
    · have other : first ≠ hop := by
        rintro rfl
        exact fresh (List.mem_map.mpr ⟨_, later, rfl⟩)
      rw [if_neg other, ih rest later]

theorem eq_leaf_iff {t : Trie} : t = leaf ↔ ∀ hop, t.below? hop = none := by
  constructor
  · rintro rfl hop
    rfl
  · intro nothing
    cases t with
    | leaf => rfl
    | branch hop below beside =>
      have here := nothing hop
      rw [below?, if_pos rfl] at here
      cases here

theorem below?_graft (hop probe : Hop) (change : Trie → Trie) (t : Trie) :
    (graft hop change t).below? probe =
      if hop = probe then some (change ((t.below? probe).getD leaf)) else t.below? probe := by
  induction t with
  | leaf => rfl
  | branch first below beside _ ih =>
    rw [graft]
    by_cases here : first = hop
    · rw [if_pos here, below?, below?, here]
      by_cases same : hop = probe
      · simp [same]
      · simp [same]
    · rw [if_neg here, below?, below?, ih]
      by_cases same : first = probe
      · have other : hop ≠ probe := fun both => here (same.trans both.symm)
        simp [same, other]
      · simp [same]

/-! ### Tries of paths -/

theorem below?_foldl_insert (paths : List Path) (probe : Hop) (t : Trie) :
    (paths.foldl (fun trie path => trie.insert path) t).below? probe =
      if rests probe paths = [] then t.below? probe
      else some ((rests probe paths).foldl (fun trie path => trie.insert path)
        ((t.below? probe).getD leaf)) := by
  induction paths generalizing t with
  | nil => rfl
  | cons path others ih =>
    rw [List.foldl_cons, ih]
    cases path with
    | nil =>
      rw [Path.rests_cons_nil]
      rfl
    | cons hop rest =>
      rw [insert, below?_graft]
      by_cases same : hop = probe
      · subst same
        rw [Path.rests_cons_self, if_pos rfl, if_neg (List.cons_ne_nil _ _), List.foldl_cons]
        split
        · rename_i last
          rw [last]
          rfl
        · rfl
      · rw [Path.rests_cons_of_ne same, if_neg same]

theorem below?_ofPaths (paths : List Path) (hop : Hop) :
    (ofPaths paths).below? hop =
      if rests hop paths = [] then none else some (ofPaths (rests hop paths)) :=
  below?_foldl_insert paths hop leaf

theorem fst_branches_graft (hop : Hop) (change : Trie → Trie) (t : Trie) :
    (graft hop change t).branches.map Prod.fst =
      if hop ∈ t.branches.map Prod.fst then t.branches.map Prod.fst
      else t.branches.map Prod.fst ++ [hop] := by
  induction t with
  | leaf => rfl
  | branch first below beside _ ih =>
    rw [graft]
    by_cases here : first = hop
    · simp [here, branches]
    · rw [if_neg here, branches, branches, List.map_cons, List.map_cons, ih]
      by_cases later : hop ∈ beside.branches.map Prod.fst <;> simp [later, Ne.symm here]

theorem nodup_foldl_insert {t : Trie} (distinct : (t.branches.map Prod.fst).Nodup)
    (paths : List Path) :
    ((paths.foldl (fun trie path => trie.insert path) t).branches.map Prod.fst).Nodup := by
  induction paths generalizing t with
  | nil => exact distinct
  | cons path others ih =>
    apply ih
    cases path with
    | nil => exact distinct
    | cons hop rest =>
      show ((graft hop (insert rest) t).branches.map Prod.fst).Nodup
      rw [fst_branches_graft]
      split
      · exact distinct
      · rename_i fresh
        refine List.nodup_append.mpr ⟨distinct, by simp, ?_⟩
        intro a old b new same
        rw [same, List.mem_singleton.mp new] at old
        exact fresh old

/-- The branches are the first hops of the paths, each with the trie of what is left below it. -/
theorem mem_branches_ofPaths {paths : List Path} {hop : Hop} {sub : Trie} :
    (hop, sub) ∈ (ofPaths paths).branches ↔
      rests hop paths ≠ [] ∧ sub = ofPaths (rests hop paths) := by
  have found : (hop, sub) ∈ (ofPaths paths).branches ↔ (ofPaths paths).below? hop = some sub :=
    ⟨below?_of_mem_branches (nodup_foldl_insert (t := leaf) List.nodup_nil paths),
      mem_branches_of_below?⟩
  rw [found, below?_ofPaths]
  by_cases none : rests hop paths = []
  · simp [none]
  · simp [none, eq_comm]

theorem ofPaths_ne_leaf {paths : List Path} :
    ofPaths paths ≠ leaf ↔ ∃ hop, rests hop paths ≠ [] := by
  rw [ne_eq, eq_leaf_iff, Classical.not_forall]
  refine exists_congr fun hop => ?_
  rw [below?_ofPaths]
  by_cases none : rests hop paths = []
  · simp [none]
  · simp [none]

end Trie

end TripleQuery
