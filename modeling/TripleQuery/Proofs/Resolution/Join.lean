import TripleQuery.Proofs.Path.Trie
import TripleQuery.Proofs.SortedSet
import TripleQuery.Resolution

/-!
The join of siblings. As long as narrowing a hop to what its last sibling found does not change
what the two have in common, the join comes to the same in every order.
-/

namespace TripleQuery

/-! ### Branches taken together -/

/-- What a hop comes to, given the terms below it. -/
abbrev Solver := Hop → SortedSet Term → SortedSet Term

variable {solve : Solver}

/-- What every branch of a trie comes to. Nothing does where there is no branch. -/
def Trie.combine (solve : Solver) : Trie → SortedSet Term
  | .leaf => ∅
  | .branch hop below beside =>
    let own := solve hop (below.combine solve)
    if beside.isLeaf then own else own ∩ beside.combine solve

theorem Trie.mem_combine {t : Trie} (inhabited : t ≠ leaf) {v : Term} :
    v ∈ t.combine solve ↔
      ∀ hop sub, (hop, sub) ∈ t.branches → v ∈ solve hop (sub.combine solve) := by
  induction t with
  | leaf => exact absurd rfl inhabited
  | branch hop below beside _ ih =>
    cases beside with
    | leaf => simp [combine, isLeaf, branches]
    | branch next deeper further =>
      have others := ih (by simp)
      rw [combine, branches, if_neg (by simp [isLeaf]), SortedSet.mem_inter, others]
      simp only [List.mem_cons, Prod.mk.injEq]
      constructor
      · rintro ⟨own, rest⟩ hop' sub (⟨rfl, rfl⟩ | later)
        · exact own
        · exact rest hop' sub later
      · intro all
        exact ⟨all hop below (.inl ⟨rfl, rfl⟩), fun hop' sub later => all hop' sub (.inr later)⟩

theorem Trie.mem_combine_ofPaths {paths : List Path} (inhabited : ofPaths paths ≠ leaf)
    {v : Term} : v ∈ (ofPaths paths).combine solve ↔
      ∀ hop, Path.rests hop paths ≠ [] →
        v ∈ solve hop ((ofPaths (Path.rests hop paths)).combine solve) := by
  rw [mem_combine inhabited]
  constructor
  · intro all hop some_rest
    exact all hop _ (mem_branches_ofPaths.mpr ⟨some_rest, rfl⟩)
  · intro all hop sub member
    obtain ⟨some_rest, rfl⟩ := mem_branches_ofPaths.mp member
    exact all hop some_rest

namespace Source

variable {s : Source}

/-! ### Narrowed hops -/

/-- A hop finds what it solves to and nothing else, except that narrowing may leave out what the
last sibling did not find. -/
def Steady (s : Source) (solve : Solver) (hop : Hop) : Prop :=
  ∀ below previous, ∃ found, s.resolveHop hop (.ok below) previous = .ok found ∧
    (∀ v ∈ found, v ∈ solve hop below) ∧
    ∀ v ∈ solve hop below, (∀ known, previous = some known → v ∈ known) → v ∈ found

/-- Out of an unknown a hop is never narrowed. Out of an anchor it is steady if narrowing leaves
out what the last sibling did not find, and nothing else. -/
theorem steady_of_narrowed {hop : Hop}
    (settled : ∀ below, s.resolveHop hop (.ok below) none = .ok (solve hop below))
    (narrowed : (∀ k, hop.other ≠ .unknown k) → ∀ below known, ∃ found,
      s.resolveHop hop (.ok below) (some known) = .ok found ∧
        ∀ v, v ∈ found ↔ v ∈ solve hop below ∧ v ∈ known) : s.Steady solve hop := by
  intro below previous
  cases previous with
  | none => exact ⟨_, settled below, fun v member => member, fun v solves _ => solves⟩
  | some known =>
    by_cases crosses : ∃ k, hop.other = .unknown k
    · obtain ⟨k, other⟩ := crosses
      have unchanged : s.resolveHop hop (.ok below) (some known) =
          s.resolveHop hop (.ok below) none := by
        rw [resolveHop, resolveHop, other]
      refine ⟨_, unchanged.trans (settled below), fun v member => member, fun v solves _ => solves⟩
    · obtain ⟨found, answer, exactly⟩ := narrowed (fun k other => crosses ⟨k, other⟩) below known
      refine ⟨found, answer, fun v member => ((exactly v).mp member).1, fun v solves kept => ?_⟩
      exact (exactly v).mpr ⟨solves, kept known rfl⟩

/-- A hop with what was found below it. -/
abbrev Sibling := Hop × Except Fault (SortedSet Term)

def Sibling.Ready (s : Source) (solve : Solver) (sibling : Sibling) : Prop :=
  s.Steady solve sibling.1 ∧ ∃ terms, sibling.2 = .ok terms

def Sibling.Allows (solve : Solver) (v : Term) (sibling : Sibling) : Prop :=
  ∃ terms, sibling.2 = .ok terms ∧ v ∈ solve sibling.1 terms

theorem Sibling.allows_ok {v : Term} {hop : Hop} {terms : SortedSet Term} :
    Sibling.Allows solve v (hop, .ok terms) ↔ v ∈ solve hop terms := by
  constructor
  · intro given
    obtain ⟨_, ⟨⟩, member⟩ := given
    exact member
  · exact fun member => ⟨terms, rfl, member⟩

/-! ### The join -/

theorem join_some {siblings : List Sibling} (ready : ∀ sibling ∈ siblings, sibling.Ready s solve)
    {common previous : SortedSet Term} (kept : ∀ v ∈ common, v ∈ previous) :
    ∃ found, s.join (some common) (some previous) siblings = .ok found ∧
      ∀ v, v ∈ found ↔ v ∈ common ∧ ∀ sibling ∈ siblings, Sibling.Allows solve v sibling := by
  induction siblings generalizing common previous with
  | nil => exact ⟨common, rfl, fun v => by simp⟩
  | cons sibling rest ih =>
    obtain ⟨here, later⟩ := List.forall_mem_cons.mp ready
    obtain ⟨hop, below⟩ := sibling
    obtain ⟨steady, terms, rfl⟩ := here
    obtain ⟨first, resolved, sound, complete⟩ := steady terms (some previous)
    have step : ∀ v, v ∈ common ∩ first ↔ v ∈ common ∧ v ∈ solve hop terms := by
      intro v
      rw [SortedSet.mem_inter]
      refine and_congr_right fun inside => ⟨sound v, fun solves => complete v solves ?_⟩
      rintro _ ⟨⟩
      exact kept v inside
    rw [join, resolved]
    by_cases nothing : first.isEmpty = true
    · refine ⟨∅, if_pos nothing, fun v => ⟨fun member => ?_, ?_⟩⟩
      · exact absurd member (SortedSet.not_mem_empty v)
      · intro given
        obtain ⟨inside, all⟩ := given
        have allowed := Sibling.allows_ok.mp (List.forall_mem_cons.mp all).1
        have found := (step v).mpr ⟨inside, allowed⟩
        rw [SortedSet.mem_inter, SortedSet.isEmpty_iff.mp nothing] at found
        exact found.2
    · have narrowed : ∀ v ∈ common ∩ first, v ∈ first := fun v both =>
        (SortedSet.mem_inter.mp both).2
      obtain ⟨found, joined, exactly⟩ := ih later narrowed
      refine ⟨found, (if_neg nothing).trans joined, fun v => ?_⟩
      rw [exactly, step, List.forall_mem_cons, Sibling.allows_ok, and_assoc]

/-- The join of siblings keeps what all of them allow, whatever their order. -/
theorem join_none {siblings : List Sibling} (ready : ∀ sibling ∈ siblings, sibling.Ready s solve)
    (inhabited : siblings ≠ []) :
    ∃ found, s.join none none siblings = .ok found ∧
      ∀ v, v ∈ found ↔ ∀ sibling ∈ siblings, Sibling.Allows solve v sibling := by
  cases siblings with
  | nil => exact absurd rfl inhabited
  | cons sibling rest =>
    obtain ⟨here, later⟩ := List.forall_mem_cons.mp ready
    obtain ⟨hop, below⟩ := sibling
    obtain ⟨steady, terms, rfl⟩ := here
    obtain ⟨first, resolved, sound, complete⟩ := steady terms none
    have step : ∀ v, v ∈ first ↔ v ∈ solve hop terms := fun v =>
      ⟨sound v, fun solves => complete v solves fun _ same => by cases same⟩
    rw [join, resolved]
    by_cases nothing : first.isEmpty = true
    · refine ⟨∅, if_pos nothing, fun v => ⟨fun member => ?_, ?_⟩⟩
      · exact absurd member (SortedSet.not_mem_empty v)
      · intro all
        have found := (step v).mpr (Sibling.allows_ok.mp (List.forall_mem_cons.mp all).1)
        rw [SortedSet.isEmpty_iff.mp nothing] at found
        exact found
    · have same : ∀ v ∈ first, v ∈ first := fun v member => member
      obtain ⟨found, joined, exactly⟩ := join_some later same
      refine ⟨found, (if_neg nothing).trans joined, fun v => ?_⟩
      rw [exactly, step, List.forall_mem_cons, Sibling.allows_ok]

/-! ### Tries of paths -/

theorem resolveBranches_eq (score : Scorer) (t : Trie) :
    s.resolveBranches score t =
      t.branches.map fun branch => (branch.1, s.resolveTrie score branch.2) := by
  induction t with
  | leaf => rfl
  | branch hop below beside _ ih =>
    rw [resolveBranches, Trie.branches, List.map_cons, ih]
    rfl

/-- The siblings at the root, when what lies below each of them comes to its branches taken
together. -/
theorem mem_siblings (score : Scorer) {paths : List Path}
    (below : ∀ hop, Path.rests hop paths ≠ [] →
      s.resolveTrie score (.ofPaths (Path.rests hop paths)) =
        .ok ((Trie.ofPaths (Path.rests hop paths)).combine solve))
    {sibling : Sibling} :
    sibling ∈ byScore score (s.resolveBranches score (.ofPaths paths)) ↔
      ∃ hop, Path.rests hop paths ≠ [] ∧
        sibling = (hop, .ok ((Trie.ofPaths (Path.rests hop paths)).combine solve)) := by
  rw [byScore, List.mem_mergeSort, resolveBranches_eq, List.mem_map]
  constructor
  · intro given
    obtain ⟨⟨hop, sub⟩, branch, rfl⟩ := given
    obtain ⟨some_rest, rfl⟩ := Trie.mem_branches_ofPaths.mp branch
    exact ⟨hop, some_rest, congrArg (Prod.mk hop) (below hop some_rest)⟩
  · intro given
    obtain ⟨hop, some_rest, rfl⟩ := given
    have branch := Trie.mem_branches_ofPaths.mpr ⟨some_rest, rfl⟩
    exact ⟨_, branch, congrArg (Prod.mk hop) (below hop some_rest)⟩

/-- Whatever the scores are, the resolution of steady paths comes to their branches taken
together. -/
theorem resolveTrie_of_steady (score : Scorer) {paths : List Path}
    (steady : ∀ path ∈ paths, ∀ hop ∈ path, s.Steady solve hop) :
    s.resolveTrie score (.ofPaths paths) = .ok ((Trie.ofPaths paths).combine solve) := by
  induction paths using Path.rests_induction with
  | step paths ih =>
    have first_steady : ∀ hop, Path.rests hop paths ≠ [] → s.Steady solve hop := by
      intro hop some_rest
      obtain ⟨rest, member⟩ := Path.rests_ne_nil.mp some_rest
      exact steady _ member hop List.mem_cons_self
    have below : ∀ hop, Path.rests hop paths ≠ [] →
        s.resolveTrie score (.ofPaths (Path.rests hop paths)) =
          .ok ((Trie.ofPaths (Path.rests hop paths)).combine solve) := by
      intro hop some_rest
      refine ih hop some_rest fun rest member hop' inside => ?_
      exact steady _ (Path.mem_rests.mp member) hop' (List.mem_cons_of_mem _ inside)
    by_cases blank : Trie.ofPaths paths = .leaf
    · rw [blank, resolveTrie, resolveBranches, byScore, List.mergeSort_nil]
      rfl
    · have ready : ∀ sibling ∈ byScore score (s.resolveBranches score (.ofPaths paths)),
          Sibling.Ready s solve sibling := by
        intro sibling member
        obtain ⟨hop, some_rest, rfl⟩ := (mem_siblings score below).mp member
        exact ⟨first_steady hop some_rest, _, rfl⟩
      obtain ⟨hop, some_rest⟩ := Trie.ofPaths_ne_leaf.mp blank
      have inhabited := List.ne_nil_of_mem ((mem_siblings score below).mpr ⟨hop, some_rest, rfl⟩)
      obtain ⟨found, joined, exactly⟩ := join_none ready inhabited
      rw [resolveTrie, joined]
      refine congrArg Except.ok (SortedSet.ext fun v => ?_)
      rw [exactly, Trie.mem_combine_ofPaths blank]
      constructor
      · intro all hop some_rest
        have allowed := all _ ((mem_siblings score below).mpr ⟨hop, some_rest, rfl⟩)
        exact Sibling.allows_ok.mp allowed
      · intro all sibling member
        obtain ⟨hop, some_rest, rfl⟩ := (mem_siblings score below).mp member
        exact Sibling.allows_ok.mpr (all hop some_rest)

end Source

end TripleQuery
