import Mathlib.Combinatorics.SimpleGraph.Acyclic
import TripleQuery.Proofs.Path.Routes

/-!
Graphs that look like trees from a node, as far as its unknowns go. There each node stands at one
place of the paths only, since the hops that lead to it are determined.
-/

namespace TripleQuery.Graph

def Links (g : Graph) (e : EdgeId) (a b : NodeId) : Prop := g.Joins e a b ∨ g.Joins e b a

instance (g : Graph) (e : EdgeId) (a b : NodeId) : Decidable (g.Links e a b) :=
  inferInstanceAs (Decidable ((_ = _ ∧ _ ∈ g.values e) ∨ (_ = _ ∧ _ ∈ g.values e)))

/-- The unknowns that can be reached from the start through unknowns. -/
inductive Around (g : Graph) (start : NodeId) : NodeId → Prop where
  | start : Around g start start
  | step {a b : NodeId} {e : EdgeId} {k : Nat} (around : Around g start a) (links : g.Links e a b)
      (token : g.token b = .unknown k) : Around g start b

theorem Around.eq_or_unknown {g : Graph} {start n : NodeId} (around : g.Around start n) :
    n = start ∨ n < g.nodes.length ∧ (g.token n).unknown?.isSome = true := by
  cases around with
  | start => exact .inl rfl
  | step _ _ token =>
    refine .inr ⟨lt_of_token_unknown token, ?_⟩
    rw [token]
    rfl

/-- The unknowns around the start, without the direction of the edges between them. -/
def neighbourhood (g : Graph) (start : NodeId) : SimpleGraph NodeId where
  Adj a b := a ≠ b ∧ g.Around start a ∧ g.Around start b ∧ ∃ e, g.Links e a b
  symm := ⟨fun _ _ ⟨distinct, first, second, e, links⟩ =>
    ⟨distinct.symm, second, first, e, Or.symm links⟩⟩
  loopless := ⟨fun _ same => same.1 rfl⟩

/-- No edge leads back to its owner, no two edges link the same nodes, and there is no cycle. -/
structure TreeShaped (g : Graph) (start : NodeId) : Prop where
  no_loop : ∀ n e, g.Around start n → ¬ g.Joins e n n
  no_parallel : ∀ a b, g.Around start a → g.Around start b →
    ∀ e f, g.Links e a b → g.Links f a b → e = f
  acyclic : (g.neighbourhood start).IsAcyclic

variable {g : Graph} {start : NodeId}

theorem Links.lt {e : EdgeId} {a b : NodeId} (links : g.Links e a b) : e < g.edges.length :=
  links.elim (fun joins => lt_of_mem_values joins.2) (fun joins => lt_of_mem_values joins.2)

/-! ### Hops between neighbours -/

/-- One hop follows another along a path around the start. -/
def Follows (g : Graph) (start : NodeId) (hop next : Hop) : Prop :=
  (hop, next.target) ∈ g.hops hop.target ∧
    (g.neighbourhood start).Adj hop.target next.target

theorem links_of_mem_hops (linked : g.Linked) {n next : NodeId} {hop : Hop}
    (member : (hop, next) ∈ g.hops n) : ∃ e, g.Links e n next := by
  rcases (mem_hops linked).mp member with ⟨e, joins, _⟩ | ⟨e, joins, _⟩
  · exact ⟨e, .inr joins⟩
  · exact ⟨e, .inl joins⟩

theorem TreeShaped.hop_unique (tree : g.TreeShaped start) (linked : g.Linked)
    {n next : NodeId} (here : g.Around start n) (there : g.Around start next) {hop other : Hop}
    (first : (hop, next) ∈ g.hops n) (second : (other, next) ∈ g.hops n) : hop = other := by
  -- An edge in both directions would lead from a node to itself.
  have opposed : ∀ e f, g.Joins e next n → g.Joins f n next → False := by
    intro e f up down
    have same := tree.no_parallel n next here there e f (.inr up) (.inl down)
    subst same
    have loop : n = next := down.1.symm.trans up.1
    subst loop
    exact tree.no_loop _ _ here up
  rcases (mem_hops linked).mp first with ⟨e, joins, _, rfl⟩ | ⟨e, joins, _, rfl⟩ <;>
    rcases (mem_hops linked).mp second with ⟨f, joins', _, rfl⟩ | ⟨f, joins', _, rfl⟩
  · rw [tree.no_parallel n next here there e f (.inr joins) (.inr joins')]
  · exact (opposed e f joins joins').elim
  · exact (opposed f e joins' joins).elim
  · rw [tree.no_parallel n next here there e f (.inl joins) (.inl joins')]

theorem Route.target_head {n : NodeId} {hop : Hop} {rest : Path} (linked : g.Linked)
    (route : g.Route n (hop :: rest)) : hop.target = n := by
  obtain ⟨next, step⟩ := route.step
  exact target_of_mem_hops linked step

theorem Route.isChain (linked : g.Linked) (tree : g.TreeShaped start) {n : NodeId}
    {path : Path} (route : g.Route n path) (around : g.Around start n) :
    path.IsChain (g.Follows start) := by
  induction route with
  | arrive step anchor => exact .singleton _
  | @onward n next hop rest step unsolved route ih =>
    obtain ⟨e, links⟩ := links_of_mem_hops linked step
    have there : g.Around start next := by
      rcases anchor_or_unknown linked step with anchor | ⟨k, token⟩
      · rw [unsolved] at anchor
        cases anchor
      · exact .step around links token
    have distinct : n ≠ next := by
      rintro rfl
      rcases links with joins | joins <;> exact tree.no_loop _ _ around joins
    cases rest with
    | nil => exact .singleton _
    | cons second rest =>
      have head := route.target_head linked
      refine .cons_cons ?_ (ih there)
      rw [Follows, target_of_mem_hops linked step, head]
      exact ⟨step, distinct, around, there, e, links⟩

/-! ### The place of a node -/

/-- A node is the target of the hop that comes after `before` on some path. -/
def LeadsTo (g : Graph) (start : NodeId) (before : Path) (n : NodeId) : Prop :=
  ∃ hop after, before ++ hop :: after ∈ g.paths start ∧ hop.target = n

/-- Without cycles, two lists of neighbours that join the same nodes are the same. -/
theorem eq_of_isChain_adj {V : Type} {G : SimpleGraph V} (acyclic : G.IsAcyclic) {l m : List V}
    (left : l ≠ []) (right : m ≠ []) (leftChain : l.IsChain G.Adj) (rightChain : m.IsChain G.Adj)
    (leftNodup : l.Nodup) (rightNodup : m.Nodup) (heads : l.head left = m.head right)
    (lasts : l.getLast left = m.getLast right) : l = m := by
  let first := SimpleGraph.Walk.ofSupport l left leftChain
  let second := (SimpleGraph.Walk.ofSupport m right rightChain).copy heads.symm lasts.symm
  have firstSupport : first.support = l := SimpleGraph.Walk.support_ofSupport left leftChain
  have secondSupport : second.support = m := by
    rw [SimpleGraph.Walk.support_copy]
    exact SimpleGraph.Walk.support_ofSupport right rightChain
  have firstPath : first.IsPath := .mk' (by rw [firstSupport]; exact leftNodup)
  have secondPath : second.IsPath := .mk' (by rw [secondSupport]; exact rightNodup)
  have unique := (acyclic.subsingleton_path _ _).elim ⟨first, firstPath⟩ ⟨second, secondPath⟩
  have same : first = second := congrArg Subtype.val unique
  rw [← firstSupport, same, secondSupport]

/-- Hops that follow one another are determined by their targets, but for the last. -/
theorem eq_of_targets (linked : g.Linked) (tree : g.TreeShaped start)
    {before before' : Path} {hop hop' : Hop} (chain : (before ++ [hop]).IsChain (g.Follows start))
    (chain' : (before' ++ [hop']).IsChain (g.Follows start))
    (targets : (before ++ [hop]).map Hop.target = (before' ++ [hop']).map Hop.target) :
    before = before' := by
  induction before generalizing before' with
  | nil =>
    have lengths := congrArg List.length targets
    simp only [List.nil_append, List.length_map, List.length_append, List.length_singleton]
      at lengths
    have none : before'.length = 0 := by omega
    exact (List.eq_nil_of_length_eq_zero none).symm
  | cons first rest ih =>
    cases before' with
    | nil =>
      have lengths := congrArg List.length targets
      simp at lengths
    | cons first' rest' =>
      simp only [List.cons_append, List.map_cons, List.cons.injEq] at targets
      obtain ⟨heads, tails⟩ := targets
      have later := ih chain.tail chain'.tail tails
      subst later
      -- Both first hops lead to the node where the common rest goes on.
      have agree : ∀ next next' : Hop, next.target = next'.target → g.Follows start first next →
          g.Follows start first' next' → first = first' := by
        intro next next' same follows follows'
        obtain ⟨step, _, here, there, _⟩ := follows
        obtain ⟨step', _⟩ := follows'
        rw [← heads, ← same] at step'
        exact tree.hop_unique linked here there step step'
      cases rest with
      | nil =>
        have last : hop.target = hop'.target := (List.cons.inj tails).1
        rw [agree hop hop' last chain.rel chain'.rel]
      | cons second rest => rw [agree second second rfl chain.rel chain'.rel]

/-- The way to a node is a chain of neighbours that sets out from the start. -/
theorem LeadsTo.exists_chain (linked : g.Linked) (tree : g.TreeShaped start)
    {before : Path} {n : NodeId} (leads : g.LeadsTo start before n) :
    ∃ hop, hop.target = n ∧ (before ++ [hop]).IsChain (g.Follows start) ∧
      ((before ++ [hop]).map Hop.target).Nodup ∧
        ((before ++ [hop]).map Hop.target).head? = some start := by
  obtain ⟨hop, after, member, target⟩ := leads
  have route := route_of_mem_paths member
  have distinct := (nodup_targets linked List.nodup_range (isAnchor_of_mem_paths member)
    (mem_pathsThrough_of_mem_paths member)).1
  have chain := route.isChain linked tree .start
  have split : before ++ hop :: after = (before ++ [hop]) ++ after := by simp
  rw [split] at distinct chain
  rw [List.map_append] at distinct
  refine ⟨hop, target, chain.left_of_append, distinct.sublist (List.sublist_append_left _ _), ?_⟩
  cases before with
  | nil => exact congrArg some (route.target_head linked)
  | cons first rest => exact congrArg some (route.target_head linked)

/-- In a tree each node stands at one place of the paths. -/
theorem TreeShaped.place_unique (tree : g.TreeShaped start) (linked : g.Linked)
    {before before' : Path} {n : NodeId} (leads : g.LeadsTo start before n)
    (leads' : g.LeadsTo start before' n) : before = before' := by
  obtain ⟨hop, target, chain, distinct, head⟩ := leads.exists_chain linked tree
  obtain ⟨hop', target', chain', distinct', head'⟩ := leads'.exists_chain linked tree
  have adjacent : ∀ {hops : Path}, hops.IsChain (g.Follows start) →
      (hops.map Hop.target).IsChain (g.neighbourhood start).Adj :=
    fun follows => List.isChain_map_of_isChain Hop.target (fun _ _ step => step.2) follows
  apply eq_of_targets linked tree chain chain'
  refine eq_of_isChain_adj tree.acyclic (by simp) (by simp) (adjacent chain) (adjacent chain')
    distinct distinct' ?_ ?_
  · rw [List.head?_eq_some_head (by simp)] at head head'
    exact Option.some.inj (head.trans head'.symm)
  · simp [target, target']

end TripleQuery.Graph
