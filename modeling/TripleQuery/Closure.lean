import TripleQuery.Source.Basic

/-!
Zero or more steps along one predicate, as a source answers them. Each batch asks about all terms
at one distance together; a term is asked about once, which is why cycles end.
-/

namespace TripleQuery.Source

def stepPattern (predicate : Term) (d : Direction) (terms : SortedSet Term) : Pattern :=
  (⟨.any, .exact predicate, .any⟩ : Pattern).put d.source (.oneOf terms)

def beyond (s : Source) (predicate : Term) (d : Direction) (context : Option Term)
    (terms : SortedSet Term) : Except Fault (SortedSet Term) :=
  (s.choices (stepPattern predicate d terms) context).map fun rows =>
    .ofList (rows.toList.map fun row => row.get d.target)

theorem names_stepPattern {predicate : Term} {d : Direction} {terms : SortedSet Term} {t : Term}
    (h : (stepPattern predicate d terms).Names t) : t = predicate ∨ t ∈ terms := by
  obtain ⟨i, h⟩ := h
  cases d <;> cases i <;>
    simp [stepPattern, Direction.source, Pattern.put, Pattern.get, Slot.mentions, Slot.oneOf] at h
      <;> simp [h]

theorem mem_beyond {s : Source} {predicate : Term} {d : Direction} {context : Option Term}
    {terms others : SortedSet Term} {names : List Term} (bounded : Bounded s.select names)
    (h : s.beyond predicate d context terms = .ok others) {t : Term} (member : t ∈ others) :
    t ∈ names ∨ t = predicate ∨ t ∈ terms := by
  obtain ⟨rows, answer, rfl⟩ := map_ok h
  obtain ⟨row, present, rfl⟩ := List.mem_map.mp (SortedSet.mem_ofList.mp member)
  exact (bounded _ _ _ rows answer row present d.target).imp_right names_stepPattern

/-- The terms that answers can bring in, beside those that a query names. -/
noncomputable def names (s : Source) : List Term := s.bounded.choose

theorem bounded_names (s : Source) : Bounded s.select s.names := s.bounded.choose_spec

/-- How many terms a closure may still come upon. -/
noncomputable def unseen (s : Source) (predicate : Term) (seen : SortedSet Term) : Nat :=
  (predicate :: s.names).countP fun t => decide (t ∉ seen)

theorem countP_lt_countP {α : Type} {p q : α → Bool} {l : List α}
    (sub : ∀ a ∈ l, q a = true → p a = true) {x : α} (member : x ∈ l) (yes : p x = true)
    (no : q x = false) : l.countP q < l.countP p := by
  induction l with
  | nil => cases member
  | cons a as ih =>
    have rest : as.countP q ≤ as.countP p :=
      List.countP_mono_left fun b hb => sub b (List.mem_cons_of_mem _ hb)
    have head : q a = true → p a = true := sub a List.mem_cons_self
    rcases List.mem_cons.mp member with rfl | later
    · simp only [List.countP_cons, yes, no]
      simpa using Nat.lt_succ_of_le rest
    · have smaller := ih (fun b hb => sub b (List.mem_cons_of_mem _ hb)) later
      simp only [List.countP_cons]
      cases hq : q a with
      | true => simpa [head hq] using smaller
      | false => exact Nat.lt_of_lt_of_le smaller (Nat.le_add_right _ _)

/-- The batches of a closure that starts from `frontier`: what is asked about in each call, by
distance. Terms in `seen` are not asked about again. -/
def batches (s : Source) (predicate : Term) (d : Direction) (context : Option Term)
    (seen frontier : SortedSet Term) : Except Fault (List (SortedSet Term)) :=
  match _found : s.beyond predicate d context frontier with
  | .error fault => .error fault
  | .ok others =>
    let next := others.filter fun t => decide (t ∉ seen ∪ frontier)
    if _empty : next.isEmpty then .ok [frontier]
    else (batches s predicate d context (seen ∪ frontier) next).map (frontier :: ·)
termination_by s.unseen predicate (seen ∪ frontier)
decreasing_by
  have nonempty : next.toList ≠ [] := fun h => _empty (by simp [SortedSet.isEmpty, h])
  obtain ⟨x, member⟩ := List.exists_mem_of_ne_nil _ nonempty
  obtain ⟨inside, fresh⟩ := SortedSet.mem_filter.mp (show x ∈ next from member)
  have fresh : x ∉ seen ∪ frontier := of_decide_eq_true fresh
  have known : x ∈ predicate :: s.names := by
    rcases mem_beyond s.bounded_names _found inside with h | h | h
    · exact List.mem_cons_of_mem _ h
    · exact h ▸ List.mem_cons_self
    · exact absurd (SortedSet.mem_union.mpr (.inr h)) fresh
  refine countP_lt_countP (fun t _ h => ?_) known (decide_eq_true fresh) ?_
  · exact decide_eq_true fun old =>
      of_decide_eq_true h (SortedSet.mem_union.mpr (.inl old))
  · exact decide_eq_false fun h => h (SortedSet.mem_union.mpr (.inr member))

def gather (seen : SortedSet Term) (batches : List (SortedSet Term)) : SortedSet Term :=
  batches.foldl (· ∪ ·) seen

theorem mem_gather {seen : SortedSet Term} {batches : List (SortedSet Term)} {t : Term} :
    t ∈ gather seen batches ↔ t ∈ seen ∨ ∃ batch ∈ batches, t ∈ batch := by
  induction batches generalizing seen with
  | nil => simp [gather]
  | cons first rest ih =>
    show t ∈ gather (seen ∪ first) rest ↔ _
    rw [ih, SortedSet.mem_union]
    simp [or_assoc]

/-- Every term that zero or more steps lead to from `start`, together with what was seen before.
The start is always asked about. -/
def closure (s : Source) (start predicate : Term) (d : Direction) (context : Option Term)
    (seen : SortedSet Term) : Except Fault (SortedSet Term) :=
  (s.batches predicate d context seen (.singleton start)).map (gather seen)

/-- The closures of several terms together. A start that an earlier closure holds is passed over. -/
def closureFrom (s : Source) (predicate : Term) (d : Direction) (context : Option Term)
    (known : SortedSet Term) : List Term → Except Fault (SortedSet Term)
  | [] => .ok known
  | start :: rest =>
    if start ∈ known then closureFrom s predicate d context known rest
    else do
      let more ← s.closure start predicate d context ∅
      closureFrom s predicate d context (known ∪ more) rest

def closureAll (s : Source) (starts : List Term) (predicate : Term) (d : Direction)
    (context : Option Term) : Except Fault (SortedSet Term) :=
  s.closureFrom predicate d context ∅ starts

/-! ### Where the terms of a closure come from -/

theorem mem_batches {s : Source} {predicate : Term} {d : Direction} {context : Option Term}
    {names : List Term} (bounded : Bounded s.select names) {seen frontier : SortedSet Term}
    {found : List (SortedSet Term)}
    (h : s.batches predicate d context seen frontier = .ok found) {batch : SortedSet Term}
    (present : batch ∈ found) {t : Term} (member : t ∈ batch) :
    t ∈ names ∨ t = predicate ∨ t ∈ frontier := by
  fun_induction batches s predicate d context seen frontier generalizing found with
  | case1 => cases h
  | case2 =>
    cases h
    exact .inr (.inr (List.mem_singleton.mp present ▸ member))
  | case3 =>
    rename_i seen frontier others answer next nonempty ih
    obtain ⟨rest, more, rfl⟩ := map_ok h
    rcases List.mem_cons.mp present with rfl | later
    · exact .inr (.inr member)
    · rcases ih more later with known | same | fresh
      · exact .inl known
      · exact .inr (.inl same)
      · exact mem_beyond bounded answer (SortedSet.mem_filter.mp fresh).1

theorem mem_closure_bounded {s : Source} {start predicate : Term} {d : Direction}
    {context : Option Term} {names : List Term} (bounded : Bounded s.select names)
    {found : SortedSet Term} (h : s.closure start predicate d context ∅ = .ok found) {t : Term}
    (member : t ∈ found) : t ∈ names ∨ t = predicate ∨ t = start := by
  obtain ⟨all, asked, rfl⟩ := map_ok h
  rcases mem_gather.mp member with seen | ⟨batch, present, member⟩
  · simp at seen
  · exact (mem_batches bounded asked present member).imp_right
      (.imp_right SortedSet.mem_singleton.mp)

theorem mem_closureFrom_bounded {s : Source} {predicate : Term} {d : Direction}
    {context : Option Term} {names : List Term} (bounded : Bounded s.select names)
    {known found : SortedSet Term} {starts : List Term}
    (h : s.closureFrom predicate d context known starts = .ok found) {t : Term}
    (member : t ∈ found) : t ∈ known ∨ t ∈ names ∨ t = predicate ∨ t ∈ starts := by
  induction starts generalizing known with
  | nil =>
    cases h
    exact .inl member
  | cons start rest ih =>
    unfold closureFrom at h
    split at h
    · rcases ih h with old | term | same | later
      · exact .inl old
      · exact .inr (.inl term)
      · exact .inr (.inr (.inl same))
      · exact .inr (.inr (.inr (List.mem_cons_of_mem _ later)))
    · obtain ⟨more, reached, h⟩ := bind_ok h
      rcases ih h with old | term | same | later
      · rcases SortedSet.mem_union.mp old with old | new
        · exact .inl old
        · rcases mem_closure_bounded bounded reached new with term | same | rfl
          · exact .inr (.inl term)
          · exact .inr (.inr (.inl same))
          · exact .inr (.inr (.inr List.mem_cons_self))
      · exact .inr (.inl term)
      · exact .inr (.inr (.inl same))
      · exact .inr (.inr (.inr (List.mem_cons_of_mem _ later)))

end TripleQuery.Source
