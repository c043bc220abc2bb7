import TripleQuery.Proofs.Pattern
import TripleQuery.Proofs.SortedMap
import TripleQuery.Proofs.SortedSet
import TripleQuery.Store.Indexed

/-!
The indexes of a graph mirror its statements: a term has a bucket if some statement holds it at the
position, and the bucket holds exactly those statements. So a lookup finds every match, whichever
index it goes through. Insertions and removals keep this, from the empty graph on.
-/

namespace TripleQuery.Store

namespace Index

/-- What stands under each key follows from the statements. -/
def Mirrors (index : Index) (triples : SortedSet Triple) (i : Position) : Prop :=
  ∀ key, index.get? key =
    if (triples.filter fun t => decide (t.get i = key)).isEmpty then none
    else some (triples.filter fun t => decide (t.get i = key))

variable {index : Index} {triples : SortedSet Triple} {i : Position}

theorem mirrors_empty (i : Position) : Mirrors ∅ ∅ i := fun _ => rfl

theorem filter_insert_self (triples : SortedSet Triple) (t : Triple) (i : Position) :
    ((triples.insert t).filter fun u => decide (u.get i = t.get i)) =
      (triples.filter fun u => decide (u.get i = t.get i)).insert t := by
  apply SortedSet.ext
  intro u
  simp only [SortedSet.mem_filter, SortedSet.mem_insert, decide_eq_true_eq]
  constructor
  · rintro ⟨rfl | old, same⟩
    · exact .inl rfl
    · exact .inr ⟨old, same⟩
  · rintro (rfl | ⟨old, same⟩)
    · exact ⟨.inl rfl, rfl⟩
    · exact ⟨.inr old, same⟩

theorem filter_insert_of_ne (triples : SortedSet Triple) {t : Triple} {i : Position} {key : Term}
    (different : t.get i ≠ key) :
    ((triples.insert t).filter fun u => decide (u.get i = key)) =
      triples.filter fun u => decide (u.get i = key) := by
  apply SortedSet.ext
  intro u
  simp only [SortedSet.mem_filter, SortedSet.mem_insert, decide_eq_true_eq]
  constructor
  · rintro ⟨rfl | old, same⟩
    · exact absurd same different
    · exact ⟨old, same⟩
  · intro found
    obtain ⟨old, same⟩ := found
    exact ⟨.inr old, same⟩

theorem mirrors_add (mirrors : index.Mirrors triples i) (t : Triple) :
    (index.add (t.get i) t).Mirrors (triples.insert t) i := by
  intro key
  by_cases same : t.get i = key
  · subst same
    have nonempty : ((triples.insert t).filter fun u => decide (u.get i = t.get i)).isEmpty =
        false := SortedSet.isEmpty_eq_false_of_mem (a := t) (by simp)
    rw [add, SortedMap.get?_alter_self, nonempty, mirrors]
    simp only [Bool.false_eq_true, if_false, filter_insert_self]
    split
    · rename_i empty
      rw [SortedSet.isEmpty_iff.mp empty]
      rfl
    · rfl
  · rw [add, SortedMap.get?_alter_of_ne _ same, filter_insert_of_ne triples same]
    exact mirrors key

theorem filter_erase (triples : SortedSet Triple) (t : Triple) (i : Position) (key : Term) :
    ((triples.filter fun u => decide (u ≠ t)).filter fun u => decide (u.get i = key)) =
      (triples.filter fun u => decide (u.get i = key)).filter fun u => decide (u ≠ t) := by
  apply SortedSet.ext
  intro u
  simp only [SortedSet.mem_filter, and_assoc, and_comm]

theorem mirrors_drop (mirrors : index.Mirrors triples i) (t : Triple) :
    (index.drop (t.get i) t).Mirrors (triples.filter fun u => decide (u ≠ t)) i := by
  intro key
  rw [filter_erase]
  by_cases same : t.get i = key
  · subst same
    rw [drop, SortedMap.get?_alter_self, mirrors]
    by_cases empty : (triples.filter fun u => decide (u.get i = t.get i)).isEmpty = true
    · rw [if_pos empty, SortedSet.isEmpty_iff.mp empty]
      rfl
    · rw [if_neg empty]
  · have kept : ((triples.filter fun u => decide (u.get i = key)).filter fun u =>
        decide (u ≠ t)) = triples.filter fun u => decide (u.get i = key) := by
      apply SortedSet.ext
      intro u
      simp only [SortedSet.mem_filter, decide_eq_true_eq, and_iff_left_iff_imp]
      rintro ⟨_, at_key⟩ rfl
      exact same at_key
    rw [drop, SortedMap.get?_alter_of_ne _ same, kept]
    exact mirrors key

theorem get?_eq_some_iff (mirrors : index.Mirrors triples i) {key : Term}
    {bucket : SortedSet Triple} : index.get? key = some bucket ↔
      bucket = (triples.filter fun t => decide (t.get i = key)) ∧ bucket.isEmpty = false := by
  rw [mirrors key]
  constructor
  · intro found
    split at found
    · cases found
    · rename_i nonempty
      obtain rfl := Option.some.inj found
      exact ⟨rfl, eq_false_of_ne_true nonempty⟩
  · intro given
    obtain ⟨rfl, nonempty⟩ := given
    rw [nonempty, if_neg Bool.false_ne_true]

theorem mem_bucket (mirrors : index.Mirrors triples i) {key : Term} {bucket : SortedSet Triple}
    (found : index.get? key = some bucket) {t : Triple} :
    t ∈ bucket ↔ t ∈ triples ∧ t.get i = key := by
  simp [((get?_eq_some_iff mirrors).mp found).1]

theorem mem_bucket_iff (mirrors : index.Mirrors triples i) {key : Term} {t : Triple} :
    (∃ bucket, index.get? key = some bucket ∧ t ∈ bucket) ↔ t ∈ triples ∧ t.get i = key := by
  constructor
  · intro given
    obtain ⟨bucket, found, member⟩ := given
    exact (mem_bucket mirrors found).mp member
  · intro member
    have inside : t ∈ triples.filter fun u => decide (u.get i = key) := by simpa using member
    have nonempty := SortedSet.isEmpty_eq_false_of_mem inside
    exact ⟨_, (get?_eq_some_iff mirrors).mpr ⟨rfl, nonempty⟩, inside⟩

theorem mem_keys (mirrors : index.Mirrors triples i) {key : Term} :
    key ∈ index.keys ↔ ∃ t ∈ triples, t.get i = key := by
  rw [SortedMap.mem_keys_iff]
  constructor
  · intro given
    obtain ⟨bucket, found⟩ := given
    -- A bucket that is there is not empty, so that some statement has the key.
    obtain ⟨_, nonempty⟩ := (get?_eq_some_iff mirrors).mp found
    obtain ⟨t, member⟩ := SortedSet.isEmpty_eq_false_iff.mp nonempty
    exact ⟨t, (mem_bucket mirrors found).mp member⟩
  · intro given
    obtain ⟨t, held⟩ := given
    obtain ⟨bucket, found, _⟩ := (mem_bucket_iff mirrors).mpr held
    exact ⟨bucket, found⟩

theorem mem_candidates (mirrors : index.Mirrors triples i) {slot : Slot}
    {buckets : List (SortedSet Triple)} (chosen : index.candidates? slot = some buckets)
    {t : Triple} :
    (∃ bucket ∈ buckets, t ∈ bucket) ↔ t ∈ triples ∧ slot.accepts (t.get i) = true := by
  cases slot with
  | exact key =>
    cases chosen
    simp only [Option.mem_toList, Slot.accepts, decide_eq_true_eq]
    rw [mem_bucket_iff mirrors]
    exact and_congr_right fun _ => eq_comm
  | choices keys =>
    cases chosen
    simp only [List.mem_filterMap, Slot.accepts, decide_eq_true_eq]
    constructor
    · intro found
      obtain ⟨bucket, ⟨key, listed, picked⟩, member⟩ := found
      obtain ⟨inside, rfl⟩ := (mem_bucket_iff mirrors).mp ⟨bucket, picked, member⟩
      exact ⟨inside, listed⟩
    · intro found
      obtain ⟨inside, listed⟩ := found
      obtain ⟨bucket, picked, member⟩ := (mem_bucket_iff mirrors).mpr ⟨inside, rfl⟩
      exact ⟨bucket, ⟨_, listed, picked⟩, member⟩
  | any => cases chosen
  | within _ => cases chosen

theorem mem_chosen (mirrors : index.Mirrors triples i) {p : Pattern}
    {buckets : List (SortedSet Triple)} (chosen : index.candidates? (p.get i) = some buckets)
    {t : Triple} : t ∈ (buckets.flatMap fun bucket => bucket.toList.filter p.accepts) ↔
      t ∈ triples ∧ p.accepts t = true := by
  simp only [List.mem_flatMap, List.mem_filter, SortedSet.mem_toList]
  constructor
  · intro found
    obtain ⟨bucket, present, member, accepted⟩ := found
    exact ⟨((mem_candidates mirrors chosen).mp ⟨bucket, present, member⟩).1, accepted⟩
  · intro found
    obtain ⟨member, accepted⟩ := found
    have fits : (p.get i).accepts (t.get i) = true := Pattern.accepts_iff.mp accepted i
    obtain ⟨bucket, present, inside⟩ := (mem_candidates mirrors chosen).mpr ⟨member, fits⟩
    exact ⟨bucket, present, inside, accepted⟩

end Index

namespace Indexed

structure Consistent (g : Indexed) : Prop where
  bySubject : g.bySubject.Mirrors g.triples .subject
  byPredicate : g.byPredicate.Mirrors g.triples .predicate
  byObject : g.byObject.Mirrors g.triples .object

variable {g : Indexed} {t : Triple}

theorem consistent_empty : Consistent ∅ :=
  ⟨Index.mirrors_empty _, Index.mirrors_empty _, Index.mirrors_empty _⟩

theorem consistent_insert (consistent : g.Consistent) (t : Triple) : (g.insert t).2.Consistent := by
  unfold insert
  split
  · exact consistent
  · exact ⟨Index.mirrors_add consistent.bySubject t, Index.mirrors_add consistent.byPredicate t,
      Index.mirrors_add consistent.byObject t⟩

theorem consistent_extend (consistent : g.Consistent) (ts : List Triple) :
    (g.extend ts).Consistent :=
  List.foldlRecOn ts _ consistent fun _ known t _ => consistent_insert known t

theorem consistent_erase (consistent : g.Consistent) (t : Triple) : (g.erase t).2.Consistent := by
  unfold erase
  split
  · exact ⟨Index.mirrors_drop consistent.bySubject t, Index.mirrors_drop consistent.byPredicate t,
      Index.mirrors_drop consistent.byObject t⟩
  · exact consistent

/-- Whichever index a lookup goes through, it finds the statements that the pattern accepts. -/
theorem mem_collect (consistent : g.Consistent) {p : Pattern} {t : Triple} :
    t ∈ g.collect p ↔ t ∈ g.triples ∧ p.accepts t = true := by
  unfold collect candidates
  cases hs : g.bySubject.candidates? p.subject with
  | some buckets => exact Index.mem_chosen consistent.bySubject hs
  | none =>
    cases ho : g.byObject.candidates? p.object with
    | some buckets => exact Index.mem_chosen consistent.byObject ho
    | none =>
      cases hp : g.byPredicate.candidates? p.predicate with
      | some buckets => exact Index.mem_chosen consistent.byPredicate hp
      | none => simp

/-! ### The statements alone -/

theorem fst_insert : (g.insert t).1 = decide (t ∉ g.triples) := by
  unfold insert
  split <;> simp [*]

theorem triples_insert : (g.insert t).2.triples = g.triples.insert t := by
  unfold insert
  split
  · rename_i member
    exact (SortedSet.insert_of_mem member).symm
  · rfl

theorem mem_triples_extend {ts : List Triple} :
    t ∈ (g.extend ts).triples ↔ t ∈ ts ∨ t ∈ g.triples := by
  induction ts generalizing g with
  | nil => simp [extend]
  | cons u rest ih =>
    show t ∈ ((g.insert u).2.extend rest).triples ↔ _
    rw [ih, triples_insert, SortedSet.mem_insert, List.mem_cons]
    exact or_left_comm.trans or_assoc.symm

theorem fst_erase : (g.erase t).1 = decide (t ∈ g.triples) := by
  unfold erase
  split <;> simp [*]

theorem mem_triples_erase {u : Triple} :
    u ∈ (g.erase t).2.triples ↔ u ∈ g.triples ∧ u ≠ t := by
  unfold erase
  split
  · simp
  · rename_i absent
    refine (and_iff_left_of_imp ?_).symm
    rintro member rfl
    exact absent member

/-! ### Histories -/

inductive Edit where
  | insert (t : Triple)
  | erase (t : Triple)
  deriving DecidableEq

/-- What an edit makes of the statements, without a look at the indexes. -/
def Edit.apply (stored : SortedSet Triple) : Edit → SortedSet Triple
  | .insert t => stored.insert t
  | .erase t => stored.filter fun u => decide (u ≠ t)

def edit (g : Indexed) : Edit → Indexed
  | .insert t => (g.insert t).2
  | .erase t => (g.erase t).2

/-- What edits make of an empty graph, from the first to the last. -/
def after (history : List Edit) : Indexed := history.foldl edit ∅

/-- The statements that edits leave of an empty set. -/
def Edit.stored (history : List Edit) : SortedSet Triple := history.foldl Edit.apply ∅

theorem triples_edit (g : Indexed) (e : Edit) : (g.edit e).triples = e.apply g.triples := by
  cases e with
  | insert t => exact triples_insert
  | erase t =>
    apply SortedSet.ext
    intro u
    show u ∈ (g.erase t).2.triples ↔ u ∈ g.triples.filter _
    rw [mem_triples_erase]
    simp

theorem consistent_edit (consistent : g.Consistent) (e : Edit) : (g.edit e).Consistent := by
  cases e with
  | insert t => exact consistent_insert consistent t
  | erase t => exact consistent_erase consistent t

theorem triples_edits (g : Indexed) (history : List Edit) :
    (history.foldl edit g).triples = history.foldl Edit.apply g.triples := by
  induction history generalizing g with
  | nil => rfl
  | cons e rest ih =>
    rw [List.foldl_cons, List.foldl_cons, ih, triples_edit]

theorem consistent_edits (consistent : g.Consistent) (history : List Edit) :
    (history.foldl edit g).Consistent := by
  induction history generalizing g with
  | nil => exact consistent
  | cons e rest ih => exact ih (consistent_edit consistent e)

/-! ### What the indexes say -/

/-- The index of the terms at one position. -/
def index (g : Indexed) : Position → Index
  | .subject => g.bySubject
  | .predicate => g.byPredicate
  | .object => g.byObject

theorem Consistent.mirrors (consistent : g.Consistent) (i : Position) :
    (g.index i).Mirrors g.triples i := by
  cases i with
  | subject => exact consistent.bySubject
  | predicate => exact consistent.byPredicate
  | object => exact consistent.byObject

/-- The graph holds the statements, each index has the terms at its position for keys, a bucket holds
the statements of its key, and a lookup finds what the pattern accepts. -/
structure Reflects (g : Indexed) (stored : SortedSet Triple) : Prop where
  triples : g.triples = stored
  keys : ∀ i key, key ∈ (g.index i).keys ↔ ∃ t ∈ stored, t.get i = key
  bucket : ∀ i key bucket, (g.index i).get? key = some bucket →
    ∀ t, t ∈ bucket ↔ t ∈ stored ∧ t.get i = key
  collect : ∀ p t, t ∈ g.collect p ↔ t ∈ stored ∧ p.accepts t = true

/-- Whatever was inserted and erased, also twice or without effect, the indexes say what the
statements left say. -/
theorem reflects_after (history : List Edit) : (after history).Reflects (Edit.stored history) := by
  have same : (after history).triples = Edit.stored history := triples_edits ∅ history
  have consistent : (after history).Consistent := consistent_edits consistent_empty history
  rw [← same]
  exact
    { triples := rfl
      keys := fun i _ => Index.mem_keys (consistent.mirrors i)
      bucket := fun i _ _ found _ => Index.mem_bucket (consistent.mirrors i) found
      collect := fun _ _ => mem_collect consistent }

/-- The last statement with a term takes the bucket of the term with it. -/
example : ((after [.insert ⟨.iri "ann", .iri "likes", .iri "rex"⟩,
    .insert ⟨.iri "ann", .iri "knows", .iri "bob"⟩,
    .erase ⟨.iri "ann", .iri "likes", .iri "rex"⟩]).index .object).keys = [.iri "bob"] := by
  decide

end Indexed

end TripleQuery.Store
