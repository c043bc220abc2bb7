import TripleQuery.Closure
import TripleQuery.Layer.Request

/-!
The layer that entails statements along a closure. A pattern that calls for a closure is widened
to it, and each row that comes back is stated again for every term of the closure that its own
term leads to.
-/

namespace TripleQuery

namespace ClosureRequest

/-- Several starts make sense only for a choice list. -/
def single (r : ClosureRequest) (p : Pattern) : Except Fault Term :=
  match r.start with
  | [term] => .ok term
  | _ => .error (.manyStarts r.start.length r.position p)

/-- Every term of the closure stands in the closure's relation to itself. This is stated where the
query is about that relation, for the terms that fit at its other end. -/
def reflexiveRows (r : ClosureRequest) (p : Pattern) (closure : SortedSet Term) : List Triple :=
  match r.position.opposite with
  | none => []
  | some other =>
    if p.predicate.fixed? = some r.predicate then
      (closure.toList.filter (p.get other).accepts).map fun t => ⟨t, r.predicate, t⟩
    else []

def widen (r : ClosureRequest) (p : Pattern) (closure : SortedSet Term) : Pattern :=
  p.put r.position (.oneOf closure)

end ClosureRequest

namespace Source

/-! ### Entailment -/

/-- What each of some terms leads back to, within the limit. -/
def expansions (next : Source) (r : ClosureRequest) (context : Option Term)
    (limit : Option (SortedSet Term)) : List Term → Except Fault (List (Term × List Term))
  | [] => .ok []
  | t :: rest => do
    let closure ← next.closure t r.predicate r.direction.opposite context ∅
    let others ← expansions next r context limit rest
    return (t, (limit.elim closure (closure ∩ ·)).toList) :: others

def distinctAt (i : Position) (rows : List Triple) : List Term :=
  (rows.map fun row => row.get i).eraseDups

/-- States each row for every term that its own leads back to. -/
def entail (next : Source) (r : ClosureRequest) (context : Option Term)
    (limit : Option (SortedSet Term)) (rows : List Triple) : Except Fault (List Triple) := do
  let table ← next.expansions r context limit (distinctAt r.position rows)
  return rows.flatMap fun row =>
    ((table.lookup (row.get r.position)).getD []).map fun t => row.put r.position t

def entailWithin (next : Source) (reflexive : Bool) (r : ClosureRequest) (p : Pattern)
    (context : Option Term) (closure : SortedSet Term) (rows : SortedSet Triple) : Answer := do
  let entailed ← next.entail r context (some closure) rows.toList
  let own := if reflexive then r.reflexiveRows p closure else []
  return .ofList (entailed ++ own)

/-- One query for the whole closure. -/
def selectWidened (next : Source) (reflexive : Bool) (r : ClosureRequest) (p : Pattern)
    (context : Option Term) (starts : List Term) : Answer := do
  let closure ← next.closureAll starts r.predicate r.direction context
  let rows ← next.choices (r.widen p closure) context
  next.entailWithin reflexive r p context closure rows

/-- One query for each member of the closure. -/
def selectEach (next : Source) (reflexive : Bool) (r : ClosureRequest) (p : Pattern)
    (context : Option Term) (start : Term) : Answer := do
  let closure ← next.closure start r.predicate r.direction context ∅
  let rows ← Answer.unite <| closure.toList.map fun t =>
    next.choices (p.put r.position (.exact t)) context
  next.entailWithin reflexive r p context closure rows

/-- Without a start there is no limit to what a row leads back to. -/
def selectUnlimited (next : Source) (r : ClosureRequest) (p : Pattern) (context : Option Term) :
    Answer := do
  let rows ← next.choices p context
  let entailed ← next.entail r context none rows.toList
  return .ofList entailed

def selectRequested (next : Source) (reflexive : Bool) (r : ClosureRequest) (mode : Mode)
    (p : Pattern) (context : Option Term) : Answer :=
  if r.start.isEmpty then next.selectUnlimited r p context
  else
    match mode, p.get r.position with
    | .listed, .choices terms =>
      next.selectWidened reflexive r p context (SortedSet.ofList (terms ++ r.start)).toList
    | .listed, _ => do next.selectEach reflexive r p context (← r.single p)
    | .plain, _ => do next.selectWidened reflexive r p context [← r.single p]

def selectByClosure (next : Source) (request? : Pattern → Option ClosureRequest)
    (reflexive : Bool) (mode : Mode) (p : Pattern) (context : Option Term) : Answer :=
  match request? p with
  | none => next.select mode p context
  | some r => next.selectRequested reflexive r mode p context

/-! ### Which terms can occur

`Known` stands for the terms that an answer may hold: those of the source below, those of the
request, and those that the pattern names. -/

section Known

variable {next : Source} {names : List Term} {Known : Term → Prop} {r : ClosureRequest}
  {context : Option Term}

theorem known_of_select (bounded : Bounded next.select names) (own : ∀ t ∈ names, Known t)
    {mode : Mode} {p : Pattern} (named : ∀ t, p.Names t → Known t) {rows : SortedSet Triple}
    (h : next.select mode p context = .ok rows) {row : Triple} (member : row ∈ rows)
    (i : Position) : Known (row.get i) :=
  (bounded mode p context rows h row member i).elim (own _) (named _)

theorem known_of_closure (bounded : Bounded next.select names) (own : ∀ t ∈ names, Known t)
    {start predicate : Term} {d : Direction} (known_predicate : Known predicate)
    (known_start : Known start) {found : SortedSet Term}
    (h : next.closure start predicate d context ∅ = .ok found) {t : Term} (member : t ∈ found) :
    Known t := by
  rcases mem_closure_bounded bounded h member with inside | rfl | rfl
  · exact own t inside
  · exact known_predicate
  · exact known_start

theorem known_of_closureAll (bounded : Bounded next.select names) (own : ∀ t ∈ names, Known t)
    {starts : List Term} {predicate : Term} {d : Direction} (known_predicate : Known predicate)
    (known_starts : ∀ t ∈ starts, Known t) {found : SortedSet Term}
    (h : next.closureAll starts predicate d context = .ok found) {t : Term} (member : t ∈ found) :
    Known t := by
  rcases mem_closureFrom_bounded bounded h member with none | inside | rfl | start
  · exact absurd none (SortedSet.not_mem_empty t)
  · exact own t inside
  · exact known_predicate
  · exact known_starts t start

theorem known_of_expansions (bounded : Bounded next.select names) (own : ∀ t ∈ names, Known t)
    (known_predicate : Known r.predicate) {limit : Option (SortedSet Term)} {terms : List Term}
    (known_terms : ∀ t ∈ terms, Known t) {table : List (Term × List Term)}
    (h : next.expansions r context limit terms = .ok table) {t : Term} {leads : List Term}
    (entry : (t, leads) ∈ table) {u : Term} (member : u ∈ leads) : Known u := by
  induction terms generalizing table with
  | nil =>
    cases h
    cases entry
  | cons first rest ih =>
    obtain ⟨closure, reached, h⟩ := bind_ok h
    obtain ⟨others, found, h⟩ := bind_ok h
    cases h
    rcases List.mem_cons.mp entry with same | later
    · cases same
      refine known_of_closure bounded own known_predicate (known_terms t List.mem_cons_self)
        reached ?_
      cases limit with
      | none => exact member
      | some limit => exact (SortedSet.mem_inter.mp member).1
    · exact ih (fun t ht => known_terms t (List.mem_cons_of_mem _ ht)) found later

theorem known_of_entail (bounded : Bounded next.select names) (own : ∀ t ∈ names, Known t)
    (known_predicate : Known r.predicate) {limit : Option (SortedSet Term)} {rows : List Triple}
    (known_rows : ∀ row ∈ rows, ∀ i, Known (row.get i)) {entailed : List Triple}
    (h : next.entail r context limit rows = .ok entailed) {row : Triple} (member : row ∈ entailed)
    (i : Position) : Known (row.get i) := by
  obtain ⟨table, expanded, h⟩ := bind_ok h
  cases h
  obtain ⟨source, present, inside⟩ := List.mem_flatMap.mp member
  obtain ⟨t, leads, rfl⟩ := List.mem_map.mp inside
  by_cases same : i = r.position
  · subst same
    rw [Triple.get_put_self]
    have known_terms : ∀ t ∈ distinctAt r.position rows, Known t := by
      intro t ht
      obtain ⟨row, hrow, rfl⟩ := List.mem_map.mp (List.mem_eraseDups.mp ht)
      exact known_rows row hrow r.position
    cases found : table.lookup (source.get r.position) with
    | none => rw [found] at leads; cases leads
    | some us =>
      rw [found] at leads
      refine known_of_expansions bounded own known_predicate known_terms expanded ?_ leads
        (t := source.get r.position)
      obtain ⟨before, after, split, _⟩ := List.lookup_eq_some_iff.mp found
      rw [split]
      simp
  · rw [Triple.get_put_of_ne source same]
    exact known_rows source present i

theorem known_of_entailWithin (bounded : Bounded next.select names) (own : ∀ t ∈ names, Known t)
    (known_predicate : Known r.predicate) {reflexive : Bool} {p : Pattern}
    {closure : SortedSet Term} (known_closure : ∀ t ∈ closure, Known t)
    {rows : SortedSet Triple} (known_rows : ∀ row ∈ rows, ∀ i, Known (row.get i))
    {answer : SortedSet Triple}
    (h : next.entailWithin reflexive r p context closure rows = .ok answer) {row : Triple}
    (member : row ∈ answer) (i : Position) : Known (row.get i) := by
  obtain ⟨entailed, stated, h⟩ := bind_ok h
  cases h
  rcases List.mem_append.mp (SortedSet.mem_ofList.mp member) with inside | reflexive_row
  · exact known_of_entail bounded own known_predicate known_rows stated inside i
  · split at reflexive_row
    · unfold ClosureRequest.reflexiveRows at reflexive_row
      split at reflexive_row
      · cases reflexive_row
      · split at reflexive_row
        · obtain ⟨t, inside, rfl⟩ := List.mem_map.mp reflexive_row
          have known := known_closure t (List.mem_filter.mp inside).1
          cases i
          · exact known
          · exact known_predicate
          · exact known
        · cases reflexive_row
    · cases reflexive_row

theorem known_of_selectWidened (bounded : Bounded next.select names) (own : ∀ t ∈ names, Known t)
    (known_predicate : Known r.predicate) {reflexive : Bool} {p : Pattern}
    (named : ∀ t, p.Names t → Known t) {starts : List Term}
    (known_starts : ∀ t ∈ starts, Known t) {answer : SortedSet Triple}
    (h : next.selectWidened reflexive r p context starts = .ok answer) {row : Triple}
    (member : row ∈ answer) (i : Position) : Known (row.get i) := by
  obtain ⟨closure, reached, h⟩ := bind_ok h
  obtain ⟨rows, answer, h⟩ := bind_ok h
  have known_closure : ∀ t ∈ closure, Known t := fun t ht =>
    known_of_closureAll bounded own known_predicate known_starts reached ht
  refine known_of_entailWithin bounded own known_predicate known_closure ?_ h member i
  refine fun row present => known_of_select bounded own (fun t ht => ?_) answer present
  rcases Pattern.names_of_put ht with old | new
  · exact named t old
  · exact known_closure t (Slot.mentions_oneOf.mp new)

theorem known_of_selectEach (bounded : Bounded next.select names) (own : ∀ t ∈ names, Known t)
    (known_predicate : Known r.predicate) {reflexive : Bool} {p : Pattern}
    (named : ∀ t, p.Names t → Known t) {start : Term} (known_start : Known start)
    {answer : SortedSet Triple} (h : next.selectEach reflexive r p context start = .ok answer)
    {row : Triple} (member : row ∈ answer) (i : Position) : Known (row.get i) := by
  obtain ⟨closure, reached, h⟩ := bind_ok h
  obtain ⟨rows, united, h⟩ := bind_ok h
  have known_closure : ∀ t ∈ closure, Known t := fun t ht =>
    known_of_closure bounded own known_predicate known_start reached ht
  refine known_of_entailWithin bounded own known_predicate known_closure ?_ h member i
  intro row present j
  obtain ⟨part, asked, present⟩ := (Answer.mem_unite united row).mp present
  obtain ⟨t, inside, answer⟩ := List.mem_map.mp asked
  refine known_of_select bounded own (fun u hu => ?_) answer present j
  rcases Pattern.names_of_put hu with old | new
  · exact named u old
  · exact of_decide_eq_true new ▸ known_closure t inside

theorem known_of_selectUnlimited (bounded : Bounded next.select names)
    (own : ∀ t ∈ names, Known t) (known_predicate : Known r.predicate) {p : Pattern}
    (named : ∀ t, p.Names t → Known t) {answer : SortedSet Triple}
    (h : next.selectUnlimited r p context = .ok answer) {row : Triple} (member : row ∈ answer)
    (i : Position) : Known (row.get i) := by
  obtain ⟨rows, answer, h⟩ := bind_ok h
  obtain ⟨entailed, stated, h⟩ := bind_ok h
  cases h
  refine known_of_entail bounded own known_predicate ?_ stated (SortedSet.mem_ofList.mp member) i
  exact fun row present => known_of_select bounded own named answer present

theorem known_of_selectRequested (Known : Term → Prop) (bounded : Bounded next.select names)
    (own : ∀ t ∈ names, Known t) (known_predicate : Known r.predicate)
    (known_starts : ∀ t ∈ r.start, Known t) {reflexive : Bool} {mode : Mode} {p : Pattern}
    (named : ∀ t, p.Names t → Known t) {answer : SortedSet Triple}
    (h : next.selectRequested reflexive r mode p context = .ok answer) {row : Triple}
    (member : row ∈ answer) (i : Position) : Known (row.get i) := by
  have single : ∀ {start : Term}, r.single p = .ok start → start ∈ r.start := by
    intro start hs
    unfold ClosureRequest.single at hs
    split at hs
    · rename_i only
      cases hs
      rw [only]
      exact List.mem_singleton_self _
    · cases hs
  unfold selectRequested at h
  split at h
  · exact known_of_selectUnlimited bounded own known_predicate named h member i
  · split at h
    · rename_i terms choices
      refine known_of_selectWidened bounded own known_predicate named (fun t ht => ?_) h member i
      rcases List.mem_append.mp (SortedSet.mem_ofList.mp ht) with listed | start
      · exact named t ⟨r.position, by rw [choices]; exact decide_eq_true listed⟩
      · exact known_starts t start
    · obtain ⟨start, only, h⟩ := bind_ok h
      exact known_of_selectEach bounded own known_predicate named (known_starts start (single only))
        h member i
    · obtain ⟨start, only, h⟩ := bind_ok h
      refine known_of_selectWidened bounded own known_predicate named (fun t ht => ?_) h member i
      exact List.mem_singleton.mp ht ▸ known_starts start (single only)

end Known

theorem bounded_selectByClosure {next : Source} {names : List Term}
    (bounded : Bounded next.select names) (m : Matcher) (reflexive : Bool) :
    Bounded (next.selectByClosure m.request? reflexive) (names ++ m.constants) := by
  intro mode p context rows h row member i
  unfold selectByClosure at h
  split at h
  · exact (bounded mode p context rows h row member i).imp_left (List.mem_append_left _)
  · rename_i r requested
    refine known_of_selectRequested (fun t => t ∈ names ++ m.constants ∨ p.Names t) bounded
      ?_ ?_ ?_ ?_ h member i
    · exact fun t ht => .inl (List.mem_append_left _ ht)
    · exact .inl (List.mem_append_right _ (m.predicate_mem p r requested))
    · exact fun t ht => (m.start_mem p r requested t ht).imp_left (List.mem_append_right _)
    · exact fun t ht => .inr ht

def withClosure (next : Source) (m : Matcher) (reflexive : Bool) : Source where
  select := next.selectByClosure m.request? reflexive
  evaluatesIntervals := next.evaluatesIntervals
  bounded := next.bounded.elim fun _ bounded => ⟨_, bounded_selectByClosure bounded m reflexive⟩

end Source

end TripleQuery
