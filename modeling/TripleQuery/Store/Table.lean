import TripleQuery.Encoding
import TripleQuery.Source.Basic

/-!
A store that keeps its statements as rows of text. Terms stand in their encoded form; the object
is also kept by kind and by value, so that an interval can be evaluated on the row.
-/

namespace TripleQuery.Store

/-- An empty context marks the graph without a name. The value of the object is a number or a
text, as its kind has it. -/
structure Row where
  context : String
  subject : String
  predicate : String
  object : String
  kind : String
  number : Option Int
  letters : Option String
  deriving DecidableEq

namespace Row

def contextOf (context : Option Term) : String := context.elim "" Term.encode

/-- The column of numbers: integers, and booleans as 0 and 1. -/
def numberOf : Term → Option Int
  | .integer value => some value.toInt
  | .boolean value => some (if value then 1 else 0)
  | .iri _ | .blank _ | .text _ => none

def lettersOf : Term → Option String
  | .iri name => some name
  | .blank label => some label
  | .text content => some content
  | .integer _ | .boolean _ => none

def ofTriple (t : Triple) (context : Option Term) : Row where
  context := contextOf context
  subject := t.subject.encode
  predicate := t.predicate.encode
  object := t.object.encode
  kind := t.object.kind.name
  number := numberOf t.object
  letters := lettersOf t.object

/-- Whether two rows hold one statement in one graph; the object's value follows from its text. -/
def sameEntry (a b : Row) : Bool :=
  decide (a.context = b.context ∧ a.subject = b.subject ∧ a.predicate = b.predicate ∧
    a.object = b.object)

def sameStatement (a b : Row) : Bool :=
  decide (a.subject = b.subject ∧ a.predicate = b.predicate ∧ a.object = b.object)

def get (r : Row) : Position → String
  | .subject => r.subject
  | .predicate => r.predicate
  | .object => r.object

def term (r : Row) (i : Position) : Except Fault Term :=
  match Term.decode? (r.get i) with
  | some t => .ok t
  | none => .error (.unreadableTerm (r.get i))

def triple (r : Row) : Except Fault Triple := do
  return ⟨← r.term .subject, ← r.term .predicate, ← r.term .object⟩

/-! ### Conditions on a row -/

/-- Whether the object's value lies on one side of a bound. A column without a value lies on
neither side. -/
def isBeyond (r : Row) (side : Ordering) (bound : Term) : Bool :=
  match numberOf bound, lettersOf bound with
  | some n, _ => r.number.any fun value => compare value n == side
  | none, some text => r.letters.any fun value => compare value text == side
  | none, none => false

/-- The kind is that of the lower bound if there is one. -/
def isWithin (r : Row) (bounds : Interval) : Bool :=
  match bounds.min.or bounds.max with
  | none => true
  | some bound =>
    decide (r.kind = bound.kind.name) && bounds.min.all (r.isBeyond .gt) &&
      bounds.max.all (r.isBeyond .lt)

/-- What a slot asks of the rows. Only objects can be compared with an interval. -/
def condition (i : Position) : Slot → Except Fault (Row → Bool)
  | .any => .ok fun _ => true
  | .exact t => .ok fun r => decide (r.get i = t.encode)
  | .choices ts => .ok fun r => decide (r.get i ∈ ts.map Term.encode)
  | .within bounds =>
    if i = .object then .ok fun r => r.isWithin bounds else .error (.intervalMisplaced i)

end Row

structure Table where
  rows : List Row

namespace Table

def empty : Table := ⟨[]⟩

instance : Inhabited Table := ⟨empty⟩

def add (t : Table) (statement : Triple) (context : Option Term) : Bool × Table :=
  let row := Row.ofTriple statement context
  if t.rows.any row.sameEntry then (false, t) else (true, ⟨t.rows ++ [row]⟩)

def extend (t : Table) (statements : List Triple) (context : Option Term) : Nat × Table :=
  statements.foldl
    (fun (added, t) statement =>
      let (new, t) := t.add statement context
      (if new then added + 1 else added, t))
    (0, t)

/-- Removes from one graph, or from every graph. The number of rows removed comes first. -/
def remove (t : Table) (statement : Triple) (context : Option Term) : Nat × Table :=
  let row := Row.ofTriple statement context
  let hit := fun r : Row => if context.isSome then row.sameEntry r else row.sameStatement r
  ((t.rows.filter hit).length, ⟨t.rows.filter fun r => !hit r⟩)

/-- The rows without those that repeat a statement from another graph. -/
def distinctRows : List Row → List Row
  | [] => []
  | row :: rest =>
    let others := distinctRows rest
    if others.any row.sameStatement then others else row :: others

def size (t : Table) : Nat := (distinctRows t.rows).length

def isEmpty (t : Table) : Bool := t.size == 0

/-! ### Queries -/

/-- Decodes each row; the first that cannot be read is a fault. -/
def readAll : List Row → Answer
  | [] => .ok ∅
  | row :: rest => do
    let t ← row.triple
    let others ← readAll rest
    return others.insert t

def run (t : Table) (p : Pattern) (context : Option Term) : Answer :=
  if p.matchesNothing then .ok ∅
  else do
    let subject ← Row.condition .subject p.subject
    let predicate ← Row.condition .predicate p.predicate
    let object ← Row.condition .object p.object
    readAll (t.rows.filter fun r =>
      (context.all fun c => decide (r.context = c.encode)) && subject r && predicate r && object r)

def select (t : Table) (mode : Mode) (p : Pattern) (context : Option Term) : Answer :=
  match mode with
  | .plain => if p.hasChoices then .error (.choicesRefused p) else t.run p context
  | .listed => t.run p context

def names (t : Table) : List Term :=
  t.rows.flatMap fun r =>
    [r.subject, r.predicate, r.object].filterMap Term.decode?

theorem get_of_triple {r : Row} {t : Triple} (h : r.triple = .ok t) (i : Position) :
    Term.decode? (r.get i) = some (t.get i) := by
  have read : ∀ j, ∀ u, r.term j = .ok u → Term.decode? (r.get j) = some u := by
    intro j u hu
    unfold Row.term at hu
    split at hu
    · cases hu
      assumption
    · cases hu
  obtain ⟨s, subject, h⟩ := bind_ok h
  obtain ⟨p, predicate, h⟩ := bind_ok h
  obtain ⟨o, object, h⟩ := bind_ok h
  cases h
  cases i
  · exact read _ _ subject
  · exact read _ _ predicate
  · exact read _ _ object

theorem exists_row_of_mem_readAll {rows : List Row} {answer : SortedSet Triple}
    (h : readAll rows = .ok answer) {t : Triple} (member : t ∈ answer) :
    ∃ row ∈ rows, row.triple = .ok t := by
  induction rows generalizing answer with
  | nil =>
    cases h
    simp at member
  | cons row rest ih =>
    obtain ⟨first, read, h⟩ := bind_ok h
    obtain ⟨others, more, h⟩ := bind_ok h
    cases h
    rcases SortedSet.mem_insert.mp member with rfl | member
    · exact ⟨row, List.mem_cons_self, read⟩
    · obtain ⟨found, present, same⟩ := ih more member
      exact ⟨found, List.mem_cons_of_mem _ present, same⟩

theorem get_mem_names {t : Table} {p : Pattern} {context : Option Term}
    {answer : SortedSet Triple} (h : t.run p context = .ok answer) {row : Triple}
    (member : row ∈ answer) (i : Position) : row.get i ∈ t.names := by
  unfold run at h
  split at h
  · cases h
    simp at member
  · obtain ⟨subject, _, h⟩ := bind_ok h
    obtain ⟨predicate, _, h⟩ := bind_ok h
    obtain ⟨object, _, h⟩ := bind_ok h
    obtain ⟨r, present, same⟩ := exists_row_of_mem_readAll h member
    refine List.mem_flatMap.mpr ⟨r, (List.mem_filter.mp present).1, ?_⟩
    refine List.mem_filterMap.mpr ⟨r.get i, ?_, get_of_triple same i⟩
    cases i <;> simp [Row.get]

theorem bounded_select (t : Table) : Bounded t.select t.names := by
  intro mode pattern context rows h row member i
  cases mode with
  | listed => exact .inl (get_mem_names h member i)
  | plain =>
    simp only [select] at h
    split at h
    · cases h
    · exact .inl (get_mem_names h member i)

def source (t : Table) : Source where
  select := t.select
  evaluatesIntervals := true
  bounded := ⟨t.names, t.bounded_select⟩

end Table

end TripleQuery.Store
