import TripleQuery.Config.Query
import TripleQuery.Store.Memory
import TripleQuery.Store.Table

/-!
Which store to open, and with which settings.
-/

namespace TripleQuery

open Json (Value)

inductive StoreKind where
  | memory
  | table
  deriving DecidableEq

namespace StoreKind

def name : StoreKind → String
  | memory => "memory"
  | table => "sqlite"

def ofJson? (v : Value) : Option StoreKind := do
  let name ← v.name? false
  [memory, table].find? fun kind => kind.name = name

end StoreKind

structure TableConfig where
  cacheSize : Option Nat
  settings : SortedMap String String

structure StoreConfig where
  kind : StoreKind
  table : TableConfig
  /-- Whether a memory store evaluates intervals itself. -/
  memoryIntervals : Bool

namespace TableConfig

def standard : TableConfig := ⟨none, ∅⟩

/-- A size is missing, null or a whole number of 64 bits. -/
def cacheSizeOfJson? : Value → Option (Option Nat)
  | .null => some none
  | v => (v.integer? 0 18446744073709551615).map fun n => some n.toNat

/-- Of settings with one name the last counts. -/
def settingsOfJson? : Value → Option (SortedMap String String)
  | .object members =>
    members.foldlM
      (fun settings (key, value) => do return settings.insert (← key) (← value.text?)) ∅
  | _ => none

def ofJson? (v : Value) : Option TableConfig := do
  let [cacheSize, settings] ← v.looseFields? ["cache_size", "pragma_settings"] | none
  return ⟨← Value.orElse none cacheSizeOfJson? cacheSize, ← Value.orElse ∅ settingsOfJson? settings⟩

/-- The first setting that the database refuses. -/
def refused? (c : TableConfig) (refuses : String → String → Bool) : Option (String × String) :=
  c.settings.entries.find? fun entry => refuses entry.1 entry.2

end TableConfig

namespace StoreConfig

def ofKind (kind : StoreKind) : StoreConfig := ⟨kind, .standard, false⟩

def standard : StoreConfig := ofKind .table

def ofJson? (v : Value) : Option StoreConfig := do
  let [kind, table, memoryIntervals] ←
    v.looseFields? ["kind", "sqlite", "memory_range_queries"] | none
  return ⟨← Value.orElse .table StoreKind.ofJson? kind,
    ← Value.orElse .standard TableConfig.ofJson? table,
    ← Value.orElse false Value.boolean? memoryIntervals⟩

def decode? (text : String) : Option StoreConfig := (Json.parse? text).bind ofJson?

/-- The database under a table decides which settings it refuses. Unless told otherwise it refuses
a lone bracket, of which no statement can be made. -/
def openStore (c : StoreConfig)
    (refuses : String → String → Bool := fun _ value => decide (value = "(")) :
    Except Fault Source :=
  match c.kind with
  | .memory => .ok (Store.Memory.empty c.memoryIntervals).source
  | .table =>
    match c.table.refused? refuses with
    | some (name, value) => .error (.settingRefused name value)
    | none => .ok Store.Table.empty.source

end StoreConfig

end TripleQuery
