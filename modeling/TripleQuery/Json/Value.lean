import TripleQuery.Json.Token

/-!
JSON values as read: members keep their order and their repetitions, because what a repeated or
unknown member means is for the reader of a record to say.
-/

namespace TripleQuery.Json

/-- A string or key without text holds an unpaired surrogate. -/
inductive Value where
  | null
  | boolean (value : Bool)
  | number (value : Number)
  | string (text : Option String)
  | array (items : List Value)
  | object (members : List (Option String × Value))
  deriving Inhabited

/-! ### Reading -/

/-- A container that is still open; what it holds is in reverse. -/
inductive Frame where
  | array (items : List Value)
  | object (key : Option String) (members : List (Option String × Value))

/-- What the text read so far is waiting for, inside the containers still open. -/
inductive Progress where
  | value (outer : List Frame)
  | firstItem (outer : List Frame)
  | firstKey (outer : List Frame)
  | nextKey (members : List (Option String × Value)) (outer : List Frame)
  | colon (key : Option String) (members : List (Option String × Value)) (outer : List Frame)
  | nextItem (items : List Value) (outer : List Frame)
  | nextMember (members : List (Option String × Value)) (outer : List Frame)
  | nothing (result : Value)

namespace Progress

/-- A finished value goes into the innermost open container. -/
def put (value : Value) : List Frame → Progress
  | [] => nothing value
  | .array items :: outer => nextItem (value :: items) outer
  | .object key members :: outer => nextMember ((key, value) :: members) outer

def begin (outer : List Frame) : Token → Option Progress
  | .openArray => some (firstItem outer)
  | .openObject => some (firstKey outer)
  | .null => some (put .null outer)
  | .boolean b => some (put (.boolean b) outer)
  | .number n => some (put (.number n) outer)
  | .string text => some (put (.string text) outer)
  | .closeArray | .closeObject | .comma | .colon => none

def step : Progress → Token → Option Progress
  | value outer, token => begin outer token
  | firstItem outer, .closeArray => some (put (.array []) outer)
  | firstItem outer, token => begin (.array [] :: outer) token
  | firstKey outer, .closeObject => some (put (.object []) outer)
  | firstKey outer, .string text => some (colon text [] outer)
  | nextKey members outer, .string text => some (colon text members outer)
  | colon text members outer, .colon => some (value (.object text members :: outer))
  | nextItem items outer, .comma => some (value (.array items :: outer))
  | nextItem items outer, .closeArray => some (put (.array items.reverse) outer)
  | nextMember members outer, .comma => some (nextKey members outer)
  | nextMember members outer, .closeObject => some (put (.object members.reverse) outer)
  | _, _ => none

def run : Progress → List Token → Option Progress
  | progress, [] => some progress
  | progress, token :: rest => (step progress token).bind (run · rest)

end Progress

def parse? (text : String) : Option Value := do
  match ← Progress.run (.value []) (← tokens? text) with
  | .nothing result => some result
  | _ => none

namespace Value

/-! ### Writing -/

structure Layout where
  /-- What stands before an item at some depth, and before the closing bracket. -/
  breakLine : Nat → List Char
  afterColon : List Char

def compact : Layout := ⟨fun _ => [], []⟩

/-- One item a line, indented by two for each level. -/
def spread : Layout := ⟨fun depth => '\n' :: List.replicate (2 * depth) ' ', [' ']⟩

/-- An unpaired surrogate stands for any string without text. -/
def stringChars : Option String → List Char
  | some text => '"' :: escapeAll text ++ ['"']
  | none => ['"', '\\', 'u', 'd', '8', '0', '0', '"']

mutual

def write (layout : Layout) (depth : Nat) : Value → List Char
  | null => ['n', 'u', 'l', 'l']
  | boolean true => ['t', 'r', 'u', 'e']
  | boolean false => ['f', 'a', 'l', 's', 'e']
  | number n => n.toChars
  | string text => stringChars text
  | array [] => ['[', ']']
  | array (item :: items) =>
    '[' :: layout.breakLine (depth + 1) ++ write layout (depth + 1) item ++
      writeItems layout depth items
  | object [] => ['\x7b', '\x7d']
  | object ((key, value) :: members) =>
    '\x7b' :: layout.breakLine (depth + 1) ++ stringChars key ++ ':' :: layout.afterColon ++
      write layout (depth + 1) value ++ writeMembers layout depth members

/-- The items after the first, and the closing bracket. -/
def writeItems (layout : Layout) (depth : Nat) : List Value → List Char
  | [] => layout.breakLine depth ++ [']']
  | item :: items =>
    ',' :: layout.breakLine (depth + 1) ++ write layout (depth + 1) item ++
      writeItems layout depth items

/-- The members after the first, and the closing brace. -/
def writeMembers (layout : Layout) (depth : Nat) : List (Option String × Value) → List Char
  | [] => layout.breakLine depth ++ ['\x7d']
  | (key, value) :: members =>
    ',' :: layout.breakLine (depth + 1) ++ stringChars key ++ ':' :: layout.afterColon ++
      write layout (depth + 1) value ++ writeMembers layout depth members

end

def render (v : Value) : String := String.ofList (write compact 0 v)

def renderSpread (v : Value) : String := String.ofList (write spread 0 v)

/-! ### Well-behaved values -/

mutual

/-- Whether every string has a text, every number is finite, and containers nest at most `room`
deep. -/
def isPlain (room : Nat) : Value → Bool
  | null | boolean _ => true
  | number n => n.isFinite
  | string text => text.isSome
  | array items => decide (0 < room) && areItemsPlain (room - 1) items
  | object members => decide (0 < room) && areMembersPlain (room - 1) members

def areItemsPlain (room : Nat) : List Value → Bool
  | [] => true
  | item :: items => isPlain room item && areItemsPlain room items

def areMembersPlain (room : Nat) : List (Option String × Value) → Bool
  | [] => true
  | (key, value) :: members =>
    key.isSome && isPlain room value && areMembersPlain room members

end

end Value

end TripleQuery.Json
