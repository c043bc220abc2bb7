import TripleQuery.Json.Number
import TripleQuery.Json.Escape

/-!
The tokens of a JSON text. The lexer reads one character at a time; a string, a word and a
number are collected until the character that ends them.
-/

namespace TripleQuery.Json

/-- A string without text holds an unpaired surrogate. -/
inductive Token where
  | openArray
  | closeArray
  | openObject
  | closeObject
  | comma
  | colon
  | null
  | boolean (value : Bool)
  | number (value : Number)
  | string (text : Option String)
  deriving DecidableEq

namespace Token

def ofWord? (letters : List Char) : Option Token :=
  if letters = ['n', 'u', 'l', 'l'] then some .null
  else if letters = ['t', 'r', 'u', 'e'] then some (.boolean true)
  else if letters = ['f', 'a', 'l', 's', 'e'] then some (.boolean false)
  else none

def ofBody? (body : List Char) : Option Token :=
  (units? body).map fun units => .string ((ofUnits? units).map String.ofList)

def ofMark? : Char → Option Token
  | '[' => some .openArray
  | ']' => some .closeArray
  | '\x7b' => some .openObject
  | '\x7d' => some .closeObject
  | ',' => some .comma
  | ':' => some .colon
  | _ => none

end Token

def isSpace (c : Char) : Bool := c = ' ' || c = '\n' || c = '\t' || c = '\r'

def isNumberStart (c : Char) : Bool := c.isDigit || c = '-'

def isNumberPart (c : Char) : Bool :=
  c.isDigit || c = '-' || c = '+' || c = '.' || c = 'e' || c = 'E'

/-! ### The lexer -/

/-- What is being read; collected characters are held in reverse. -/
inductive Lexer where
  | between
  | inString (body : List Char) (escaped : Bool)
  | inWord (letters : List Char)
  | inNumber (digits : List Char)

namespace Lexer

/-- A character where a token may begin. -/
def start (c : Char) : Option (Lexer × List Token) :=
  if isSpace c then some (between, [])
  else if c = '"' then some (inString [] false, [])
  else if isNumberStart c then some (inNumber [c], [])
  else if c.isAlpha then some (inWord [c], [])
  else (Token.ofMark? c).map fun token => (between, [token])

/-- The token that ends where `c` does not continue it. -/
def pending? : Lexer → Option (List Token)
  | between => some []
  | inString _ _ => none
  | inWord letters => (Token.ofWord? letters.reverse).map ([·])
  | inNumber digits => (Number.ofChars? digits.reverse).map ([.number ·])

def step (state : Lexer) (c : Char) : Option (Lexer × List Token) :=
  match state with
  | inString body true => some (inString (c :: body) false, [])
  | inString body false =>
    if c = '"' then (Token.ofBody? body.reverse).map fun token => (between, [token])
    else some (inString (c :: body) (c = '\\'), [])
  | inWord letters =>
    if c.isAlpha then some (inWord (c :: letters), []) else finishThenStart
  | inNumber digits =>
    if isNumberPart c then some (inNumber (c :: digits), []) else finishThenStart
  | between => start c
where
  finishThenStart : Option (Lexer × List Token) := do
    let finished ← pending? state
    let (next, tokens) ← start c
    return (next, finished ++ tokens)

def run : Lexer → List Char → Option (List Token)
  | state, [] => pending? state
  | state, c :: rest => do
    let (next, tokens) ← step state c
    return tokens ++ (← run next rest)

end Lexer

def tokens? (text : String) : Option (List Token) := Lexer.between.run text.toList

end TripleQuery.Json
