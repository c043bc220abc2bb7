/-!
The body of a JSON string: the characters between its quotes. A body is read into code units,
which are then joined into characters; an unpaired surrogate is well-formed but names no text.
-/

namespace TripleQuery.Json

/-! ### Writing -/

def hexDigit (n : Nat) : Char := Char.ofNat (if n < 10 then 48 + n else 87 + n)

/-- Quotes, backslashes and controls are escaped, all else stands for itself. -/
def escape (c : Char) : List Char :=
  if c = '"' then ['\\', '"']
  else if c = '\\' then ['\\', '\\']
  else if c = '\x08' then ['\\', 'b']
  else if c = '\t' then ['\\', 't']
  else if c = '\n' then ['\\', 'n']
  else if c = '\x0c' then ['\\', 'f']
  else if c = '\r' then ['\\', 'r']
  else if c.toNat < 0x20 then
    ['\\', 'u', '0', '0', hexDigit (c.toNat / 16), hexDigit (c.toNat % 16)]
  else [c]

def escapeAll (text : String) : List Char := text.toList.flatMap escape

/-! ### Reading -/

def hexValue? (c : Char) : Option Nat :=
  if '0' ≤ c ∧ c ≤ '9' then some (c.toNat - 48)
  else if 'a' ≤ c ∧ c ≤ 'f' then some (c.toNat - 87)
  else if 'A' ≤ c ∧ c ≤ 'F' then some (c.toNat - 55)
  else none

def escapedUnit? : Char → Option Nat
  | '"' => some 0x22
  | '\\' => some 0x5c
  | '/' => some 0x2f
  | 'b' => some 0x08
  | 'f' => some 0x0c
  | 'n' => some 0x0a
  | 'r' => some 0x0d
  | 't' => some 0x09
  | _ => none

def hexUnit? (a b c d : Char) : Option Nat := do
  return 4096 * (← hexValue? a) + 256 * (← hexValue? b) + 16 * (← hexValue? c) + (← hexValue? d)

/-- The code units of a body. Controls and stray backslashes are refused. -/
def units? : List Char → Option (List Nat)
  | [] => some []
  | '\\' :: 'u' :: a :: b :: c :: d :: rest => do
    let unit ← hexUnit? a b c d
    return unit :: (← units? rest)
  | '\\' :: c :: rest => do
    let unit ← escapedUnit? c
    return unit :: (← units? rest)
  | c :: rest =>
    if c.toNat < 0x20 ∨ c = '\\' ∨ c = '"' then none
    else do return c.toNat :: (← units? rest)

def isHighSurrogate (unit : Nat) : Bool := decide (0xd800 ≤ unit ∧ unit < 0xdc00)

def isLowSurrogate (unit : Nat) : Bool := decide (0xdc00 ≤ unit ∧ unit < 0xe000)

/-- The characters of code units, unless a surrogate is unpaired. -/
def ofUnits? : List Nat → Option (List Char)
  | [] => some []
  | high :: low :: rest =>
    if isHighSurrogate high then
      if isLowSurrogate low then do
        return Char.ofNat (0x10000 + 0x400 * (high - 0xd800) + (low - 0xdc00)) :: (← ofUnits? rest)
      else none
    else if isLowSurrogate high then none
    else do return Char.ofNat high :: (← ofUnits? (low :: rest))
  | [unit] =>
    if isHighSurrogate unit ∨ isLowSurrogate unit then none else some [Char.ofNat unit]

end TripleQuery.Json
