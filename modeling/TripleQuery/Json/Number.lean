/-!
Numbers as JSON writes them. Whole numbers of 64 bits are kept apart from decimals, and minus zero
is a decimal.
-/

namespace TripleQuery.Json

/-- A decimal stands for `± digits · 10 ^ exponent`. -/
inductive Number where
  | integer (value : Int)
  | decimal (negative : Bool) (digits : Nat) (exponent : Int)
  deriving DecidableEq

namespace Number

/-! ### Reading -/

def push (n : Nat) (c : Char) : Nat := 10 * n + (c.toNat - '0'.toNat)

def natOfDigits (digits : List Char) : Nat := digits.foldl push 0

/-- Takes up digits while the number has 64 bits at most, and leaves the rest. -/
def takeUp (n : Nat) : List Char → Nat × List Char
  | [] => (n, [])
  | c :: rest => if push n c < Nat.pow 2 64 then takeUp (push n c) rest else (n, c :: rest)

theorem le_foldl_push (n : Nat) (digits : List Char) : n ≤ digits.foldl push n := by
  induction digits generalizing n with
  | nil => exact Nat.le_refl n
  | cons c rest ih => exact Nat.le_trans (by unfold push; omega) (ih (push n c))

theorem takeUp_of_lt {n : Nat} {digits : List Char}
    (h : digits.foldl push n < Nat.pow 2 64) : takeUp n digits = (digits.foldl push n, []) := by
  induction digits generalizing n with
  | nil => rfl
  | cons c rest ih =>
    rw [takeUp, if_pos (Nat.lt_of_le_of_lt (le_foldl_push (push n c) rest) h)]
    exact ih h

/-- A leading zero stands alone. -/
def isWhole : List Char → Bool
  | [] => false
  | '0' :: rest => rest.isEmpty
  | _ :: _ => true

/-- The exponent part, if there is one; nothing may follow it. -/
def exponent? : List Char → Option (Option Int)
  | [] => some none
  | mark :: rest =>
    if mark = 'e' ∨ mark = 'E' then
      let (negative, digits) := match rest with
        | '-' :: digits => (true, digits)
        | '+' :: digits => (false, digits)
        | digits => (false, digits)
      if digits.isEmpty ∨ !digits.all Char.isDigit then none
      else
        let size : Int := natOfDigits digits
        some (some (if negative then -size else size))
    else none

/-- A whole number from the digits taken up and the count of those left. Minus zero and what 64
bits cannot hold are decimals. -/
def ofWhole (negative : Bool) (digits left : Nat) : Number :=
  if left ≠ 0 then .decimal negative digits left
  else if !negative then .integer digits
  else if digits = 0 ∨ Nat.pow 2 63 < digits then .decimal true digits 0
  else .integer (-digits)

/-- The number without its sign. Digits left over from the whole part count as zeros, and those
left over from the fraction are dropped. -/
def unsigned? (negative : Bool) (text : List Char) : Option Number :=
  let whole := text.takeWhile Char.isDigit
  let rest := text.dropWhile Char.isDigit
  let (digits, left) := takeUp 0 whole
  if isWhole whole then
    match rest with
    | '.' :: rest =>
      let fraction := rest.takeWhile Char.isDigit
      if fraction.isEmpty then none
      else
        let (digits, dropped) := takeUp digits fraction
        (exponent? (rest.dropWhile Char.isDigit)).map fun e =>
          .decimal negative digits (e.getD 0 + left.length + dropped.length - fraction.length)
    | rest =>
      (exponent? rest).map fun
        | some e => .decimal negative digits (e + left.length)
        | none => ofWhole negative digits left.length
  else none

def ofChars? : List Char → Option Number
  | '-' :: text => unsigned? true text
  | text => unsigned? false text

/-! ### Writing -/

def natChars (n : Nat) : List Char := Nat.toDigits 10 n

def intChars : Int → List Char
  | .ofNat n => natChars n
  | .negSucc n => '-' :: natChars (n + 1)

def toChars : Number → List Char
  | integer value => intChars value
  | decimal negative digits exponent =>
    (if negative then ['-'] else []) ++ natChars digits ++ 'e' :: intChars exponent

/-! ### Size -/

/-- The nearest number of 53 binary digits; a tie goes to the even neighbour. -/
def nearest (n : Nat) : Nat :=
  let unit := Nat.pow 2 (n.log2 - 52)
  let below := n / unit
  let twice := 2 * (n % unit)
  (if unit < twice ∨ (twice = unit ∧ below % 2 = 1) then below + 1 else below) * unit

/-- The midpoint between the largest binary64 number and the next power of two. -/
def overflow : Nat := Nat.pow 2 1024 - Nat.pow 2 970

/-- Whether binary64 holds the number. A decimal is the product of its digits and a power of ten,
each rounded first, so close to the limit the answer can differ from that for the exact value. -/
def isFinite : Number → Bool
  | integer _ => true
  | decimal _ digits exponent =>
    if digits = 0 ∨ exponent < 0 then true
    else if 308 < exponent then false
    else decide (nearest digits * nearest (Nat.pow 10 exponent.toNat) < overflow)

end Number

end TripleQuery.Json
