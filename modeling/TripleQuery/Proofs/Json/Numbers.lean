import Mathlib.Data.List.TakeWhile
import TripleQuery.Json.Token

/-!
Whole numbers of 64 bits written as JSON are read back as they are.
-/

namespace TripleQuery.Json.Number

/-! ### Digits -/

theorem natChars_ne_nil (n : Nat) : natChars n ≠ [] := Nat.toDigits_ne_nil

theorem isDigit_of_mem_natChars {n : Nat} {c : Char} (h : c ∈ natChars n) : c.isDigit = true :=
  Nat.isDigit_of_mem_toDigits (by decide) (by decide) h

theorem foldl_push_natChars (n : Nat) : (natChars n).foldl push 0 = n := by
  have folded := Nat.ofDigitChars_ten_toDigits (n := n)
  rw [Nat.ofDigitChars_eq_foldl] at folded
  exact folded

theorem takeUp_natChars {n : Nat} (small : n < 18446744073709551616) :
    takeUp 0 (natChars n) = (n, []) := by
  have bounded : (natChars n).foldl push 0 < 18446744073709551616 := by
    rw [foldl_push_natChars]
    exact small
  have taken := takeUp_of_lt bounded
  rwa [foldl_push_natChars] at taken

/-- Only zero begins with a zero. -/
theorem natChars_head (n : Nat) :
    natChars n = ['0'] ∨ ∃ c rest, natChars n = c :: rest ∧ c ≠ '0' := by
  induction n using Nat.strongRecOn with
  | ind n ih =>
    by_cases small : n < 10
    · rw [natChars, Nat.toDigits_of_lt_base small]
      by_cases zero : n = 0
      · subst n; exact .inl rfl
      · refine .inr ⟨n.digitChar, [], rfl, ?_⟩
        have nonzero : ∀ d < 10, d ≠ 0 → d.digitChar ≠ '0' := by decide
        exact nonzero n small zero
    · have split := Nat.toDigits_of_base_le (b := 10) (by decide) (Nat.le_of_not_lt small)
      rcases ih (n / 10) (by omega) with alone | ⟨c, rest, head, nonzero⟩
      · -- The leading digits of a larger number are not those of zero.
        have value := foldl_push_natChars (n / 10)
        rw [alone] at value
        have zero : n / 10 = 0 := value.symm
        omega
      · refine .inr ⟨c, rest ++ [(n % 10).digitChar], ?_, nonzero⟩
        rw [natChars, split]
        show natChars (n / 10) ++ _ = _
        rw [head]
        rfl

theorem isWhole_natChars (n : Nat) : isWhole (natChars n) = true := by
  rcases natChars_head n with alone | ⟨c, rest, head, nonzero⟩
  · rw [alone]; rfl
  · rw [head, isWhole.eq_def]
    split
    · rename_i same; cases same
    · rename_i same; cases same; exact absurd rfl nonzero
    · rfl

theorem unsigned_natChars (negative : Bool) {n : Nat} (small : n < 18446744073709551616) :
    unsigned? negative (natChars n) = some (ofWhole negative n 0) := by
  have all : ∀ c ∈ natChars n, c.isDigit = true := fun c member => isDigit_of_mem_natChars member
  have whole : (natChars n).takeWhile Char.isDigit = natChars n := List.takeWhile_eq_self_iff.mpr all
  have rest : (natChars n).dropWhile Char.isDigit = [] := List.dropWhile_eq_nil_iff.mpr all
  simp only [unsigned?, whole, rest, takeUp_natChars small, isWhole_natChars, if_true]
  rfl

/-! ### Integers -/

/-- The integers that JSON text keeps apart from decimals. -/
def IsStorable (value : Int) : Prop := -9223372036854775808 ≤ value ∧ value < 18446744073709551616

theorem ofChars_intChars {value : Int} (storable : IsStorable value) :
    ofChars? (intChars value) = some (.integer value) := by
  obtain ⟨low, high⟩ := storable
  cases value with
  | ofNat n =>
    have small : n < 18446744073709551616 := by simp only [Int.ofNat_eq_natCast] at high; omega
    have unsigned := unsigned_natChars false small
    show ofChars? (natChars n) = _
    rw [ofChars?.eq_def]
    split
    · rename_i text same
      have digit := isDigit_of_mem_natChars (n := n) (c := '-') (by rw [same]; simp)
      exact absurd digit (by decide)
    · rw [unsigned]
      rfl
  | negSucc n =>
    have small : n + 1 ≤ 9223372036854775808 := by rw [Int.negSucc_eq] at low; omega
    show unsigned? true (natChars (n + 1)) = _
    rw [unsigned_natChars true (by omega)]
    have within : ¬(n + 1 = 0 ∨ Nat.pow 2 63 < n + 1) := by
      rintro (zero | large)
      · omega
      · exact absurd (Nat.lt_of_lt_of_le large small) (Nat.lt_irrefl _)
    simp only [ofWhole, ne_eq, not_true_eq_false, if_false, Bool.not_true, Bool.false_eq_true,
      if_neg within]
    rw [Int.negSucc_eq]
    rfl

theorem storable_toInt (value : Int64) : IsStorable value.toInt := by
  have low := value.le_toInt
  have high := value.toInt_lt
  constructor
  · exact low
  · omega

/-! ### The lexer inside a number -/

theorem isNumberPart_of_isDigit {c : Char} (digit : c.isDigit = true) : isNumberPart c = true := by
  simp [isNumberPart, digit]

theorem isNumberPart_of_mem_intChars {value : Int} {c : Char} (h : c ∈ intChars value) :
    isNumberPart c = true := by
  cases value with
  | ofNat n => exact isNumberPart_of_isDigit (isDigit_of_mem_natChars h)
  | negSucc n =>
    rcases List.mem_cons.mp h with rfl | digit
    · rfl
    · exact isNumberPart_of_isDigit (isDigit_of_mem_natChars digit)

theorem intChars_head (value : Int) :
    ∃ c rest, intChars value = c :: rest ∧ isNumberStart c = true := by
  cases value with
  | ofNat n =>
    obtain ⟨c, rest, head⟩ := List.exists_cons_of_ne_nil (natChars_ne_nil n)
    refine ⟨c, rest, head, ?_⟩
    have digit : c.isDigit = true := isDigit_of_mem_natChars (n := n) (by rw [head]; simp)
    simp [isNumberStart, digit]
  | negSucc n => exact ⟨'-', natChars (n + 1), rfl, rfl⟩

end TripleQuery.Json.Number
