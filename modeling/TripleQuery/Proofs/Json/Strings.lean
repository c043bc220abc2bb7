import TripleQuery.Json.Token

/-!
Strings written as JSON are read back. Each character is escaped on its own, and an escaped
character never ends the string, so the lexer collects exactly what was written.
-/

namespace TripleQuery.Json

/-! ### One character -/

theorem hexValue_hexDigit : ∀ n < 16, hexValue? (hexDigit n) = some n := by decide

theorem hexDigit_ne_quote : ∀ n < 16, hexDigit n ≠ '"' ∧ hexDigit n ≠ '\\' := by decide

/-- A character is escaped by name, by number, or not at all. -/
theorem escape_cases (c : Char) :
    (∃ d, escape c = ['\\', d] ∧ d ≠ 'u' ∧ escapedUnit? d = some c.toNat) ∨
      (c.toNat < 0x20 ∧ escape c =
        ['\\', 'u', '0', '0', hexDigit (c.toNat / 16), hexDigit (c.toNat % 16)]) ∨
      (escape c = [c] ∧ c ≠ '"' ∧ c ≠ '\\' ∧ ¬c.toNat < 0x20) := by
  unfold escape
  split
  · subst c; exact .inl ⟨'"', rfl, by decide, rfl⟩
  split
  · subst c; exact .inl ⟨'\\', rfl, by decide, rfl⟩
  split
  · subst c; exact .inl ⟨'b', rfl, by decide, rfl⟩
  split
  · subst c; exact .inl ⟨'t', rfl, by decide, rfl⟩
  split
  · subst c; exact .inl ⟨'n', rfl, by decide, rfl⟩
  split
  · subst c; exact .inl ⟨'f', rfl, by decide, rfl⟩
  split
  · subst c; exact .inl ⟨'r', rfl, by decide, rfl⟩
  split
  · rename_i control
    exact .inr (.inl ⟨control, rfl⟩)
  · rename_i quote backslash _ _ _ _ _ control
    exact .inr (.inr ⟨rfl, quote, backslash, control⟩)

theorem units_named {d : Char} {unit : Nat} (number : d ≠ 'u') (named : escapedUnit? d = some unit)
    (rest : List Char) : units? ('\\' :: d :: rest) = (units? rest).map (unit :: ·) := by
  rw [units?.eq_def]
  split
  · rename_i same; cases same
  · rename_i same; cases same; exact absurd rfl number
  · rename_i same
    cases same
    rw [named]
    cases units? rest <;> rfl
  · rename_i plain same
    cases same
    exact (plain d rest rfl rfl).elim

theorem units_plain {c : Char} (backslash : c ≠ '\\') (quote : c ≠ '"') (control : ¬c.toNat < 0x20)
    (rest : List Char) : units? (c :: rest) = (units? rest).map (c.toNat :: ·) := by
  rw [units?.eq_def]
  split
  · rename_i same; cases same
  · rename_i same; cases same; exact absurd rfl backslash
  · rename_i same; cases same; exact absurd rfl backslash
  · rename_i same
    cases same
    rw [if_neg (by simp [control, backslash, quote])]
    cases units? rest <;> rfl

theorem units_escape (c : Char) (rest : List Char) :
    units? (escape c ++ rest) = (units? rest).map (c.toNat :: ·) := by
  rcases escape_cases c with ⟨d, written, number, named⟩ | ⟨control, written⟩ |
    ⟨written, quote, backslash, control⟩
  · rw [written]
    exact units_named number named rest
  · have high := hexValue_hexDigit (c.toNat / 16) (by omega)
    have low := hexValue_hexDigit (c.toNat % 16) (by omega)
    have zero : hexValue? '0' = some 0 := rfl
    have sum : 4096 * 0 + 256 * 0 + 16 * (c.toNat / 16) + c.toNat % 16 = c.toNat := by omega
    rw [written]
    show units? ('\\' :: 'u' :: '0' :: '0' :: _ :: _ :: rest) = _
    rw [units?]
    simp only [hexUnit?, high, low, zero, Option.bind_eq_bind, Option.bind_some, sum]
    cases units? rest <;> rfl
  · rw [written]
    exact units_plain backslash quote control rest

theorem units_escapeAll (text : String) :
    units? (escapeAll text) = some (text.toList.map Char.toNat) := by
  have folded : ∀ cs : List Char, units? (cs.flatMap escape) = some (cs.map Char.toNat) := by
    intro cs
    induction cs with
    | nil => rfl
    | cons c rest ih => rw [List.flatMap_cons, units_escape, ih]; rfl
  exact folded text.toList

/-! ### Code units -/

theorem char_not_surrogate (c : Char) :
    isHighSurrogate c.toNat = false ∧ isLowSurrogate c.toNat = false := by
  have valid : c.toNat < 0xd800 ∨ (0xdfff < c.toNat ∧ c.toNat < 0x110000) := c.valid
  constructor
  · simp only [isHighSurrogate, decide_eq_false_iff_not]; omega
  · simp only [isLowSurrogate, decide_eq_false_iff_not]; omega

theorem ofUnits_map_toNat (cs : List Char) : ofUnits? (cs.map Char.toNat) = some cs := by
  induction cs with
  | nil => rfl
  | cons c rest ih =>
    obtain ⟨high, low⟩ := char_not_surrogate c
    cases rest with
    | nil => simp [ofUnits?, high, low]
    | cons d rest =>
      rw [List.map_cons] at ih
      simp [ofUnits?, high, low, ih]

theorem ofBody_escapeAll (text : String) :
    Token.ofBody? (escapeAll text) = some (.string (some text)) := by
  rw [Token.ofBody?, units_escapeAll, Option.map_some, ofUnits_map_toNat]
  simp

/-! ### The lexer inside a string -/

namespace Lexer

theorem run_silent {state : Lexer} {c : Char} (next : Lexer) (taken : step state c = some (next, []))
    (rest : List Char) : run state (c :: rest) = run next rest := by
  rw [run, taken]
  show (run next rest).bind _ = _
  cases run next rest <;> rfl

theorem run_emits {state : Lexer} {c : Char} {token : Token} (next : Lexer)
    (taken : step state c = some (next, [token])) (rest : List Char) :
    run state (c :: rest) = (run next rest).map (token :: ·) := by
  rw [run, taken]
  show (run next rest).bind _ = _
  cases run next rest <;> rfl

theorem run_inString_plain {c : Char} (quote : c ≠ '"') (backslash : c ≠ '\\') (body : List Char)
    (rest : List Char) :
    run (inString body false) (c :: rest) = run (inString (c :: body) false) rest :=
  run_silent _ (by simp [step, quote, backslash]) rest

theorem run_inString_escaped (c : Char) (body : List Char) (rest : List Char) :
    run (inString body false) ('\\' :: c :: rest) =
      run (inString (c :: '\\' :: body) false) rest := by
  rw [run_silent (inString ('\\' :: body) true) rfl]
  exact run_silent _ rfl rest

theorem run_inString_escape (c : Char) (body rest : List Char) :
    run (inString body false) (escape c ++ rest) =
      run (inString ((escape c).reverse ++ body) false) rest := by
  rcases escape_cases c with ⟨d, written, _, _⟩ | ⟨control, written⟩ |
    ⟨written, quote, backslash, _⟩
  · rw [written]
    exact run_inString_escaped d body rest
  · have high := hexDigit_ne_quote (c.toNat / 16) (by omega)
    have low := hexDigit_ne_quote (c.toNat % 16) (by omega)
    rw [written]
    show run (inString body false) ('\\' :: 'u' :: '0' :: '0' :: _ :: _ :: rest) = _
    rw [run_inString_escaped, run_inString_plain (by decide) (by decide),
      run_inString_plain (by decide) (by decide), run_inString_plain high.1 high.2,
      run_inString_plain low.1 low.2]
    rfl
  · rw [written]
    exact run_inString_plain quote backslash body rest

theorem run_inString_escapeAll (text : String) (body rest : List Char) :
    run (inString body false) (escapeAll text ++ rest) =
      run (inString ((escapeAll text).reverse ++ body) false) rest := by
  have folded : ∀ (cs body : List Char), run (inString body false) (cs.flatMap escape ++ rest) =
      run (inString ((cs.flatMap escape).reverse ++ body) false) rest := by
    intro cs
    induction cs with
    | nil => intro body; rfl
    | cons c cs ih =>
      intro body
      rw [List.flatMap_cons, List.append_assoc, run_inString_escape, ih, List.reverse_append,
        List.append_assoc]
  exact folded text.toList body

theorem run_quoted (text : String) (rest : List Char) :
    run between ('"' :: (escapeAll text ++ '"' :: rest)) =
      (run between rest).map (Token.string (some text) :: ·) := by
  have closing : step (inString (escapeAll text).reverse false) '"' =
      some (between, [.string (some text)]) := by
    simp [step, ofBody_escapeAll]
  rw [run_silent (inString [] false) rfl, run_inString_escapeAll, List.append_nil]
  exact run_emits between closing rest

end Lexer

end TripleQuery.Json
