import TripleQuery.Json.Value
import TripleQuery.Proofs.Json.Numbers
import TripleQuery.Proofs.Json.Strings

/-!
Reading what was written gives the value back. The tokens of a value stand between the two: the
lexer finds them in the written text, whatever the layout, and the parser builds the value from
them.
-/

namespace TripleQuery.Json

namespace Value

/-! ### Values that text can hold -/

mutual

/-- Whether every string has a text and every number is an integer of 64 bits. -/
def isExact : Value → Bool
  | null | boolean _ => true
  | number (.integer n) => decide (-9223372036854775808 ≤ n ∧ n < 18446744073709551616)
  | number (.decimal _ _ _) => false
  | string text => text.isSome
  | array items => areItemsExact items
  | object members => areMembersExact members

def areItemsExact : List Value → Bool
  | [] => true
  | item :: items => isExact item && areItemsExact items

def areMembersExact : List (Option String × Value) → Bool
  | [] => true
  | (key, value) :: members => key.isSome && isExact value && areMembersExact members

end

/-! ### The tokens of a value -/

mutual

def tokens : Value → List Token
  | null => [.null]
  | boolean b => [.boolean b]
  | number n => [.number n]
  | string text => [.string text]
  | array [] => [.openArray, .closeArray]
  | array (item :: items) => .openArray :: (tokens item ++ itemTokens items)
  | object [] => [.openObject, .closeObject]
  | object ((key, value) :: members) =>
    .openObject :: .string key :: .colon :: (tokens value ++ memberTokens members)

/-- The tokens after the first item. -/
def itemTokens : List Value → List Token
  | [] => [.closeArray]
  | item :: items => .comma :: (tokens item ++ itemTokens items)

def memberTokens : List (Option String × Value) → List Token
  | [] => [.closeObject]
  | (key, value) :: members =>
    .comma :: .string key :: .colon :: (tokens value ++ memberTokens members)

end

end Value

/-! ### From text to tokens -/

/-- What ends a word and a number. -/
def Stops (text : List Char) : Prop :=
  ∀ c rest, text = c :: rest → isNumberPart c = false ∧ c.isAlpha = false

theorem stops_nil : Stops [] := by
  intro c rest same
  cases same

theorem stops_cons {c : Char} (number : isNumberPart c = false) (alpha : c.isAlpha = false)
    (rest : List Char) : Stops (c :: rest) := by
  intro d rest same
  cases same
  exact ⟨number, alpha⟩

theorem space_cases {c : Char} (space : isSpace c = true) :
    c = ' ' ∨ c = '\n' ∨ c = '\t' ∨ c = '\r' := by
  simpa [isSpace, or_assoc] using space

theorem stops_blank {blank rest : List Char} (spaces : ∀ c ∈ blank, isSpace c = true)
    (stops : Stops rest) : Stops (blank ++ rest) := by
  cases blank with
  | nil => exact stops
  | cons c blank =>
    rcases space_cases (spaces c List.mem_cons_self) with rfl | rfl | rfl | rfl <;>
      exact stops_cons (by decide) (by decide) _

namespace Lexer

theorem run_blank {blank : List Char} (spaces : ∀ c ∈ blank, isSpace c = true)
    (rest : List Char) : run between (blank ++ rest) = run between rest := by
  induction blank with
  | nil => rfl
  | cons c blank ih =>
    have space := spaces c List.mem_cons_self
    have skipped : step between c = some (between, []) := by simp [step, start, space]
    rw [List.cons_append, run_silent between skipped]
    exact ih fun d member => spaces d (List.mem_cons_of_mem _ member)

/-- A word or a number ends where the text stops it, and the lexer goes on from there. -/
theorem run_stopped {state : Lexer} {text : List Char} {finished : List Token}
    (collected : pending? state = some finished)
    (refuses : ∀ c rest, text = c :: rest → step state c = step.finishThenStart state c) :
    run state text = (run between text).map (finished ++ ·) := by
  cases text with
  | nil => rw [run, collected]; simp [run, pending?]
  | cons c rest =>
    rw [run, run, refuses c rest rfl, step.finishThenStart, collected]
    simp only [step, Option.bind_eq_bind, Option.bind_some]
    cases start c with
    | none => rfl
    | some begun =>
      obtain ⟨next, tokens⟩ := begun
      simp only [Option.bind_some]
      cases after : run next rest <;> simp [after]

/-! ### Words -/

/-- Characters that a state keeps collecting, in reverse. -/
theorem run_collect {state : List Char → Lexer} {parts : List Char}
    (taken : ∀ c ∈ parts, ∀ before, step (state before) c = some (state (c :: before), []))
    (before rest : List Char) :
    run (state before) (parts ++ rest) = run (state (parts.reverse ++ before)) rest := by
  induction parts generalizing before with
  | nil => rfl
  | cons c parts ih =>
    rw [List.cons_append, run_silent _ (taken c List.mem_cons_self before),
      ih fun d member => taken d (List.mem_cons_of_mem _ member), List.reverse_cons,
      List.append_assoc]
    rfl

theorem run_word {c : Char} {letters rest : List Char} {token : Token}
    (begun : start c = some (inWord [c], [])) (all : letters.all Char.isAlpha = true)
    (word : Token.ofWord? (c :: letters) = some token) (stops : Stops rest) :
    run between (c :: letters ++ rest) = (run between rest).map (token :: ·) := by
  have taken : ∀ d ∈ letters, ∀ before,
      step (inWord before) d = some (inWord (d :: before), []) := by
    intro d member before
    have alpha : d.isAlpha = true := List.all_eq_true.mp all d member
    simp only [step, alpha, if_true]
  have collected : pending? (inWord (letters.reverse ++ [c])) = some [token] := by
    have order : (letters.reverse ++ [c]).reverse = c :: letters := by simp
    rw [pending?, order, word]
    rfl
  have stopped : ∀ d rest', rest = d :: rest' →
      step (inWord (letters.reverse ++ [c])) d =
        step.finishThenStart (inWord (letters.reverse ++ [c])) d := by
    intro d rest' same
    simp [step, (stops d rest' same).2]
  have begun : step between c = some (inWord [c], []) := begun
  rw [List.cons_append, run_silent _ begun, run_collect taken]
  exact run_stopped collected stopped

theorem run_null {rest : List Char} (stops : Stops rest) :
    run between (['n', 'u', 'l', 'l'] ++ rest) = (run between rest).map (Token.null :: ·) :=
  run_word rfl rfl rfl stops

theorem run_true {rest : List Char} (stops : Stops rest) :
    run between (['t', 'r', 'u', 'e'] ++ rest) =
      (run between rest).map (Token.boolean true :: ·) :=
  run_word rfl rfl rfl stops

theorem run_false {rest : List Char} (stops : Stops rest) :
    run between (['f', 'a', 'l', 's', 'e'] ++ rest) =
      (run between rest).map (Token.boolean false :: ·) :=
  run_word rfl rfl rfl stops

/-! ### Numbers -/

theorem start_number {c : Char} (begins : isNumberStart c = true) :
    start c = some (inNumber [c], []) := by
  have space : isSpace c = false := by
    cases spaced : isSpace c with
    | false => rfl
    | true =>
      rcases space_cases spaced with rfl | rfl | rfl | rfl <;> exact absurd begins (by decide)
  have quote : c ≠ '"' := by
    rintro rfl
    exact absurd begins (by decide)
  simp [start, space, quote, begins]

theorem run_integer {value : Int} (storable : Number.IsStorable value) {rest : List Char}
    (stops : Stops rest) :
    run between (Number.intChars value ++ rest) =
      (run between rest).map (Token.number (.integer value) :: ·) := by
  obtain ⟨c, digits, head, begins⟩ := Number.intChars_head value
  have taken : ∀ d ∈ digits, ∀ before,
      step (inNumber before) d = some (inNumber (d :: before), []) := by
    intro d member before
    have written : d ∈ Number.intChars value := by simp [head, member]
    simp only [step, Number.isNumberPart_of_mem_intChars written, if_true]
  have read := Number.ofChars_intChars storable
  have collected : pending? (inNumber (digits.reverse ++ [c])) =
      some [.number (.integer value)] := by
    have order : (digits.reverse ++ [c]).reverse = Number.intChars value := by rw [head]; simp
    rw [pending?, order, read]
    rfl
  have stopped : ∀ d rest', rest = d :: rest' →
      step (inNumber (digits.reverse ++ [c])) d =
        step.finishThenStart (inNumber (digits.reverse ++ [c])) d := by
    intro d rest' same
    simp [step, (stops d rest' same).1]
  have begun : step between c = some (inNumber [c], []) := start_number begins
  rw [head, List.cons_append, run_silent _ begun, run_collect taken]
  exact run_stopped collected stopped

end Lexer

/-! ### Written values -/

/-- Both layouts put nothing but blanks between tokens. -/
structure Value.Layout.IsBlank (layout : Value.Layout) : Prop where
  breakLine : ∀ depth, ∀ c ∈ layout.breakLine depth, isSpace c = true
  afterColon : ∀ c ∈ layout.afterColon, isSpace c = true

namespace Value

theorem isBlank_compact : compact.IsBlank where
  breakLine _ _ member := absurd member List.not_mem_nil
  afterColon _ member := absurd member List.not_mem_nil

theorem isBlank_spread : spread.IsBlank where
  breakLine depth c member := by
    rcases List.mem_cons.mp member with rfl | later
    · rfl
    · rw [List.eq_of_mem_replicate later]
      rfl
  afterColon c member := by
    rw [List.mem_singleton.mp member]
    rfl

variable {layout : Layout}

theorem stops_writeItems (blank : layout.IsBlank) (depth : Nat) (items : List Value)
    (rest : List Char) : Stops (writeItems layout depth items ++ rest) := by
  cases items with
  | nil =>
    rw [writeItems, List.append_assoc]
    exact stops_blank (blank.breakLine depth) (stops_cons (by decide) (by decide) _)
  | cons item items => exact stops_cons (by decide) (by decide) _

theorem stops_writeMembers (blank : layout.IsBlank) (depth : Nat)
    (members : List (Option String × Value)) (rest : List Char) :
    Stops (writeMembers layout depth members ++ rest) := by
  cases members with
  | nil =>
    rw [writeMembers, List.append_assoc]
    exact stops_blank (blank.breakLine depth) (stops_cons (by decide) (by decide) _)
  | cons member members => exact stops_cons (by decide) (by decide) _

theorem run_string {text : Option String} (exact : text.isSome = true) (rest : List Char) :
    Lexer.between.run (stringChars text ++ rest) =
      (Lexer.between.run rest).map (Token.string text :: ·) := by
  obtain ⟨text, rfl⟩ := Option.isSome_iff_exists.mp exact
  simp only [stringChars, List.cons_append, List.append_assoc]
  exact Lexer.run_quoted text rest

mutual

/-- The lexer finds the tokens of a value in its written form. -/
theorem run_write (blank : layout.IsBlank) (depth : Nat) {rest : List Char} (stops : Stops rest) :
    ∀ v : Value, v.isExact = true →
      Lexer.between.run (write layout depth v ++ rest) =
        (Lexer.between.run rest).map (v.tokens ++ ·)
  | null, _ => Lexer.run_null stops
  | boolean true, _ => Lexer.run_true stops
  | boolean false, _ => Lexer.run_false stops
  | number (.integer n), exact => by
    rw [isExact, decide_eq_true_eq] at exact
    exact Lexer.run_integer exact stops
  | string text, exact => run_string exact rest
  | array [], _ => by
    show Lexer.between.run ('[' :: ']' :: rest) = _
    rw [Lexer.run_emits .between rfl, Lexer.run_emits .between rfl,
      Option.map_map]
    rfl
  | array (item :: items), exact => by
    rw [isExact, areItemsExact, Bool.and_eq_true] at exact
    simp only [write, List.cons_append, List.append_assoc]
    rw [Lexer.run_emits .between rfl, Lexer.run_blank (blank.breakLine _),
      run_write blank (depth + 1) (stops_writeItems blank depth items rest) item exact.1,
      run_writeItems blank depth items exact.2 rest]
    simp [Option.map_map, Function.comp_def, tokens]
  | object [], _ => by
    show Lexer.between.run ('\x7b' :: '\x7d' :: rest) = _
    rw [Lexer.run_emits .between rfl, Lexer.run_emits .between rfl,
      Option.map_map]
    rfl
  | object ((key, value) :: members), exact => by
    rw [isExact, areMembersExact, Bool.and_eq_true, Bool.and_eq_true] at exact
    simp only [write, List.cons_append, List.append_assoc]
    rw [Lexer.run_emits .between rfl, Lexer.run_blank (blank.breakLine _),
      run_string exact.1.1, Lexer.run_emits .between rfl,
      Lexer.run_blank blank.afterColon,
      run_write blank (depth + 1) (stops_writeMembers blank depth members rest) value exact.1.2,
      run_writeMembers blank depth members exact.2 rest]
    simp [Option.map_map, Function.comp_def, tokens]

theorem run_writeItems (blank : layout.IsBlank) (depth : Nat) :
    ∀ items : List Value, areItemsExact items = true → ∀ rest : List Char,
      Lexer.between.run (writeItems layout depth items ++ rest) =
        (Lexer.between.run rest).map (itemTokens items ++ ·)
  | [], _, rest => by
    rw [writeItems, List.append_assoc, Lexer.run_blank (blank.breakLine _)]
    exact Lexer.run_emits .between rfl rest
  | item :: items, exact, rest => by
    rw [areItemsExact, Bool.and_eq_true] at exact
    simp only [writeItems, List.cons_append, List.append_assoc]
    rw [Lexer.run_emits .between rfl, Lexer.run_blank (blank.breakLine _),
      run_write blank (depth + 1) (stops_writeItems blank depth items rest) item exact.1,
      run_writeItems blank depth items exact.2 rest]
    simp [Option.map_map, Function.comp_def, itemTokens]

theorem run_writeMembers (blank : layout.IsBlank) (depth : Nat) :
    ∀ members : List (Option String × Value), areMembersExact members = true →
      ∀ rest : List Char,
        Lexer.between.run (writeMembers layout depth members ++ rest) =
          (Lexer.between.run rest).map (memberTokens members ++ ·)
  | [], _, rest => by
    rw [writeMembers, List.append_assoc, Lexer.run_blank (blank.breakLine _)]
    exact Lexer.run_emits .between rfl rest
  | (key, value) :: members, exact, rest => by
    rw [areMembersExact, Bool.and_eq_true, Bool.and_eq_true] at exact
    simp only [writeMembers, List.cons_append, List.append_assoc]
    rw [Lexer.run_emits .between rfl, Lexer.run_blank (blank.breakLine _),
      run_string exact.1.1, Lexer.run_emits .between rfl,
      Lexer.run_blank blank.afterColon,
      run_write blank (depth + 1) (stops_writeMembers blank depth members rest) value exact.1.2,
      run_writeMembers blank depth members exact.2 rest]
    simp [Option.map_map, Function.comp_def, memberTokens]

end

/-! ### From tokens to the value -/

/-- Whatever a value begins with, it does not close an array. -/
theorem run_firstItem (v : Value) (outer : List Frame) (rest : List Token) :
    Progress.run (.firstItem outer) (v.tokens ++ rest) =
      Progress.run (.value (.array [] :: outer)) (v.tokens ++ rest) := by
  cases v with
  | array items => cases items <;> rfl
  | object members => cases members <;> rfl
  | _ => rfl

mutual

/-- The parser builds a value from its tokens. -/
theorem run_tokens : ∀ (v : Value) (outer : List Frame) (rest : List Token),
    Progress.run (.value outer) (v.tokens ++ rest) = Progress.run (.put v outer) rest
  | null, _, _ => rfl
  | boolean _, _, _ => rfl
  | number _, _, _ => rfl
  | string _, _, _ => rfl
  | array [], _, _ => rfl
  | array (item :: items), outer, rest => by
    rw [tokens, List.cons_append, List.append_assoc]
    show Progress.run (.firstItem outer) (item.tokens ++ (itemTokens items ++ rest)) = _
    rw [run_firstItem, run_tokens item]
    exact run_itemTokens items [item] outer rest
  | object [], _, _ => rfl
  | object ((key, value) :: members), outer, rest => by
    rw [tokens, List.cons_append, List.cons_append, List.cons_append, List.append_assoc]
    show Progress.run (.value (.object key [] :: outer))
      (value.tokens ++ (memberTokens members ++ rest)) = _
    rw [run_tokens value]
    exact run_memberTokens members [(key, value)] outer rest

theorem run_itemTokens : ∀ (items before : List Value) (outer : List Frame) (rest : List Token),
    Progress.run (.nextItem before outer) (itemTokens items ++ rest) =
      Progress.run (.put (array (before.reverse ++ items)) outer) rest
  | [], before, outer, rest => by rw [List.append_nil]; rfl
  | item :: items, before, outer, rest => by
    rw [itemTokens, List.cons_append, List.append_assoc]
    show Progress.run (.value (.array before :: outer))
      (item.tokens ++ (itemTokens items ++ rest)) = _
    rw [run_tokens item]
    show Progress.run (.nextItem (item :: before) outer) (itemTokens items ++ rest) = _
    rw [run_itemTokens items (item :: before) outer rest, List.reverse_cons, List.append_assoc]
    rfl

theorem run_memberTokens : ∀ (members before : List (Option String × Value)) (outer : List Frame)
    (rest : List Token),
    Progress.run (.nextMember before outer) (memberTokens members ++ rest) =
      Progress.run (.put (object (before.reverse ++ members)) outer) rest
  | [], before, outer, rest => by rw [List.append_nil]; rfl
  | (key, value) :: members, before, outer, rest => by
    rw [memberTokens, List.cons_append, List.cons_append, List.cons_append, List.append_assoc]
    show Progress.run (.value (.object key before :: outer))
      (value.tokens ++ (memberTokens members ++ rest)) = _
    rw [run_tokens value]
    show Progress.run (.nextMember ((key, value) :: before) outer) (memberTokens members ++ rest) = _
    rw [run_memberTokens members ((key, value) :: before) outer rest, List.reverse_cons,
      List.append_assoc]
    rfl

end

/-- A value reads back from its text, in either layout. -/
theorem parse_write (blank : layout.IsBlank) {v : Value} (exact : v.isExact = true) :
    parse? (String.ofList (write layout 0 v)) = some v := by
  have lexed : tokens? (String.ofList (write layout 0 v)) = some v.tokens := by
    have run := run_write blank 0 stops_nil v exact
    rw [List.append_nil] at run
    rw [tokens?, String.toList_ofList, run]
    simp [Lexer.run, Lexer.pending?]
  have parsed : Progress.run (.value []) v.tokens = some (.nothing v) := by
    have run := run_tokens v [] []
    rw [List.append_nil] at run
    exact run
  simp [parse?, lexed, parsed]

theorem parse_render {v : Value} (exact : v.isExact = true) : parse? v.render = some v :=
  parse_write isBlank_compact exact

theorem parse_renderSpread {v : Value} (exact : v.isExact = true) : parse? v.renderSpread = some v :=
  parse_write isBlank_spread exact

end Value

end TripleQuery.Json
