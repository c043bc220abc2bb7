/-!
Outcomes of steps that may fail. Two steps in a row come to a result only if each of them does.
-/

namespace TripleQuery

variable {ε α β : Type}

theorem bind_ok {first : Except ε α} {next : α → Except ε β} {result : β}
    (h : first >>= next = .ok result) : ∃ value, first = .ok value ∧ next value = .ok result := by
  cases first with
  | error fault => cases h
  | ok value => exact ⟨value, rfl, h⟩

theorem bind_congr_ok {first : Except ε α} {f g : α → Except ε β}
    (same : ∀ value, first = .ok value → f value = g value) : (first >>= f) = (first >>= g) := by
  cases first with
  | error fault => rfl
  | ok value => exact same value rfl

theorem map_ok {first : Except ε α} {f : α → β} {result : β} (h : first.map f = .ok result) :
    ∃ value, first = .ok value ∧ f value = result := by
  cases first with
  | error fault => cases h
  | ok value => exact ⟨value, rfl, Except.ok.inj h⟩

end TripleQuery
