import Mathlib.Init

namespace NeverD.Lib

variable {ε α β : Type}

lemma of_bind_ok {x : Except ε α} {f : α → Except ε β} {r : β} (h : (x >>= f) = .ok r) :
    ∃ a, x = .ok a ∧ f a = .ok r := by
  cases x with
  | error e => cases h
  | ok a => exact ⟨a, rfl, h⟩

lemma of_map_ok {x : Except ε α} {f : α → β} {r : β} (h : x.map f = .ok r) :
    ∃ a, x = .ok a ∧ f a = r := by
  cases x with
  | error e => cases h
  | ok a =>
    injection h with h
    exact ⟨a, rfl, h⟩

end NeverD.Lib
