import Mathlib.Data.List.Basic

namespace NeverD.Lib

/-- The result and what is left of the budget; none when it runs out. -/
def Metered (α : Type) : Type := Nat → Option (α × Nat)

namespace Metered

variable {α β : Type}

instance : Monad Metered where
  pure a := fun budget => some (a, budget)
  bind x f := fun budget => match x budget with
    | none => none
    | some (a, left) => f a left

def pay (cost : Nat) : Metered Unit := fun budget => if cost ≤ budget then some ((), budget - cost)
    else none

structure Computes (x : Metered α) (a : α) : Prop where
  sound : ∀ {budget b left}, x budget = some (b, left) → b = a
  affordable : ∃ cost, ∀ left, x (cost + left) = some (a, left)

lemma computes_pure (a : α) : Computes (pure a) a where
  sound h := (congrArg Prod.fst (Option.some.inj h)).symm
  affordable := ⟨0, fun left => by rw [Nat.zero_add]; rfl⟩

lemma computes_pay (cost : Nat) : Computes (pay cost) () where
  sound _ := rfl
  affordable :=
    ⟨cost, fun left => by rw [pay, if_pos (Nat.le_add_right _ _), Nat.add_sub_cancel_left]⟩

lemma Computes.bind {x : Metered α} {a : α} {f : α → Metered β} {b : β} (hx : Computes x a)
    (hf : Computes (f a) b) : Computes (x >>= f) b where
  sound := by
    intro budget c left h
    change (match x budget with | none => none | some (a, left) => f a left) = _ at h
    split at h
    · cases h
    · rename_i a' rest hrun
      rw [hx.sound hrun] at h
      exact hf.sound h
  affordable := by
    obtain ⟨cost, hcost⟩ := hx.affordable
    obtain ⟨cost', hcost'⟩ := hf.affordable
    refine ⟨cost + cost', ?_⟩
    intro left
    change (match x (cost + cost' + left) with | none => none | some (a, left) => f a left) = _
    rw [Nat.add_assoc, hcost]
    exact hcost' left

end Metered

end NeverD.Lib
