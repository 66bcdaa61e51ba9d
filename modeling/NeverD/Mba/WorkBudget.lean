import Mathlib.Algebra.GroupWithZero.Nat
import Mathlib.Control.Lawful

namespace NeverD.Mba
open List

def sizeMax : Nat := 2 ^ 64 - 1

def wordsOf (w : Nat) : Nat := (w - 1) / 64 + 1

structure WorkBudget where
  remaining : Nat
  used : Nat := 0
  unlimited : Bool := false
  exhausted : Bool := false

namespace WorkBudget

def ofLimit (limit : Nat) : WorkBudget := { remaining := limit, unlimited := limit = sizeMax }

def consume (b : WorkBudget) (units : Nat) : Bool × WorkBudget :=
  if b.unlimited then (true,
    { b with used := if units > sizeMax - b.used then sizeMax else b.used + units })
  else if units > b.remaining then
    (false, { b with used := b.used + b.remaining, remaining := 0, exhausted := true })
  else (true, { b with remaining := b.remaining - units, used := b.used + units })

def canConsume (b : WorkBudget) (units : Nat) : Bool := b.unlimited || units ≤ b.remaining

lemma consume_unlimited {b : WorkBudget} (h : b.unlimited = true) (units : Nat) :
    (b.consume units).1 = true ∧ (b.consume units).2.unlimited = true := by
  rw [consume, if_pos h]
  exact ⟨rfl, h⟩

end WorkBudget

abbrev Spends (α : Type) : Type := OptionT (StateM WorkBudget) α

namespace Spends

variable {α β : Type}

def consume (units : Nat) : Spends Unit := OptionT.mk fun b =>
  if (b.consume units).1 then (some (), (b.consume units).2) else (none, (b.consume units).2)

def refuse : Spends α := OptionT.mk fun b => (none, b)

def budget : Spends WorkBudget := OptionT.mk fun b => (some b, b)

def spend (units : Nat) : Spends Unit := OptionT.mk fun b => (some (), (b.consume units).2)

def Ends (m : Spends α) (P : α → Prop) : Prop := ∀ b a c, m.run b = (some a, c) → P a

def Fails (m : Spends α) (Q : WorkBudget → Prop) : Prop := ∀ b c, m.run b = (none, c) → Q c

def Pays (m : Spends α) : Prop := ∀ b : WorkBudget, b.unlimited = true →
  ∃ a c, m.run b = (some a, c) ∧ c.unlimited = true

variable {m : Spends α} {f : α → Spends β} {P : α → Prop} {Q : β → Prop}

lemma run_bind (m : Spends α) (f : α → Spends β) (b : WorkBudget) : (m >>= f).run b =
    match m.run b with
    | (some a, c) => (f a).run c
    | (none, c) => (none, c) := by
  show ((m.run >>= fun o => match o with | some a => (f a).run | none => pure none) :
    StateM WorkBudget _) b = _
  show (match m.run
    b with | (o, c) => (match o with | some a => (f a).run | none => pure none : StateM _ _) c) = _
  cases m.run b with
  | mk o c =>
    cases o with
    | some a => rfl
    | none => rfl

lemma ends_pure {a : α} (h : P a) : Ends (pure a : Spends α) P := by
  intro b a' c heq
  cases heq
  exact h

lemma ends_bind (hm : Ends m P) (hf : ∀ a, P a → Ends (f a) Q) : Ends (m >>= f) Q := by
  intro b a c heq
  rw [run_bind] at heq
  cases hrun : m.run b with
  | mk o d =>
    rw [hrun] at heq
    cases o with
    | some a' => exact hf a' (hm b a' d hrun) d a c heq
    | none => cases heq

lemma ends_refuse : Ends (refuse : Spends α) P := by
  intro b a c heq
  cases heq

variable {g : α → β → Spends α}

theorem ends_foldlM {I : α → Prop} {R : α → β → Prop}
    (hstep : ∀ a b, I a → Ends (g a b) fun a' => I a' ∧ R a' b ∧ ∀ x, R a x → R a' x) (bs : List β)
    (a : α) (h : I a) :
    Ends (bs.foldlM g a) fun a' => I a' ∧ (∀ b ∈ bs, R a' b) ∧ ∀ x, R a x → R a' x := by
  induction bs generalizing a with
  | nil =>
    apply ends_pure
    exact ⟨h, fun b hb => (nomatch hb), fun _ hx => hx⟩
  | cons b bs ih =>
    rw [foldlM_cons]
    refine ends_bind (hstep a b h) ?_
    intro a₁ ⟨h₁, hb, hkeep₁⟩ budget a₂ left hrun
    obtain ⟨h₂, hall, hkeep₂⟩ := ih a₁ h₁ budget a₂ left hrun
    refine ⟨h₂, ?_, fun x hx => hkeep₂ x (hkeep₁ x hx)⟩
    intro x hx
    rcases mem_cons.mp hx with rfl | hx
    · exact hkeep₂ x hb
    · exact hall x hx

lemma ends_foldlM_along {I : List β → α → Prop} (bs : List β)
    (hstep : ∀ seen b rest, seen ++ b :: rest = bs → ∀ a, I seen a → Ends (g a b) (I (seen ++ [b])))
    {a : α} (h : I [] a) : Ends (bs.foldlM g a) (I bs) := by
  have hfrom : ∀ (rest seen : List β), seen ++ rest = bs → ∀ a, I seen a →
      Ends (rest.foldlM g a) (I bs) := by
    intro rest
    induction rest with
    | nil =>
      intro seen heq a ha
      apply ends_pure
      rwa [← heq, append_nil]
    | cons b rest ih =>
      intro seen heq a ha
      rw [foldlM_cons]
      refine ends_bind (hstep seen b rest heq a ha) fun a' ha' => ih _ ?_ a' ha'
      rw [append_assoc]
      exact heq
  exact hfrom bs [] rfl a h

lemma ends_any : Ends m fun _ => True := fun _ _ _ _ => trivial

lemma ends_ite {p : Prop} [Decidable p] {m' : Spends α} (ht : p → Ends m P) (hf : ¬ p → Ends m' P) :
    Ends (if p then m else m') P := by
  by_cases h : p
  · rw [if_pos h]
    exact ht h
  · rw [if_neg h]
    exact hf h

variable {S : WorkBudget → Prop}

lemma fails_pure {a : α} : Fails (pure a : Spends α) S := by
  intro b c heq
  cases heq

lemma fails_bind (hm : Fails m S) (hends : Ends m P) (hf : ∀ a, P a → Fails (f a) S) :
    Fails (m >>= f) S := by
  intro b c heq
  rw [run_bind] at heq
  cases hrun : m.run b with
  | mk o d =>
    rw [hrun] at heq
    cases o with
    | some a => exact hf a (hends b a d hrun) d c heq
    | none =>
      cases heq
      exact hm b _ hrun

lemma fails_ite {p : Prop} [Decidable p] {m' : Spends α} (ht : p → Fails m S)
    (hf : ¬ p → Fails m' S) : Fails (if p then m else m') S := by
  by_cases h : p
  · rw [if_pos h]
    exact ht h
  · rw [if_neg h]
    exact hf h

lemma fails_consume (units : Nat) : Fails (consume units) fun c => c.exhausted = true := by
  intro b c heq
  have heq : (if (b.consume units).1 then (some (), (b.consume units).2)
      else (none, (b.consume units).2)) = ((none : Option Unit), c) := heq
  by_cases hpaid : (b.consume units).1 = true
  · rw [if_pos hpaid] at heq
    cases heq
  · rw [if_neg hpaid] at heq
    cases heq
    revert hpaid
    unfold WorkBudget.consume
    split
    · exact fun h => absurd rfl h
    · split
      · exact fun _ => rfl
      · exact fun h => absurd rfl h

lemma fails_foldlM_along {I : List β → α → Prop} (bs : List β)
    (hstep : ∀ seen b rest, seen ++ b :: rest = bs → ∀ a, I seen a → Ends (g a b) (I (seen ++ [b])))
    (hfails : ∀ seen b rest, seen ++ b :: rest = bs → ∀ a, I seen a → Fails (g a b) S) {a : α}
    (h : I [] a) : Fails (bs.foldlM g a) S := by
  have hfrom : ∀ (rest seen : List β), seen ++ rest = bs → ∀ a, I seen a →
      Fails (rest.foldlM g a) S := by
    intro rest
    induction rest with
    | nil => exact fun _ _ _ _ => fails_pure
    | cons b rest ih =>
      intro seen heq a ha
      rw [foldlM_cons]
      refine fails_bind (hfails seen b rest heq a ha) (hstep seen b rest heq a ha) fun a' ha' =>
        ih _ ?_ a' ha'
      rw [append_assoc]
      exact heq
  exact hfrom bs [] rfl a h

lemma pays_pure (a : α) : Pays (pure a : Spends α) := fun b hb => ⟨a, b, rfl, hb⟩

lemma pays_bind (hm : Pays m) (hf : ∀ a, Pays (f a)) : Pays (m >>= f) := by
  intro b hb
  obtain ⟨a, c, hrun, hc⟩ := hm b hb
  rw [run_bind, hrun]
  exact hf a c hc

lemma pays_ite {p : Prop} [Decidable p] {m' : Spends α} (ht : p → Pays m) (hf : ¬ p → Pays m') :
    Pays (if p then m else m') := by
  by_cases h : p
  · rw [if_pos h]
    exact ht h
  · rw [if_neg h]
    exact hf h

lemma pays_consume (units : Nat) : Pays (consume units) := by
  intro b hb
  obtain ⟨hok, hc⟩ := WorkBudget.consume_unlimited hb units
  refine ⟨(), (b.consume units).2, ?_, hc⟩
  show (if (b.consume units).1 then _ else _) = _
  rw [if_pos hok]

end Spends

end NeverD.Mba
