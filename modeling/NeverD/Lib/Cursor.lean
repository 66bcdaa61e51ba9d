import Mathlib.Data.List.Forall2

namespace NeverD.Lib
open List

structure Cursor (β : Type) where
  input : List β
  position : Nat
  failed : Bool
deriving DecidableEq

/-- A step of a reader: a value or a failure, and the place behind it. -/
def Read (β α : Type) := Cursor β → Option (Option α × Cursor β)

variable {β α γ : Type}

namespace Read

def fail : Read β α := fun c => some (none, { c with failed := true })

def bind (s : Read β α) (f : α → Read β γ) : Read β γ := fun c =>
  match s c with
  | none => none
  | some (none, c) => some (none, c)
  | some (some a, c) => f a c

instance : Monad (Read β) where
  pure a := fun c => some (some a, c)
  bind := bind

def times (s : Read β α) : Nat → Read β (List α)
  | 0 => pure []
  | n + 1 => do
    let a ← s
    let rest ← times s n
    pure (a :: rest)

end Read

structure Reads (s : Read β α) (E : α → List β → Prop) : Prop where
  -- Each encoding is read back, wherever it stands, and nothing behind it is touched.
  complete : ∀ before e rest a, E a e → s ⟨before ++ (e ++ rest), before.length, false⟩ =
      some (some a, ⟨before ++ (e ++ rest), before.length + e.length, false⟩)
  -- On any input there is a result, and a value is read from its encoding.
  sound : ∀ before input, ∃ result c, s ⟨before ++ input, before.length, false⟩ = some (result, c) ∧
    c.input = before ++ input ∧ before.length ≤ c.position ∧ c.position ≤ (before ++ input).length ∧
    (result = none → c.failed = true) ∧
    ∀ a, result = some a → ∃ e rest, input = e ++ rest ∧ E a e ∧
      c = ⟨before ++ input, before.length + e.length, false⟩

namespace Reads

lemma congr {s : Read β α} {E F : α → List β → Prop} (h : Reads s E) (hiff : ∀ a e, E a e ↔ F a e) :
    Reads s F := by
  have hEF : E = F := by
    funext a e
    exact propext (hiff a e)
  rw [← hEF]
  exact h

lemma pure (a : α) : Reads (Pure.pure a : Read β α) fun b e => b = a ∧ e = [] := by
  constructor
  · intro before e rest b h
    rw [h.1, h.2]
    rfl
  · intro before input
    refine ⟨some a, _, rfl, rfl, Nat.le_refl _, by simp, fun h => (nomatch h), ?_⟩
    intro b hb
    exact ⟨[], input, rfl, ⟨(Option.some.inj hb).symm, rfl⟩, rfl⟩

lemma fail : Reads (Read.fail : Read β α) fun _ _ => False := by
  constructor
  · intro before e rest a h
    exact h.elim
  · intro before input
    exact ⟨none, _, rfl, rfl, Nat.le_refl _, by simp, fun _ => rfl, fun a ha => (nomatch ha)⟩

theorem bind {s : Read β α} {f : α → Read β γ} {E : α → List β → Prop} {F : α → γ → List β → Prop}
    (hs : Reads s E)
    (hf : ∀ a, Reads (f a) (F a)) : Reads (s >>= f) fun b e => ∃ a d d', E a d ∧ F a b d' ∧
    e = d ++ d' := by
  constructor
  · intro before e rest b h
    obtain ⟨a, d, d', hd, hd', he⟩ := h
    change Read.bind s f _ = _
    have h1 := hs.complete before d (d' ++ rest) a hd
    have h2 := (hf a).complete (before ++ d) d' rest b hd'
    rw [he, append_assoc]
    unfold Read.bind
    rw [h1]
    simp only [append_assoc, length_append, Nat.add_assoc] at h2 ⊢
    exact h2
  · intro before input
    change ∃ result c, Read.bind s f _ = _ ∧ _
    unfold Read.bind
    obtain ⟨result, c, hstep, hinput, hle, hin, hfailed, hread⟩ := hs.sound before input
    rw [hstep]
    cases result with
    | none => exact ⟨none, c, rfl, hinput, hle, hin, fun _ => hfailed rfl, fun a ha => (nomatch ha)⟩
    | some a =>
      obtain ⟨d, rest, hsplit, hd, hc⟩ := hread a rfl
      obtain ⟨result', c', hstep', hinput', hle', hin', hfailed', hread'⟩ :=
        (hf a).sound (before ++ d) rest
      rw [append_assoc, ← hsplit, length_append, ← hc] at hstep'
      refine ⟨result', c', hstep', ?_, ?_, ?_, hfailed', ?_⟩
      · rw [hinput', hsplit, append_assoc]
      · rw [length_append] at hle'
        omega
      · rw [hsplit, ← append_assoc]
        exact hin'
      · intro b hb
        obtain ⟨d', rest', hsplit', hd', hc'⟩ := hread' b hb
        refine ⟨d ++ d', rest', ?_, ⟨a, d, d', hd, hd', rfl⟩, ?_⟩
        · rw [hsplit, hsplit', append_assoc]
        · rw [hc', hsplit]
          simp only [append_assoc, length_append, Nat.add_assoc]

lemma map {s : Read β α} {E : α → List β → Prop} (hs : Reads s E) (c : α → γ) :
    Reads (do let a ← s; Pure.pure (c a)) fun b e => ∃ a, b = c a ∧ E a e := by
  apply (hs.bind fun a => Reads.pure (c a)).congr
  intro b e
  constructor
  · intro h
    obtain ⟨a, d, d', hd, ⟨hb, hd'⟩, he⟩ := h
    rw [he, hd', append_nil]
    exact ⟨a, hb, hd⟩
  · intro h
    obtain ⟨a, hb, hd⟩ := h
    exact ⟨a, e, [], hd, ⟨hb, rfl⟩, (append_nil e).symm⟩

theorem times {s : Read β α} {E : α → List β → Prop} (hs : Reads s E) (n : Nat) :
    Reads (Read.times s n) fun values e => values.length = n ∧
      ∃ parts, List.Forall₂ E values parts ∧ e = parts.flatten := by
  induction n with
  | zero =>
    apply (Reads.pure []).congr
    intro values e
    constructor
    · intro h
      rw [h.1, h.2]
      exact ⟨rfl, [], .nil, rfl⟩
    · intro h
      obtain ⟨hlength, parts, hparts, he⟩ := h
      have hnil := eq_nil_of_length_eq_zero hlength
      rw [hnil, List.forall₂_nil_left_iff] at hparts
      rw [he, hparts]
      exact ⟨hnil, rfl⟩
  | succ n ih =>
    apply (hs.bind fun a => ih.bind fun rest => Reads.pure (a :: rest)).congr
    intro values e
    constructor
    · intro h
      obtain ⟨a, d, d', hd, ⟨rest, c, c', ⟨hlength, parts, hparts, hc⟩, ⟨hvalues, hc'⟩, hd'⟩, he⟩ :=
        h
      rw [hvalues]
      refine ⟨by rw [length_cons, hlength], d :: parts, .cons hd hparts, ?_⟩
      rw [he, hd', hc, hc', append_nil, flatten_cons]
    · intro h
      obtain ⟨hlength, parts, hparts, he⟩ := h
      cases hparts with
      | nil => cases hlength
      | @cons a d rest parts hd hparts =>
        refine ⟨a, d, parts.flatten, hd,
          ⟨rest, parts.flatten, [], ⟨by simpa using hlength, parts, hparts, rfl⟩,
          ⟨rfl, rfl⟩, by rw [append_nil]⟩, he⟩

end Reads

end NeverD.Lib
