/-
Tokens: everything that is live has one, and it is in one place.

`at x t` says that `x`'s token is at the place `t`. A step that moves a token
takes it from its place, so that it is in hand, and gives it to another, or
drops it with what it belongs to. One token at most is in hand, and none
between steps; then each live thing's token is in exactly one place
(`Tokens.existsUnique`).
-/
import Mathlib.Logic.ExistsUnique

/-- Each live thing's token is in one place, but for the one in hand. -/
structure Tokens {X T : Type*} (hand : Option X) (place : X → T → Prop) (live : X → Prop) : Prop where
  unique : ∀ x t t', place x t → place x t' → t = t'
  placed : ∀ x t, place x t → live x
  total : ∀ x, live x → hand = some x ∨ ∃ t, place x t
  free : ∀ x, hand = some x → live x ∧ ∀ t, ¬place x t

namespace Tokens

variable {X T : Type*} {hand : Option X} {place place' : X → T → Prop} {live live' : X → Prop} {x : X} {t : T}

theorem congr (h : Tokens hand place live) (hp : ∀ y t, place' y t ↔ place y t) (hl : ∀ y, live' y ↔ live y) :
    Tokens hand place' live' := by
  have hp : place' = place := funext fun y => funext fun t => propext (hp y t)
  have hl : live' = live := funext fun y => propext (hl y)
  rwa [hp, hl]

/-- The token is taken from where it was. -/
theorem take (h : Tokens none place live) (hx : place x t) (hp : ∀ y t, place' y t ↔ place y t ∧ y ≠ x) :
    Tokens (some x) place' live where
  unique y t t' ht ht' := h.unique y t t' ((hp y t).mp ht).1 ((hp y t').mp ht').1
  placed y t ht := h.placed y t ((hp y t).mp ht).1
  total y hy := by
    by_cases hyx : y = x
    · exact .inl (congrArg some hyx.symm)
    · obtain ⟨t, ht⟩ := (h.total y hy).resolve_left (by simp)
      exact .inr ⟨t, (hp y t).mpr ⟨ht, hyx⟩⟩
  free y hy := by
    obtain rfl : x = y := Option.some.inj hy
    exact ⟨h.placed x t hx, fun t ht => ((hp x t).mp ht).2 rfl⟩

/-- The token in hand is given to a place. -/
theorem give (h : Tokens (some x) place live) (hp : ∀ y t', place' y t' ↔ place y t' ∨ (y = x ∧ t' = t)) :
    Tokens none place' live where
  unique y t₁ t₂ h₁ h₂ := by
    rcases (hp y t₁).mp h₁ with h₁ | ⟨rfl, rfl⟩ <;> rcases (hp y t₂).mp h₂ with h₂ | ⟨h₂, rfl⟩
    · exact h.unique y t₁ t₂ h₁ h₂
    · exact absurd h₁ (h₂ ▸ (h.free x rfl).2 t₁)
    · exact absurd h₂ ((h.free y rfl).2 t₂)
    · rfl
  placed y t' ht := by
    rcases (hp y t').mp ht with ht | ⟨rfl, -⟩
    · exact h.placed y t' ht
    · exact (h.free y rfl).1
  total y hy := by
    rcases h.total y hy with hyx | ⟨t', ht⟩
    · exact .inr ⟨t, (hp y t).mpr (.inr ⟨(Option.some.inj hyx).symm, rfl⟩)⟩
    · exact .inr ⟨t', (hp y t').mpr (.inl ht)⟩
  free y hy := by cases hy

/-- What the token in hand belongs to is no more. -/
theorem drop (h : Tokens (some x) place live) (hl : ∀ y, live' y ↔ live y ∧ y ≠ x) : Tokens none place live' where
  unique := h.unique
  placed y t ht := (hl y).mpr ⟨h.placed y t ht, fun he => (h.free x rfl).2 t (he ▸ ht)⟩
  total y hy := by
    obtain ⟨hy, hyx⟩ := (hl y).mp hy
    exact .inr ((h.total y hy).resolve_left fun he => hyx (Option.some.inj he).symm)
  free y hy := by cases hy

/-- Something new, with its token in hand. -/
theorem bring (h : Tokens none place live) (hx : ¬live x) (hl : ∀ y, live' y ↔ live y ∨ y = x) :
    Tokens (some x) place live' where
  unique := h.unique
  placed y t ht := (hl y).mpr (.inl (h.placed y t ht))
  total y hy := by
    rcases (hl y).mp hy with hy | rfl
    · exact .inr ((h.total y hy).resolve_left (by simp))
    · exact .inl rfl
  free y hy := by
    obtain rfl : x = y := Option.some.inj hy
    exact ⟨(hl x).mpr (.inr rfl), fun t ht => hx (h.placed x t ht)⟩

/-- Each token moves to a place of its own accord. -/
theorem move {U : Type*} {place' : X → U → Prop} (h : Tokens none place live) (f : X → T → U)
    (hp : ∀ y u, place' y u ↔ ∃ t, place y t ∧ f y t = u) : Tokens none place' live where
  unique y u u' hu hu' := by
    obtain ⟨t, ht, rfl⟩ := (hp y u).mp hu
    obtain ⟨t', ht', rfl⟩ := (hp y u').mp hu'
    rw [h.unique y t t' ht ht']
  placed y u hu := by
    obtain ⟨t, ht, -⟩ := (hp y u).mp hu
    exact h.placed y t ht
  total y hy := by
    obtain ⟨t, ht⟩ := (h.total y hy).resolve_left (by simp)
    exact .inr ⟨f y t, (hp y _).mpr ⟨t, ht, rfl⟩⟩
  free y hy := by cases hy

theorem existsUnique (h : Tokens none place live) (hx : live x) : ∃! t, place x t := by
  obtain ⟨t, ht⟩ := (h.total x hx).resolve_left (by simp)
  exact ⟨t, ht, fun t' ht' => h.unique x t' t ht' ht⟩

end Tokens
