/-
Runs of a labelled transition system given as a partial step function, and
the two inductions on them: an invariant of the states (`Reach.invariant`,
for runs whose every step meets a condition), and a relation between the
labels taken and the state reached (`exec_induction`). What holds at every
step of a run is taken apart at its end (`forall_steps_append`).
-/
import Mathlib.Data.List.Basic
import Mathlib.Data.List.Induction

namespace Runs

variable {σ ℓ : Type*} {step : σ → ℓ → Option σ}

/-- Take the labels in order; `none` when one of them is not enabled. -/
def exec (step : σ → ℓ → Option σ) (s : σ) (ls : List ℓ) : Option σ := ls.foldlM step s

@[simp] theorem exec_nil (s : σ) : exec step s [] = some s := rfl

@[simp] theorem exec_cons (s : σ) (l : ℓ) (ls) : exec step s (l :: ls) = (step s l).bind (exec step · ls) := rfl

theorem exec_append {s s'' : σ} {xs ys : List ℓ} :
    exec step s (xs ++ ys) = some s'' ↔ ∃ s', exec step s xs = some s' ∧ exec step s' ys = some s'' := by
  simp [exec, List.foldlM_append, Option.bind_eq_some_iff]

/-- A run goes on from where its first labels lead. -/
theorem exec_of_append {s s' : σ} {xs : List ℓ} (h : exec step s xs = some s') (ys : List ℓ) :
    exec step s (xs ++ ys) = exec step s' ys := by
  rw [exec, List.foldlM_append, ← exec, h]
  rfl

theorem exec_cons_some {s s'' : σ} {l : ℓ} {ls : List ℓ} :
    exec step s (l :: ls) = some s'' ↔ ∃ s', step s l = some s' ∧ exec step s' ls = some s'' := by
  simp [Option.bind_eq_some_iff]

/-- A relation between the labels taken so far and the state reached holds
of every run when it holds at the start and each step keeps it. -/
theorem exec_induction {s₀ s : σ} {ls : List ℓ} (h : exec step s₀ ls = some s) (I : List ℓ → σ → Prop)
    (start : I [] s₀) (keep : ∀ ls s l s', I ls s → step s l = some s' → I (ls ++ [l]) s') : I ls s := by
  induction ls using List.reverseRecOn generalizing s with
  | nil => cases h; exact start
  | append_singleton ls l ih =>
    obtain ⟨s', h₁, h₂⟩ := exec_append.mp h
    exact keep ls s' l s (ih h₁) (by simpa using h₂)

/-- What is said of every label and those before it, said of the last label
and of the others. -/
theorem forall_split_append {P : List ℓ → ℓ → Prop} {ls : List ℓ} {l : ℓ} :
    (∀ before k after, ls ++ [l] = before ++ k :: after → P before k) ↔
      (∀ before k after, ls = before ++ k :: after → P before k) ∧ P ls l := by
  constructor
  · intro h
    exact ⟨fun before k after he => h before k (after ++ [l]) (by simp [he]), h ls l [] rfl⟩
  · rintro ⟨h, hl⟩ before k after he
    rcases List.eq_nil_or_concat after with rfl | ⟨after, x, rfl⟩
    · obtain ⟨rfl, hk⟩ := List.append_inj' he rfl
      simp only [List.cons.injEq, and_true] at hk
      exact hk ▸ hl
    · have he' : ls ++ [l] = (before ++ k :: after) ++ [x] := by simpa using he
      exact h before k after (List.append_inj' he' rfl).1

/-- What is said of every step of a run, by its label and the state before
it. -/
theorem forall_steps_append {P : σ → ℓ → Prop} {s₀ s : σ} {ls : List ℓ} {l : ℓ} (h : exec step s₀ ls = some s) :
    (∀ before k after q, ls ++ [l] = before ++ k :: after → exec step s₀ before = some q → P q k) ↔
      (∀ before k after q, ls = before ++ k :: after → exec step s₀ before = some q → P q k) ∧ P s l := by
  have hsplit : (∀ before k after, ls ++ [l] = before ++ k :: after → ∀ q, exec step s₀ before = some q → P q k) ↔
      (∀ before k after, ls = before ++ k :: after → ∀ q, exec step s₀ before = some q → P q k) ∧
        ∀ q, exec step s₀ ls = some q → P q l := forall_split_append
  constructor
  · intro hall
    obtain ⟨hbefore, hlast⟩ := hsplit.mp fun before k after he q hq => hall before k after q he hq
    exact ⟨fun before k after q he hq => hbefore before k after he q hq, hlast s h⟩
  · rintro ⟨hbefore, hlast⟩ before k after q he hq
    refine hsplit.mpr ⟨fun before k after he q hq => hbefore before k after q he hq, fun q hq => ?_⟩ before k after he q hq
    cases h.symm.trans hq
    exact hlast

/-- The states reached from `s₀` by runs whose every step meets `C`. -/
inductive Reach (step : σ → ℓ → Option σ) (C : σ → ℓ → Prop) (s₀ : σ) : σ → Prop
  | start : Reach step C s₀ s₀
  | next : Reach step C s₀ s → C s l → step s l = some s' → Reach step C s₀ s'

/-- An invariant that each step meeting `C` keeps holds of every state such
steps reach. -/
theorem Reach.invariant {C : σ → ℓ → Prop} {s₀ s : σ} (h : Reach step C s₀ s) (I : σ → Prop) (start : I s₀)
    (keep : ∀ s l s', I s → C s l → step s l = some s' → I s') : I s := by
  induction h with
  | start => exact start
  | next _ hc hs ih => exact keep _ _ _ ih hc hs

/-- Simulation: when each step leaves a related state related, or is matched
by a step of the other system, so is a run. -/
theorem Reach.simulate {τ κ : Type*} {step' : τ → κ → Option τ} {C : σ → ℓ → Prop} {C' : τ → κ → Prop} {s₀ s : σ}
    {t₀ : τ} (h : Reach step C s₀ s) (R : σ → τ → Prop) (start : R s₀ t₀)
    (sim : ∀ s t l s', R s t → C s l → step s l = some s' →
      ∃ t', R s' t' ∧ (t' = t ∨ ∃ k, C' t k ∧ step' t k = some t')) :
    ∃ t, R s t ∧ Reach step' C' t₀ t := by
  induction h with
  | start => exact ⟨t₀, start, .start⟩
  | next _ hc hs ih =>
    obtain ⟨t, hr, ht⟩ := ih
    obtain ⟨t', hr', he | ⟨k, hk, hs'⟩⟩ := sim _ t _ _ hr hc hs
    · exact ⟨t', hr', he ▸ ht⟩
    · exact ⟨t', hr', ht.next hk hs'⟩

/-- Runs seen through a part of the state: when each step leaves that part as
it is or takes a step of its own system there, the parts reached are reached
in that system. -/
theorem Reach.map {τ κ : Type*} {step' : τ → κ → Option τ} {C : σ → ℓ → Prop} {C' : τ → κ → Prop} {s₀ s : σ}
    (h : Reach step C s₀ s) (f : σ → τ)
    (sim : ∀ s l s', C s l → step s l = some s' →
      f s' = f s ∨ ∃ k, C' (f s) k ∧ step' (f s) k = some (f s')) : Reach step' C' (f s₀) (f s) := by
  obtain ⟨t, rfl, ht⟩ : ∃ t, t = f s ∧ Reach step' C' (f s₀) t := h.simulate (fun s t => t = f s) rfl
    fun s t l s' hr hc hs => ⟨f s', rfl, hr ▸ sim s l s' hc hs⟩
  exact ht

/-- A run goes on with labels that meet the condition in any state. -/
theorem Reach.exec {C : σ → ℓ → Prop} {s₀ s₁ s : σ} (h : Reach step C s₀ s₁) (ls : List ℓ)
    (hs : Runs.exec step s₁ ls = some s) (hc : ∀ l ∈ ls, ∀ s, C s l) : Reach step C s₀ s :=
  exec_induction hs (fun ls s => (∀ l ∈ ls, ∀ s, C s l) → Reach step C s₀ s) (fun _ => h)
    (fun ls s l s' ih hs hc =>
      (ih fun l' hl' => hc l' (List.mem_append_left _ hl')).next (hc l (by simp) s) hs) hc

/-- A run goes on with labels that meet the condition where they are taken. -/
theorem Reach.exec_checked {C : σ → ℓ → Prop} [∀ s l, Decidable (C s l)] {s₀ s₁ s : σ} (h : Reach step C s₀ s₁)
    (ls : List ℓ) (hs : Runs.exec (fun s l => if C s l then step s l else none) s₁ ls = some s) :
    Reach step C s₀ s :=
  exec_induction hs (fun _ s => Reach step C s₀ s) h fun _ s l s' ih hs => by
    obtain ⟨hc, hs⟩ := Option.ite_none_right_eq_some.mp hs
    exact ih.next hc hs

end Runs
