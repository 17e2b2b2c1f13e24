/-
Threads that take turns on one state, a call at a time, and calls that each
see and change one place of it only (`Local`). A thread whose places no other
thread calls on sees what it would see alone, and leaves them as it would
(`run_alone`); so where all threads keep apart, no two interleavings of the
same programs can be told apart, by what the calls return or by what the
places hold in the end (`results_alone`, `view_run_congr`).
-/
import Mathlib.Data.List.Basic

namespace Interleave

variable {T Op St R Loc V : Type*}

/-- Calls one after another: the state after them, and what they return. -/
def alone (step : St → Op → St × R) (s : St) : List Op → St × List R
  | [] => (s, [])
  | op :: ops =>
    let (s', ops') := alone step (step s op).1 ops
    (s', (step s op).2 :: ops')

/-- The same for calls of threads. -/
def run (step : St → Op → St × R) (s : St) : List (T × Op) → St × List (T × R)
  | [] => (s, [])
  | (t, op) :: calls =>
    let (s', results) := run step (step s op).1 calls
    (s', (t, (step s op).2) :: results)

/-- What of a list of all threads is `t`'s, in order. -/
def part {X : Type*} [DecidableEq T] (t : T) (calls : List (T × X)) : List X :=
  (calls.filter (·.1 = t)).map Prod.snd

/-- The calls are an interleaving of the threads' programs: each thread's, in
its own order, among the others'. -/
def Interleaves [DecidableEq T] (programs : T → List Op) (calls : List (T × Op)) : Prop :=
  ∀ t, part t calls = programs t

/-- No two threads call on one place. -/
def Apart (loc : Op → Loc) (programs : T → List Op) : Prop :=
  ∀ t t', t ≠ t' → ∀ op ∈ programs t, ∀ op' ∈ programs t', loc op ≠ loc op'

/-- A call sees and changes the place it is on only: it leaves the others as
they are, and what it returns and leaves there is told by what was there. -/
structure Local (step : St → Op → St × R) (view : St → Loc → V) (loc : Op → Loc) : Prop where
  frame : ∀ s op l, l ≠ loc op → view (step s op).1 l = view s l
  result : ∀ s s' op, view s (loc op) = view s' (loc op) → (step s op).2 = (step s' op).2
  change : ∀ s s' op, view s (loc op) = view s' (loc op) → view (step s op).1 (loc op) = view (step s' op).1 (loc op)

section Parts

variable {X : Type*} [DecidableEq T]

@[simp] theorem part_nil (t : T) : part t ([] : List (T × X)) = [] := rfl

@[simp] theorem part_cons_self (t : T) (x : X) (calls) : part t ((t, x) :: calls) = x :: part t calls := by simp [part]

theorem part_cons_of_ne {t t' : T} (h : t' ≠ t) (x : X) (calls) : part t ((t', x) :: calls) = part t calls := by
  simp [part, h]

theorem mem_part {t : T} {x : X} {calls : List (T × X)} : x ∈ part t calls ↔ (t, x) ∈ calls := by
  simp only [part, List.mem_map, List.mem_filter, decide_eq_true_eq]
  constructor
  · intro h
    obtain ⟨⟨t', x'⟩, ⟨hmem, rfl⟩, rfl⟩ := h
    exact hmem
  · intro h
    exact ⟨(t, x), ⟨h, rfl⟩, rfl⟩

end Parts

variable {step : St → Op → St × R} {view : St → Loc → V} {loc : Op → Loc}

/-- A place no call is on. -/
theorem view_run_untouched (h : Local step view loc) {l : Loc} {calls : List (T × Op)}
    (hl : ∀ c ∈ calls, loc c.2 ≠ l) (s : St) : view (run step s calls).1 l = view s l := by
  induction calls generalizing s with
  | nil => rfl
  | cons c calls ih =>
    obtain ⟨t, op⟩ := c
    rw [run, ih fun c hc => hl c (List.mem_cons_of_mem _ hc)]
    exact h.frame s op l (Ne.symm (hl (t, op) List.mem_cons_self))

/-- A thread among others, with places `mine` that it keeps to and the others
keep off: it and those places go as they would go alone. -/
theorem run_alone [DecidableEq T] (h : Local step view loc) {t : T} {mine : Loc → Prop} {calls : List (T × Op)}
    (hmine : ∀ op, (t, op) ∈ calls → mine (loc op)) (hothers : ∀ t' op, (t', op) ∈ calls → t' ≠ t → ¬ mine (loc op))
    {s s₀ : St} (hs : ∀ l, mine l → view s l = view s₀ l) :
    part t (run step s calls).2 = (alone step s₀ (part t calls)).2 ∧
      ∀ l, mine l → view (run step s calls).1 l = view (alone step s₀ (part t calls)).1 l := by
  induction calls generalizing s s₀ with
  | nil => exact ⟨rfl, hs⟩
  | cons c calls ih =>
    obtain ⟨t', op⟩ := c
    have ih := @ih (fun op hop => hmine op (List.mem_cons_of_mem _ hop))
      fun t' op hop => hothers t' op (List.mem_cons_of_mem _ hop)
    rw [run]
    by_cases ht : t' = t
    · -- a call of its own: the places agree before it, so they agree after it
      subst ht
      have hop : mine (loc op) := hmine op List.mem_cons_self
      have hs' : ∀ l, mine l → view (step s op).1 l = view (step s₀ op).1 l := by
        intro l hl
        by_cases he : l = loc op
        · rw [he]
          exact h.change s s₀ op (hs _ hop)
        · rw [h.frame s op l he, h.frame s₀ op l he]
          exact hs l hl
      obtain ⟨hres, hview⟩ := ih hs'
      simp only [part_cons_self, alone]
      exact ⟨by rw [hres, h.result s s₀ op (hs _ hop)], hview⟩
    · -- a call of another thread: it is on none of them
      have hop : ¬ mine (loc op) := hothers t' op List.mem_cons_self ht
      have hs' : ∀ l, mine l → view (step s op).1 l = view s₀ l := by
        intro l hl
        rw [h.frame s op l fun he => hop (he ▸ hl)]
        exact hs l hl
      simp only [part_cons_of_ne ht]
      exact ih hs'

variable [DecidableEq T] {programs : T → List Op} {calls calls' : List (T × Op)}

theorem Interleaves.mem_program (hi : Interleaves programs calls) {t : T} {op : Op} :
    op ∈ programs t ↔ (t, op) ∈ calls := by
  rw [← hi t, mem_part]

/-- The places of thread `t`, in an interleaving of programs that keep
apart. -/
theorem run_program (h : Local step view loc) (ha : Apart loc programs) (hi : Interleaves programs calls) (s : St)
    (t : T) : part t (run step s calls).2 = (alone step s (programs t)).2 ∧
      ∀ op ∈ programs t, view (run step s calls).1 (loc op) = view (alone step s (programs t)).1 (loc op) := by
  have hmine : ∀ op, (t, op) ∈ calls → ∃ op' ∈ programs t, loc op' = loc op := fun op hop =>
    ⟨op, hi.mem_program.mpr hop, rfl⟩
  have hothers : ∀ t' op, (t', op) ∈ calls → t' ≠ t → ¬ ∃ op' ∈ programs t, loc op' = loc op := fun t' op hop ht hm => by
    obtain ⟨op', hop', he⟩ := hm
    exact ha t' t ht op (hi.mem_program.mpr hop) op' hop' he.symm
  have hown : part t (run step s calls).2 = (alone step s (part t calls)).2 ∧ ∀ l, (∃ op ∈ programs t, loc op = l) →
      view (run step s calls).1 l = view (alone step s (part t calls)).1 l :=
    run_alone h hmine hothers fun _ _ => rfl
  rw [hi t] at hown
  exact ⟨hown.1, fun op hop => hown.2 _ ⟨op, hop, rfl⟩⟩

/-- Among threads that keep apart, each gets the results it gets alone. -/
theorem results_alone (h : Local step view loc) (ha : Apart loc programs) (hi : Interleaves programs calls) (s : St)
    (t : T) : part t (run step s calls).2 = (alone step s (programs t)).2 :=
  (run_program h ha hi s t).1

/-- What threads that keep apart leave does not depend on their
interleaving. -/
theorem view_run_congr (h : Local step view loc) (ha : Apart loc programs) (hi : Interleaves programs calls)
    (hi' : Interleaves programs calls') (s : St) : view (run step s calls).1 = view (run step s calls').1 := by
  funext l
  by_cases hl : ∃ t, ∃ op ∈ programs t, loc op = l
  · obtain ⟨t, op, hop, rfl⟩ := hl
    rw [(run_program h ha hi s t).2 op hop, (run_program h ha hi' s t).2 op hop]
  · have hoff : ∀ {cs : List (T × Op)}, Interleaves programs cs → ∀ c ∈ cs, loc c.2 ≠ l :=
      fun hics c hc he => hl ⟨c.1, c.2, hics.mem_program.mpr hc, he⟩
    rw [view_run_untouched h (hoff hi), view_run_untouched h (hoff hi')]

end Interleave
