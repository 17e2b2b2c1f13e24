/-
A mutex, a condition variable waited on under it, and a flag that ends the
waiting, with what threads do to the three as atomic steps.

A thread waits by taking the mutex and testing its predicate; finding it
false, it gives the mutex back and blocks, in one step. The predicate holds
at the latest once the flag is cleared. Whoever ends the waiting clears the
flag and then wakes the threads blocked at that moment, and holds no mutex
meanwhile. So a thread between its test and its block has seen the flag still
set and is not woken: it blocks, and nobody wakes it again. That is the only
way to be left behind (`not_stranded`).
-/
import KvDatabase.Lib.Runs
import Mathlib.Data.Fintype.Defs
import Mathlib.Logic.Function.Basic

namespace Monitor

/-- Where a thread is with the mutex and the condition variable. -/
inductive Phase
  | outside
  | holding
  /-- It holds the mutex, and has found its predicate false. -/
  | tested
  | blocked
  /-- To take the mutex again. -/
  | woken
deriving DecidableEq, Repr

def Phase.holds : Phase → Bool
  | holding | tested => true
  | outside | blocked | woken => false

end Monitor

structure Monitor (W : Type) where
  phase : W → Monitor.Phase
  exclusive : ∀ v w, (phase v).holds = true → (phase w).holds = true → v = w
  active : Bool
  /-- The threads were woken after the flag was cleared. -/
  notified : Bool

namespace Monitor

/-- A step of a thread, or of whoever ends the waiting. -/
inductive Act (W : Type)
  | acquire (w : W)
  /-- `w` finds its predicate false. -/
  | doubt (w : W)
  | block (w : W)
  | release (w : W)
  /-- A notification, a spurious wake-up, or the end of a timed wait. -/
  | wake (w : W)
  | clear
  | notifyAll

variable {W : Type} [DecidableEq W]

def start (W : Type) : Monitor W where
  phase := fun _ => .outside
  exclusive := by intro v w h; cases h
  active := true
  notified := false

/-- A thread that may hold the mutex changes its phase. -/
def move (m : Monitor W) (w : W) (p : Phase)
    (h : p.holds = true → ∀ v, (m.phase v).holds = true → v = w) : Monitor W where
  phase := Function.update m.phase w p
  exclusive := by
    intro u v hu hv
    by_cases hp : p.holds = true
    · have key : ∀ x, (Function.update m.phase w p x).holds = true → x = w := by
        intro x hx
        by_cases hxw : x = w
        · exact hxw
        · rw [Function.update_of_ne hxw] at hx
          exact h hp x hx
      rw [key u hu, key v hv]
    · have key : ∀ x, (Function.update m.phase w p x).holds = true → (m.phase x).holds = true := by
        intro x hx
        by_cases hxw : x = w
        · rw [hxw, Function.update_self] at hx
          exact absurd hx hp
        · rwa [Function.update_of_ne hxw] at hx
      exact m.exclusive u v (key u hu) (key v hv)
  active := m.active
  notified := m.notified

/-- Nobody holds the mutex. -/
def Free (m : Monitor W) : Prop := ∀ w, (m.phase w).holds = false

instance [Fintype W] (m : Monitor W) : Decidable m.Free := inferInstanceAs (Decidable (∀ _, _))

def act [Fintype W] (m : Monitor W) : Act W → Option (Monitor W)
  | .acquire w =>
    if h : (m.phase w = .outside ∨ m.phase w = .woken) ∧ m.Free then
      some (m.move w .holding fun _ v hv => by rw [h.2 v] at hv; cases hv)
    else none
  | .doubt w =>
    if h : m.phase w = .holding ∧ m.active = true then
      some (m.move w .tested fun _ v hv => m.exclusive v w hv (by rw [h.1]; rfl))
    else none
  | .block w => if m.phase w = .tested then some (m.move w .blocked fun h => by cases h) else none
  | .release w => if m.phase w = .holding then some (m.move w .outside fun h => by cases h) else none
  | .wake w => if m.phase w = .blocked then some (m.move w .woken fun h => by cases h) else none
  | .clear => if m.active then some { m with active := false } else none
  | .notifyAll =>
    if m.active = false ∧ m.notified = false then
      some { m with
        phase := fun w => if m.phase w = .blocked then .woken else m.phase w
        exclusive := by
          intro v w hv hw
          split at hv
          · cases hv
          · split at hw
            · cases hw
            · exact m.exclusive v w hv hw
        notified := true }
    else none

/-- `notify_one`: one of the blocked threads, if there is one. -/
def notifyOne [Fintype W] (m : Monitor W) : Option W → Option (Monitor W)
  | some w => m.act (.wake w)
  | none => if ∀ w, m.phase w ≠ .blocked then some m else none

/-! ## What a step does -/

section

variable [Fintype W] {m m' : Monitor W} {w : W}

theorem act_acquire (h : m.act (.acquire w) = some m') :
    (m.phase w = .outside ∨ m.phase w = .woken) ∧ m.Free ∧ m'.phase = Function.update m.phase w .holding ∧
      m'.active = m.active ∧ m'.notified = m.notified := by
  simp only [act] at h
  split at h
  · next hg => cases h; exact ⟨hg.1, hg.2, rfl, rfl, rfl⟩
  · cases h

theorem act_doubt (h : m.act (.doubt w) = some m') :
    m.phase w = .holding ∧ m.active = true ∧ m'.phase = Function.update m.phase w .tested ∧
      m'.active = m.active ∧ m'.notified = m.notified := by
  simp only [act] at h
  split at h
  · next hg => cases h; exact ⟨hg.1, hg.2, rfl, rfl, rfl⟩
  · cases h

theorem act_block (h : m.act (.block w) = some m') :
    m.phase w = .tested ∧ m'.phase = Function.update m.phase w .blocked ∧
      m'.active = m.active ∧ m'.notified = m.notified := by
  simp only [act] at h
  split at h
  · next hg => cases h; exact ⟨hg, rfl, rfl, rfl⟩
  · cases h

theorem act_release (h : m.act (.release w) = some m') :
    m.phase w = .holding ∧ m'.phase = Function.update m.phase w .outside ∧
      m'.active = m.active ∧ m'.notified = m.notified := by
  simp only [act] at h
  split at h
  · next hg => cases h; exact ⟨hg, rfl, rfl, rfl⟩
  · cases h

theorem act_wake (h : m.act (.wake w) = some m') :
    m.phase w = .blocked ∧ m'.phase = Function.update m.phase w .woken ∧
      m'.active = m.active ∧ m'.notified = m.notified := by
  simp only [act] at h
  split at h
  · next hg => cases h; exact ⟨hg, rfl, rfl, rfl⟩
  · cases h

theorem act_clear (h : m.act .clear = some m') :
    m'.phase = m.phase ∧ m'.active = false ∧ m'.notified = m.notified := by
  simp only [act] at h
  split at h
  · cases h; exact ⟨rfl, rfl, rfl⟩
  · cases h

theorem act_notifyAll (h : m.act .notifyAll = some m') :
    m.active = false ∧ m'.phase = (fun w => if m.phase w = .blocked then .woken else m.phase w) ∧
      m'.active = m.active ∧ m'.notified = true := by
  simp only [act] at h
  split at h
  · next hg => cases h; exact ⟨hg.1, rfl, rfl, rfl⟩
  · cases h

/-- A thread outside the wait moves by steps of its own only. -/
theorem phase_act {a : Act W} (h : m.act a = some m') (hw : m.phase w = .outside ∨ m.phase w = .holding)
    (ha : a ≠ .acquire w) (hd : a ≠ .doubt w) (hr : a ≠ .release w) : m'.phase w = m.phase w := by
  have other : ∀ {v p}, w ≠ v → m'.phase = Function.update m.phase v p → m'.phase w = m.phase w := by
    intro v p hv hp
    rw [hp, Function.update_of_ne hv]
  have hnb : m.phase w ≠ .blocked := by rcases hw with hw | hw <;> rw [hw] <;> decide
  cases a with
  | acquire v => exact other (fun he => ha (he ▸ rfl)) (act_acquire h).2.2.1
  | doubt v => exact other (fun he => hd (he ▸ rfl)) (act_doubt h).2.2.1
  | block v =>
    obtain ⟨ht, hp, -⟩ := act_block h
    refine other (fun he => ?_) hp
    rw [he, ht] at hw
    rcases hw with hw | hw <;> cases hw
  | release v => exact other (fun he => hr (he ▸ rfl)) (act_release h).2.1
  | wake v =>
    obtain ⟨hb, hp, -⟩ := act_wake h
    exact other (fun he => hnb (he ▸ hb)) hp
  | clear => rw [(act_clear h).1]
  | notifyAll => rw [(act_notifyAll h).2.1]; exact if_neg hnb

/-- The flag stays cleared. -/
theorem act_inactive {a : Act W} (h : m.act a = some m') (hm : m.active = false) : m'.active = false := by
  cases a with
  | acquire v => exact (act_acquire h).2.2.2.1.trans hm
  | doubt v => exact (act_doubt h).2.2.2.1.trans hm
  | block v => exact (act_block h).2.2.1.trans hm
  | release v => exact (act_release h).2.2.1.trans hm
  | wake v => exact (act_wake h).2.2.1.trans hm
  | clear => exact (act_clear h).2.1
  | notifyAll => exact (act_notifyAll h).2.2.1.trans hm

theorem notifyOne_eq_some {o : Option W} (h : m.notifyOne o = some m') :
    m' = m ∨ ∃ w, m.act (.wake w) = some m' := by
  cases o with
  | some w => exact .inr ⟨w, h⟩
  | none =>
    simp only [notifyOne] at h
    split at h
    · cases h; exact .inl rfl
    · cases h

end

/-! ## The end of the waiting -/

/-- The waiting was ended, and a thread is blocked with nobody to wake it. -/
def Stranded (m : Monitor W) : Prop := m.active = false ∧ m.notified = true ∧ ∃ w, m.phase w = .blocked

/-- The waiting is ended while no thread is between its test and its block. -/
def EndsBetweenWaits (m : Monitor W) (a : Act W) : Prop := a = .notifyAll → ∀ w, m.phase w ≠ .tested

/-- Once the waiting was ended, no thread is in its wait. -/
def Quiet (m : Monitor W) : Prop :=
  m.notified = true → m.active = false ∧ ∀ w, m.phase w ≠ .tested ∧ m.phase w ≠ .blocked

/-- A phase outside the wait is put in it by nobody. -/
theorem Quiet.update {m m' : Monitor W} (h : m.Quiet) {w : W} {p : Phase}
    (hp : m'.phase = Function.update m.phase w p) (ha : m'.active = m.active) (hn : m'.notified = m.notified)
    (hw : m.notified = true → p ≠ .tested ∧ p ≠ .blocked) : m'.Quiet := by
  intro hn'
  rw [hn] at hn'
  obtain ⟨hact, hph⟩ := h hn'
  refine ⟨ha.trans hact, fun v => ?_⟩
  rw [hp]
  by_cases hv : v = w
  · subst hv
    rw [Function.update_self]
    exact hw hn'
  · rw [Function.update_of_ne hv]
    exact hph v

theorem Quiet.act [Fintype W] {m m' : Monitor W} (h : m.Quiet) {a : Act W} (hc : m.EndsBetweenWaits a)
    (hs : m.act a = some m') : m'.Quiet := by
  cases a with
  | acquire w =>
    obtain ⟨-, -, hp, ha, hn⟩ := act_acquire hs
    exact h.update hp ha hn fun _ => ⟨by decide, by decide⟩
  | doubt w =>
    obtain ⟨-, hact, hp, ha, hn⟩ := act_doubt hs
    exact h.update hp ha hn fun hn' => by rw [(h hn').1] at hact; cases hact
  | block w =>
    obtain ⟨ht, hp, ha, hn⟩ := act_block hs
    exact h.update hp ha hn fun hn' => absurd ht ((h hn').2 w).1
  | release w =>
    obtain ⟨-, hp, ha, hn⟩ := act_release hs
    exact h.update hp ha hn fun _ => ⟨by decide, by decide⟩
  | wake w =>
    obtain ⟨-, hp, ha, hn⟩ := act_wake hs
    exact h.update hp ha hn fun _ => ⟨by decide, by decide⟩
  | clear =>
    obtain ⟨hp, ha, hn⟩ := act_clear hs
    intro hn'
    rw [hn] at hn'
    exact ⟨ha, fun v => by rw [hp]; exact (h hn').2 v⟩
  | notifyAll =>
    obtain ⟨hact, hp, ha, -⟩ := act_notifyAll hs
    refine fun _ => ⟨ha.trans hact, fun v => ?_⟩
    rw [hp]
    by_cases hb : m.phase v = .blocked
    · simp [hb]
    · simp only [if_neg hb]
      exact ⟨hc rfl v, hb⟩

/-- **Nobody is left behind** when the waiting is ended while no thread is
between its test and its block. -/
theorem not_stranded [Fintype W] {m : Monitor W} (h : Runs.Reach act EndsBetweenWaits (start W) m) :
    ¬ m.Stranded := by
  have hq : m.Quiet := h.invariant Quiet (fun hn => by cases hn) fun m a m' hi hc hs => hi.act hc hs
  intro hstranded
  obtain ⟨-, hn, w, hw⟩ := hstranded
  exact ((hq hn).2 w).2 hw

end Monitor
