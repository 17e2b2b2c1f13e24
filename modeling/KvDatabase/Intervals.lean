/-
When the two timed workers call back: after an interval of their wait each
time, whatever wakes them in between, at most once more when their destructor
has cleared the flag, and never after they have returned
(`callbacks_paced`).

A run is followed by what it has in hand (`dueCalls`): an interval that was
over and whose callback is still to come.
-/
import KvDatabase.Shutdown

namespace KvDatabase

namespace TimedWorker

variable {σ : Type} {callback : σ → σ} {s s' : TimedWorker σ} {l : TimedStep}

/-! ## What a step can do -/

theorem step_check (h : s.step callback .check = some s') :
    s.work = .top ∧ s' = { s with work := if s.monitor.active then .waiting else .returned } := by
  simp only [step] at h
  split at h
  · next ht => cases h; exact ⟨ht, rfl⟩
  · cases h

theorem step_test (h : s.step callback .test = some s') :
    s.work = .waiting ∧ ((s.monitor.active = false ∨ s.timedOut = true) ∧
      s' = { s with work := .passed, timedOut := false } ∨
      ∃ monitor, monitor.active = s.monitor.active ∧ s' = { s with monitor }) := by
  simp only [step] at h
  split at h
  · next hw =>
    refine ⟨hw.1, ?_⟩
    split at h
    · next hp =>
      cases h
      refine .inl ⟨?_, rfl⟩
      cases hact : s.monitor.active with
      | false => exact .inl rfl
      | true => exact .inr (by simpa [hact] using hp)
    · obtain ⟨monitor, hm, rfl⟩ := Option.map_eq_some_iff.mp h
      exact .inr ⟨monitor, (Monitor.act_doubt hm).2.2.2.1, rfl⟩
  · cases h

theorem step_proceed (h : s.step callback .proceed = some s') :
    s.work = .passed ∧ ∃ monitor, monitor.active = s.monitor.active ∧
      s' = { s with monitor, work := if s.monitor.active then .calling else .returned } := by
  simp only [step] at h
  split at h
  · next hw =>
    obtain ⟨monitor, hm, rfl⟩ := Option.map_eq_some_iff.mp h
    have hact := (Monitor.act_release hm).2.2.1
    exact ⟨hw, monitor, hact, rfl⟩
  · cases h

theorem step_call (h : s.step callback .call = some s') :
    s.work = .calling ∧ s' = { s with shared := callback s.shared, work := .top } := by
  simp only [step] at h
  split at h
  · next hw => cases h; exact ⟨hw, rfl⟩
  · cases h

theorem step_wake {timeout : Bool} (h : s.step callback (.wake timeout) = some s') :
    ∃ monitor, monitor.active = s.monitor.active ∧ s' = { s with monitor, timedOut := timeout } := by
  obtain ⟨monitor, hm, rfl⟩ := Option.map_eq_some_iff.mp h
  exact ⟨monitor, (Monitor.act_wake hm).2.2.1, rfl⟩

theorem step_clear (h : s.step callback .clear = some s') :
    ∃ monitor, monitor.active = false ∧ s' = { s with monitor } := by
  obtain ⟨monitor, hm, rfl⟩ := Option.map_eq_some_iff.mp h
  exact ⟨monitor, (Monitor.act_clear hm).2.1, rfl⟩

/-- The steps that only take the mutex, block or notify. -/
theorem step_mutex (h : s.step callback l = some s') (hl : l = .lock ∨ l = .block ∨ l = .notifyAll) :
    ∃ monitor, monitor.active = s.monitor.active ∧ s' = { s with monitor } := by
  rcases hl with rfl | rfl | rfl
  · simp only [step] at h
    split at h
    · obtain ⟨monitor, hm, rfl⟩ := Option.map_eq_some_iff.mp h
      exact ⟨monitor, (Monitor.act_acquire hm).2.2.2.1, rfl⟩
    · cases h
  · obtain ⟨monitor, hm, rfl⟩ := Option.map_eq_some_iff.mp h
    exact ⟨monitor, (Monitor.act_block hm).2.2.1, rfl⟩
  · obtain ⟨monitor, hm, rfl⟩ := Option.map_eq_some_iff.mp h
    exact ⟨monitor, (Monitor.act_notifyAll hm).2.2.1, rfl⟩

/-! ## Intervals in hand -/

/-- The intervals that are over and whose callback is still to come. -/
def dueCalls (s : TimedWorker σ) : Nat :=
  (if s.timedOut then 1 else 0) + if s.work = .calling ∨ s.work = .passed ∧ s.monitor.active = true then 1 else 0

/-- Only the end of an interval makes a callback due, and a call takes one. -/
theorem dueCalls_step (h : s.step callback l = some s') :
    s'.dueCalls + [l].count .call ≤ s.dueCalls + [l].count (.wake true) := by
  cases l with
  | check =>
    obtain ⟨ht, rfl⟩ := step_check h
    cases hact : s.monitor.active <;> simp [dueCalls, ht]
  | test =>
    obtain ⟨hw, ⟨hp, rfl⟩ | ⟨monitor, hact, rfl⟩⟩ := step_test h
    · rcases hp with hp | hp
      · simp [dueCalls, hp]
      · cases hact : s.monitor.active <;> simp [dueCalls, hp, hact]
    · simp [dueCalls, hw]
  | proceed =>
    obtain ⟨hw, monitor, hact, rfl⟩ := step_proceed h
    cases hm : s.monitor.active <;> simp [dueCalls, hw, hm, hact]
  | call =>
    obtain ⟨hw, rfl⟩ := step_call h
    simp [dueCalls, hw]
  | wake timeout =>
    obtain ⟨monitor, hact, rfl⟩ := step_wake h
    cases timeout with
    | false => simp [dueCalls, hact]
    | true => simp [dueCalls, hact]; omega
  | clear =>
    obtain ⟨monitor, hact, rfl⟩ := step_clear h
    by_cases hw : s.work = .calling
    · simp [dueCalls, hw]
    · simp [dueCalls, hw, hact]
  | lock | block | notifyAll =>
    obtain ⟨monitor, hact, rfl⟩ := step_mutex h (by simp)
    simp [dueCalls, hact]

/-- Once the flag is cleared, no callback comes up that was not called for
already. -/
theorem calling_step (h : s.step callback l = some s') (hs : s.monitor.active = false) :
    s'.monitor.active = false ∧
      (if s'.work = .calling then 1 else 0) + [l].count .call ≤ if s.work = .calling then 1 else 0 := by
  cases l with
  | check =>
    obtain ⟨ht, rfl⟩ := step_check h
    simp [ht, hs]
  | test =>
    obtain ⟨hw, ⟨-, rfl⟩ | ⟨monitor, hact, rfl⟩⟩ := step_test h
    · simp [hw, hs]
    · simp [hw, hact, hs]
  | proceed =>
    obtain ⟨hw, monitor, hact, rfl⟩ := step_proceed h
    simp [hw, hact, hs]
  | call =>
    obtain ⟨hw, rfl⟩ := step_call h
    simp [hw, hs]
  | wake timeout =>
    obtain ⟨monitor, hact, rfl⟩ := step_wake h
    simp [hact, hs]
  | clear =>
    obtain ⟨monitor, hact, rfl⟩ := step_clear h
    simp [hact]
  | lock | block | notifyAll =>
    obtain ⟨monitor, hact, rfl⟩ := step_mutex h (by simp)
    simp [hact, hs]

/-- A worker that has returned stays so, and its thread calls nothing. -/
theorem returned_step (h : s.step callback l = some s') (hs : s.work = .returned) :
    s'.work = .returned ∧ l ≠ .call := by
  cases l with
  | check => exact absurd (step_check h).1 (by simp [hs])
  | test => exact absurd (step_test h).1 (by simp [hs])
  | proceed => exact absurd (step_proceed h).1 (by simp [hs])
  | call => exact absurd (step_call h).1 (by simp [hs])
  | wake timeout =>
    obtain ⟨monitor, -, rfl⟩ := step_wake h
    exact ⟨hs, nofun⟩
  | clear =>
    obtain ⟨monitor, -, rfl⟩ := step_clear h
    exact ⟨hs, nofun⟩
  | lock | block | notifyAll =>
    obtain ⟨monitor, -, rfl⟩ := step_mutex h (by simp)
    exact ⟨hs, nofun⟩

/-! ## Every run -/

theorem dueCalls_exec {ls : List TimedStep} (h : Runs.exec (step callback) s ls = some s') :
    s'.dueCalls + ls.count .call ≤ s.dueCalls + ls.count (.wake true) := by
  refine Runs.exec_induction h (fun ls s' => s'.dueCalls + ls.count .call ≤ s.dueCalls + ls.count (.wake true))
    (Nat.le_refl _) fun ls s₁ l s₂ ih hs => ?_
  have hstep := dueCalls_step hs
  rw [List.count_append, List.count_append]
  omega

theorem calling_exec {ls : List TimedStep} (h : Runs.exec (step callback) s ls = some s')
    (hs : s.monitor.active = false) : ls.count .call ≤ if s.work = .calling then 1 else 0 := by
  have hrun := Runs.exec_induction h (fun ls s' => s'.monitor.active = false ∧
      (if s'.work = .calling then 1 else 0) + ls.count .call ≤ if s.work = .calling then 1 else 0)
    ⟨hs, Nat.le_refl _⟩ fun ls s₁ l s₂ ih hs => by
      obtain ⟨hact, hle⟩ := calling_step hs ih.1
      refine ⟨hact, ?_⟩
      have hbefore := ih.2
      rw [List.count_append]
      omega
  omega

theorem returned_exec {ls : List TimedStep} (h : Runs.exec (step callback) s ls = some s')
    (hs : s.work = .returned) : .call ∉ ls := by
  refine (Runs.exec_induction h (fun ls s' => s'.work = .returned ∧ .call ∉ ls) ⟨hs, List.not_mem_nil⟩
    fun ls s₁ l s₂ ih hs => ?_).2
  obtain ⟨hw, hl⟩ := returned_step hs ih.1
  refine ⟨hw, fun hm => ?_⟩
  rcases List.mem_append.mp hm with hm | hm
  · exact ih.2 hm
  · exact hl (List.mem_singleton.mp hm).symm

/-- What the callbacks did to what they work on. -/
theorem shared_exec {ls : List TimedStep} (h : Runs.exec (step callback) s ls = some s') :
    s'.shared = callback^[ls.count .call] s.shared := by
  refine Runs.exec_induction h (fun ls s' => s'.shared = callback^[ls.count .call] s.shared) rfl
    fun ls s₁ l s₂ ih hs => ?_
  have hstep : s₂.shared = callback^[[l].count .call] s₁.shared := by
    cases l with
    | check => obtain ⟨-, rfl⟩ := step_check hs; rfl
    | test => obtain ⟨-, ⟨-, rfl⟩ | ⟨monitor, -, rfl⟩⟩ := step_test hs <;> rfl
    | proceed => obtain ⟨-, monitor, -, rfl⟩ := step_proceed hs; rfl
    | call => obtain ⟨-, rfl⟩ := step_call hs; rfl
    | wake timeout => obtain ⟨monitor, -, rfl⟩ := step_wake hs; cases timeout <;> rfl
    | clear => obtain ⟨monitor, -, rfl⟩ := step_clear hs; rfl
    | lock | block | notifyAll => obtain ⟨monitor, -, rfl⟩ := step_mutex hs (by simp); rfl
  rw [hstep, ih, List.count_append, Nat.add_comm, Function.iterate_add_apply]

/-- **The callbacks of a timed worker**, in every run of the worker, the ends
of its intervals, spurious wake-ups and its destructor: it does nothing but
call back, no more often than an interval was over; after the flag is cleared
it calls back once more at most, and after it has returned not at all. -/
theorem callbacks_paced {shared : σ} {ls : List TimedStep}
    (h : Runs.exec (step callback) (start shared) ls = some s) :
    s.shared = callback^[ls.count .call] shared ∧ ls.count .call ≤ ls.count (.wake true) ∧
      (∀ before after, ls = before ++ .clear :: after → after.count .call ≤ 1) ∧
      ∀ before after s₁, ls = before ++ after → Runs.exec (step callback) (start shared) before = some s₁ →
        s₁.work = .returned → .call ∉ after := by
  refine ⟨shared_exec h, ?_, ?_, ?_⟩
  · have hdue := dueCalls_exec h
    have hnone : (start shared).dueCalls = 0 := rfl
    omega
  · rintro before after rfl
    obtain ⟨s₁, -, hrest⟩ := Runs.exec_append.mp h
    obtain ⟨s₂, hclear, hafter⟩ := Runs.exec_cons_some.mp hrest
    obtain ⟨monitor, hact, rfl⟩ := step_clear hclear
    have hle := calling_exec hafter hact
    split at hle <;> omega
  · rintro before after s₁ rfl h₁ hs₁
    obtain ⟨s₂, h₂, hafter⟩ := Runs.exec_append.mp h
    obtain rfl := Option.some.inj (h₁.symm.trans h₂)
    exact returned_exec hafter hs₁

/-- A spurious wake-up, the end of the interval, and the flag cleared when the
callback is about to be called. -/
theorem callbacks_paced_example :
    let ls : List TimedStep := [.check, .lock, .test, .block, .wake false, .lock, .test, .block, .wake true, .lock,
      .test, .proceed, .clear, .call, .check]
    ∃ s : TimedWorker Nat, Runs.exec (step (· + 1)) (start 0) ls = some s ∧ s.work = .returned ∧ s.shared = 1 ∧
      ∀ before after, ls = before ++ .clear :: after → after.count .call ≤ 1 := by
  intro ls
  have h : Runs.exec (step (· + 1)) (start 0) ls = some _ := rfl
  exact ⟨_, h, rfl, (callbacks_paced h).1, (callbacks_paced h).2.2.1⟩

end TimedWorker

end KvDatabase
