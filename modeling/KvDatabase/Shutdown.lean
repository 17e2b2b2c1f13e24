/-
The two timed workers (`Worker/SnapshotScheduler.cpp`,
`Worker/UserSessionBackgroundWorker.cpp`), and what the three destructors of
`Worker/` have in common: they clear the flag and wake whoever is blocked,
without the mutex the flag is tested under.

A worker that has tested the flag and not yet blocked then sleeps on; the
pool's destructor waits for it forever, the timed workers' for the rest of
the interval. Each of the three is a monitor with something beside it
(`Monitor.not_stranded`).
-/
import KvDatabase.ThreadPool

namespace KvDatabase

/-! ## Timed workers -/

/-- Where a timed worker's thread is in `run`, the mutex apart. -/
inductive TimedWork
  /-- `while (active)`. -/
  | top
  /-- Before its wait, or in it. -/
  | waiting
  /-- Past its wait, the mutex still held. -/
  | passed
  /-- The mutex given back, the callback to be called. -/
  | calling
  | returned
deriving DecidableEq, Repr

/-- A worker that calls back at an interval; `shared` is what its callback
works on. -/
structure TimedWorker (σ : Type) where
  /-- `m`, `cv` and `active`. -/
  monitor : Monitor Unit
  work : TimedWork
  /-- The wait ended because the interval was over. -/
  timedOut : Bool
  shared : σ

inductive TimedStep
  | check
  | lock
  /-- The predicate of the wait. -/
  | test
  | block
  /-- A spurious wake-up, or the end of the interval. -/
  | wake (timeout : Bool)
  /-- The exit test. -/
  | proceed
  | call
  /-- `active = false`. -/
  | clear
  | notifyAll
deriving DecidableEq, Repr

namespace TimedWorker

variable {σ : Type}

def start (shared : σ) : TimedWorker σ where
  monitor := .start Unit
  work := .top
  timedOut := false
  shared := shared

def step (callback : σ → σ) (s : TimedWorker σ) : TimedStep → Option (TimedWorker σ)
  | .check =>
    if s.work = .top then some { s with work := if s.monitor.active then .waiting else .returned } else none
  | .lock =>
    if s.work = .waiting then (s.monitor.act (.acquire ())).map fun monitor => { s with monitor } else none
  | .test =>
    if s.work = .waiting ∧ s.monitor.phase () = .holding then
      -- after the interval the predicate is tested once more, and the wait ends whatever it says
      if !s.monitor.active || s.timedOut then some { s with work := .passed, timedOut := false }
      else (s.monitor.act (.doubt ())).map fun monitor => { s with monitor }
    else none
  | .block => (s.monitor.act (.block ())).map fun monitor => { s with monitor }
  | .wake timeout => (s.monitor.act (.wake ())).map fun monitor => { s with monitor, timedOut := timeout }
  | .proceed =>
    if s.work = .passed then
      (s.monitor.act (.release ())).map fun monitor =>
        { s with monitor, work := if s.monitor.active then .calling else .returned }
    else none
  | .call => if s.work = .calling then some { s with shared := callback s.shared, work := .top } else none
  | .clear => (s.monitor.act .clear).map fun monitor => { s with monitor }
  | .notifyAll => (s.monitor.act .notifyAll).map fun monitor => { s with monitor }

/-- `notify_all` comes when the worker is not between its test and its block. -/
def EndsBetweenWaits (s : TimedWorker σ) (l : TimedStep) : Prop := l = .notifyAll → s.monitor.phase () ≠ .tested

/-- A step leaves the monitor, or is one of its steps. -/
theorem step_monitor {callback : σ → σ} {s s' : TimedWorker σ} {l : TimedStep} (h : s.step callback l = some s') :
    s'.monitor = s.monitor ∨ ∃ a, (a = .notifyAll → l = .notifyAll) ∧ s.monitor.act a = some s'.monitor := by
  cases l with
  | check =>
    simp only [step] at h
    split at h
    · cases h; exact .inl rfl
    · cases h
  | lock =>
    simp only [step] at h
    split at h
    · obtain ⟨monitor, hm, rfl⟩ := Option.map_eq_some_iff.mp h
      exact .inr ⟨_, (fun he => by cases he), hm⟩
    · cases h
  | test =>
    simp only [step] at h
    split at h
    · split at h
      · cases h; exact .inl rfl
      · obtain ⟨monitor, hm, rfl⟩ := Option.map_eq_some_iff.mp h
        exact .inr ⟨_, (fun he => by cases he), hm⟩
    · cases h
  | block =>
    obtain ⟨monitor, hm, rfl⟩ := Option.map_eq_some_iff.mp h
    exact .inr ⟨_, (fun he => by cases he), hm⟩
  | wake timeout =>
    obtain ⟨monitor, hm, rfl⟩ := Option.map_eq_some_iff.mp h
    exact .inr ⟨_, (fun he => by cases he), hm⟩
  | proceed =>
    simp only [step] at h
    split at h
    · obtain ⟨monitor, hm, rfl⟩ := Option.map_eq_some_iff.mp h
      exact .inr ⟨_, (fun he => by cases he), hm⟩
    · cases h
  | call =>
    simp only [step] at h
    split at h
    · cases h; exact .inl rfl
    · cases h
  | clear =>
    obtain ⟨monitor, hm, rfl⟩ := Option.map_eq_some_iff.mp h
    exact .inr ⟨_, (fun he => by cases he), hm⟩
  | notifyAll =>
    obtain ⟨monitor, hm, rfl⟩ := Option.map_eq_some_iff.mp h
    exact .inr ⟨_, (fun _ => rfl), hm⟩

/-- The monitor of a timed worker runs as a monitor does. -/
theorem reach_monitor {callback : σ → σ} {shared : σ} {s : TimedWorker σ}
    (h : Runs.Reach (step callback) EndsBetweenWaits (start shared) s) :
    Runs.Reach Monitor.act Monitor.EndsBetweenWaits (.start Unit) s.monitor := by
  refine h.map TimedWorker.monitor fun s l s' hc hs => ?_
  rcases step_monitor hs with he | ⟨a, hl, ha⟩
  · exact .inl he
  · exact .inr ⟨a, fun hn _ => hc (hl hn), ha⟩

end TimedWorker

/-- `SnapshotScheduler::run` and its destructor. -/
def SnapshotScheduler.step {σ : Type} (snapshotCallback : σ → σ) : TimedWorker σ → TimedStep → Option (TimedWorker σ) :=
  TimedWorker.step snapshotCallback

/-- `UserSessionBackgroundWorker::run` and its destructor; the `break` of its
loop ends the thread too. -/
def UserSessionBackgroundWorker.step {σ : Type} (cleanupExpiredSessions : σ → σ) :
    TimedWorker σ → TimedStep → Option (TimedWorker σ) :=
  TimedWorker.step cleanupExpiredSessions

/-! ## The pool -/

/-- `notify_all` comes when no worker is between its test and its block. -/
def ThreadPool.EndsBetweenWaits {size : Nat} (s : ThreadPool size) (l : PoolStep size) : Prop :=
  l = .notifyAll → ∀ w, s.monitor.phase w ≠ .tested

theorem ThreadPool.step_monitor {size : Nat} {s s' : ThreadPool size} {l : PoolStep size}
    (h : s.step l = some s') :
    s'.monitor = s.monitor ∨ ∃ a, (a = .notifyAll → l = .notifyAll) ∧ s.monitor.act a = some s'.monitor := by
  rcases step_cases h with ⟨woken, m, -, -, hm, rfl⟩ | ⟨a, m, hl, -, hm, rfl⟩ | ⟨w, -, -, -, rfl⟩ |
    ⟨w, m, -, -, -, hm, rfl⟩ | ⟨w, m, job, jobs, -, -, hm, rfl⟩ | ⟨w, how, job, -, -, rfl⟩
  · rcases Monitor.notifyOne_eq_some hm with he | ⟨w, hw⟩
    · exact .inl he
    · exact .inr ⟨_, (fun he => by cases he), hw⟩
  · exact .inr ⟨a, hl, hm⟩
  · exact .inl rfl
  · exact .inr ⟨_, (fun he => by cases he), hm⟩
  · exact .inr ⟨_, (fun he => by cases he), hm⟩
  · exact .inl rfl

/-- The monitor of a pool runs as a monitor does. -/
theorem ThreadPool.reach_monitor {size : Nat} {s : ThreadPool size}
    (h : Runs.Reach ThreadPool.step ThreadPool.EndsBetweenWaits (ThreadPool.start size) s) :
    Runs.Reach Monitor.act Monitor.EndsBetweenWaits (.start (Fin size)) s.monitor := by
  refine h.map ThreadPool.monitor fun s l s' hc hs => ?_
  rcases step_monitor hs with he | ⟨a, hl, ha⟩
  · exact .inl he
  · exact .inr ⟨a, fun hn => hc (hl hn), ha⟩

/-! ## Shutdown -/

/-- **Shutdown strands no worker**, of a pool of any size or of the two timed
workers, in runs where `notify_all` does not come between a worker's test of
its predicate and its block. -/
theorem shutdown_strands_nobody {size : Nat} {σ : Type} (callback : σ → σ) (shared : σ) (pool : ThreadPool size)
    (worker : TimedWorker σ) :
    (Runs.Reach ThreadPool.step ThreadPool.EndsBetweenWaits (ThreadPool.start size) pool → ¬ pool.monitor.Stranded) ∧
    (Runs.Reach (SnapshotScheduler.step callback) TimedWorker.EndsBetweenWaits (TimedWorker.start shared) worker →
      ¬ worker.monitor.Stranded) ∧
    (Runs.Reach (UserSessionBackgroundWorker.step callback) TimedWorker.EndsBetweenWaits (TimedWorker.start shared)
      worker → ¬ worker.monitor.Stranded) := by
  refine ⟨fun h => ?_, fun h => ?_, fun h => ?_⟩
  · exact Monitor.not_stranded (ThreadPool.reach_monitor h)
  · exact Monitor.not_stranded (TimedWorker.reach_monitor h)
  · exact Monitor.not_stranded (TimedWorker.reach_monitor h)

/-- A worker of each kind that blocks before `notify_all` and returns after
it. -/
theorem shutdown_strands_nobody_example :
    (∃ s : ThreadPool 1, s.work 0 = .returned ∧ ¬ s.monitor.Stranded) ∧
      (∃ s : TimedWorker Nat, s.work = .returned ∧ s.shared = 1 ∧ ¬ s.monitor.Stranded) ∧
      ∃ s : TimedWorker Nat, s.work = .returned ∧ ¬ s.monitor.Stranded := by
  let ps : List (PoolStep 1) := [.lock 0, .test 0, .block 0, .clear]
  let ps' : List (PoolStep 1) := [.lock 0, .test 0, .proceed 0]
  let ts : List TimedStep := [.check, .lock, .test, .block, .wake true, .lock, .test, .proceed, .call, .check, .lock,
    .test, .block, .clear]
  let ts' : List TimedStep := [.lock, .test, .proceed]
  have hp₁ : Runs.Reach ThreadPool.step ThreadPool.EndsBetweenWaits (ThreadPool.start 1) _ :=
    Runs.Reach.start.exec ps rfl (by simp [ps, ThreadPool.EndsBetweenWaits])
  have hp₂ := hp₁.next (l := .notifyAll) (fun _ => by decide) rfl
  have hp₃ := hp₂.exec ps' rfl (by simp [ps', ThreadPool.EndsBetweenWaits])
  have ht₁ : Runs.Reach (TimedWorker.step (· + 1)) TimedWorker.EndsBetweenWaits (TimedWorker.start 0) _ :=
    Runs.Reach.start.exec ts rfl (by simp [ts, TimedWorker.EndsBetweenWaits])
  have ht₂ := ht₁.next (l := .notifyAll) (fun _ => by decide) rfl
  have ht₃ := ht₂.exec ts' rfl (by simp [ts', TimedWorker.EndsBetweenWaits])
  obtain ⟨hpool, hsnapshot, hsweep⟩ := shutdown_strands_nobody (· + 1) 0 _ _
  exact ⟨⟨_, rfl, hpool hp₃⟩, ⟨_, rfl, rfl, hsnapshot ht₃⟩, ⟨_, rfl, hsweep ht₃⟩⟩

/-- The worker tests its predicate, the destructor clears the flag and wakes
nobody, the worker blocks. -/
theorem shutdown_strands_worker :
    (∃ s : ThreadPool 1,
      Runs.Reach ThreadPool.step (fun _ _ => True) (ThreadPool.start 1) s ∧ s.monitor.Stranded) ∧
    (∃ s : TimedWorker Nat,
      Runs.Reach (SnapshotScheduler.step (· + 1)) (fun _ _ => True) (TimedWorker.start 0) s ∧ s.monitor.Stranded) ∧
    (∃ s : TimedWorker Nat,
      Runs.Reach (UserSessionBackgroundWorker.step (· + 1)) (fun _ _ => True) (TimedWorker.start 0) s ∧
        s.monitor.Stranded) := by
  let ps : List (PoolStep 1) := [.lock 0, .test 0, .clear, .notifyAll, .block 0]
  let ts : List TimedStep := [.check, .lock, .test, .clear, .notifyAll, .block]
  refine ⟨⟨_, Runs.Reach.start.exec ps rfl (by simp), ?_⟩, ⟨_, Runs.Reach.start.exec ts rfl (by simp), ?_⟩,
    ⟨_, Runs.Reach.start.exec ts rfl (by simp), ?_⟩⟩
  · exact ⟨rfl, rfl, 0, rfl⟩
  · exact ⟨rfl, rfl, (), rfl⟩
  · exact ⟨rfl, rfl, (), rfl⟩

end KvDatabase
