/-
The thread pool (`Worker/ThreadPool.h`, `Worker/ThreadPool.cpp`): a queue of
jobs under a mutex, workers that wait for one or for the end, and a destructor
that clears the flag and wakes them.

A job is named by its place among the accepted ones: the first is 0. What
happened to the jobs is kept beside the queue (`taken`, `finished`), so that a
state tells where each job is (`ThreadPool.At`).
-/
import KvDatabase.Lib.Monitor
import Mathlib.Data.Fintype.Basic
import Mathlib.Data.List.Nodup

namespace KvDatabase

/-- Where a worker's thread is in its loop, the mutex apart. -/
inductive Work
  /-- Before its wait, or in it. -/
  | idle
  /-- Past its wait, the mutex still held. -/
  | passed
  | running (job : Nat)
  | returned
deriving DecidableEq, Repr

/-- How a job ends. -/
inductive JobEnd
  | returns
  /-- A `std::exception`. -/
  | throws
deriving DecidableEq, Repr

structure ThreadPool (size : Nat) where
  /-- `m`, `cv` and `active`. -/
  monitor : Monitor (Fin size)
  work : Fin size → Work
  jobs : List Nat
  accepted : Nat
  /-- The jobs taken from the queue, in order. -/
  taken : List Nat
  finished : List Nat
  /-- `accepted` when the last worker to do so returned. -/
  acceptedAtReturn : Nat

/-- A step of a caller, of a worker or of the destructor. -/
inductive PoolStep (size : Nat)
  /-- `acceptJob`, which wakes `woken`. -/
  | acceptJob (woken : Option (Fin size))
  | lock (w : Fin size)
  /-- The predicate of the wait. -/
  | test (w : Fin size)
  | block (w : Fin size)
  /-- A spurious wake-up. -/
  | wake (w : Fin size)
  /-- The exit test, and the job taken when it fails. -/
  | proceed (w : Fin size)
  | finish (w : Fin size) (how : JobEnd)
  /-- `active = false`. -/
  | clear
  | notifyAll
deriving DecidableEq, Repr

namespace ThreadPool

variable {size : Nat}

def start (size : Nat) : ThreadPool size where
  monitor := .start (Fin size)
  work := fun _ => .idle
  jobs := []
  accepted := 0
  taken := []
  finished := []
  acceptedAtReturn := 0

/-- The worker goes on, the mutex given back. -/
def leave (s : ThreadPool size) (w : Fin size) (work : Work) : Option (ThreadPool size) :=
  (s.monitor.act (.release w)).map fun monitor => { s with monitor, work := Function.update s.work w work }

def step (s : ThreadPool size) : PoolStep size → Option (ThreadPool size)
  | .acceptJob woken =>
    if s.monitor.Free then
      (s.monitor.notifyOne woken).map fun monitor =>
        { s with monitor, jobs := s.jobs ++ [s.accepted], accepted := s.accepted + 1 }
    else none
  | .lock w =>
    if s.work w = .idle then (s.monitor.act (.acquire w)).map fun monitor => { s with monitor } else none
  | .test w =>
    if s.work w = .idle ∧ s.monitor.phase w = .holding then
      if !s.jobs.isEmpty || !s.monitor.active then some { s with work := Function.update s.work w .passed }
      else (s.monitor.act (.doubt w)).map fun monitor => { s with monitor }
    else none
  | .block w => (s.monitor.act (.block w)).map fun monitor => { s with monitor }
  | .wake w => (s.monitor.act (.wake w)).map fun monitor => { s with monitor }
  | .proceed w =>
    if s.work w = .passed then
      if !s.monitor.active && s.jobs.isEmpty then
        { s with acceptedAtReturn := s.accepted }.leave w .returned
      else
        match s.jobs with
        | job :: jobs => { s with jobs, taken := s.taken ++ [job] }.leave w (.running job)
        | [] => none -- `front` of an empty queue
    else none
  | .finish w _ =>
    -- what the job throws is caught, so the worker goes on as if it had returned
    match s.work w with
    | .running job => some { s with work := Function.update s.work w .idle, finished := s.finished ++ [job] }
    | _ => none
  | .clear => (s.monitor.act .clear).map fun monitor => { s with monitor }
  | .notifyAll => (s.monitor.act .notifyAll).map fun monitor => { s with monitor }

/-! ## What a step does -/

/-- A step of the monitor that no worker takes who is past its wait. -/
def Waits (s : ThreadPool size) (a : Monitor.Act (Fin size)) : Prop :=
  ∀ w, s.work w ≠ .idle → a ≠ .acquire w ∧ a ≠ .doubt w ∧ a ≠ .release w

theorem leave_eq_some {s s' : ThreadPool size} {w : Fin size} {work : Work} (h : s.leave w work = some s') :
    ∃ monitor, s.monitor.act (.release w) = some monitor ∧
      s' = { s with monitor, work := Function.update s.work w work } := by
  obtain ⟨monitor, hm, rfl⟩ := Option.map_eq_some_iff.mp h
  exact ⟨monitor, hm, rfl⟩

/-- Everything a step can do: a job is accepted; or only the monitor moves; or
a worker passes its wait, returns, takes a job or finishes one. -/
theorem step_cases {s s' : ThreadPool size} {l : PoolStep size} (h : s.step l = some s') :
    (∃ woken monitor, l = .acceptJob woken ∧ s.monitor.Free ∧ s.monitor.notifyOne woken = some monitor ∧
      s' = { s with monitor, jobs := s.jobs ++ [s.accepted], accepted := s.accepted + 1 }) ∨
    (∃ a monitor, (a = .notifyAll → l = .notifyAll) ∧ s.Waits a ∧ s.monitor.act a = some monitor ∧
      s' = { s with monitor }) ∨
    (∃ w, s.work w = .idle ∧ s.monitor.phase w = .holding ∧ (s.jobs ≠ [] ∨ s.monitor.active = false) ∧
      s' = { s with work := Function.update s.work w .passed }) ∨
    (∃ w monitor, s.work w = .passed ∧ s.monitor.active = false ∧ s.jobs = [] ∧
      s.monitor.act (.release w) = some monitor ∧
      s' = { s with monitor, work := Function.update s.work w .returned, acceptedAtReturn := s.accepted }) ∨
    (∃ w monitor job jobs, s.work w = .passed ∧ s.jobs = job :: jobs ∧
      s.monitor.act (.release w) = some monitor ∧
      s' = { s with
        monitor, jobs, work := Function.update s.work w (.running job), taken := s.taken ++ [job] }) ∨
    (∃ w how job, l = .finish w how ∧ s.work w = .running job ∧
      s' = { s with work := Function.update s.work w .idle, finished := s.finished ++ [job] }) := by
  cases l with
  | acceptJob woken =>
    simp only [step] at h
    split at h
    · next hf =>
      obtain ⟨monitor, hm, rfl⟩ := Option.map_eq_some_iff.mp h
      exact .inl ⟨woken, monitor, rfl, hf, hm, rfl⟩
    · cases h
  | lock w =>
    simp only [step] at h
    split at h
    · next hw =>
      obtain ⟨monitor, hm, rfl⟩ := Option.map_eq_some_iff.mp h
      refine .inr (.inl ⟨_, monitor, (fun he => by cases he), fun v hv => ⟨?_, by simp, by simp⟩, hm, rfl⟩)
      intro he
      cases he
      exact hv hw
    · cases h
  | test w =>
    simp only [step] at h
    split at h
    · next hw =>
      split at h
      · next hp =>
        cases h
        refine .inr (.inr (.inl ⟨w, hw.1, hw.2, ?_, rfl⟩))
        simpa using hp
      · obtain ⟨monitor, hm, rfl⟩ := Option.map_eq_some_iff.mp h
        refine .inr (.inl ⟨_, monitor, (fun he => by cases he), fun v hv => ⟨by simp, ?_, by simp⟩, hm, rfl⟩)
        intro he
        cases he
        exact hv hw.1
    · cases h
  | block w =>
    obtain ⟨monitor, hm, rfl⟩ := Option.map_eq_some_iff.mp h
    exact .inr (.inl ⟨_, monitor, (fun he => by cases he), fun v _ => by simp, hm, rfl⟩)
  | wake w =>
    obtain ⟨monitor, hm, rfl⟩ := Option.map_eq_some_iff.mp h
    exact .inr (.inl ⟨_, monitor, (fun he => by cases he), fun v _ => by simp, hm, rfl⟩)
  | proceed w =>
    simp only [step] at h
    split at h
    · next hw =>
      split at h
      · next he =>
        obtain ⟨monitor, hm, rfl⟩ := leave_eq_some h
        simp only [Bool.and_eq_true, Bool.not_eq_true', List.isEmpty_iff] at he
        exact .inr (.inr (.inr (.inl ⟨w, monitor, hw, he.1, he.2, hm, rfl⟩)))
      · split at h
        · next job jobs hj =>
          obtain ⟨monitor, hm, rfl⟩ := leave_eq_some h
          exact .inr (.inr (.inr (.inr (.inl ⟨w, monitor, job, jobs, hw, hj, hm, rfl⟩))))
        · cases h
    · cases h
  | finish w how =>
    simp only [step] at h
    split at h
    · next job hw =>
      cases h
      exact .inr (.inr (.inr (.inr (.inr ⟨w, how, job, rfl, hw, rfl⟩))))
    · cases h
  | clear =>
    obtain ⟨monitor, hm, rfl⟩ := Option.map_eq_some_iff.mp h
    exact .inr (.inl ⟨_, monitor, (fun he => by cases he), fun v _ => by simp, hm, rfl⟩)
  | notifyAll =>
    obtain ⟨monitor, hm, rfl⟩ := Option.map_eq_some_iff.mp h
    exact .inr (.inl ⟨_, monitor, (fun _ => rfl), fun v _ => by simp, hm, rfl⟩)

/-! ## Each job once -/

/-- The accepted jobs, told by where they are. -/
structure Accounted (s : ThreadPool size) : Prop where
  order : s.taken ++ s.jobs = List.range s.accepted
  split : ∀ j, j ∈ s.taken ↔ (∃ w, s.work w = .running j) ∨ j ∈ s.finished
  single : ∀ v w j, s.work v = .running j → s.work w = .running j → v = w
  apart : ∀ w j, s.work w = .running j → j ∉ s.finished
  once : s.finished.Nodup
  outside : ∀ w j, s.work w = .running j → s.monitor.phase w = .outside
  passed : ∀ w, s.work w = .passed → s.monitor.phase w = .holding ∧ (s.jobs ≠ [] ∨ s.monitor.active = false)
  drained : ∀ j < s.acceptedAtReturn, j ∈ s.taken

theorem Accounted.start (size : Nat) : (start size).Accounted where
  order := rfl
  split := by simp [ThreadPool.start]
  single := by intro v w j h; cases h
  apart := by intro w j h; cases h
  once := .nil
  outside := by intro w j h; cases h
  passed := by intro w h; cases h
  drained := by intro j h; cases h

/-- No job is queued twice, or queued and taken. -/
theorem Accounted.nodup {s : ThreadPool size} (h : s.Accounted) : (s.taken ++ s.jobs).Nodup :=
  h.order ▸ List.nodup_range

theorem Accounted.not_taken {s : ThreadPool size} (h : s.Accounted) {j : Nat} (hj : j ∈ s.jobs) : j ∉ s.taken :=
  fun ht => List.disjoint_of_nodup_append h.nodup ht hj

/-- A step of the monitor alone, jobs being added behind the others. -/
theorem Accounted.monitor {s : ThreadPool size} (h : s.Accounted) {m : Monitor (Fin size)}
    (hphase : ∀ w, s.work w ≠ .idle → s.monitor.phase w = .outside ∨ s.monitor.phase w = .holding →
      m.phase w = s.monitor.phase w)
    (hactive : s.monitor.active = false → m.active = false) : ({ s with monitor := m } : ThreadPool size).Accounted where
  order := h.order
  split := h.split
  single := h.single
  apart := h.apart
  once := h.once
  outside := by
    intro w j hw
    have ho := h.outside w j hw
    exact (hphase w (by rw [show s.work w = _ from hw]; simp) (.inl ho)).trans ho
  passed := by
    intro w hw
    obtain ⟨hp, hj⟩ := h.passed w hw
    exact ⟨(hphase w (by rw [show s.work w = _ from hw]; simp) (.inr hp)).trans hp, hj.imp_right hactive⟩
  drained := h.drained

theorem Accounted.accept {s : ThreadPool size} (h : s.Accounted) :
    ({ s with jobs := s.jobs ++ [s.accepted], accepted := s.accepted + 1 } : ThreadPool size).Accounted where
  order := by
    simp only
    rw [← List.append_assoc, h.order, List.range_succ]
  split := h.split
  single := h.single
  apart := h.apart
  once := h.once
  outside := h.outside
  passed := fun w hw => ⟨(h.passed w hw).1, .inl (by simp)⟩
  drained := h.drained

/-- What a worker is left doing by a step of another, or of itself. -/
theorem update_work {s : ThreadPool size} {w v : Fin size} {x y : Work} :
    Function.update s.work w x v = y ↔ v = w ∧ x = y ∨ v ≠ w ∧ s.work v = y := by
  by_cases hv : v = w
  · subst hv; simp
  · simp [hv]

/-- A step that neither begins a job nor ends one leaves the running ones. -/
theorem running_update {s : ThreadPool size} {w : Fin size} {x : Work} (hw : ∀ j, s.work w ≠ .running j)
    (hx : ∀ j, x ≠ .running j) (v : Fin size) (j : Nat) :
    Function.update s.work w x v = .running j ↔ s.work v = .running j := by
  rw [update_work]
  constructor
  · intro hupdated
    rcases hupdated with ⟨-, he⟩ | ⟨-, he⟩
    · exact absurd he (hx j)
    · exact he
  · intro he
    exact .inr ⟨fun hv => hw j (hv ▸ he), he⟩

theorem Accounted.pass {s : ThreadPool size} (h : s.Accounted) {w : Fin size} (hw : s.work w = .idle)
    (hp : s.monitor.phase w = .holding) (hj : s.jobs ≠ [] ∨ s.monitor.active = false) :
    ({ s with work := Function.update s.work w .passed } : ThreadPool size).Accounted := by
  have hrun := running_update (x := .passed) (fun j => by rw [hw]; simp) (fun j => by simp)
  refine ⟨h.order, ?_, ?_, ?_, h.once, ?_, ?_, h.drained⟩
  · simpa only [hrun] using h.split
  · simpa only [hrun] using h.single
  · simpa only [hrun] using h.apart
  · simpa only [hrun] using h.outside
  · intro v hv
    rcases update_work.mp hv with ⟨rfl, -⟩ | ⟨-, hv⟩
    · exact ⟨hp, hj⟩
    · exact h.passed v hv

/-- The mutex is with the worker that is past its wait, so no other is. -/
theorem Accounted.passed_unique {s : ThreadPool size} (h : s.Accounted) {v w : Fin size} (hv : s.work v = .passed)
    (hw : s.work w = .passed) : v = w :=
  s.monitor.exclusive v w (by rw [(h.passed v hv).1]; rfl) (by rw [(h.passed w hw).1]; rfl)

theorem Accounted.return {s : ThreadPool size} (h : s.Accounted) {w : Fin size} (hw : s.work w = .passed)
    (hj : s.jobs = []) {m : Monitor (Fin size)} (hm : s.monitor.act (.release w) = some m) :
    ({ s with monitor := m, work := Function.update s.work w .returned, acceptedAtReturn := s.accepted } :
      ThreadPool size).Accounted := by
  obtain ⟨-, hphase, hactive, -⟩ := Monitor.act_release hm
  have hrun := running_update (x := .returned) (fun j => by rw [hw]; simp) (fun j => by simp)
  refine ⟨h.order, ?_, ?_, ?_, h.once, ?_, ?_, ?_⟩
  · simpa only [hrun] using h.split
  · simpa only [hrun] using h.single
  · simpa only [hrun] using h.apart
  · intro v j hv
    rw [hphase, Function.update_apply]
    split
    · rfl
    · exact h.outside v j ((hrun v j).mp hv)
  · intro v hv
    rcases update_work.mp hv with ⟨-, he⟩ | ⟨hne, hv⟩
    · cases he
    · exact absurd (h.passed_unique hv hw) hne
  · -- the queue is empty, so every accepted job was taken
    intro j hlt
    have ho := h.order
    rw [hj, List.append_nil] at ho
    change j ∈ s.taken
    rw [ho]
    exact List.mem_range.mpr hlt

/-- A job runs once still when what is begun was not running. -/
theorem Accounted.single_update {s : ThreadPool size} (h : s.Accounted) {w : Fin size} {x : Work}
    (hx : ∀ v j, x = .running j → s.work v ≠ .running j) (u v : Fin size) (j : Nat)
    (hu : Function.update s.work w x u = .running j) (hv : Function.update s.work w x v = .running j) : u = v := by
  rcases update_work.mp hu with ⟨huw, he⟩ | ⟨-, hu⟩
  · rcases update_work.mp hv with ⟨hvw, -⟩ | ⟨-, hv⟩
    · rw [huw, hvw]
    · exact absurd hv (hx v j he)
  · rcases update_work.mp hv with ⟨-, he⟩ | ⟨-, hv⟩
    · exact absurd hu (hx u j he)
    · exact h.single u v j hu hv

theorem Accounted.take {s : ThreadPool size} (h : s.Accounted) {w : Fin size} (hw : s.work w = .passed) {job : Nat}
    {jobs : List Nat} (hj : s.jobs = job :: jobs) {m : Monitor (Fin size)}
    (hm : s.monitor.act (.release w) = some m) :
    ({ s with monitor := m, jobs := jobs, work := Function.update s.work w (.running job),
              taken := s.taken ++ [job] } : ThreadPool size).Accounted := by
  obtain ⟨-, hphase, hactive, -⟩ := Monitor.act_release hm
  have hfresh : job ∉ s.taken := h.not_taken (by simp [hj])
  have hnotrun : ∀ v, s.work v ≠ .running job := fun v hv => hfresh ((h.split job).mpr (.inl ⟨v, hv⟩))
  refine ⟨?_, ?_, ?_, ?_, h.once, ?_, ?_, ?_⟩
  · simp only
    rw [List.append_assoc, List.singleton_append, ← hj]
    exact h.order
  · intro j
    simp only [List.mem_append, List.mem_singleton, h.split, update_work]
    constructor
    · intro hrun
      rcases hrun with (⟨v, hv⟩ | hf) | rfl
      · refine .inl ⟨v, .inr ⟨fun he => ?_, hv⟩⟩
        rw [he, hw] at hv
        cases hv
      · exact .inr hf
      · exact .inl ⟨w, .inl ⟨rfl, rfl⟩⟩
    · intro hrun
      rcases hrun with ⟨v, ⟨-, he⟩ | ⟨-, hv⟩⟩ | hf
      · cases he; exact .inr rfl
      · exact .inl (.inl ⟨v, hv⟩)
      · exact .inl (.inr hf)
  · exact h.single_update fun v j he => by cases he; exact hnotrun v
  · intro v j hv hf
    rcases update_work.mp hv with ⟨-, he⟩ | ⟨-, hv⟩
    · cases he; exact hfresh ((h.split job).mpr (.inr hf))
    · exact h.apart v j hv hf
  · intro v j hv
    rw [hphase, Function.update_apply]
    split
    · rfl
    · next hne =>
      rcases update_work.mp hv with ⟨he, -⟩ | ⟨-, hv⟩
      · exact absurd he hne
      · exact h.outside v j hv
  · intro v hv
    rcases update_work.mp hv with ⟨-, he⟩ | ⟨hne, hv⟩
    · cases he
    · exact absurd (h.passed_unique hv hw) hne
  · intro j hlt
    exact List.mem_append_left _ (h.drained j hlt)

theorem Accounted.finish {s : ThreadPool size} (h : s.Accounted) {w : Fin size} {job : Nat}
    (hw : s.work w = .running job) :
    ({ s with work := Function.update s.work w .idle, finished := s.finished ++ [job] } :
      ThreadPool size).Accounted := by
  refine ⟨h.order, ?_, ?_, ?_, ?_, ?_, ?_, h.drained⟩
  · intro j
    simp only [List.mem_append, List.mem_singleton, h.split, update_work]
    constructor
    · intro hrun
      rcases hrun with ⟨v, hv⟩ | hf
      · by_cases hvw : v = w
        · subst hvw
          rw [hw] at hv
          cases hv
          exact .inr (.inr rfl)
        · exact .inl ⟨v, .inr ⟨hvw, hv⟩⟩
      · exact .inr (.inl hf)
    · intro hrun
      rcases hrun with ⟨v, ⟨-, he⟩ | ⟨-, hv⟩⟩ | hf | rfl
      · cases he
      · exact .inl ⟨v, hv⟩
      · exact .inr hf
      · exact .inl ⟨w, hw⟩
  · exact h.single_update fun v j he => by cases he
  · intro v j hv hf
    rcases update_work.mp hv with ⟨-, he⟩ | ⟨hne, hv⟩
    · cases he
    rcases List.mem_append.mp hf with hf | hf
    · exact h.apart v j hv hf
    · rw [List.mem_singleton.mp hf] at hv
      exact hne (h.single v w job hv hw)
  · simp only [List.nodup_append, List.mem_singleton, h.once, List.nodup_singleton, true_and]
    rintro j hj _ rfl rfl
    exact h.apart w j hw hj
  · intro v j hv
    rcases update_work.mp hv with ⟨-, he⟩ | ⟨-, hv⟩
    · cases he
    · exact h.outside v j hv
  · intro v hv
    rcases update_work.mp hv with ⟨-, he⟩ | ⟨-, hv⟩
    · cases he
    · exact h.passed v hv

/-- Every step keeps the account. -/
theorem Accounted.step {s s' : ThreadPool size} {l : PoolStep size} (h : s.Accounted) (hs : s.step l = some s') :
    s'.Accounted := by
  rcases step_cases hs with ⟨woken, m, -, -, hm, rfl⟩ | ⟨a, m, -, ha, hm, rfl⟩ | ⟨w, hw, hp, hj, rfl⟩ |
    ⟨w, m, hw, -, hj, hm, rfl⟩ | ⟨w, m, job, jobs, hw, hj, hm, rfl⟩ | ⟨w, how, job, -, hw, rfl⟩
  · rcases Monitor.notifyOne_eq_some hm with rfl | ⟨w, hm⟩
    · exact h.accept
    · refine Accounted.monitor h.accept (fun v _ hv => ?_) fun ha => ?_
      · exact Monitor.phase_act hm hv (by simp) (by simp) (by simp)
      · exact (Monitor.act_wake hm).2.2.1.trans ha
  · refine h.monitor (fun v hv hp => ?_) fun hf => Monitor.act_inactive hm hf
    obtain ⟨h₁, h₂, h₃⟩ := ha v hv
    exact Monitor.phase_act hm hp h₁ h₂ h₃
  · exact h.pass hw hp hj
  · exact h.return hw hj hm
  · exact h.take hw hj hm
  · exact h.finish hw

/-- The runs of the pool, without condition. -/
abbrev Reachable (s : ThreadPool size) : Prop := Runs.Reach step (fun _ _ => True) (ThreadPool.start size) s

theorem Reachable.accounted {s : ThreadPool size} (h : s.Reachable) : s.Accounted :=
  h.invariant Accounted (.start size) fun _ _ _ hi _ hs => hi.step hs

/-- A place where a job can be. -/
inductive Place (size : Nat)
  | queued
  | running (w : Fin size)
  | finished
deriving DecidableEq, Repr

/-- Job `j` is at this place. -/
def At (s : ThreadPool size) (j : Nat) : Place size → Prop
  | .queued => j ∈ s.jobs
  | .running w => s.work w = .running j
  | .finished => j ∈ s.finished

/-- What the pool owes the jobs it accepts. -/
structure Faithful (s : ThreadPool size) : Prop where
  /-- An accepted job is in one place, -/
  place : ∀ j < s.accepted, ∃! p, s.At j p
  /-- and once there; -/
  once : (s.jobs ++ s.finished).Nodup
  /-- there is no other job. -/
  known : ∀ j p, s.At j p → j < s.accepted
  /-- Jobs are taken in the order in which they were accepted. -/
  order : s.taken ++ s.jobs = List.range s.accepted
  /-- A worker whose job throws goes on, and takes the next job when it gets
  the mutex. -/
  survives : ∀ w j, s.work w = .running j → ∃ s', s.step (.finish w .throws) = some s' ∧
    ∀ next rest, s'.jobs = next :: rest → s'.monitor.Free →
      ∃ s'', Runs.exec step s' [.lock w, .test w, .proceed w] = some s'' ∧ s''.work w = .running next
  /-- When all workers have returned, what was accepted before the last one
  did is finished. -/
  drained : (∀ w, s.work w = .returned) → ∀ j < s.acceptedAtReturn, j ∈ s.finished

theorem Accounted.mem_iff {s : ThreadPool size} (h : s.Accounted) (j : Nat) :
    j < s.accepted ↔ j ∈ s.taken ∨ j ∈ s.jobs := by
  rw [← List.mem_append, h.order, List.mem_range]

theorem Accounted.place {s : ThreadPool size} (h : s.Accounted) {j : Nat} (hj : j < s.accepted) :
    ∃! p, s.At j p := by
  rcases (h.mem_iff j).mp hj with ht | hq
  · have hnq : j ∉ s.jobs := fun hq => h.not_taken hq ht
    rcases (h.split j).mp ht with ⟨w, hw⟩ | hf
    · refine ⟨.running w, hw, fun p hp => ?_⟩
      cases p with
      | queued => exact absurd hp hnq
      | running v => rw [h.single v w j hp hw]
      | finished => exact absurd hp (h.apart w j hw)
    · refine ⟨.finished, hf, fun p hp => ?_⟩
      cases p with
      | queued => exact absurd hp hnq
      | running v => exact absurd hf (h.apart v j hp)
      | finished => rfl
  · have hnt := h.not_taken hq
    refine ⟨.queued, hq, fun p hp => ?_⟩
    cases p with
    | queued => rfl
    | running v => exact absurd ((h.split j).mpr (.inl ⟨v, hp⟩)) hnt
    | finished => exact absurd ((h.split j).mpr (.inr hp)) hnt

theorem Accounted.known {s : ThreadPool size} (h : s.Accounted) {j : Nat} {p : Place size} (hp : s.At j p) :
    j < s.accepted := by
  rw [h.mem_iff]
  cases p with
  | queued => exact .inr hp
  | running w => exact .inl ((h.split j).mpr (.inl ⟨w, hp⟩))
  | finished => exact .inl ((h.split j).mpr (.inr hp))

theorem Accounted.nodup_places {s : ThreadPool size} (h : s.Accounted) : (s.jobs ++ s.finished).Nodup := by
  rw [List.nodup_append]
  refine ⟨h.nodup.of_append_right, h.once, ?_⟩
  rintro j hq _ hf rfl
  exact h.not_taken hq ((h.split j).mpr (.inr hf))

/-- A worker that has the mutex to take goes through its wait to the next job. -/
theorem exec_take {s : ThreadPool size} {w : Fin size} (hw : s.work w = .idle)
    (hp : s.monitor.phase w = .outside) (hf : s.monitor.Free) {job : Nat} {jobs : List Nat}
    (hj : s.jobs = job :: jobs) :
    ∃ s', Runs.exec step s [.lock w, .test w, .proceed w] = some s' ∧ s'.work w = .running job := by
  simp [Runs.exec_cons, step, hw, Monitor.act, hp, hf, hj, leave, Monitor.move]

theorem Accounted.survives {s : ThreadPool size} (h : s.Accounted) {w : Fin size} {j : Nat}
    (hw : s.work w = .running j) :
    ∃ s', s.step (.finish w .throws) = some s' ∧ ∀ next rest, s'.jobs = next :: rest → s'.monitor.Free →
      ∃ s'', Runs.exec ThreadPool.step s' [.lock w, .test w, .proceed w] = some s'' ∧
        s''.work w = .running next := by
  refine ⟨{ s with work := Function.update s.work w .idle, finished := s.finished ++ [j] }, ?_, ?_⟩
  · simp [ThreadPool.step, hw]
  · intro next rest hj hf
    exact exec_take (s := { s with work := Function.update s.work w .idle, finished := s.finished ++ [j] })
      (Function.update_self w Work.idle s.work) (h.outside w j hw) hf hj

theorem Accounted.all_finished {s : ThreadPool size} (h : s.Accounted) (hr : ∀ w, s.work w = .returned) {j : Nat}
    (hj : j < s.acceptedAtReturn) : j ∈ s.finished := by
  rcases (h.split j).mp (h.drained j hj) with ⟨w, hw⟩ | hf
  · rw [hr w] at hw
    cases hw
  · exact hf

/-- **The pool runs every accepted job once**, whatever its size, and however
callers, workers and the destructor interleave. -/
theorem pool_faithful {s : ThreadPool size} (h : s.Reachable) : s.Faithful where
  place := fun _ hj => h.accounted.place hj
  once := h.accounted.nodup_places
  known := fun _ _ hp => h.accounted.known hp
  order := h.accounted.order
  survives := fun _ _ hw => h.accounted.survives hw
  drained := fun hr _ hj => h.accounted.all_finished hr hj

/-- Two workers, a job that throws and one accepted while it runs, and the
end. -/
theorem pool_faithful_example :
    ∃ s : ThreadPool 2, s.Faithful ∧ s.finished = [1, 0] ∧ (∀ w, s.work w = .returned) ∧ s.acceptedAtReturn = 2 := by
  let ls : List (PoolStep 2) := [.acceptJob none, .lock 0, .test 0, .proceed 0, .acceptJob none, .lock 1, .test 1,
    .proceed 1, .finish 1 .throws, .lock 1, .test 1, .block 1, .clear, .finish 0 .returns, .notifyAll, .lock 0,
    .test 0, .proceed 0, .lock 1, .test 1, .proceed 1]
  have h : Runs.Reach ThreadPool.step (fun _ _ => True) (ThreadPool.start 2) _ :=
    Runs.Reach.start.exec ls rfl (by simp)
  exact ⟨_, pool_faithful h, by decide, by decide, by decide⟩

end ThreadPool

end KvDatabase
