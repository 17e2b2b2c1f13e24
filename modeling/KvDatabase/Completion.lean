/-
Every job the pool accepts is run to its end (`Worker/ThreadPool.cpp`), when
the workers are scheduled fairly and jobs are accepted before the destructor
begins: also the jobs that are queued when it does (`jobs_finish`). After that
the workers return and nothing more happens, so a run may be idle.

While a job is queued there is a worker that brings it nearer (`Nears`): the
one that has the mutex, or, when it is free, one that can take it, or one whose
job has to end first.
-/
import KvDatabase.Lib.Fair
import KvDatabase.Wakeups
import Mathlib.Tactic.IntervalCases

namespace KvDatabase

/-- The worker whose step it is. A worker does not wake itself. -/
def PoolStep.worker {size : Nat} : PoolStep size → Option (Fin size)
  | .lock w | .test w | .block w | .proceed w | .finish w _ => some w
  | .acceptJob _ | .wake _ | .clear | .notifyAll => none

namespace ThreadPool

open Runs

variable {size : Nat} {s s' : ThreadPool size} {l : PoolStep size} {w : Fin size}

/-- Jobs are accepted before the destructor begins. -/
def InUse (s : ThreadPool size) : PoolStep size → Prop
  | .acceptJob _ => s.monitor.active = true
  | _ => True

/-- Nobody has gone who is needed. -/
def Staffed (s : ThreadPool size) : Prop := ∀ w, s.work w = .returned → s.monitor.active = false ∧ s.jobs = []

theorem Staffed.step (h : s.Staffed) (hc : s.InUse l) (hs : s.step l = some s') : s'.Staffed := by
  rcases step_cases hs with ⟨woken, m, rfl, -, hm, rfl⟩ | ⟨a, m, -, ha, hm, rfl⟩ | ⟨w, hw, hp, hj, rfl⟩ |
    ⟨w, m, hw, hact, hj, hm, rfl⟩ | ⟨w, m, job, jobs, hw, hj, hm, rfl⟩ | ⟨w, how, job, -, hw, rfl⟩
  · intro v hv
    have hactive : s.monitor.active = true := hc
    rw [(h v hv).1] at hactive
    cases hactive
  · intro v hv
    exact ⟨Monitor.act_inactive hm (h v hv).1, (h v hv).2⟩
  · intro v hv
    rcases update_work.mp hv with ⟨-, he⟩ | ⟨-, hv⟩
    · cases he
    · exact h v hv
  · exact fun v _ => ⟨(Monitor.act_release hm).2.2.1.trans hact, hj⟩
  · intro v hv
    rcases update_work.mp hv with ⟨-, he⟩ | ⟨-, hv⟩
    · cases he
    · rw [(h v hv).2] at hj
      cases hj
  · intro v hv
    rcases update_work.mp hv with ⟨-, he⟩ | ⟨-, hv⟩
    · cases he
    · exact h v hv

/-! ## Who helps -/

/-- How many steps the worker is from taking a job from the queue, or letting
another take one. -/
inductive Nears (s : ThreadPool size) (w : Fin size) : Nat → Prop
  | passed : s.work w = .passed → Nears s w 1
  | holding : s.work w = .idle → s.monitor.phase w = .holding → Nears s w 2
  | coming : s.monitor.Free → s.work w = .idle → s.monitor.phase w = .outside ∨ s.monitor.phase w = .woken →
    Nears s w 3
  | running : s.monitor.Free → (job : Nat) → s.work w = .running job → Nears s w 4

/-- While a job is queued, somebody helps. -/
theorem exists_nears (ha : s.Accounted) (hw : s.Awake) (hst : s.Staffed) (hsize : 0 < size) (hj : s.jobs ≠ []) :
    ∃ w r, r ≤ 4 ∧ s.Nears w r := by
  by_cases hf : s.monitor.Free
  · let first : Fin size := ⟨0, hsize⟩
    have coming : s.work first = .idle ∨ s.work first = .passed → ∃ w r, r ≤ 4 ∧ s.Nears w r := fun hwait => by
      obtain ⟨w, hwork, hnt, hnb⟩ := hw.exists_coming hj hwait
      have hphase := hf w
      refine ⟨w, 3, by omega, .coming hf (hwork.resolve_right fun hp => ?_) ?_⟩
      · rw [(ha.passed w hp).1] at hphase
        cases hphase
      · cases hp : s.monitor.phase w with
        | outside => exact .inl rfl
        | woken => exact .inr rfl
        | holding => rw [hp] at hphase; cases hphase
        | tested => exact absurd hp hnt
        | blocked => exact absurd hp hnb
    cases hfirst : s.work first with
    | idle => exact coming (.inl hfirst)
    | passed => exact coming (.inr hfirst)
    | running job => exact ⟨first, 4, Nat.le_refl 4, .running hf job hfirst⟩
    | returned => exact absurd (hst first hfirst).2 hj
  · obtain ⟨w, hholds⟩ := not_forall.mp hf
    have hphase : s.monitor.phase w = .holding := by
      cases hp : s.monitor.phase w with
      | holding => rfl
      | tested => exact absurd (hw.tested w hp) hj
      | outside | blocked | woken => rw [hp] at hholds; exact absurd rfl hholds
    rcases hw.waits w (by rw [hphase]; simp) with hidle | hpassed
    · exact ⟨w, 2, by omega, .holding hidle hphase⟩
    · exact ⟨w, 1, by omega, .passed hpassed⟩

theorem Nears.pos {r : Nat} (h : s.Nears w r) : 0 < r := by cases h <;> omega

/-- It can take its next step. -/
theorem Nears.enabled {r : Nat} (h : s.Nears w r) (ha : s.Accounted) (hj : s.jobs ≠ []) :
    Enabled step InUse (fun l => l.worker = some w) s := by
  obtain ⟨job, jobs, hjobs⟩ := List.exists_cons_of_ne_nil hj
  cases h with
  | passed hw =>
    have hphase := (ha.passed w hw).1
    exact ⟨.proceed w, rfl, trivial, by simp [step, hw, hjobs, leave, Monitor.act, hphase]⟩
  | holding hw hphase => exact ⟨.test w, rfl, trivial, by simp [step, hw, hphase, hjobs]⟩
  | coming hf hw hphase => exact ⟨.lock w, rfl, trivial, by simp [step, hw, hphase, Monitor.act, hf]⟩
  | running hf job hw => exact ⟨.finish w .returns, rfl, trivial, by simp [step, hw]⟩

/-! ## What a step does to it -/

/-- A step that is no worker's: jobs may come, and workers that sleep may wake. -/
theorem step_other (hs : s.step l = some s') (hl : l.worker = none) :
    s'.work = s.work ∧ (∃ more, s'.jobs = s.jobs ++ more) ∧
      ∀ w, s'.monitor.phase w = s.monitor.phase w ∨
        s.monitor.phase w = .blocked ∧ s'.monitor.phase w = .woken := by
  have woken : ∀ {m : Monitor (Fin size)} {v : Fin size}, s.monitor.act (.wake v) = some m → ∀ w,
      m.phase w = s.monitor.phase w ∨ s.monitor.phase w = .blocked ∧ m.phase w = .woken := by
    intro m v hm w
    obtain ⟨hb, hp, -⟩ := Monitor.act_wake hm
    by_cases hwv : w = v
    · exact .inr ⟨hwv ▸ hb, by rw [hp, hwv, Function.update_self]⟩
    · exact .inl (by rw [hp, Function.update_of_ne hwv])
  cases l with
  | acceptJob o =>
    simp only [step] at hs
    split at hs
    · obtain ⟨m, hm, rfl⟩ := Option.map_eq_some_iff.mp hs
      refine ⟨rfl, ⟨[s.accepted], rfl⟩, fun w => ?_⟩
      rcases Monitor.notifyOne_eq_some hm with rfl | ⟨v, hm⟩
      · exact .inl rfl
      · exact woken hm w
    · cases hs
  | wake v =>
    obtain ⟨m, hm, rfl⟩ := Option.map_eq_some_iff.mp hs
    exact ⟨rfl, ⟨[], (List.append_nil _).symm⟩, woken hm⟩
  | clear =>
    obtain ⟨m, hm, rfl⟩ := Option.map_eq_some_iff.mp hs
    exact ⟨rfl, ⟨[], (List.append_nil _).symm⟩, fun w => .inl (congrFun (Monitor.act_clear hm).1 w)⟩
  | notifyAll =>
    obtain ⟨m, hm, rfl⟩ := Option.map_eq_some_iff.mp hs
    refine ⟨rfl, ⟨[], (List.append_nil _).symm⟩, fun w => ?_⟩
    simp only [(Monitor.act_notifyAll hm).2.1]
    by_cases hb : s.monitor.phase w = .blocked
    · exact .inr ⟨hb, if_pos hb⟩
    · exact .inl (if_neg hb)
  | lock | test | block | proceed | finish => cases hl

theorem Nears.other {r : Nat} (h : s.Nears w r) (hs : s.step l = some s') (hl : l.worker = none) : s'.Nears w r := by
  obtain ⟨hwork, -, hphase⟩ := step_other hs hl
  have same : s.monitor.phase w ≠ .blocked → s'.monitor.phase w = s.monitor.phase w := fun hnb =>
    (hphase w).resolve_right fun hb => hnb hb.1
  have free : s.monitor.Free → s'.monitor.Free := fun hf v => by
    rcases hphase v with he | ⟨-, he⟩
    · exact he ▸ hf v
    · rw [he]; rfl
  cases h with
  | passed hw => exact .passed (hwork ▸ hw)
  | holding hw hp => exact .holding (hwork ▸ hw) ((same (by rw [hp]; simp)).trans hp)
  | coming hf hw hp =>
    have hnb : s.monitor.phase w ≠ .blocked := by rcases hp with hp | hp <;> rw [hp] <;> simp
    exact .coming (free hf) (hwork ▸ hw) (same hnb ▸ hp)
  | running hf job hw => exact .running (free hf) job (hwork ▸ hw)

/-- A worker's own step, while jobs are queued: it takes the first, or goes on
towards it, or comes back from the job it had. -/
theorem step_worker (hw : s.Awake) (hs : s.step l = some s') {v : Fin size}
    (hl : l.worker = some v) (hj : s.jobs ≠ []) :
    (∃ job, s.jobs = job :: s'.jobs ∧ s'.taken = s.taken ++ [job]) ∨ s'.jobs = s.jobs ∧
      (s.monitor.Free ∧ s'.Nears v 2 ∨ s.Nears v 2 ∧ s'.Nears v 1 ∨
        ∃ job, s.work v = .running job ∧ s'.monitor = s.monitor ∧ s'.work = Function.update s.work v .idle) := by
  cases l with
  | lock u =>
    cases hl
    simp only [step] at hs
    split at hs
    · next hidle =>
      obtain ⟨m, hm, rfl⟩ := Option.map_eq_some_iff.mp hs
      obtain ⟨-, hf, hp, -⟩ := Monitor.act_acquire hm
      exact .inr ⟨rfl, .inl ⟨hf, .holding hidle (by simp only [hp, Function.update_self])⟩⟩
    · cases hs
  | test u =>
    cases hl
    simp only [step] at hs
    split at hs
    · next hu =>
      rw [if_pos (by simp [hj])] at hs
      cases hs
      exact .inr ⟨rfl, .inr (.inl ⟨.holding hu.1 hu.2, .passed (Function.update_self ..)⟩)⟩
    · cases hs
  | block u =>
    obtain ⟨m, hm, rfl⟩ := Option.map_eq_some_iff.mp hs
    exact absurd (hw.tested u (Monitor.act_block hm).1) hj
  | proceed u =>
    simp only [step] at hs
    split at hs
    · split at hs
      · next he =>
        simp only [Bool.and_eq_true, List.isEmpty_iff] at he
        exact absurd he.2 hj
      · split at hs
        · next job jobs hjobs =>
          obtain ⟨m, hm, rfl⟩ := leave_eq_some hs
          exact .inl ⟨job, hjobs, rfl⟩
        · cases hs
    · cases hs
  | finish u how =>
    cases hl
    simp only [step] at hs
    split at hs
    · next job hu =>
      cases hs
      exact .inr ⟨rfl, .inr (.inr ⟨job, hu, rfl, rfl⟩)⟩
    · cases hs
  | acceptJob | wake | clear | notifyAll => cases hl

/-- Whoever takes a step: the first job is taken, or somebody is nearer to it,
or the worker that helps is as near as it was. -/
theorem Nears.step {r : Nat} (h : s.Nears w r) (ha : s.Accounted) (hw : s.Awake) (hs : s.step l = some s')
    (hj : s.jobs ≠ []) :
    (∃ job, s.jobs = job :: s'.jobs ∧ s'.taken = s.taken ++ [job]) ∨ (∃ more, s'.jobs = s.jobs ++ more) ∧
      ((∃ v q, q < r ∧ s'.Nears v q) ∨ s'.Nears w r ∧ l.worker ≠ some w) := by
  cases hl : l.worker with
  | none => exact .inr ⟨(step_other hs hl).2.1, .inr ⟨h.other hs hl, by simp⟩⟩
  | some v =>
    rcases step_worker hw hs hl hj with htaken | ⟨hjobs, hnearer⟩
    · exact .inl htaken
    refine .inr ⟨⟨[], hjobs.trans (List.append_nil _).symm⟩, ?_⟩
    rcases hnearer with ⟨hf, hv⟩ | ⟨hv, hv'⟩ | ⟨job, hv, hm, hwork⟩
    · -- the mutex was free, so nobody was as near
      refine .inl ⟨v, 2, ?_, hv⟩
      have hphase := hf w
      cases h with
      | passed hpassed => rw [(ha.passed w hpassed).1] at hphase; cases hphase
      | holding _ hp => rw [hp] at hphase; cases hphase
      | coming | running => omega
    · refine .inl ⟨v, 1, ?_, hv'⟩
      cases h with
      | passed hpassed =>
        cases hv with
        | holding hidle hp =>
          -- the mutex is with one of them
          have he : w = v := s.monitor.exclusive w v (by rw [(ha.passed w hpassed).1]; rfl) (by rw [hp]; rfl)
          rw [he, hidle] at hpassed
          cases hpassed
      | holding | coming | running => omega
    · by_cases hwv : w = v
      · subst hwv
        have hfree : s.monitor.Free := by
          cases h with
          | running hf => exact hf
          | coming hf => exact hf
          | passed he => rw [hv] at he; cases he
          | holding he => rw [hv] at he; cases he
        have hr : r = 4 := by
          cases h with
          | running => rfl
          | passed he | holding he | coming _ he => rw [hv] at he; cases he
        refine .inl ⟨w, 3, by omega, .coming (hm ▸ hfree) (by rw [hwork, Function.update_self]) (.inl ?_)⟩
        rw [hm]
        exact ha.outside w job hv
      · have hsame : s'.work w = s.work w := by rw [hwork, Function.update_of_ne hwv]
        refine .inr ⟨?_, fun he => hwv (Option.some.inj he).symm⟩
        cases h with
        | passed hw => exact .passed (hsame.trans hw)
        | holding hw hp => exact .holding (hsame.trans hw) (hm ▸ hp)
        | coming hf hw hp => exact .coming (hm ▸ hf) (hsame.trans hw) (hm ▸ hp)
        | running hf job' hw => exact .running (hm ▸ hf) job' (hsame.trans hw)

/-! ## Every job -/

/-- What a worker is at changes by steps of its own only. -/
theorem step_work_of_ne (hs : s.step l = some s') (hl : l.worker ≠ some w) : s'.work w = s.work w := by
  have other : ∀ {v : Fin size} {x : Work}, some v ≠ some w → Function.update s.work v x w = s.work w := fun hv =>
    Function.update_of_ne (fun he => hv (congrArg some he.symm)) ..
  cases l with
  | lock v =>
    simp only [step] at hs
    split at hs
    · obtain ⟨m, -, rfl⟩ := Option.map_eq_some_iff.mp hs
      rfl
    · cases hs
  | test v =>
    simp only [step] at hs
    split at hs
    · split at hs
      · cases hs
        exact other hl
      · obtain ⟨m, -, rfl⟩ := Option.map_eq_some_iff.mp hs
        rfl
    · cases hs
  | block v =>
    obtain ⟨m, -, rfl⟩ := Option.map_eq_some_iff.mp hs
    rfl
  | proceed v =>
    simp only [step] at hs
    split at hs
    · split at hs
      · obtain ⟨m, -, rfl⟩ := leave_eq_some hs
        exact other hl
      · split at hs
        · obtain ⟨m, -, rfl⟩ := leave_eq_some hs
          exact other hl
        · cases hs
    · cases hs
  | finish v how =>
    simp only [step] at hs
    split at hs
    · cases hs
      exact other hl
    · cases hs
  | acceptJob | wake | clear | notifyAll => rw [(step_other hs rfl).1]

/-- The next step of a worker that runs a job ends the job. -/
theorem step_of_running {j : Nat} (ha : s.Accounted) (hw : s.work w = .running j) (hs : s.step l = some s')
    (hl : l.worker = some w) : j ∈ s'.finished := by
  cases l with
  | finish v how =>
    cases hl
    simp only [step, hw] at hs
    cases hs
    exact List.mem_append_right _ (List.mem_singleton_self _)
  | block v =>
    cases hl
    obtain ⟨m, hm, -⟩ := Option.map_eq_some_iff.mp hs
    have hp := (Monitor.act_block hm).1
    rw [ha.outside w j hw] at hp
    cases hp
  | lock | test | proceed => cases hl; simp [step, hw] at hs
  | acceptJob | wake | clear | notifyAll => cases hl

section

variable {states : ℕ → ThreadPool size} {labels : ℕ → Option (PoolStep size)}

/-- What holds of every state of a run. -/
theorem forever_kept (h₀ : Reach step InUse (start size) (states 0))
    (hrun : Forever (withIdle step) (WithIdle InUse) states labels) (n : ℕ) :
    (states n).Accounted ∧ (states n).Awake ∧ (states n).Staffed := by
  refine (hrun.reach h₀.with_idle n).of_idle.invariant (fun s => s.Accounted ∧ s.Awake ∧ s.Staffed)
    ⟨.start size, .start size, fun w hw => by cases hw⟩ fun s l s' h hc hs => ?_
  exact ⟨h.1.step hs, h.2.1.step hs, h.2.2.step hc hs⟩

/-- The workers are scheduled fairly. -/
def FairWorkers (states : ℕ → ThreadPool size) (labels : ℕ → Option (PoolStep size)) : Prop :=
  ∀ w, Fair (withIdle step) (WithIdle InUse) states labels fun l => ∃ k, l = some k ∧ k.worker = some w

/-- A queued job is taken. -/
theorem queued_leadsTo (hsize : 0 < size) (h₀ : Reach step InUse (start size) (states 0))
    (hrun : Forever (withIdle step) (WithIdle InUse) states labels) (hfair : FairWorkers states labels) (j : Nat) :
    LeadsTo (fun n => j ∈ (states n).jobs) fun n => j ∈ (states n).taken := by
  -- the jobs before it come first; for each of them somebody is at most four steps away
  have hhelped := LeadsTo.of_helpful_idle hrun hfair (Q := fun s => j ∈ s.taken)
    (fun w r s => ∃ before after q, s.jobs = before ++ j :: after ∧ s.Nears w q ∧ r = 4 * before.length + q)
    (fun n w r h => ?_) fun n w r l h hs => ?_
  · intro n hn
    obtain ⟨ha, hw, hst⟩ := forever_kept h₀ hrun n
    obtain ⟨before, after, hjobs⟩ := List.append_of_mem hn
    obtain ⟨w, r, -, hr⟩ := exists_nears ha hw hst hsize (by rw [hjobs]; simp)
    exact hhelped n ⟨w, _, before, after, r, hjobs, hr, rfl⟩
  · obtain ⟨before, after, q, hjobs, hnears, -⟩ := h
    exact hnears.enabled (forever_kept h₀ hrun n).1 (by rw [hjobs]; simp)
  · obtain ⟨before, after, q, hjobs, hnears, rfl⟩ := h
    obtain ⟨ha, hw, -⟩ := forever_kept h₀ hrun n
    have hpos := hnears.pos
    rcases hnears.step ha hw hs (by rw [hjobs]; simp) with ⟨job, hhead, htaken⟩ | ⟨⟨more, hmore⟩, hnear⟩
    · rw [hjobs] at hhead
      cases before with
      | nil =>
        obtain ⟨rfl, -⟩ := List.cons.inj hhead
        exact .inl (htaken ▸ List.mem_append_right _ (List.mem_singleton_self _))
      | cons first before =>
        obtain ⟨-, hrest⟩ := List.cons.inj hhead
        obtain ⟨ha', hw', hst'⟩ := forever_kept h₀ hrun (n + 1)
        obtain ⟨v, r, hr, hnears'⟩ := exists_nears ha' hw' hst' hsize (by rw [← hrest]; simp)
        refine .inr (.inl ⟨v, _, ?_, before, after, r, hrest.symm, hnears', rfl⟩)
        simp only [List.length_cons]
        omega
    · have hjobs' : (states (n + 1)).jobs = before ++ j :: (after ++ more) := by rw [hmore, hjobs]; simp
      rcases hnear with ⟨v, r, hlt, hnears'⟩ | ⟨hnears', hother⟩
      · exact .inr (.inl ⟨v, _, by omega, before, _, r, hjobs', hnears', rfl⟩)
      · exact .inr (.inr ⟨⟨before, _, q, hjobs', hnears', rfl⟩, hother⟩)

/-- **Every job is run to its end**: in every run, with an end or without, in
which the workers are scheduled fairly, so that none stays in a job for ever,
and no job is accepted after the destructor has begun, each accepted job is
finished at some time, whatever the others do, those that are queued when the
destructor begins included. -/
theorem jobs_finish (hsize : 0 < size) (h₀ : Reach step InUse (start size) (states 0))
    (hrun : Forever (withIdle step) (WithIdle InUse) states labels) (hfair : FairWorkers states labels) {n j : Nat}
    (hj : j < (states n).accepted) : ∃ m, n ≤ m ∧ j ∈ (states m).finished := by
  have hrunning : LeadsTo (fun n => ∃ w, ∃ _ : Nat, (states n).work w = .running j)
      fun n => j ∈ (states n).finished := by
    refine LeadsTo.of_helpful_idle hrun hfair (Q := fun s => j ∈ s.finished) (fun w _ s => s.work w = .running j)
      (fun n w _ h => ?_) fun n w _ l h hs => ?_
    · exact ⟨.finish w .returns, rfl, trivial, by simp [step, h]⟩
    · by_cases hl : l.worker = some w
      · exact .inl (step_of_running (forever_kept h₀ hrun n).1 h hs hl)
      · exact .inr (.inr ⟨(step_work_of_ne hs hl).trans h, hl⟩)
  have htaken : LeadsTo (fun n => j ∈ (states n).taken) fun n => j ∈ (states n).finished := by
    intro n hn
    rcases ((forever_kept h₀ hrun n).1.split j).mp hn with ⟨w, hw⟩ | hf
    · exact hrunning n ⟨w, 0, hw⟩
    · exact ⟨n, Nat.le_refl n, hf⟩
  rcases ((forever_kept h₀ hrun n).1.mem_iff j).mp hj with ht | hq
  · exact htaken n ht
  · exact (queued_leadsTo hsize h₀ hrun hfair j).trans htaken n hq

end

/-- One worker, and two jobs that are queued when the destructor begins. It
runs them and returns, and then nothing happens any more. -/
theorem jobs_finish_example : ∃ (states : ℕ → ThreadPool 1) (labels : ℕ → Option (PoolStep 1)),
    Forever (withIdle step) (WithIdle InUse) states labels ∧ FairWorkers states labels ∧
      (states 4).jobs = [0, 1] ∧ (states 4).monitor.active = false ∧ (∀ k, labels (15 * (k + 1)) = none) ∧
      (∃ m, 4 ≤ m ∧ 0 ∈ (states m).finished) ∧ ∃ m, 4 ≤ m ∧ 1 ∈ (states m).finished := by
  let ls : List (PoolStep 1) :=
    [.acceptJob none, .acceptJob none, .clear, .notifyAll, .lock 0, .test 0, .proceed 0, .finish 0 .returns, .lock 0,
      .test 0, .proceed 0, .finish 0 .throws, .lock 0, .test 0, .proceed 0]
  obtain ⟨last, hlast⟩ : ∃ last, exec step (start 1) ls = some last := ⟨_, rfl⟩
  let base (k : ℕ) : ThreadPool 1 := k.casesOn (start 1) fun _ => last
  let cycle (k : ℕ) : List (Option (PoolStep 1)) := k.casesOn (ls.map some) fun _ => List.replicate 15 none
  have hcycle : ∀ k, exec (withIdle step) (base k) (cycle k) = some (base (k + 1)) := by
    intro k
    cases k with
    | zero => exact hlast
    | succ k => rfl
  have hopen : ∀ k j s l, exec (withIdle step) (base k) ((cycle k).take j) = some s → (cycle k)[j]? = some l →
      WithIdle InUse s l := by
    intro k j s l hs hl
    cases k with
    | zero =>
      obtain ⟨hj, -⟩ := List.getElem?_eq_some_iff.mp hl
      change j < 15 at hj
      interval_cases j
      case «0» | «1» => cases hs; cases hl; rfl
      all_goals
        cases hl
        trivial
    | succ k =>
      obtain rfl := (List.mem_replicate.mp (List.mem_of_getElem? hl)).2
      trivial
  obtain ⟨states, labels, hrun, hstates, hlabels⟩ :=
    Forever.of_cycles (C := WithIdle InUse) base cycle (Nat.succ_pos 14) (fun k => by cases k <;> rfl) hcycle hopen
  have hbase : ∀ k, states (15 * k) = base k := fun k => (Option.some.inj (hstates k 0 (by decide))).symm
  have hidle : ∀ k, labels (15 * (k + 1)) = none := fun k => (Option.some.inj (hlabels (k + 1) 0 (by decide))).symm
  have hfair : FairWorkers states labels := by
    intro w n hen
    obtain ⟨l, ⟨k, rfl, hw⟩, -, hs⟩ := hen (15 * (n + 1)) (by omega)
    rw [hbase] at hs
    cases hlast
    rw [Subsingleton.elim w 0] at hw
    cases k with
    | lock v | test v | block v | proceed v | finish v => cases hw; cases hs
    | acceptJob | wake | clear | notifyAll => cases hw
  have h₀ : Reach step InUse (start 1) (states 0) := (hbase 0).symm ▸ .start
  have hqueued : exec (withIdle step) (start 1) ((ls.map some).take 4) = some _ := rfl
  have hfour : states 4 = _ := Option.some.inj ((hstates 0 4 (by decide)).symm.trans hqueued)
  have hfinish := fun j => jobs_finish (n := 4) (j := j) (by decide) h₀ hrun hfair
  refine ⟨states, labels, hrun, hfair, ?_, ?_, hidle, hfinish 0 ?_, hfinish 1 ?_⟩
  · exact congrArg ThreadPool.jobs hfour
  · exact congrArg (fun s => s.monitor.active) hfour
  all_goals
    rw [hfour]
    decide

end ThreadPool

end KvDatabase
