/-
No wake-up of the pool is lost (`Worker/ThreadPool.cpp`). A job is queued and a
worker notified under one lock, and a worker blocks only after it has found the
queue empty under that lock; so while a worker sleeps, each job in the queue
has an awake worker of its own on the way to it (`Awake`).

The workers that run a job are not counted: a job may take for ever.
-/
import KvDatabase.ThreadPool
import Mathlib.Data.Finset.Card
import Mathlib.Data.Fintype.Card

namespace KvDatabase

namespace ThreadPool

variable {size : Nat}

/-- The worker is about to look at the queue: it has no job, and does not wait. -/
def Coming (s : ThreadPool size) (w : Fin size) : Prop :=
  (s.work w = .idle ∨ s.work w = .passed) ∧ s.monitor.phase w ≠ .tested ∧ s.monitor.phase w ≠ .blocked

instance (s : ThreadPool size) : DecidablePred s.Coming := fun _ => inferInstanceAs (Decidable (_ ∧ _))

def coming (s : ThreadPool size) : Finset (Fin size) := Finset.univ.filter s.Coming

structure Awake (s : ThreadPool size) : Prop where
  waits : ∀ w, s.monitor.phase w ≠ .outside → s.work w = .idle ∨ s.work w = .passed
  tested : ∀ w, s.monitor.phase w = .tested → s.jobs = []
  /-- While a worker sleeps, there are as many on the way as jobs. -/
  enough : ∀ w, s.monitor.phase w = .blocked → s.jobs.length ≤ s.coming.card

/-! ## Counting the workers on the way -/

variable {s s' : ThreadPool size} {w : Fin size}

theorem card_coming_le (h : ∀ v, s.Coming v → s'.Coming v) : s.coming.card ≤ s'.coming.card := by
  refine Finset.card_le_card fun v hv => ?_
  rw [coming, Finset.mem_filter] at hv ⊢
  exact ⟨hv.1, h v hv.2⟩

/-- One more is on the way. -/
theorem card_coming_lt (h : ∀ v, s.Coming v → s'.Coming v) (hw : ¬ s.Coming w) (hw' : s'.Coming w) :
    s.coming.card < s'.coming.card := by
  refine Finset.card_lt_card ((Finset.ssubset_iff_of_subset fun v hv => ?_).mpr ⟨w, ?_, ?_⟩)
  · rw [coming, Finset.mem_filter] at hv ⊢
    exact ⟨hv.1, h v hv.2⟩
  · rw [coming, Finset.mem_filter]
    exact ⟨Finset.mem_univ w, hw'⟩
  · rw [coming, Finset.mem_filter]
    exact fun hv => hw hv.2

/-- One at most is not any more. -/
theorem card_coming_le_succ (h : ∀ v, v ≠ w → s.Coming v → s'.Coming v) : s.coming.card ≤ s'.coming.card + 1 := by
  refine Nat.le_trans ?_ (Finset.card_insert_le w s'.coming)
  refine Finset.card_le_card fun v hv => ?_
  rw [Finset.mem_insert, coming, Finset.mem_filter]
  rw [coming, Finset.mem_filter] at hv
  by_cases hvw : v = w
  · exact .inl hvw
  · exact .inr ⟨hv.1, h v hvw hv.2⟩

theorem Coming.congr {v : Fin size} (hwork : s'.work v = s.work v) (hphase : s'.monitor.phase v = s.monitor.phase v)
    (h : s.Coming v) : s'.Coming v := by
  rw [Coming, hwork, hphase]
  exact h

/-! ## Every step -/

theorem Awake.start (size : Nat) : (start size).Awake where
  waits := fun w hw => absurd rfl hw
  tested := fun w hw => by cases hw
  enough := fun w hw => by cases hw

/-- A worker moves in its wait; where it is blocked it was, or the queue is
empty. -/
theorem Awake.move (h : s.Awake) {m : Monitor (Fin size)} {p : Monitor.Phase}
    (hp : m.phase = Function.update s.monitor.phase w p) (hw : s.work w = .idle ∨ s.work w = .passed)
    (ht : p = .tested ∨ p = .blocked → s.jobs = []) : ({ s with monitor := m } : ThreadPool size).Awake where
  waits := by
    intro v hv
    simp only [hp] at hv
    by_cases hvw : v = w
    · subst hvw; exact hw
    · rw [Function.update_of_ne hvw] at hv
      exact h.waits v hv
  tested := by
    intro v hv
    simp only [hp] at hv
    by_cases hvw : v = w
    · subst hvw
      rw [Function.update_self] at hv
      exact ht (.inl hv)
    · rw [Function.update_of_ne hvw] at hv
      exact h.tested v hv
  enough := by
    intro v hv
    simp only [hp] at hv
    by_cases hsleeps : p = .tested ∨ p = .blocked
    · simp [ht hsleeps]
    · have hvw : v ≠ w := by
        rintro rfl
        rw [Function.update_self] at hv
        exact hsleeps (.inr hv)
      rw [Function.update_of_ne hvw] at hv
      refine Nat.le_trans (h.enough v hv) (card_coming_le fun u hu => ?_)
      by_cases huw : u = w
      · subst huw
        refine ⟨hw, ?_⟩
        rw [show ({ s with monitor := m } : ThreadPool size).monitor.phase u = p by rw [hp, Function.update_self]]
        exact not_or.mp hsleeps
      · exact Coming.congr (s := s) rfl (by rw [hp, Function.update_of_ne huw]) hu

/-- A job is queued, and one of the sleeping workers woken, if one sleeps. -/
theorem Awake.accept (h : s.Awake) (hf : s.monitor.Free) {woken : Option (Fin size)} {m : Monitor (Fin size)}
    (hm : s.monitor.notifyOne woken = some m) :
    ({ s with monitor := m, jobs := s.jobs ++ [s.accepted], accepted := s.accepted + 1 } : ThreadPool size).Awake := by
  have hnt : ∀ w, s.monitor.phase w ≠ .tested := fun w hw => by
    have hfree := hf w
    rw [hw] at hfree
    cases hfree
  cases woken with
  | none =>
    simp only [Monitor.notifyOne] at hm
    split at hm
    · next hnb =>
      cases hm
      exact ⟨h.waits, fun w hw => absurd hw (hnt w), fun w hw => absurd hw (hnb w)⟩
    · cases hm
  | some w =>
    obtain ⟨hb, hp, -⟩ := Monitor.act_wake hm
    have hw := h.waits w (by rw [hb]; simp)
    have hmove := h.move hp hw (by simp)
    refine ⟨hmove.waits, fun v hv => ?_, fun v hv => ?_⟩
    · simp only [hp] at hv
      by_cases hvw : v = w
      · rw [hvw, Function.update_self] at hv
        cases hv
      · rw [Function.update_of_ne hvw] at hv
        exact absurd hv (hnt v)
    · simp only [hp] at hv
      have hvw : v ≠ w := by
        rintro rfl
        rw [Function.update_self] at hv
        cases hv
      rw [Function.update_of_ne hvw] at hv
      rw [List.length_append, List.length_singleton]
      have hasleep : ¬ s.Coming w := fun hc => hc.2.2 hb
      refine Nat.lt_of_le_of_lt (h.enough v hv) (card_coming_lt (w := w) (fun u hu => ?_) hasleep ⟨hw, ?_⟩)
      · have huw : u ≠ w := fun he => hu.2.2 (he ▸ hb)
        exact Coming.congr (s := s) rfl (by simp only [hp]; rw [Function.update_of_ne huw]) hu
      · simp only [hp, Function.update_self]
        decide

/-- A worker that has the mutex gives it back. -/
theorem Awake.leave (h : s.Awake) {m : Monitor (Fin size)} (hm : s.monitor.act (.release w) = some m) {x : Work}
    {jobs taken : List Nat} {n : Nat} (hj : jobs = [] ∨ jobs.length + 1 = s.jobs.length) :
    ({ s with monitor := m, work := Function.update s.work w x, jobs, taken, acceptedAtReturn := n } :
      ThreadPool size).Awake := by
  obtain ⟨-, hp, -⟩ := Monitor.act_release hm
  have other : ∀ {v}, m.phase v ≠ .outside → v ≠ w := by
    rintro v hv rfl
    rw [hp, Function.update_self] at hv
    exact hv rfl
  refine ⟨fun v hv => ?_, fun v hv => ?_, fun v hv => ?_⟩
  · have hvw := other hv
    simp only [hp] at hv
    rw [Function.update_of_ne hvw] at hv
    simp only [Function.update_of_ne hvw]
    exact h.waits v hv
  · have hvw := other (show m.phase v ≠ .outside by rw [show m.phase v = .tested from hv]; simp)
    simp only [hp] at hv
    rw [Function.update_of_ne hvw] at hv
    have hnone := h.tested v hv
    rcases hj with hj | hj
    · exact hj
    · rw [hnone] at hj
      cases hj
  · have hvw := other (show m.phase v ≠ .outside by rw [show m.phase v = .blocked from hv]; simp)
    simp only [hp] at hv
    rw [Function.update_of_ne hvw] at hv
    rcases hj with rfl | hj
    · exact Nat.zero_le _
    · have hle := h.enough v hv
      let s' : ThreadPool size :=
        { s with monitor := m, work := Function.update s.work w x, jobs, taken, acceptedAtReturn := n }
      have hcard : s.coming.card ≤ s'.coming.card + 1 := card_coming_le_succ (w := w) fun u hu hc => by
        have hwork : s'.work u = s.work u := Function.update_of_ne hu _ _
        have hphase : s'.monitor.phase u = s.monitor.phase u := by
          simp only [s', hp]
          rw [Function.update_of_ne hu]
        exact hc.congr hwork hphase
      simp only [s'] at hcard ⊢
      omega

theorem Awake.step {l : PoolStep size} (h : s.Awake) (hs : s.step l = some s') : s'.Awake := by
  cases l with
  | acceptJob woken =>
    simp only [ThreadPool.step] at hs
    split at hs
    · next hf =>
      obtain ⟨m, hm, rfl⟩ := Option.map_eq_some_iff.mp hs
      exact h.accept hf hm
    · cases hs
  | lock w =>
    simp only [ThreadPool.step] at hs
    split at hs
    · next hw =>
      obtain ⟨m, hm, rfl⟩ := Option.map_eq_some_iff.mp hs
      exact h.move (Monitor.act_acquire hm).2.2.1 (.inl hw) (by simp)
    · cases hs
  | test w =>
    simp only [ThreadPool.step] at hs
    split at hs
    · next hw =>
      split at hs
      · -- it is past its wait, and no less on its way
        cases hs
        refine ⟨fun v hv => ?_, h.tested, fun v hv => Nat.le_trans (h.enough v hv) (card_coming_le fun u hu => ?_)⟩
        · by_cases hvw : v = w
          · subst hvw
            simp [Function.update_self]
          · simp only [Function.update_of_ne hvw]
            exact h.waits v hv
        · by_cases huw : u = w
          · subst huw
            exact ⟨.inr (Function.update_self ..), hu.2⟩
          · exact Coming.congr (s := s) (Function.update_of_ne huw _ _) rfl hu
      · next hp =>
        obtain ⟨m, hm, rfl⟩ := Option.map_eq_some_iff.mp hs
        simp only [Bool.or_eq_true, Bool.not_eq_true', not_or, Bool.not_eq_false, List.isEmpty_iff] at hp
        exact h.move (Monitor.act_doubt hm).2.2.1 (.inl hw.1) fun _ => hp.1
    · cases hs
  | block w =>
    obtain ⟨m, hm, rfl⟩ := Option.map_eq_some_iff.mp hs
    obtain ⟨ht, hp, -⟩ := Monitor.act_block hm
    exact h.move hp (h.waits w (by rw [ht]; simp)) fun _ => h.tested w ht
  | wake w =>
    obtain ⟨m, hm, rfl⟩ := Option.map_eq_some_iff.mp hs
    obtain ⟨hb, hp, -⟩ := Monitor.act_wake hm
    exact h.move hp (h.waits w (by rw [hb]; simp)) (by simp)
  | proceed w =>
    simp only [ThreadPool.step] at hs
    split at hs
    · split at hs
      · next he =>
        obtain ⟨m, hm, rfl⟩ := leave_eq_some hs
        simp only [Bool.and_eq_true, List.isEmpty_iff] at he
        exact h.leave hm (.inl he.2)
      · split at hs
        · next job jobs hj =>
          obtain ⟨m, hm, rfl⟩ := leave_eq_some hs
          exact h.leave hm (.inr (by rw [hj, List.length_cons]))
        · cases hs
    · cases hs
  | finish w how =>
    simp only [ThreadPool.step] at hs
    split at hs
    · next job hw =>
      cases hs
      have hnot : ¬ s.Coming w := fun hc => by
        have hi := hc.1
        rw [hw] at hi
        simp at hi
      refine ⟨fun v hv => ?_, h.tested, fun v hv => Nat.le_trans (h.enough v hv) (card_coming_le fun u hu => ?_)⟩
      · by_cases hvw : v = w
        · subst hvw
          simp [Function.update_self]
        · simp only [Function.update_of_ne hvw]
          exact h.waits v hv
      · have huw : u ≠ w := fun he => hnot (he ▸ hu)
        exact Coming.congr (s := s) (Function.update_of_ne huw _ _) rfl hu
    · cases hs
  | clear =>
    obtain ⟨m, hm, rfl⟩ := Option.map_eq_some_iff.mp hs
    obtain ⟨hp, -⟩ := Monitor.act_clear hm
    refine ⟨fun v hv => h.waits v (hp ▸ hv), fun v hv => h.tested v (hp ▸ hv), fun v hv => ?_⟩
    refine Nat.le_trans (h.enough v (hp ▸ hv)) (card_coming_le fun u hu => ?_)
    exact Coming.congr (s := s) rfl (by simp only [hp]) hu
  | notifyAll =>
    obtain ⟨m, hm, rfl⟩ := Option.map_eq_some_iff.mp hs
    obtain ⟨-, hp, -⟩ := Monitor.act_notifyAll hm
    refine ⟨fun v hv => h.waits v fun ho => hv ?_, fun v hv => h.tested v ?_, fun v hv => ?_⟩
    · simp [hp, ho]
    · simp only [hp] at hv
      split at hv
      · cases hv
      · exact hv
    · simp only [hp] at hv
      split at hv
      · cases hv
      · next hb => exact absurd hv hb

theorem Reachable.awake (h : s.Reachable) : s.Awake :=
  h.invariant Awake (.start size) fun _ _ _ hi _ hs => hi.step hs

/-! ## The next job is taken -/

/-- A worker on the way takes the next job, when it holds the mutex or can. -/
theorem Coming.takes {job : Nat} {jobs : List Nat} (h : s.Accounted) (hw : s.Coming w) (hj : s.jobs = job :: jobs)
    (hf : s.monitor.Free ∨ s.monitor.phase w = .holding) :
    ∃ ls s', (∀ l ∈ ls, l = .lock w ∨ l = .test w ∨ l = .proceed w) ∧ Runs.exec step s ls = some s' ∧
      s'.work w = .running job := by
  obtain ⟨hwork, hnt, hnb⟩ := hw
  by_cases hhold : s.monitor.phase w = .holding
  · rcases hwork with hidle | hpassed
    · exact ⟨[.test w, .proceed w], _, by simp,
        by simp [step, hidle, hhold, hj, leave, Monitor.act]; rfl, by simp⟩
    · exact ⟨[.proceed w], _, by simp, by simp [step, hpassed, hhold, hj, leave, Monitor.act]; rfl, by simp⟩
  · have hfree := hf.resolve_right hhold
    have hidle : s.work w = .idle := hwork.resolve_right fun hp => hhold (h.passed w hp).1
    have hphase : s.monitor.phase w = .outside ∨ s.monitor.phase w = .woken := by
      cases hp : s.monitor.phase w with
      | outside => exact .inl rfl
      | woken => exact .inr rfl
      | holding => exact absurd hp hhold
      | tested => exact absurd hp hnt
      | blocked => exact absurd hp hnb
    exact ⟨[.lock w, .test w, .proceed w], _, by simp,
      by simp [step, hidle, hphase, hfree, hj, leave, Monitor.act, Monitor.move]; rfl, by simp⟩

/-- While a job is queued, a worker without one is not the last on its way. -/
theorem Awake.exists_coming (h : s.Awake) (hj : s.jobs ≠ []) (hw : s.work w = .idle ∨ s.work w = .passed) :
    ∃ v, s.Coming v := by
  by_cases hb : s.monitor.phase w = .blocked
  · have hpos : 0 < s.coming.card := Nat.lt_of_lt_of_le (List.length_pos_iff.mpr hj) (h.enough w hb)
    obtain ⟨v, hv⟩ := Finset.card_pos.mp hpos
    exact ⟨v, (Finset.mem_filter.mp hv).2⟩
  · exact ⟨w, hw, fun ht => hj (h.tested w ht), hb⟩

/-- **No wake-up is lost**: in every run, while a worker sleeps there are at
least as many workers on their way to the queue as jobs in it; and as long as
a worker is without a job, some worker can take the next one by steps of its
own, with nobody to wake it. -/
theorem no_lost_wakeup (h : s.Reachable) :
    (∀ w, s.monitor.phase w = .blocked → s.jobs.length ≤ s.coming.card) ∧
      ∀ job jobs, s.jobs = job :: jobs → (∃ w, s.work w = .idle ∨ s.work w = .passed) →
        ∃ v ls s', (∀ l ∈ ls, l = .lock v ∨ l = .test v ∨ l = .proceed v) ∧ Runs.exec step s ls = some s' ∧
          s'.work v = .running job := by
  refine ⟨h.awake.enough, fun job jobs hj hw => ?_⟩
  obtain ⟨w, hw⟩ := hw
  have hne : s.jobs ≠ [] := by rw [hj]; simp
  by_cases hf : s.monitor.Free
  · obtain ⟨v, hv⟩ := h.awake.exists_coming hne hw
    exact ⟨v, hv.takes h.accounted hj (.inl hf)⟩
  · -- whoever has the mutex is on its way
    obtain ⟨v, hv⟩ := not_forall.mp hf
    have hhold : s.monitor.phase v = .holding := by
      cases hp : s.monitor.phase v with
      | holding => rfl
      | tested => exact absurd (h.awake.tested v hp) hne
      | outside => rw [hp] at hv; exact absurd rfl hv
      | blocked => rw [hp] at hv; exact absurd rfl hv
      | woken => rw [hp] at hv; exact absurd rfl hv
    have hcoming : s.Coming v := ⟨h.awake.waits v (by rw [hhold]; simp), by rw [hhold]; simp, by rw [hhold]; simp⟩
    exact ⟨v, hcoming.takes h.accounted hj (.inr hhold)⟩

/-- Two workers asleep, and two jobs: each wakes one. -/
theorem no_lost_wakeup_example : ∃ s : ThreadPool 2, s.jobs = [0, 1] ∧
    ((∀ w, s.monitor.phase w = .blocked → s.jobs.length ≤ s.coming.card) ∧
      ∀ job jobs, s.jobs = job :: jobs → (∃ w, s.work w = .idle ∨ s.work w = .passed) →
        ∃ v ls s', (∀ l ∈ ls, l = .lock v ∨ l = .test v ∨ l = .proceed v) ∧ Runs.exec step s ls = some s' ∧
          s'.work v = .running job) := by
  let ls : List (PoolStep 2) := [.lock 0, .test 0, .block 0, .lock 1, .test 1, .block 1, .acceptJob (some 1),
    .acceptJob (some 0)]
  have h : Runs.Reach ThreadPool.step (fun _ _ => True) (ThreadPool.start 2) _ :=
    Runs.Reach.start.exec ls rfl (by simp)
  exact ⟨_, rfl, no_lost_wakeup h⟩

end ThreadPool

end KvDatabase
