/-
A silent client is closed. That is what the sessions are for, and it takes
every thread: the accept thread's session, the sweep that finds it too old,
and the event loop that closes what the sweep has queued.

`sessions_cover_connections` says that each connection has its session, when
no two clients come with one address. Here time goes on and the threads are
scheduled fairly, and whoever handles no command any more loses its number
(`silent_closed`). A session may be kept alive by a job of another client,
that was at the same address before and is gone; there are only so many of
those (`Late`).
-/
import KvDatabase.Descriptors
import KvDatabase.Expiry
import Mathlib.Data.Set.Card
import Mathlib.Tactic.IntervalCases

namespace KvDatabase

open Runs

/-- The job's command is still to come. -/
def JobPc.hears : JobPc → Prop
  | .queued | .receiving | .executing _ => True
  | .replying | .rearming | .closing _ => False

theorem ServerStep.Moves.hears {i : JobId} {l : ServerStep} {pc pc' : JobPc} (h : l.Moves i pc pc') (h' : pc'.hears) :
    pc.hears := by
  cases h with
  | run | recv => trivial
  | execute | send | rearm | jobClose => exact h'.elim

/-- What is queued in the event loop is still to close. -/
theorem LoopPc.mem_toClose {h : Handle} {loop : LoopPc} (hq : h ∈ loop.queue) : h ∈ loop.toClose := by
  cases loop with
  | draining close => exact hq
  | drainClosing a stage close => exact List.mem_cons_of_mem a hq
  | top | waiting | dispatching | eventClosing => cases hq

namespace Server

variable {s s' : Server} {l : ServerStep} {x : SocketType} {h : Handle} {key : SessionKey}

/-! ## Sessions grow old -/

/-- A session is as it was, unless a command from its address comes in. -/
theorem session_step {session session' : UserSession Handle} (hs : s.step l = some s') (hu : s.users key = some session)
    (hu' : s'.users key = some session') :
    session' = session ∨ ∃ i conn message, l = .execute i ∧ s.jobs i = some ⟨conn, .executing message⟩ ∧
      conn.sessionKey = key := by
  cases l with
  | addSession =>
    obtain ⟨a, key', -, rfl⟩ := step_addSession hs
    refine .inl (Option.some.inj (hu'.symm.trans ?_))
    cases ha : s.users key' with
    | some _ => simp only [UserSessionManager.addSession, ha, hu]
    | none =>
      have hk : key ≠ key' := by
        rintro rfl
        rw [ha] at hu
        cases hu
      simp only [UserSessionManager.addSession, ha, Function.update_of_ne hk, hu]
  | execute i =>
    obtain ⟨conn, message, hj, rfl⟩ := step_execute hs
    by_cases hk : conn.sessionKey = key
    · exact .inr ⟨i, conn, message, rfl, hj, hk⟩
    · refine .inl (Option.some.inj (hu'.symm.trans ((Function.update_of_ne ?_ _ _).trans hu)))
      exact Ne.symm hk
  | _ => exact .inl (Option.some.inj (((step_frame hs).users (by simp) (by simp) key session' hu').symm.trans hu))

/-- Everybody's limit is the one of `add_session`. -/
theorem limit_eq {C : Server → ServerStep → Prop} (hr : Reach Server.step C Server.start s)
    {session : UserSession Handle} (hu : s.users key = some session) :
    session.sessionMaximumIdleTime = UserSessionManager.defaultMaxIdle := by
  refine hr.invariant (fun s => ∀ key session, s.users key = some session →
    session.sessionMaximumIdleTime = UserSessionManager.defaultMaxIdle) (fun _ _ h => by cases h) ?_ key session hu
  intro s l s' hi _ hs key session hu
  cases l with
  | addSession =>
    obtain ⟨a, key', -, rfl⟩ := step_addSession hs
    cases ha : s.users key' with
    | some _ =>
      simp only [UserSessionManager.addSession, ha] at hu
      exact hi key session hu
    | none =>
      simp only [UserSessionManager.addSession, ha] at hu
      by_cases hk : key = key'
      · rw [hk, Function.update_self] at hu
        cases hu
        rfl
      · exact hi key session ((Function.update_of_ne hk _ _).symm.trans hu)
  | execute i =>
    obtain ⟨conn, message, hj, rfl⟩ := step_execute hs
    by_cases hk : key = conn.sessionKey
    · change s.users.updateActivity conn.sessionKey s.now key = some session at hu
      rw [hk, UserSessionManager.updateActivity, Function.update_self, Option.map_eq_some_iff] at hu
      obtain ⟨before, hb, rfl⟩ := hu
      exact hi conn.sessionKey before hb
    · exact hi key session ((Function.update_of_ne hk _ _).symm.trans hu)
  | _ => exact hi key session ((step_frame hs).users (by simp) (by simp) key session hu)

/-- The sweep ends a session that is too old. -/
theorem sweep_ends {session : UserSession Handle} (hs : s.step (.sweep key) = some s') (hu : s.users key = some session)
    (hold : session.isExpired s.now = true) : s'.users key = none := by
  rw [step, UserSessionManager.expire, hu] at hs
  simp only [hold, if_true, Option.some.injEq] at hs
  subst hs
  exact Function.update_self ..

/-! ## Who else is heard under an address -/

/-- Jobs with a command to come, from the address of the client but of others. -/
def late (s : Server) (key : SessionKey) (h : Handle) : Set JobId :=
  {i | ∃ job, s.jobs i = some job ∧ job.conn.sessionKey = key ∧ job.conn.socket ≠ h ∧ job.pc.hears}

/-- There are no new ones while the client is listed under the address, -/
theorem late_step {heardAt : ClientId → Time} (hc : Covering s heardAt) (hx : s.connections h.num = some ⟨h, key⟩)
    (hs : s.step l = some s') : s'.late key h ⊆ s.late key h := by
  rintro i ⟨job, hj, hkey, hother, hhears⟩
  rcases (step_effect hs).jobs i job hj with hj | ⟨pc, hj, hm⟩ | ⟨-, -, y, hy⟩
  · exact ⟨job, hj, hkey, hother, hhears⟩
  · exact ⟨_, hj, hkey, hother, hm.hears hhears⟩
  · obtain rfl := hc.keys _ _ _ _ hy hx hkey
    exact absurd (congrArg Connection.socket (Option.some.inj (hy.symm.trans hx))) hother

/-- and each is heard once. -/
theorem late_execute {i : JobId} {conn : Connection} {message : Bytes} (hs : s.step (.execute i) = some s')
    (hj : s.jobs i = some ⟨conn, .executing message⟩) (hkey : conn.sessionKey = key) (hother : conn.socket ≠ h) :
    i ∈ s.late key h ∧ i ∉ s'.late key h := by
  refine ⟨⟨_, hj, hkey, hother, trivial⟩, ?_⟩
  rintro ⟨job, hj', -, -, hhears⟩
  obtain ⟨conn', message', -, rfl⟩ := step_execute hs
  cases (Function.update_self ..).symm.trans hj'
  exact hhears

/-- There are only so many jobs. -/
theorem finite_late {C : Server → ServerStep → Prop} (hr : Reach Server.step C Server.start s) (key : SessionKey)
    (h : Handle) : (s.late key h).Finite := by
  obtain ⟨n, hn⟩ := exists_free hr
  refine (Set.finite_lt_nat n).subset ?_
  rintro i ⟨job, hj, -⟩
  by_contra hlt
  rw [hn i (not_lt.mp hlt)] at hj
  cases hj

/-! ## Every run -/

section

variable {states : ℕ → Server} {labels : ℕ → ServerStep}

/-- A closing that has begun comes to its end. -/
theorem releases_leadsTo (h₀ : Reach Server.step (fun _ _ => True) Server.start (states 0))
    (hrun : Forever Server.step (fun _ _ => True) states labels)
    (hfair : ∀ t, Fair Server.step (fun _ _ => True) states labels fun l => l.thread = .ofJob t) (x : SocketType) :
    LeadsTo (fun n => ∃ t stage, (states n).Releases x stage t) fun n => (states n).kernel.owner x = none := by
  have hhelped := LeadsTo.of_helpful (Q := fun n => (states n).kernel.owner x = none) hfair
    (fun t r n => ∃ stage, r = stage.rest ∧ (states n).Releases x stage t) (fun t r n hn => ?_) fun t r n hn => ?_
  · intro n hn
    obtain ⟨t, stage, hr⟩ := hn
    exact hhelped n ⟨t, stage.rest, stage, rfl, hr⟩
  · obtain ⟨stage, -, hr⟩ := hn
    cases t with
    | none => exact loop_enabled (fun _ _ => trivial) (exists_free (hrun.reach h₀ n))
    | some i =>
      obtain ⟨conn, hj, -⟩ := hr
      exact ⟨.jobClose i, rfl, trivial, by simp [step, hj]⟩
  · obtain ⟨stage, rfl, hr⟩ := hn
    rcases hr.step (hrun.next n) with ⟨hother, hr⟩ | ⟨next, hnext, hr⟩ | hnone
    · exact .inr (.inr (.inr ⟨⟨stage, rfl, hr⟩, hother⟩))
    · exact .inr (.inr (.inl ⟨t, next.rest, hnext.rest_lt, next, rfl, hr⟩))
    · exact .inr (.inl hnone)

/-- Who is queued for closing is closed. -/
theorem queued_leadsTo (h₀ : Reach Server.step (fun _ _ => True) Server.start (states 0))
    (hrun : Forever Server.step (fun _ _ => True) states labels)
    (hfair : Fair Server.step (fun _ _ => True) states labels fun l => l.thread = .loop) (h : Handle) :
    LeadsTo (fun n => h ∈ (states n).queued) fun n => (states n).kernel.owner h.num = none := by
  have hcloses : ∀ n, h ∈ (states n).queued → ∃ m, n ≤ m ∧ (states m).ClosesExpired (labels m) h := by
    intro n hq
    rcases List.mem_append.mp hq with hq | hq
    · exact expired_leadsTo h₀ hrun hfair h n hq
    · exact toClose_leadsTo h₀ hrun hfair h n (LoopPc.mem_toClose hq)
  intro n hq
  obtain ⟨m, hnm, hm⟩ := hcloses n hq
  exact ⟨m + 1, by omega, hm.owner (hrun.next m)⟩

end

/-- Who is being closed is in a thread's hands. -/
theorem Closing.releases (hc : s.Closing x) : ∃ t stage, s.Releases x stage t := by
  rcases hc with hl | ⟨i, ⟨conn, pc⟩, hj, hpc, hx⟩
  · cases hloop : s.loop with
    | drainClosing a stage close =>
      rw [hloop, LoopPc.closes] at hl
      split at hl
      · cases hl
      · exact ⟨none, stage, by rw [Releases, hloop, LoopPc.closing, Option.some.inj hl]⟩
    | eventClosing sock stage events =>
      rw [hloop, LoopPc.closes] at hl
      split at hl
      · cases hl
      · exact ⟨none, stage, by rw [Releases, hloop, LoopPc.closing, Option.some.inj hl]⟩
    | _ => rw [hloop] at hl; cases hl
  · cases pc with
    | closing stage => exact ⟨some i, stage, conn, hj, hx⟩
    | _ => cases hpc

end Server

namespace HeardServer

open Server

variable {o o' : HeardServer} {l : ServerStep} {states : ℕ → HeardServer} {labels : ℕ → ServerStep}

/-- The step handles a command of this client. -/
def HearsFrom (o : HeardServer) (l : ServerStep) (c : ClientId) : Prop :=
  ∃ i conn, l = .execute i ∧ o.server.held i = some conn ∧ conn.socket.client = c

/-- The event loop and the jobs are scheduled fairly, the sweep comes to
whatever stays in the table, and time goes on. -/
structure Patrolled (states : ℕ → HeardServer) (labels : ℕ → ServerStep) : Prop where
  threads : ∀ t, Fair Server.step (fun _ _ => True) (fun n => (states n).server) labels fun l => l.thread = .ofJob t
  sweeps : ∀ key n, (∀ m, n ≤ m → (states m).server.users key ≠ none) → ∃ m, n ≤ m ∧ labels m = .sweep key
  time : ∀ t, ∃ n, t ≤ (states n).server.now

theorem step_server (hs : o.step l = some o') : o.server.step l = some o'.server := by
  rw [step, Option.map_eq_some_iff] at hs
  obtain ⟨server, hs, rfl⟩ := hs
  exact hs

theorem reach_server (hr : Reach HeardServer.step OwnAddress HeardServer.start o) :
    Reach Server.step (fun _ _ => True) Server.start o.server :=
  hr.map HeardServer.server fun _ l _ _ hs => .inr ⟨l, trivial, step_server hs⟩

theorem forever_server (hrun : Forever HeardServer.step OwnAddress states labels) :
    Forever Server.step (fun _ _ => True) (fun n => (states n).server) labels :=
  ⟨fun n => step_server (hrun.next n), fun _ => trivial⟩

theorem covering_of_reach (hr : Reach HeardServer.step OwnAddress HeardServer.start o) :
    Server.Covering o.server o.heardAt :=
  hr.invariant (fun o => Server.Covering o.server o.heardAt) .start fun _ _ _ hi hc hs => covering_step hi hc hs

section

variable {n : ℕ} {h : Handle} {key : SessionKey}

/-- The client keeps its number from `n` on. -/
def Stays (states : ℕ → HeardServer) (n : ℕ) (h : Handle) : Prop :=
  ∀ m, n ≤ m → (states m).server.Open h.num ∧ (states m).server.kernel.owner h.num = some h.client

/-- Then nobody closes it, -/
theorem Stays.not_releases (hstays : Stays states n h)
    (h₀ : Reach HeardServer.step OwnAddress HeardServer.start (states 0))
    (hrun : Forever HeardServer.step OwnAddress states labels) (hp : Patrolled states labels) {m : ℕ} (hm : n ≤ m) :
    ¬ ∃ t stage, (states m).server.Releases h.num stage t := by
  intro hr
  obtain ⟨k, hmk, hnone⟩ := releases_leadsTo (reach_server h₀) (forever_server hrun) hp.threads h.num m hr
  rw [(hstays k (hm.trans hmk)).2] at hnone
  cases hnone

/-- it is listed, under one address, -/
theorem Stays.listed (hstays : Stays states n h)
    (h₀ : Reach HeardServer.step OwnAddress HeardServer.start (states 0))
    (hrun : Forever HeardServer.step OwnAddress states labels) (hp : Patrolled states labels) :
    ∃ key, ∀ m, n ≤ m → (states m).server.connections h.num = some ⟨h, key⟩ := by
  have hreach := (forever_server hrun).reach (reach_server h₀)
  obtain ⟨key, hx⟩ : ∃ key, (states n).server.connections h.num = some ⟨h, key⟩ := by
    obtain ⟨hopen, ho⟩ := hstays n le_rfl
    rcases (tracked_of_reach (hreach n)).kept h ho with hx | hh | hr
    · exact hx
    · refine absurd rfl (hopen.2 h ?_)
      cases hacc : (states n).server.acceptor with
      | idle | registered => rw [hacc] at hh; cases hh
      | accepted | added | dropped => rw [hacc] at hh; exact hh
    · exact absurd hr (hstays.not_releases h₀ hrun hp le_rfl)
  refine ⟨key, fun m hm => ?_⟩
  induction m, hm using Nat.le_induction with
  | base => exact hx
  | succ m hm ih =>
    rcases listed_step ih ((forever_server hrun).next m) with hx' | ⟨a, key', ha, hnum, -⟩ | hr
    · exact hx'
    · exact absurd hnum ((hstays m hm).1.2 a (by rw [ha]; rfl))
    · exact absurd hr (hstays.not_releases h₀ hrun hp (hm.trans (Nat.le_succ m)))

/-- and has its session. -/
theorem Stays.session (hstays : Stays states n h)
    (h₀ : Reach HeardServer.step OwnAddress HeardServer.start (states 0))
    (hrun : Forever HeardServer.step OwnAddress states labels) (hp : Patrolled states labels) {m : ℕ} (hm : n ≤ m)
    (hx : (states m).server.connections h.num = some ⟨h, key⟩) :
    ∃ session, (states m).server.users key = some session := by
  rcases (covering_of_reach (hrun.reach h₀ m)).covered _ _ hx with ⟨session, hu, -⟩ | hq | hclosing
  · exact ⟨session, hu⟩
  · obtain ⟨k, hmk, hnone⟩ := queued_leadsTo (reach_server h₀) (forever_server hrun) (hp.threads none) h m hq
    rw [(hstays k (hm.trans hmk)).2] at hnone
    cases hnone
  · exact absurd hclosing.releases (hstays.not_releases h₀ hrun hp hm)

/-- From some moment on no command comes in from its address. -/
theorem quiet_address (h₀ : Reach HeardServer.step OwnAddress HeardServer.start (states 0))
    (hrun : Forever HeardServer.step OwnAddress states labels)
    (hx : ∀ m, n ≤ m → (states m).server.connections h.num = some ⟨h, key⟩)
    (hsilent : ∀ m, n ≤ m → ¬ (states m).HearsFrom (labels m) h.client) :
    ∃ k, n ≤ k ∧ ∀ m, k ≤ m → ∀ i conn message, labels m = .execute i →
      (states m).server.jobs i = some ⟨conn, .executing message⟩ → conn.sessionKey ≠ key := by
  have hreach := (forever_server hrun).reach (reach_server h₀)
  have hcovering : ∀ m, Covering (states m).server (states m).heardAt := fun m => covering_of_reach (hrun.reach h₀ m)
  obtain ⟨k, hnk, hrest⟩ := comes_to_rest (f := fun m => ((states m).server.late key h).ncard) fun m hm =>
    Set.ncard_le_ncard (late_step (hcovering m) (hx m hm) ((forever_server hrun).next m)) (finite_late (hreach m) key h)
  refine ⟨k, hnk, fun m hm i conn message hl hj hkey => ?_⟩
  have hs := (forever_server hrun).next m
  rw [hl] at hs
  have hother : conn.socket ≠ h := fun he =>
    hsilent m (hnk.trans hm) ⟨i, conn, hl, held_of_jobs hj, congrArg Handle.client he⟩
  have hheard := late_execute hs hj hkey hother
  have hfewer := late_step (hcovering m) (hx m (hnk.trans hm)) hs
  have hlt := Set.ncard_lt_ncard (hfewer.ssubset_of_mem_notMem hheard.1 hheard.2) (finite_late (hreach m) key h)
  exact absurd (hrest m hm) hlt.ne

/-- **A silent client is closed.** In every run without end in which each
client that gets a session has an address of its own, the event loop and the
jobs are scheduled fairly, the sweep comes round and time goes on, each client
that is connected and handles no command from some moment on loses its number,
whatever it sends and whatever goes wrong. -/
theorem silent_closed (h₀ : Reach HeardServer.step OwnAddress HeardServer.start (states 0))
    (hrun : Forever HeardServer.step OwnAddress states labels) (hp : Patrolled states labels)
    (hopen : (states n).server.Open h.num) (ho : (states n).server.kernel.owner h.num = some h.client)
    (hsilent : ∀ m, n ≤ m → ¬ (states m).HearsFrom (labels m) h.client) :
    ∃ m, n ≤ m ∧ (states m).server.kernel.owner h.num ≠ some h.client := by
  by_contra hno
  have hserver := forever_server hrun
  have hstays : Stays states n h := by
    intro m hm
    induction m, hm using Nat.le_induction with
    | base => exact ⟨hopen, ho⟩
    | succ m hm ih =>
      exact (ih.1.step ih.2 (hserver.next m)).resolve_left fun hne => hno ⟨m + 1, hm.trans (Nat.le_succ m), hne⟩
  obtain ⟨key, hx⟩ := hstays.listed h₀ hrun hp
  obtain ⟨k, hnk, hquiet⟩ := quiet_address h₀ hrun hx hsilent
  obtain ⟨session, hu⟩ := hstays.session h₀ hrun hp hnk (hx k hnk)
  -- from then on the session is left alone
  have hsame : ∀ m, k ≤ m → (states m).server.users key = some session := by
    intro m hm
    induction m, hm using Nat.le_induction with
    | base => exact hu
    | succ m hm ih =>
      have hm' : n ≤ m + 1 := hnk.trans (hm.trans (Nat.le_succ m))
      obtain ⟨session', hu'⟩ := hstays.session h₀ hrun hp hm' (hx _ hm')
      rcases session_step (hserver.next m) ih hu' with rfl | ⟨i, conn, message, hl, hj, hkey⟩
      · exact hu'
      · exact absurd hkey (hquiet m hm i conn message hl hj)
  -- until it is too old, and the sweep comes to it
  obtain ⟨late, hlate⟩ := hp.time (session.lastActivityTime + 240000000001)
  have hnow : ∀ m, late ≤ m → session.lastActivityTime + 240000000001 ≤ (states m).server.now := by
    intro m hm
    induction m, hm using Nat.le_induction with
    | base => exact hlate
    | succ m hm ih => exact ih.trans (step_effect (hserver.next m)).now
  obtain ⟨m, hm, hl⟩ := hp.sweeps key (max k late) fun m hm => by rw [hsame m (by omega)]; simp
  have hold : session.isExpired (states m).server.now = true := by
    have hlimit := limit_eq (hserver.reach (reach_server h₀) m) (hsame m (by omega))
    have htime : (session.lastActivityTime : ℤ) + 240000000001 ≤ (states m).server.now := by
      exact_mod_cast hnow m (by omega)
    have hnanoseconds : (UserSessionManager.defaultMaxIdle * 1000000000).toInt = 240000000000 := by decide
    rw [UserSession.isExpired, hlimit, hnanoseconds, decide_eq_true_eq]
    omega
  have hends := sweep_ends (hl ▸ hserver.next m) (hsame m (by omega)) hold
  rw [hsame (m + 1) (by omega)] at hends
  cases hends

end

/-- A client connects and says nothing; the sweep comes after four minutes. -/
theorem silent_closed_example : ∃ (states : ℕ → HeardServer) (labels : ℕ → ServerStep),
    Forever HeardServer.step OwnAddress states labels ∧ Patrolled states labels ∧
      (states 0).server.kernel.owner 5 = some 0 ∧
      ∃ m, 0 ≤ m ∧ (states m).server.kernel.owner 5 ≠ some 0 := by
  let first : List ServerStep := [.accept 5 ⟨1, 1⟩, .addSession, .register, .watch true]
  let closing : List ServerStep := [.tick 240000000001, .sweep ⟨1, 1⟩, .swapExpired, .drainNext, .loopClose, .loopClose,
    .loopClose, .loopClose, .drainDone, .waitFailed]
  let round (now : Time) : List ServerStep := [.tick now, .swapExpired, .drainDone, .waitFailed, .swapExpired,
    .drainDone, .waitFailed, .swapExpired, .drainDone, .waitFailed]
  obtain ⟨o₀, hfirst⟩ : ∃ o₀, exec HeardServer.step HeardServer.start first = some o₀ := ⟨_, rfl⟩
  obtain ⟨o₁, hclosing⟩ : ∃ o₁, exec HeardServer.step o₀ closing = some o₁ := by
    cases hfirst
    exact ⟨_, rfl⟩
  have h₀ : Reach HeardServer.step OwnAddress HeardServer.start o₀ := by
    have haccept : Reach HeardServer.step OwnAddress HeardServer.start _ :=
      Reach.start.next (l := ServerStep.accept 5 ⟨1, 1⟩) trivial rfl
    have hsession : Reach HeardServer.step OwnAddress HeardServer.start _ :=
      haccept.next (l := ServerStep.addSession) (fun _ _ _ => ⟨rfl, fun _ _ hx => by cases hx⟩) rfl
    cases hfirst
    exact hsession.exec [.register, .watch true] rfl (by simp [OwnAddress])
  let later (k : ℕ) : HeardServer := ⟨{ o₁.server with now := 240000000001 + k }, o₁.heardAt⟩
  let base (k : ℕ) : HeardServer := k.casesOn o₀ later
  let cycle (k : ℕ) : List ServerStep := k.casesOn closing fun k => round (240000000001 + (k + 1))
  have hcycle : ∀ k, exec HeardServer.step (base k) (cycle k) = some (base (k + 1)) := by
    intro k
    cases k with
    | zero =>
      refine hclosing.trans (congrArg some ?_)
      cases hfirst
      cases hclosing
      rfl
    | succ k =>
      have htick : HeardServer.step (later k) (.tick (240000000001 + (k + 1))) = some (later (k + 1)) := by
        simp [HeardServer.step, Server.step, later, hear]
      rw [show cycle (k + 1) = _ from rfl, show base (k + 1) = later k from rfl, exec_cons, htick]
      cases hfirst
      cases hclosing
      rfl
  have hcond : ∀ k j o l, exec HeardServer.step (base k) ((cycle k).take j) = some o → (cycle k)[j]? = some l →
      o.OwnAddress l := by
    intro k j o l ho hl
    obtain ⟨hj, rfl⟩ := List.getElem?_eq_some_iff.mp hl
    cases k with
    | zero =>
      change j < 10 at hj
      by_cases hdrain : j = 3
      · subst hdrain
        cases hfirst
        cases hclosing
        cases ho
        intro a key close ha
        cases ha
      · interval_cases j
        all_goals trivial
    | succ k =>
      change j < 10 at hj
      interval_cases j
      all_goals trivial
  have hlen : ∀ k, (cycle k).length = 10 := fun k => by cases k <;> rfl
  obtain ⟨states, labels, hrun, hstates, hlabels⟩ :=
    Forever.of_cycles (C := OwnAddress) base cycle (Nat.succ_pos 9) hlen hcycle hcond
  have hbase : ∀ k, states (10 * k) = base k := fun k => (Option.some.inj (hstates k 0 (by decide))).symm
  have hlater : ∀ k, states (10 * (k + 1)) = later k := fun k => hbase (k + 1)
  have hnojobs : ∀ k i, (later k).server.jobs i = none := by
    cases hfirst
    cases hclosing
    exact fun _ _ => rfl
  have hp : Patrolled states labels := by
    refine ⟨fun t n hen => ?_, fun key n hu => ?_, fun t => ⟨10 * (t + 1), ?_⟩⟩
    · cases t with
      | none =>
        have hl : some (ServerStep.swapExpired) = _ := hlabels (n + 1) 1 (by decide)
        exact ⟨10 * (n + 1) + 1, by omega, by rw [← Option.some.inj hl]; rfl⟩
      | some i =>
        obtain ⟨l, ht, -, hl⟩ := hen (10 * (n + 1)) (by omega)
        change ((states (10 * (n + 1))).server.step l).isSome = true at hl
        rw [hlater, no_job_step (hnojobs n i) ht] at hl
        cases hl
    · refine absurd ?_ (hu (10 * (n + 1)) (by omega))
      rw [hlater]
      cases hfirst
      cases hclosing
      by_cases hk : key = ⟨1, 1⟩
      · subst hk
        rfl
      · iterate 3 refine (Function.update_of_ne hk _ _).trans ?_
        rfl
    · rw [hlater]
      exact Nat.le_add_left t 240000000001
  refine ⟨states, labels, hrun, hp, ?_, silent_closed (n := 0) (h := ⟨5, 0⟩) ?_ hrun hp ?_ ?_ fun m _ => ?_⟩
  · rw [show states 0 = o₀ from hbase 0]
    cases hfirst
    rfl
  · rw [show states 0 = o₀ from hbase 0]
    exact h₀
  · rw [show states 0 = o₀ from hbase 0]
    cases hfirst
    exact ⟨by decide, fun _ he => by cases he⟩
  · rw [show states 0 = o₀ from hbase 0]
    cases hfirst
    rfl
  · rintro ⟨i, conn, hl, -⟩
    have hm := hlabels (m / 10) (m % 10) (Nat.mod_lt m (Nat.succ_pos 9))
    rw [Nat.div_add_mod, hl] at hm
    have hmem := List.mem_of_getElem? hm
    cases hk : m / 10 with
    | zero => simp [cycle, closing, hk] at hmem
    | succ k => simp [cycle, round, hk] at hmem

end HeardServer

end KvDatabase
