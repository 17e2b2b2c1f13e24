/-
What a step of the server cannot do: by whose step it is, what it leaves
alone, and where what it leaves comes from. Invariants of the server with
something beside it (its limiter, its clients, its destruction) read these
and not the steps.
-/
import KvDatabase.Coverage

namespace KvDatabase

/-- Whose step it is. A job runs on a worker of its own. -/
inductive ServerThread
  | clock
  | acceptor
  | sweeper
  | loop
  | job (i : JobId)
deriving DecidableEq, Repr

def ServerStep.thread : ServerStep → ServerThread
  | .tick _ => .clock
  | .accept _ _ | .refuse | .addSession | .drop | .register | .watch _ => .acceptor
  | .sweep _ => .sweeper
  | .swapExpired | .drainNext | .drainDone | .loopClose | .wait _ | .waitFailed | .dispatch _ | .hangUp | .eventsDone =>
    .loop
  | .run i | .recv i _ | .execute i | .send i | .rearm i _ | .jobClose i => .job i

/-- The job the step begins, takes on or ends. -/
def ServerStep.job? : ServerStep → Option JobId
  | .dispatch i | .run i | .recv i _ | .execute i | .send i | .rearm i _ | .jobClose i => some i
  | _ => none

/-- The stages of `closeConnection`; a connection that is not found is not
erased. -/
inductive CloseStage.Next : CloseStage → CloseStage → Prop
  | unwatched : Next .unwatch .dropSession
  | found : Next .dropSession .erase
  | notFound : Next .dropSession .close
  | erased : Next .erase .close

/-- The step takes job `i` on, from where to where. -/
inductive ServerStep.Moves (i : JobId) : ServerStep → JobPc → JobPc → Prop
  | run : Moves i (.run i) .queued .receiving
  | recv (commandBuffer : Bytes) (r : RecvResult) :
    Moves i (.recv i r) .receiving (receive commandBuffer r).2.next
  | execute (message : Bytes) : Moves i (.execute i) (.executing message) .replying
  | send : Moves i (.send i) .replying .rearming
  | rearm : Moves i (.rearm i false) .rearming (.closing .unwatch)
  | jobClose : stage.Next stage' → Moves i (.jobClose i) (.closing stage) (.closing stage')

namespace Server

variable {s s' : Server} {l : ServerStep}

theorem jobs_of_setJob {i j : JobId} {job : Option Job} {job' : Job} (h : (s.setJob j job).jobs i = some job') :
    (i = j ∧ job = some job') ∨ (i ≠ j ∧ s.jobs i = some job') := by
  by_cases hij : i = j
  · subst hij
    exact .inl ⟨rfl, by simpa [setJob] using h⟩
  · exact .inr ⟨hij, by simpa [setJob, hij] using h⟩

theorem closeConnection_next_stage {sock : SocketType} {stage next : CloseStage}
    (h : (s.closeConnection sock stage).2 = some next) : stage.Next next := by
  cases stage with
  | unwatch => cases h; exact .unwatched
  | dropSession =>
    rw [closeConnection] at h
    split at h
    · cases h; exact .found
    · cases h; exact .notFound
  | erase => cases h; exact .erased
  | close => cases h

/-- Where what a step leaves comes from. What is not said here is as it was,
so a step is asked only for what it changes. -/
structure Effect (s s' : Server) (l : ServerStep) : Prop where
  now : s.now ≤ s'.now := by exact le_rfl
  clients : s.clients ≤ s'.clients := by exact le_rfl
  acceptor : l.thread ≠ .acceptor → s'.acceptor = s.acceptor ∧ s'.clients = s.clients := by exact fun _ => ⟨rfl, rfl⟩
  /-- A number is given out by `accept`. -/
  owner : ∀ x c, s'.kernel.owner x = some c → s.kernel.owner x = some c ∨ ∃ key, l = .accept x key ∧ c = s.clients :=
    by exact fun _ _ h => .inl h
  /-- A connection is what the accept thread has in its hands. -/
  connections : ∀ x conn, s'.connections x = some conn →
    s.connections x = some conn ∨ s.acceptor = .added conn.socket conn.sessionKey := by exact fun _ _ h => .inl h
  sessions : ∀ key session, s'.users key = some session → (∃ before, s.users key = some before) ∨ l = .addSession := by
    exact fun _ session h => .inl ⟨session, h⟩
  /-- A job is one that was there, one that goes on, or a new one. -/
  jobs : ∀ i job, s'.jobs i = some job → s.jobs i = some job ∨
    (∃ pc, s.jobs i = some ⟨job.conn, pc⟩ ∧ l.Moves i pc job.pc) ∨
    (l = .dispatch i ∧ job.pc = .queued ∧ ∃ x, s.connections x = some job.conn) := by exact fun _ _ h => .inl h

theorem moves_of_setJob {s₁ : Server} {i j : JobId} {conn : Connection} {pc pc' : JobPc} {job : Job}
    (hj : s.jobs j = some ⟨conn, pc⟩) (hm : l.Moves j pc pc') (h₁ : s₁.jobs = s.jobs)
    (h : (s₁.setJob j (some ⟨conn, pc'⟩)).jobs i = some job) : s.jobs i = some job ∨
      (∃ pc, s.jobs i = some ⟨job.conn, pc⟩ ∧ l.Moves i pc job.pc) ∨
      (l = .dispatch i ∧ job.pc = .queued ∧ ∃ x, s.connections x = some job.conn) := by
  rcases jobs_of_setJob h with ⟨rfl, he⟩ | ⟨-, he⟩
  · cases he
    exact .inr (.inl ⟨pc, hj, hm⟩)
  · exact .inl (h₁ ▸ he)

theorem owner_of_closeConnection {sock x : SocketType} {stage : CloseStage} {c : ClientId}
    (h : (s.closeConnection sock stage).1.kernel.owner x = some c) : s.kernel.owner x = some c := by
  rcases s.owner_closeConnection sock stage x with hn | he
  · rw [hn] at h; cases h
  · exact he ▸ h

/-- A stage of `closeConnection`, whoever makes it. -/
theorem effect_closeConnection (accesses drained : List Access) (sock : SocketType) (stage : CloseStage) (loop : LoopPc)
    {jobs : JobId → Option Job} (hj : ∀ i job, jobs i = some job → s.jobs i = some job ∨
      (∃ pc, s.jobs i = some ⟨job.conn, pc⟩ ∧ l.Moves i pc job.pc) ∨
      (l = .dispatch i ∧ job.pc = .queued ∧ ∃ x, s.connections x = some job.conn)) :
    Effect s { ({ s with accesses, drained }.closeConnection sock stage).1 with loop, jobs } l where
  now := by rw [closeConnection_frame]
  clients := by rw [closeConnection_frame]
  acceptor _ := by rw [closeConnection_frame]; exact ⟨rfl, rfl⟩
  owner _ _ h := .inl (owner_of_closeConnection (s := { s with accesses, drained }) h)
  connections _ _ h := .inl (connections_closeConnection (s := { s with accesses, drained }) h)
  sessions _ session h := .inl ⟨session, users_closeConnection (s := { s with accesses, drained }) h⟩
  jobs := hj

theorem step_effect (hs : s.step l = some s') : Effect s s' l := by
  cases l with
  | tick now => obtain ⟨hle, rfl⟩ := step_tick hs; exact { now := hle }
  | accept num key =>
    obtain ⟨-, -, rfl⟩ := step_accept hs
    refine { clients := Nat.le_succ _, acceptor := fun ht => absurd rfl ht, owner := fun x c ho => ?_ }
    by_cases hx : x = num
    · subst hx
      rw [Kernel.openFor_owner, Function.update_self, Option.some.injEq] at ho
      exact .inr ⟨key, rfl, ho.symm⟩
    · rw [Kernel.openFor_owner, Function.update_of_ne hx] at ho
      exact .inl ho
  | refuse =>
    obtain ⟨h, -, rfl⟩ := step_refuse hs
    refine { acceptor := fun ht => absurd rfl ht, owner := fun x c ho => .inl ?_ }
    by_cases hx : x = h.num
    · simp [hx] at ho
    · rwa [Kernel.close_owner, Function.update_of_ne hx] at ho
  | addSession =>
    obtain ⟨h, key, -, rfl⟩ := step_addSession hs
    exact { acceptor := fun ht => absurd rfl ht, sessions := fun _ _ _ => .inr rfl }
  | drop =>
    obtain ⟨h, key, -, rfl⟩ := step_drop hs
    exact
      { acceptor := fun ht => absurd rfl ht
        sessions := fun _ session hu => .inl ⟨session, UserSessionManager.removeSession_eq_some hu⟩ }
  | register =>
    obtain ⟨h, key, ha, rfl⟩ := step_register hs
    refine { acceptor := fun ht => absurd rfl ht, connections := fun x conn hc => ?_ }
    by_cases hx : x = h.num
    · simp only [hx, Function.update_self, Option.some.injEq] at hc
      subst hc
      exact .inr ha
    · simp only [Function.update_of_ne hx] at hc
      exact .inl hc
  | watch ok =>
    obtain ⟨h, key, -, rfl⟩ := step_watch hs
    refine { acceptor := fun ht => absurd rfl ht, owner := fun x c ho => .inl ?_ }
    cases ok with
    | false => exact ho
    | true =>
      rcases s.kernel.watch_cases h.num with he | ⟨-, -, he, -⟩
      · simpa [he] using ho
      · simpa [he] using ho
  | sweep key =>
    rcases step_sweep hs with rfl | ⟨session, -, -, rfl⟩
    · exact {}
    · exact { sessions := fun _ session hu => .inl ⟨session, UserSessionManager.removeSession_eq_some hu⟩ }
  | swapExpired => obtain ⟨-, rfl⟩ := step_swapExpired hs; exact {}
  | drainNext => obtain ⟨h, close, -, rfl⟩ := step_drainNext hs; exact {}
  | drainDone => obtain ⟨-, rfl⟩ := step_drainDone hs; exact {}
  | loopClose =>
    rcases step_loopClose hs with ⟨h, stage, close, -, rfl⟩ | ⟨sock, stage, events, -, rfl⟩
    · exact effect_closeConnection s.accesses _ h.num stage _ fun i job h => .inl (by rwa [closeConnection_jobs] at h)
    · exact effect_closeConnection s.accesses s.drained sock stage _ fun i job h =>
        .inl (by rwa [closeConnection_jobs] at h)
  | wait events => obtain ⟨-, -, -, rfl⟩ := step_wait hs; exact {}
  | waitFailed => obtain ⟨-, rfl⟩ := step_waitFailed hs; exact {}
  | dispatch i =>
    obtain ⟨sock, events, -, -, ⟨-, rfl⟩ | ⟨conn, hc, rfl⟩⟩ := step_dispatch hs
    · exact {}
    · refine { jobs := fun j job hj => ?_ }
      rcases jobs_of_setJob hj with ⟨rfl, he⟩ | ⟨-, he⟩
      · cases he
        exact .inr (.inr ⟨rfl, rfl, sock, hc⟩)
      · exact .inl he
  | hangUp => obtain ⟨sock, event, events, -, rfl⟩ := step_hangUp hs; exact {}
  | eventsDone => obtain ⟨-, rfl⟩ := step_eventsDone hs; exact {}
  | run i =>
    obtain ⟨conn, hj, rfl⟩ := step_run hs
    exact { jobs := fun _ _ h => moves_of_setJob hj .run rfl h }
  | recv i r =>
    obtain ⟨conn, hj, -, rfl⟩ := step_recv hs
    exact { jobs := fun _ _ h => moves_of_setJob hj (.recv _ r) rfl h }
  | execute i =>
    obtain ⟨conn, message, hj, rfl⟩ := step_execute hs
    refine { jobs := fun _ _ h => moves_of_setJob hj (.execute message) rfl h,
             sessions := fun key session hu => .inl ?_ }
    obtain ⟨before, hb, -⟩ := UserSessionManager.updateActivity_eq_some hu
    exact ⟨before, hb⟩
  | send i =>
    obtain ⟨conn, hj, rfl⟩ := step_send hs
    exact { jobs := fun _ _ h => moves_of_setJob hj .send rfl h }
  | rearm i ok =>
    obtain ⟨conn, hj, ⟨-, kernel, hk, rfl⟩ | ⟨rfl, rfl⟩⟩ := step_rearm hs
    · obtain ⟨-, ho, -⟩ := Kernel.rearm_eq_some hk
      refine { owner := fun x c h => .inl (ho ▸ h), jobs := fun j job h => ?_ }
      rcases jobs_of_setJob h with ⟨-, he⟩ | ⟨-, he⟩
      · cases he
      · exact .inl he
    · exact { jobs := fun _ _ h => moves_of_setJob hj .rearm rfl h }
  | jobClose i =>
    obtain ⟨conn, stage, hj, rfl⟩ := step_jobClose hs
    refine effect_closeConnection _ s.drained conn.socket.num stage _ fun j job h => ?_
    rcases jobs_of_setJob h with ⟨rfl, he⟩ | ⟨-, he⟩
    · obtain ⟨next, hn, rfl⟩ := Option.map_eq_some_iff.mp he
      exact .inr (.inl ⟨_, hj, .jobClose (closeConnection_next_stage hn)⟩)
    · exact .inl (by rwa [closeConnection_jobs] at he)

/-- The client the accept thread has before its session: it had it, or has
just accepted it. -/
theorem accepted_of_step {h : Handle} {key : SessionKey} (hs : s.step l = some s')
    (ha : s'.acceptor = .accepted h key) : (l.thread ≠ .acceptor ∧ s.acceptor = .accepted h key) ∨
      ∃ num, l = .accept num key ∧ h = ⟨num, s.clients⟩ ∧ s'.clients = s.clients + 1 := by
  by_cases ht : l.thread = .acceptor
  · cases l with
    | accept num key' =>
      obtain ⟨-, -, rfl⟩ := step_accept hs
      obtain ⟨rfl, rfl⟩ := AcceptPc.accepted.inj ha
      exact .inr ⟨num, rfl, rfl, rfl⟩
    | refuse => obtain ⟨a, -, rfl⟩ := step_refuse hs; cases ha
    | addSession => obtain ⟨a, key', -, rfl⟩ := step_addSession hs; cases ha
    | drop => obtain ⟨a, key', -, rfl⟩ := step_drop hs; cases ha
    | register => obtain ⟨a, key', -, rfl⟩ := step_register hs; cases ha
    | watch ok => obtain ⟨a, key', -, rfl⟩ := step_watch hs; cases ha
    | _ => cases ht
  · exact .inl ⟨ht, ((step_effect hs).acceptor ht).1 ▸ ha⟩

/-- The client it has with a session: it had it, or has just added that. -/
theorem added_of_step {h : Handle} {key : SessionKey} (hs : s.step l = some s') (ha : s'.acceptor = .added h key) :
    s.acceptor = .added h key ∨ (l = .addSession ∧ s.acceptor = .accepted h key) := by
  by_cases ht : l.thread = .acceptor
  · cases l with
    | accept num key' => obtain ⟨-, -, rfl⟩ := step_accept hs; cases ha
    | refuse => obtain ⟨a, -, rfl⟩ := step_refuse hs; cases ha
    | addSession =>
      obtain ⟨a, key', hold, rfl⟩ := step_addSession hs
      obtain ⟨rfl, rfl⟩ := AcceptPc.added.inj ha
      exact .inr ⟨rfl, hold⟩
    | drop => obtain ⟨a, key', -, rfl⟩ := step_drop hs; cases ha
    | register => obtain ⟨a, key', -, rfl⟩ := step_register hs; cases ha
    | watch ok => obtain ⟨a, key', -, rfl⟩ := step_watch hs; cases ha
    | _ => cases ht
  · exact .inl (((step_effect hs).acceptor ht).1 ▸ ha)

/-- What is not said here is as it was. -/
structure Frame (s s' : Server) (l : ServerStep) : Prop where
  loop : l.thread ≠ .loop → s'.loop = s.loop := by exact fun _ => rfl
  jobs : ∀ j, l.job? ≠ some j → s'.jobs j = s.jobs j := by exact fun _ _ => rfl
  commandBuffer : l ≠ .register → (∀ i r, l ≠ .recv i r) → s'.commandBuffer = s.commandBuffer := by
    exact fun _ _ => rfl
  connections : l ≠ .register → ∀ x conn, s'.connections x = some conn → s.connections x = some conn := by
    exact fun _ _ _ h => h
  users : l ≠ .addSession → (∀ i, l ≠ .execute i) → ∀ key session, s'.users key = some session →
    s.users key = some session := by exact fun _ _ _ _ h => h
  listed : l ≠ .register → l ≠ .loopClose → (∀ i, l ≠ .jobClose i) → s'.connections = s.connections := by
    exact fun _ _ _ => rfl
  expiredSockets : l ≠ .swapExpired → ∀ h ∈ s.expiredSockets, h ∈ s'.expiredSockets := by exact fun _ _ h => h

theorem setJob_jobs_ne {i j : JobId} {job : Option Job} (h : some i ≠ some j) : (s.setJob i job).jobs j = s.jobs j :=
  Function.update_of_ne (fun he => h (congrArg some he.symm)) _ _

theorem frame_closeConnection (accesses drained : List Access) (sock : SocketType) (stage : CloseStage) {loop : LoopPc}
    (hl : l.thread ≠ .loop → loop = s.loop) {jobs : JobId → Option Job} (hj : ∀ j, l.job? ≠ some j → jobs j = s.jobs j)
    (hc : l = .loopClose ∨ ∃ i, l = .jobClose i) :
    Frame s { ({ s with accesses, drained }.closeConnection sock stage).1 with loop, jobs } l where
  loop := hl
  jobs := hj
  users _ _ _ _ h := users_closeConnection (s := { s with accesses, drained }) h
  listed _ hloop hjob := by
    rcases hc with hc | ⟨i, hc⟩
    · exact absurd hc hloop
    · exact absurd hc (hjob i)
  commandBuffer _ _ := by rw [closeConnection_frame]
  connections _ _ _ h := connections_closeConnection (s := { s with accesses, drained }) h
  expiredSockets _ _ h := by rw [closeConnection_frame]; exact h

theorem step_frame (hs : s.step l = some s') : Frame s s' l := by
  cases l with
  | tick now => obtain ⟨-, rfl⟩ := step_tick hs; exact {}
  | accept num key => obtain ⟨-, -, rfl⟩ := step_accept hs; exact {}
  | refuse => obtain ⟨h, -, rfl⟩ := step_refuse hs; exact {}
  | addSession => obtain ⟨h, key, -, rfl⟩ := step_addSession hs; exact { users := fun hl => absurd rfl hl }
  | drop =>
    obtain ⟨h, key, -, rfl⟩ := step_drop hs
    exact { users := fun _ _ _ _ hu => UserSessionManager.removeSession_eq_some hu }
  | register =>
    obtain ⟨h, key, -, rfl⟩ := step_register hs
    exact
      { commandBuffer := fun hl => absurd rfl hl
        connections := fun hl => absurd rfl hl
        listed := fun hl => absurd rfl hl }
  | watch ok => obtain ⟨h, key, -, rfl⟩ := step_watch hs; exact {}
  | sweep key =>
    rcases step_sweep hs with rfl | ⟨session, -, -, rfl⟩
    · exact {}
    · exact
        { users := fun _ _ _ _ hu => UserSessionManager.removeSession_eq_some hu
          expiredSockets := fun _ _ h => List.mem_append_left _ h }
  | swapExpired =>
    obtain ⟨-, rfl⟩ := step_swapExpired hs
    exact { loop := fun ht => absurd rfl ht, expiredSockets := fun hl => absurd rfl hl }
  | drainNext => obtain ⟨h, close, -, rfl⟩ := step_drainNext hs; exact { loop := fun ht => absurd rfl ht }
  | drainDone => obtain ⟨-, rfl⟩ := step_drainDone hs; exact { loop := fun ht => absurd rfl ht }
  | loopClose =>
    rcases step_loopClose hs with ⟨h, stage, close, -, rfl⟩ | ⟨sock, stage, events, -, rfl⟩
    · refine frame_closeConnection s.accesses _ h.num stage (fun ht => absurd rfl ht) (fun j _ => ?_) (.inl rfl)
      rw [closeConnection_jobs]
      rfl
    · refine frame_closeConnection s.accesses s.drained sock stage (fun ht => absurd rfl ht) (fun j _ => ?_) (.inl rfl)
      rw [closeConnection_jobs]
  | wait events => obtain ⟨-, -, -, rfl⟩ := step_wait hs; exact { loop := fun ht => absurd rfl ht }
  | waitFailed => obtain ⟨-, rfl⟩ := step_waitFailed hs; exact { loop := fun ht => absurd rfl ht }
  | dispatch i =>
    obtain ⟨sock, events, -, -, ⟨-, rfl⟩ | ⟨conn, -, rfl⟩⟩ := step_dispatch hs
    · exact { loop := fun ht => absurd rfl ht }
    · exact { loop := fun ht => absurd rfl ht, jobs := fun j hj => setJob_jobs_ne hj }
  | hangUp => obtain ⟨sock, event, events, -, rfl⟩ := step_hangUp hs; exact { loop := fun ht => absurd rfl ht }
  | eventsDone => obtain ⟨-, rfl⟩ := step_eventsDone hs; exact { loop := fun ht => absurd rfl ht }
  | run i => obtain ⟨conn, -, rfl⟩ := step_run hs; exact { jobs := fun j hj => setJob_jobs_ne hj }
  | recv i r =>
    obtain ⟨conn, -, -, rfl⟩ := step_recv hs
    exact { jobs := fun j hj => setJob_jobs_ne hj, commandBuffer := fun _ hl => absurd rfl (hl i r) }
  | execute i =>
    obtain ⟨conn, message, -, rfl⟩ := step_execute hs
    exact { jobs := fun j hj => setJob_jobs_ne hj, users := fun _ hl => absurd rfl (hl i) }
  | send i => obtain ⟨conn, -, rfl⟩ := step_send hs; exact { jobs := fun j hj => setJob_jobs_ne hj }
  | rearm i ok =>
    obtain ⟨conn, -, ⟨-, kernel, -, rfl⟩ | ⟨-, rfl⟩⟩ := step_rearm hs
    · exact { jobs := fun j hj => setJob_jobs_ne hj }
    · exact { jobs := fun j hj => setJob_jobs_ne hj }
  | jobClose i =>
    obtain ⟨conn, stage, -, rfl⟩ := step_jobClose hs
    refine frame_closeConnection _ s.drained conn.socket.num stage (fun _ => ?_) (fun j hj => ?_) (.inr ⟨i, rfl⟩)
    · rw [closeConnection_loop]
      rfl
    have hjobs : ((s.logAccess conn).closeConnection conn.socket.num stage).1.jobs = s.jobs := by
      rw [closeConnection_jobs]
      rfl
    rw [hjobs]
    exact Function.update_of_ne (fun he => hj (congrArg some he.symm)) _ _

/-- A job that is not there takes no step. -/
theorem no_job_step {i : JobId} (hj : s.jobs i = none) (hl : l.thread = .job i) : s.step l = none := by
  cases l with
  | run | recv | execute | send | rearm | jobClose => cases hl; simp only [step, hj]
  | _ => cases hl

/-- One that is there is taken on by its own steps only. -/
theorem job_kept {i : JobId} {job : Job} (hs : s.step l = some s') (ht : l.thread ≠ .job i) (hj : s.jobs i = some job) :
    s'.jobs i = some job := by
  refine ((step_frame hs).jobs i fun hl => ?_).trans hj
  cases l with
  | dispatch j =>
    cases hl
    obtain ⟨-, -, -, hnone, -⟩ := step_dispatch hs
    rw [hj] at hnone
    cases hnone
  | run | recv | execute | send | rearm | jobClose => cases hl; exact ht rfl
  | _ => cases hl

/-- By one of its own it goes on, or ends. -/
theorem job_moves {i : JobId} {conn : Connection} {pc : JobPc} (hs : s.step l = some s') (ht : l.thread = .job i)
    (hj : s.jobs i = some ⟨conn, pc⟩) : (∃ pc', l.Moves i pc pc' ∧ s'.jobs i = some ⟨conn, pc'⟩) ∨
      (l = .rearm i true ∧ pc = .rearming ∨ l = .jobClose i ∧ ∃ stage, pc = .closing stage) ∧ s'.jobs i = none := by
  cases l with
  | run j =>
    cases ht
    obtain ⟨conn', hj', rfl⟩ := step_run hs
    cases hj.symm.trans hj'
    exact .inl ⟨_, .run, Function.update_self ..⟩
  | recv j r =>
    cases ht
    obtain ⟨conn', hj', -, rfl⟩ := step_recv hs
    cases hj.symm.trans hj'
    exact .inl ⟨_, .recv _ r, Function.update_self ..⟩
  | execute j =>
    cases ht
    obtain ⟨conn', message, hj', rfl⟩ := step_execute hs
    cases hj.symm.trans hj'
    exact .inl ⟨_, .execute message, Function.update_self ..⟩
  | send j =>
    cases ht
    obtain ⟨conn', hj', rfl⟩ := step_send hs
    cases hj.symm.trans hj'
    exact .inl ⟨_, .send, Function.update_self ..⟩
  | rearm j ok =>
    cases ht
    obtain ⟨conn', hj', ⟨rfl, kernel, -, rfl⟩ | ⟨rfl, rfl⟩⟩ := step_rearm hs
    · cases hj.symm.trans hj'
      exact .inr ⟨.inl ⟨rfl, rfl⟩, Function.update_self ..⟩
    · cases hj.symm.trans hj'
      exact .inl ⟨_, .rearm, Function.update_self ..⟩
  | jobClose j =>
    cases ht
    obtain ⟨conn', stage, hj', rfl⟩ := step_jobClose hs
    cases hj.symm.trans hj'
    cases hn : ((s.logAccess conn).closeConnection conn.socket.num stage).2 with
    | none => exact .inr ⟨.inr ⟨rfl, stage, rfl⟩, Function.update_self ..⟩
    | some next => exact .inl ⟨_, .jobClose (closeConnection_next_stage hn), Function.update_self ..⟩
  | _ => cases ht

end Server

end KvDatabase
