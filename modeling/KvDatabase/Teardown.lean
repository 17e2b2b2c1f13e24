/-
The end of the server: what the main thread does from `stop` on, to the
destruction of the members, beside the jobs, the sweep and the two threads it
waits for.

Members are destroyed in reverse order of their declaration, and the pool is
declared before what its jobs use. So its destructor, which runs the queue
empty, comes after eventLoop, connections and userSessionManager are gone, and
a job left over by then uses them (`uses_after_destruction`,
`doomed_of_left_over`). If each is destroyed when no job has a use of it
ahead, nothing does (`uses_alive`). The sweep never does: there is no session
left when what its callback uses goes.
-/
import Mathlib.Data.List.Infix
import KvDatabase.Steps

namespace KvDatabase

/-- The members of `Server` with a destructor. -/
inductive Member
  | hashMap
  | pers
  | tpool
  | ss
  | rt
  | userSessionManager
  | userSessionBackgroundWorker
  | connections
  | eventLoop
  | eventLoopThread
  | expiredMutex
  | expiredSockets
deriving DecidableEq, Repr

/-- In the order of their declaration. -/
def members : List Member :=
  [.hashMap, .pers, .tpool, .ss, .rt, .userSessionManager, .userSessionBackgroundWorker, .connections, .eventLoop,
    .eventLoopThread, .expiredMutex, .expiredSockets]

/-- What the main thread does, one after the other. -/
inductive MainOp
  | clearRunning
  /-- The end of `stop`'s loop, which calls `CloseSocket` on the registered
  sockets. -/
  | closeSockets
  | clearConnections
  | closeAllSessions
  /-- `CloseSocket` on the listening one. -/
  | closeServerSocket
  | joinEventLoop
  /-- `serverThread.join()`. -/
  | joinAcceptor
  | destroy (m : Member)
deriving DecidableEq, Repr

/-- `Server::stop`. -/
def stop : List MainOp :=
  [.clearRunning, .closeSockets, .clearConnections, .closeAllSessions, .closeServerSocket, .joinEventLoop]

/-- `main` stops the server and joins the accept thread; the destructor stops
it again, and its members go, last declared first. -/
def shutdown : List MainOp := stop ++ .joinAcceptor :: stop ++ members.reverse.map .destroy

structure Teardown where
  server : Server
  running : Bool
  acceptorReturned : Bool
  loopReturned : Bool
  sweeperReturned : Bool
  /-- The jobs the pool was given. -/
  dispatched : List JobId
  /-- What the main thread has still to do. -/
  todo : List MainOp
  /-- The sockets that `stop`'s loop has come to. -/
  visited : List SocketType
  /-- Every use of a member by a job or the sweep, and whether the member was
  destroyed by then. -/
  uses : List (Member × Bool)

inductive TeardownStep
  | server (l : ServerStep)
  | main
  /-- The turn of `stop`'s loop that comes to this socket, when the other
  threads go on before the next. -/
  | closeSocket (x : SocketType)
  | acceptorReturn
  | loopReturn
  | sweeperReturn

namespace Server

/-- What a stage of `closeConnection` uses. -/
def stageUses (s : Server) (sock : SocketType) : CloseStage → List Member
  | .unwatch => [.eventLoop]
  | .dropSession => .connections :: if (s.connections sock).isSome then [.userSessionManager] else []
  | .erase => [.connections]
  | .close => []

/-- The members that a step of a job or of the sweep uses. -/
def usesOf (s : Server) : ServerStep → List Member
  | .execute _ => [.userSessionManager]
  | .rearm _ _ => [.eventLoop]
  | .jobClose i =>
    match s.jobs i with
    | some ⟨conn, .closing stage⟩ => s.stageUses conn.socket.num stage
    | _ => []
  | .sweep key =>
    .userSessionManager :: if (s.users.expire key s.now).2.isSome then [.expiredMutex, .expiredSockets] else []
  | _ => []

end Server

/-- What a job there may still use. -/
def JobPc.ahead : JobPc → List Member
  | .queued | .receiving | .executing _ | .replying | .rearming | .closing .unwatch =>
    [.eventLoop, .connections, .userSessionManager]
  | .closing .dropSession => [.connections, .userSessionManager]
  | .closing .erase => [.connections]
  | .closing .close => []

/-- How far a job is from its next use of `eventLoop`, at the most. -/
def JobPc.away : JobPc → Nat
  | .queued => 3
  | .receiving | .executing _ => 2
  | .replying => 1
  | .rearming | .closing _ => 0

/-- `CloseSocket` on each of these. -/
def Kernel.closeAll (k : Kernel) (these : SocketType → Bool) : Kernel where
  owner := fun x => if these x then none else k.owner x
  epoll := fun x => if these x then none else k.epoll x
  watched := by
    intro x hx
    split at hx
    · exact absurd rfl hx
    · next h =>
      rw [if_neg h]
      exact k.watched x hx

namespace Teardown

def start : Teardown where
  server := .start
  running := true
  acceptorReturned := false
  loopReturned := false
  sweeperReturned := false
  dispatched := []
  todo := shutdown
  visited := []
  uses := []

def destroyed (s : Teardown) (m : Member) : Bool := .destroy m ∉ s.todo

/-- The thread of the step is there to make it. A thread does not stop when
`running` is cleared, or its socket is closed: it goes on until it finds out. -/
def threadRuns (s : Teardown) (l : ServerStep) : Bool :=
  match l.thread with
  | .clock => true
  | .acceptor => !s.acceptorReturned
  | .sweeper => !s.sweeperReturned
  | .loop => !s.loopReturned
  | .job _ => !s.destroyed .tpool

/-- What the main thread waits for before the operation is done. -/
def ready (s : Teardown) : MainOp → Bool
  | .joinEventLoop => s.loopReturned
  | .joinAcceptor => s.acceptorReturned
  | .destroy .userSessionBackgroundWorker => s.sweeperReturned
  | .destroy .tpool => s.dispatched.all fun i => (s.server.jobs i).isNone
  | _ => true

def perform (s : Teardown) : MainOp → Teardown
  | .clearRunning => { s with running := false }
  | .closeSockets =>
    -- the turns that are left
    let these := fun x => (s.server.connections x).isSome && !s.visited.contains x
    { s with server := { s.server with kernel := s.server.kernel.closeAll these }, visited := [] }
  | .clearConnections => { s with server := { s.server with connections := fun _ => none } }
  | .closeAllSessions => { s with server := { s.server with users := fun _ => none } }
  | _ => s

def dispatchedAfter (s : Teardown) : ServerStep → List JobId
  | .dispatch i => s.dispatched ++ [i]
  | _ => s.dispatched

def step (s : Teardown) : TeardownStep → Option Teardown
  | .server l =>
    if s.threadRuns l then
      (s.server.step l).map fun server => { s with
        server
        dispatched := s.dispatchedAfter l
        uses := s.uses ++ (s.server.usesOf l).map fun m => (m, s.destroyed m) }
    else none
  | .main =>
    match s.todo with
    | op :: todo => if s.ready op then some { s.perform op with todo } else none
    | [] => none
  | .closeSocket x =>
    match s.todo, s.server.connections x with
    | .closeSockets :: _, some _ =>
      some { s with server := { s.server with kernel := s.server.kernel.close x }, visited := x :: s.visited }
    | _, _ => none
  | .acceptorReturn =>
    match s.server.acceptor with
    | .idle => some { s with acceptorReturned := true }
    | .accepted _ _ => if s.running then none else some { s with acceptorReturned := true }
    | _ => none
  | .loopReturn =>
    match s.server.loop with
    | .top => if s.running then none else some { s with loopReturned := true }
    | _ => none
  | .sweeperReturn =>
    match s.todo with
    | .destroy .userSessionBackgroundWorker :: _ => some { s with sweeperReturned := true }
    | _ => none

/-! ## The order of the end -/

theorem mem_members (m : Member) : m ∈ members := by cases m <;> decide

/-- What is behind the main thread, by where it is. -/
structure Passed (todo : List MainOp) : Prop where
  destroyed : ∀ m ∈ members, .destroy m ∉ todo → .joinEventLoop ∉ todo ∧ .closeAllSessions ∉ todo
  sessions : .closeAllSessions ∉ todo → .joinAcceptor ∉ todo
  manager : .destroy .userSessionManager ∉ todo → .destroy .userSessionBackgroundWorker ∉ todo
  handler : ∀ m ∈ [.connections, .userSessionManager], .destroy m ∉ todo →
    .destroy .eventLoop ∉ todo ∧ .destroy .connections ∉ todo

theorem passed {todo : List MainOp} (h : todo <:+ shutdown) : Passed todo := by
  rw [← List.mem_tails] at h
  exact
    { destroyed := (by decide : ∀ todo ∈ shutdown.tails, ∀ m ∈ members, .destroy m ∉ todo →
        .joinEventLoop ∉ todo ∧ .closeAllSessions ∉ todo) todo h
      sessions := (by decide : ∀ todo ∈ shutdown.tails, .closeAllSessions ∉ todo → .joinAcceptor ∉ todo) todo h
      manager := (by decide : ∀ todo ∈ shutdown.tails, .destroy .userSessionManager ∉ todo →
        .destroy .userSessionBackgroundWorker ∉ todo) todo h
      handler := (by decide : ∀ todo ∈ shutdown.tails, ∀ m ∈ [.connections, .userSessionManager], .destroy m ∉ todo →
        .destroy .eventLoop ∉ todo ∧ .destroy .connections ∉ todo) todo h }

variable {s s' : Teardown}

theorem destroyed_iff {m : Member} : s.destroyed m = true ↔ .destroy m ∉ s.todo := by simp [destroyed]

/-! ## What each step does -/

theorem step_server {l : ServerStep} (hs : s.step (.server l) = some s') :
    s.threadRuns l = true ∧ ∃ server, s.server.step l = some server ∧ s' = { s with
      server
      dispatched := s.dispatchedAfter l
      uses := s.uses ++ (s.server.usesOf l).map fun m => (m, s.destroyed m) } := by
  simp only [step, Option.ite_none_right_eq_some] at hs
  obtain ⟨hr, hs⟩ := hs
  obtain ⟨server, hserver, rfl⟩ := Option.map_eq_some_iff.mp hs
  exact ⟨hr, server, hserver, rfl⟩

theorem step_main (hs : s.step .main = some s') :
    ∃ op todo, s.todo = op :: todo ∧ s.ready op = true ∧ s' = { s.perform op with todo } := by
  simp only [step] at hs
  split at hs
  · next op todo ht =>
    simp only [Option.ite_none_right_eq_some, Option.some.injEq] at hs
    exact ⟨op, todo, ht, hs.1, hs.2.symm⟩
  · cases hs

theorem step_closeSocket {x : SocketType} (hs : s.step (.closeSocket x) = some s') :
    s' = { s with server := { s.server with kernel := s.server.kernel.close x }, visited := x :: s.visited } := by
  simp only [step] at hs
  split at hs
  · cases hs; rfl
  · cases hs

theorem step_acceptorReturn (hs : s.step .acceptorReturn = some s') : s' = { s with acceptorReturned := true } := by
  simp only [step] at hs
  split at hs
  · cases hs; rfl
  · exact (Option.some.inj (Option.ite_none_left_eq_some.mp hs).2).symm
  · cases hs

theorem step_loopReturn (hs : s.step .loopReturn = some s') : s' = { s with loopReturned := true } := by
  simp only [step] at hs
  split at hs
  · exact (Option.some.inj (Option.ite_none_left_eq_some.mp hs).2).symm
  · cases hs

theorem step_sweeperReturn (hs : s.step .sweeperReturn = some s') : s' = { s with sweeperReturned := true } := by
  simp only [step] at hs
  split at hs
  · cases hs; rfl
  · cases hs

/-- What an operation of the main thread leaves alone, and what it clears. -/
theorem perform_frame (s : Teardown) (op : MainOp) :
    (s.perform op).server.jobs = s.server.jobs ∧ (s.perform op).uses = s.uses ∧
      (s.perform op).loopReturned = s.loopReturned ∧ (s.perform op).acceptorReturned = s.acceptorReturned ∧
      (s.perform op).sweeperReturned = s.sweeperReturned ∧
      (s.perform op).server.users = if op = .closeAllSessions then fun _ => none else s.server.users := by
  cases op <;> exact ⟨rfl, rfl, rfl, rfl, rfl, rfl⟩

/-! ## Uses to come -/

theorem ahead_of_next {stage stage' : CloseStage} (h : stage.Next stage') :
    (JobPc.closing stage').ahead ⊆ (JobPc.closing stage).ahead := by
  cases h <;> simp [JobPc.ahead]

/-- A job has no more ahead of it than before its step. -/
theorem ahead_of_moves {i : JobId} {l : ServerStep} {pc pc' : JobPc} (h : l.Moves i pc pc') : pc'.ahead ⊆ pc.ahead := by
  cases h with
  | run | execute _ | send | rearm => exact List.Subset.refl _
  | recv commandBuffer r =>
    have hall : (receive commandBuffer r).2.next.ahead = JobPc.receiving.ahead := by
      cases (receive commandBuffer r).2 <;> rfl
    exact hall ▸ List.Subset.refl _
  | jobClose h => exact ahead_of_next h

/-- What a stage uses was ahead. -/
theorem stageUses_subset (server : Server) (sock : SocketType) (stage : CloseStage) :
    server.stageUses sock stage ⊆ (JobPc.closing stage).ahead := by
  cases stage with
  | dropSession =>
    simp only [Server.stageUses, JobPc.ahead]
    split <;> simp
  | unwatch | erase | close => simp [Server.stageUses, JobPc.ahead]

/-- A use is made by a job that had it ahead, or by the sweep. -/
theorem mem_usesOf {server server' : Server} {l : ServerStep} {m : Member} (hs : server.step l = some server')
    (hm : m ∈ server.usesOf l) : (∃ i job, server.jobs i = some job ∧ m ∈ job.pc.ahead) ∨
      ∃ key, l = .sweep key ∧ (m = .userSessionManager ∨ ∃ session, server.users key = some session) := by
  cases l with
  | execute i =>
    obtain ⟨conn, message, hj, -⟩ := Server.step_execute hs
    rw [Server.usesOf, List.mem_singleton] at hm
    exact .inl ⟨i, _, hj, by simp [hm, JobPc.ahead]⟩
  | rearm i ok =>
    obtain ⟨conn, hj, -⟩ := Server.step_rearm hs
    rw [Server.usesOf, List.mem_singleton] at hm
    exact .inl ⟨i, _, hj, by simp [hm, JobPc.ahead]⟩
  | jobClose i =>
    obtain ⟨conn, stage, hj, -⟩ := Server.step_jobClose hs
    simp only [Server.usesOf, hj] at hm
    exact .inl ⟨i, _, hj, stageUses_subset _ _ _ hm⟩
  | sweep key =>
    refine .inr ⟨key, rfl, ?_⟩
    rw [Server.usesOf, List.mem_cons] at hm
    rcases hm with rfl | hm
    · exact .inl rfl
    · refine .inr ?_
      rcases server.users.expire_cases key server.now with he | ⟨session, hu, -, -⟩
      · simp [he] at hm
      · exact ⟨session, hu⟩
  | _ => cases hm

/-! ## Nothing is used after its destruction -/

/-- The main thread destroys a member when no job, queued or running, may use
it any more. -/
def Quiet (s : Teardown) : TeardownStep → Prop
  | .main => ∀ m todo, s.todo = .destroy m :: todo → ∀ i job, s.server.jobs i = some job → m ∉ job.pc.ahead
  | _ => True

/-- What has been waited for has returned, and what is destroyed will not be
used. -/
structure Orderly (s : Teardown) : Prop where
  todo : s.todo <:+ shutdown
  loop : .joinEventLoop ∉ s.todo → s.loopReturned = true
  acceptor : .joinAcceptor ∉ s.todo → s.acceptorReturned = true
  sweeper : .destroy .userSessionBackgroundWorker ∉ s.todo → s.sweeperReturned = true
  sessions : .closeAllSessions ∉ s.todo → ∀ key, s.server.users key = none
  jobs : ∀ m, .destroy m ∉ s.todo → ∀ i job, s.server.jobs i = some job → m ∉ job.pc.ahead
  uses : ∀ u ∈ s.uses, u.2 = false

theorem Orderly.start : Orderly start where
  todo := List.suffix_rfl
  loop h := absurd (by decide) h
  acceptor h := absurd (by decide) h
  sweeper h := absurd (by decide) h
  sessions _ _ := rfl
  jobs _ _ _ _ hj := by cases hj
  uses _ hu := by cases hu

/-- The accept thread is needed for a new session, and has been joined before
the sessions are closed for good. -/
theorem Orderly.sessions_step {l : ServerStep} {server : Server} (h : Orderly s) (hr : s.threadRuns l = true)
    (hs : s.server.step l = some server) (hc : .closeAllSessions ∉ s.todo) (key : SessionKey) :
    server.users key = none := by
  by_contra hne
  obtain ⟨session, hu⟩ := Option.ne_none_iff_exists'.mp hne
  rcases (Server.step_effect hs).sessions key session hu with ⟨before, hb⟩ | rfl
  · rw [h.sessions hc key] at hb
    cases hb
  · have hreturned := h.acceptor ((passed h.todo).sessions hc)
    simp [threadRuns, ServerStep.thread, hreturned] at hr

/-- The loop is needed for a new job, and has been joined before any member is
destroyed. -/
theorem Orderly.jobs_step {l : ServerStep} {server : Server} (h : Orderly s) (hr : s.threadRuns l = true)
    (hs : s.server.step l = some server) {m : Member} (hm : .destroy m ∉ s.todo) {i : JobId} {job : Job}
    (hj : server.jobs i = some job) : m ∉ job.pc.ahead := by
  rcases (Server.step_effect hs).jobs i job hj with hj | ⟨pc, hj, hmoves⟩ | ⟨rfl, -, -⟩
  · exact h.jobs m hm i job hj
  · exact fun ha => h.jobs m hm i _ hj (ahead_of_moves hmoves ha)
  · have hreturned := h.loop ((passed h.todo).destroyed m (mem_members m) hm).1
    simp [threadRuns, ServerStep.thread, hreturned] at hr

/-- A use that a step makes is of a member that is there. -/
theorem Orderly.uses_step {l : ServerStep} {server : Server} (h : Orderly s) (hr : s.threadRuns l = true)
    (hs : s.server.step l = some server) {m : Member} (hm : m ∈ s.server.usesOf l) : s.destroyed m = false := by
  rw [← Bool.not_eq_true, destroyed_iff]
  intro hd
  rcases mem_usesOf hs hm with ⟨i, job, hj, ha⟩ | ⟨key, rfl, rfl | ⟨session, hu⟩⟩
  · exact h.jobs m hd i job hj ha
  · have hreturned := h.sweeper ((passed h.todo).manager hd)
    simp [threadRuns, ServerStep.thread, hreturned] at hr
  · rw [h.sessions ((passed h.todo).destroyed m (mem_members m) hd).2 key] at hu
    cases hu

theorem Orderly.server_step {l : ServerStep} (h : Orderly s) (hs : s.step (.server l) = some s') : Orderly s' := by
  obtain ⟨hr, server, hserver, rfl⟩ := step_server hs
  exact
    { h with
      sessions := fun hc key => h.sessions_step hr hserver hc key
      jobs := fun m hm i job hj => h.jobs_step hr hserver hm hj
      uses := by
        intro u hu
        rcases List.mem_append.mp hu with hu | hu
        · exact h.uses u hu
        · obtain ⟨m, hm, rfl⟩ := List.mem_map.mp hu
          exact h.uses_step hr hserver hm }

theorem Orderly.main_step (h : Orderly s) (hq : s.Quiet .main) (hs : s.step .main = some s') : Orderly s' := by
  obtain ⟨op, todo, ht, hready, rfl⟩ := step_main hs
  obtain ⟨hjobs, huses, hloop, hacceptor, hsweeper, husers⟩ := s.perform_frame op
  -- what is not to do any more was done before, or is done now
  have hdone : ∀ {op'}, op' ∉ todo → op' = op ∨ op' ∉ s.todo := fun hn => by
    rw [ht, List.mem_cons, not_or]
    exact (em _).imp_right fun hne => ⟨hne, hn⟩
  refine ⟨?_, fun hn => ?_, fun hn => ?_, fun hn => ?_, fun hn key => ?_, fun m hn i job hj => ?_, ?_⟩
  · exact (List.suffix_cons op todo).trans (ht ▸ h.todo)
  · rw [hloop]
    rcases hdone hn with rfl | hn
    · exact hready
    · exact h.loop hn
  · rw [hacceptor]
    rcases hdone hn with rfl | hn
    · exact hready
    · exact h.acceptor hn
  · rw [hsweeper]
    rcases hdone hn with rfl | hn
    · exact hready
    · exact h.sweeper hn
  · simp only [husers]
    split
    · rfl
    · next hne => exact h.sessions ((hdone hn).resolve_left fun he => hne he.symm) key
  · simp only [hjobs] at hj
    rcases hdone hn with rfl | hn
    · exact hq m todo ht i job hj
    · exact h.jobs m hn i job hj
  · simp only [huses]
    exact h.uses

theorem Orderly.step {l : TeardownStep} (h : Orderly s) (hq : s.Quiet l) (hs : s.step l = some s') : Orderly s' := by
  cases l with
  | server l => exact h.server_step hs
  | main => exact h.main_step hq hs
  | closeSocket x => obtain rfl := step_closeSocket hs; exact { h with }
  | acceptorReturn => obtain rfl := step_acceptorReturn hs; exact { h with acceptor := fun _ => rfl }
  | loopReturn => obtain rfl := step_loopReturn hs; exact { h with loop := fun _ => rfl }
  | sweeperReturn => obtain rfl := step_sweeperReturn hs; exact { h with sweeper := fun _ => rfl }

/-- **Nothing is used after its destruction**, by any job or by the sweep, in
any run in which each member goes when no job has a use of it ahead. -/
theorem uses_alive (h : Runs.Reach step Quiet start s) : ∀ u ∈ s.uses, u.2 = false :=
  (h.invariant Orderly .start fun _ _ _ hi hq hs => hi.step hq hs).uses

/-- A job is there because it was dispatched. -/
theorem undispatched_step {l : TeardownStep} {i : JobId} (hn : s.server.jobs i = none) (hd : l ≠ .server (.dispatch i))
    (hs : s.step l = some s') : s'.server.jobs i = none := by
  cases l with
  | server l =>
    obtain ⟨-, server, hserver, rfl⟩ := step_server hs
    by_contra hne
    obtain ⟨job, hj⟩ := Option.ne_none_iff_exists'.mp hne
    rcases (Server.step_effect hserver).jobs i job hj with hj | ⟨pc, hj, -⟩ | ⟨rfl, -, -⟩
    · rw [hn] at hj; cases hj
    · rw [hn] at hj; cases hj
    · exact hd rfl
  | main =>
    obtain ⟨op, todo, -, -, rfl⟩ := step_main hs
    simp only [(s.perform_frame op).1, hn]
  | closeSocket x => obtain rfl := step_closeSocket hs; exact hn
  | acceptorReturn => obtain rfl := step_acceptorReturn hs; exact hn
  | loopReturn => obtain rfl := step_loopReturn hs; exact hn
  | sweeperReturn => obtain rfl := step_sweeperReturn hs; exact hn

/-- When the jobs are done and no more are dispatched, every member may go. -/
theorem reach_drained {ls : List TeardownStep} (h : Runs.Reach step Quiet start s) (hn : ∀ i, s.server.jobs i = none)
    (hd : ∀ l ∈ ls, ∀ i, l ≠ .server (.dispatch i)) (hs : Runs.exec step s ls = some s') :
    Runs.Reach step Quiet start s' := by
  induction ls generalizing s with
  | nil => cases hs; exact h
  | cons l ls ih =>
    obtain ⟨s₁, h₁, h₂⟩ := Runs.exec_cons_some.mp hs
    have hquiet : s.Quiet l := by
      cases l with
      | main => exact fun m todo _ i job hj => by rw [hn i] at hj; cases hj
      | _ => trivial
    exact ih (h.next hquiet h₁) (fun i => undispatched_step (hn i) (hd l List.mem_cons_self i) h₁)
      (fun l' hl' => hd l' (List.mem_cons_of_mem _ hl')) h₂

/-- A client comes, and its command is dispatched. -/
def oneJob : List TeardownStep :=
  [.server (.accept 5 ⟨1, 1⟩), .server .addSession, .server .register, .server (.watch true), .server .swapExpired,
    .server .drainDone, .server (.wait [(5, .readable)]), .server (.dispatch 0), .server .eventsDone]

/-- The job handles it, and cannot arm the socket again. -/
def handled : List TeardownStep :=
  [.server (.run 0), .server (.recv 0 (.data ⟨ascii "GET c\n", by decide, by decide⟩)), .server (.execute 0),
    .server (.send 0), .server (.rearm 0 false), .server (.jobClose 0), .server (.jobClose 0), .server (.jobClose 0),
    .server (.jobClose 0)]

/-- Stopped twice, the two threads joined, and the four members that were
declared last destroyed. -/
def stopped : List TeardownStep :=
  List.replicate 5 .main ++ [.loopReturn, .main, .acceptorReturn, .main] ++ List.replicate 6 .main ++
    List.replicate 4 .main

/-- Shut down when the job is done, with a sweep while the members go. -/
theorem uses_alive_example : ∃ s, Runs.Reach step Quiet start s ∧ s.todo = [] ∧ s.uses.length = 7 ∧
    ∀ u ∈ s.uses, u.2 = false := by
  obtain ⟨s₁, h₁⟩ : ∃ s, Runs.exec step start (oneJob ++ handled) = some s := ⟨_, rfl⟩
  have hnone : ∀ i, s₁.server.jobs i = none := by
    intro i
    by_cases hi : i = 0
    · cases h₁; subst hi; rfl
    · refine Runs.exec_induction h₁ (fun ls s => (∀ l ∈ ls, l ≠ .server (.dispatch i)) → s.server.jobs i = none)
        (fun _ => rfl) (fun ls s l s' ih hs hd => ?_) (by simp [oneJob, handled, Ne.symm hi])
      exact undispatched_step (ih fun l' hl' => hd l' (List.mem_append_left _ hl')) (hd l (by simp)) hs
  have hreach : Runs.Reach step Quiet start s₁ := Runs.Reach.start.exec _ h₁ fun l hl s => by
    cases l with
    | main => simp [oneJob, handled] at hl
    | _ => trivial
  let rest : List TeardownStep := stopped ++ [.main, .server (.sweep ⟨1, 1⟩), .sweeperReturn] ++ List.replicate 7 .main
  obtain ⟨s₂, h₂, htodo, huses⟩ :
      ∃ s, Runs.exec step start (oneJob ++ handled ++ rest) = some s ∧ s.todo = [] ∧ s.uses.length = 7 :=
    ⟨_, rfl, rfl, rfl⟩
  obtain ⟨s, hs, h₂⟩ := Runs.exec_append.mp h₂
  cases h₁.symm.trans hs
  have hreach' := reach_drained hreach hnone (by simp [rest, stopped]) h₂
  exact ⟨s₂, hreach', htodo, huses, uses_alive hreach'⟩

/-- Shut down before a worker has taken the job. -/
theorem uses_after_destruction :
    ¬ ∀ s, Runs.Reach step (fun _ _ => True) start s → ∀ u ∈ s.uses, u.2 = false := by
  intro hall
  obtain ⟨s, hs, hu⟩ : ∃ s, Runs.exec step start (oneJob ++ stopped ++
      [.server (.run 0), .server (.recv 0 .error), .server (.jobClose 0)]) = some s ∧ (.eventLoop, true) ∈ s.uses :=
    ⟨_, rfl, by decide⟩
  cases hall s (Runs.Reach.start.exec _ hs fun _ _ _ => trivial) _ hu

/-! ## A job left over -/

/-- A use after destruction is still to come, or was. -/
def Doomed (s : Teardown) : Prop := ∃ ls s' m, Runs.exec step s ls = some s' ∧ (m, true) ∈ s'.uses

theorem Doomed.of_step {l : TeardownStep} (hs : s.step l = some s') : Doomed s' → Doomed s
  | ⟨ls, s'', m, h, hm⟩ => ⟨l :: ls, s'', m, Runs.exec_cons_some.mpr ⟨s', hs, h⟩, hm⟩

/-- While the pool is there, a job's step can be taken. -/
theorem step_job {l : ServerStep} {i : JobId} {server : Server} (hp : s.destroyed .tpool = false) (hl : l.thread = .job i)
    (hs : s.server.step l = some server) : ∃ s', s.step (.server l) = some s' ∧ s'.server = server ∧ s'.todo = s.todo ∧
      ∀ m ∈ s.server.usesOf l, (m, s.destroyed m) ∈ s'.uses := by
  have hr : s.threadRuns l = true := by simp [threadRuns, hl, hp]
  have hs' : s.step (.server l) = some { s with
      server
      dispatched := s.dispatchedAfter l
      uses := s.uses ++ (s.server.usesOf l).map fun m => (m, s.destroyed m) } := by
    simp only [step, hr, hs, if_true, Option.map_some]
  exact ⟨_, hs', rfl, rfl, fun m hm => List.mem_append_right _ (List.mem_map_of_mem hm)⟩

theorem doomed_of_use {l : ServerStep} {i : JobId} {server : Server} {m : Member} (hp : s.destroyed .tpool = false)
    (hl : l.thread = .job i) (hs : s.server.step l = some server) (hm : m ∈ s.server.usesOf l)
    (hd : s.destroyed m = true) : Doomed s := by
  obtain ⟨s', hs', -, -, huses⟩ := step_job hp hl hs
  exact ⟨[.server l], s', m, by simp [hs'], hd ▸ huses m hm⟩

/-- A job that may use `eventLoop` can do it, or come nearer. -/
theorem nearer {server : Server} {i : JobId} {conn : Connection} {pc : JobPc} (hj : server.jobs i = some ⟨conn, pc⟩)
    (ha : .eventLoop ∈ pc.ahead) : ∃ l server', l.thread = .job i ∧ server.step l = some server' ∧
      (.eventLoop ∈ server.usesOf l ∨
        ∃ pc', server'.jobs i = some ⟨conn, pc'⟩ ∧ .eventLoop ∈ pc'.ahead ∧ pc'.away < pc.away) := by
  have hset : ∀ (server : Server) (pc' : JobPc), (server.setJob i (some ⟨conn, pc'⟩)).jobs i = some ⟨conn, pc'⟩ :=
    fun _ _ => Function.update_self ..
  cases pc with
  | queued => exact ⟨.run i, _, rfl, by simp only [Server.step, hj]; rfl, .inr ⟨.receiving, hset .., ha, by decide⟩⟩
  | receiving =>
    have hs : server.step (.recv i .error) = some ({ server.logAccess conn with
        commandBuffer := Function.update server.commandBuffer conn.socket.client
          (server.commandBuffer conn.socket.client) }.setJob i (some ⟨conn, .closing .unwatch⟩)) := by
      simp only [Server.step, hj]
      rfl
    exact ⟨.recv i .error, _, rfl, hs, .inr ⟨.closing .unwatch, hset .., ha, by decide⟩⟩
  | executing message =>
    exact ⟨.execute i, _, rfl, by simp only [Server.step, hj]; rfl, .inr ⟨.replying, hset .., ha, by simp [JobPc.away]⟩⟩
  | replying => exact ⟨.send i, _, rfl, by simp only [Server.step, hj]; rfl, .inr ⟨.rearming, hset .., ha, by decide⟩⟩
  | rearming => exact ⟨.rearm i false, _, rfl, by simp only [Server.step, hj]; rfl, .inl (by simp [Server.usesOf])⟩
  | closing stage =>
    cases stage with
    | unwatch =>
      exact ⟨.jobClose i, _, rfl, by simp only [Server.step, hj]; rfl, .inl (by simp [Server.usesOf, hj, Server.stageUses])⟩
    | dropSession | erase | close => simp [JobPc.ahead] at ha

theorem doomed_of_eventLoop {i : JobId} {conn : Connection} {pc : JobPc} (hp : s.destroyed .tpool = false)
    (hd : s.destroyed .eventLoop = true) (hj : s.server.jobs i = some ⟨conn, pc⟩) (ha : .eventLoop ∈ pc.ahead) :
    Doomed s := by
  induction hn : pc.away using Nat.strong_induction_on generalizing s pc with
  | _ n ih =>
    obtain ⟨l, server, hl, hs, hu | ⟨pc', hj', ha', hlt⟩⟩ := nearer hj ha
    · exact doomed_of_use hp hl hs hu hd
    · obtain ⟨s', hs', rfl, htodo, -⟩ := step_job hp hl hs
      refine .of_step hs' (ih _ (hn ▸ hlt) ?_ ?_ hj' ha' rfl)
      · rwa [destroyed, htodo]
      · rwa [destroyed, htodo]

theorem todo_suffix {C : Teardown → TeardownStep → Prop} (h : Runs.Reach step C start s) : s.todo <:+ shutdown := by
  refine h.invariant (fun s => s.todo <:+ shutdown) List.suffix_rfl fun s l s' ht _ hs => ?_
  cases l with
  | server l => obtain ⟨-, server, -, rfl⟩ := step_server hs; exact ht
  | main =>
    obtain ⟨op, todo, he, -, rfl⟩ := step_main hs
    exact (List.suffix_cons op todo).trans (he ▸ ht)
  | closeSocket x => obtain rfl := step_closeSocket hs; exact ht
  | acceptorReturn => obtain rfl := step_acceptorReturn hs; exact ht
  | loopReturn => obtain rfl := step_loopReturn hs; exact ht
  | sweeperReturn => obtain rfl := step_sweeperReturn hs; exact ht

/-- Who has no use of `eventLoop` ahead is in `closeConnection`, past its
first stage. -/
theorem ahead_cases {pc : JobPc} {m : Member} (ha : m ∈ pc.ahead) : .eventLoop ∈ pc.ahead ∨
    ∃ stage, pc = .closing stage ∧ m ≠ .eventLoop ∧ ∀ (server : Server) sock, .connections ∈ server.stageUses sock stage := by
  cases pc with
  | closing stage =>
    cases stage with
    | unwatch => exact .inl (by simp [JobPc.ahead])
    | dropSession | erase =>
      refine .inr ⟨_, rfl, ?_, fun _ _ => by simp [Server.stageUses]⟩
      rintro rfl
      simp [JobPc.ahead] at ha
    | close => cases ha
  | _ => exact .inl (by simp [JobPc.ahead])

theorem mem_of_ahead {pc : JobPc} {m : Member} (ha : m ∈ pc.ahead) (hne : m ≠ .eventLoop) :
    m ∈ [Member.connections, .userSessionManager] := by
  cases pc with
  | closing stage => cases stage <;> simp_all [JobPc.ahead]
  | _ => simp_all [JobPc.ahead]

/-- **One job left over is one too many**: when a member is gone that a job
may still use, the run can go on to a use after destruction. -/
theorem doomed_of_left_over {C : Teardown → TeardownStep → Prop} (h : Runs.Reach step C start s)
    (hp : s.destroyed .tpool = false) {m : Member} (hd : s.destroyed m = true) {i : JobId} {job : Job}
    (hj : s.server.jobs i = some job) (ha : m ∈ job.pc.ahead) : Doomed s := by
  -- eventLoop is the first to go, and connections the second
  have hgone : m ≠ .eventLoop → s.destroyed .eventLoop = true ∧ s.destroyed .connections = true := fun hne => by
    rw [destroyed_iff, destroyed_iff]
    exact (passed (todo_suffix h)).handler m (mem_of_ahead ha hne) (destroyed_iff.mp hd)
  rcases ahead_cases ha with hloop | ⟨stage, hpc, hne, huse⟩
  · refine doomed_of_eventLoop hp ?_ hj hloop
    by_cases hm : m = .eventLoop
    · exact hm ▸ hd
    · exact (hgone hm).1
  · obtain ⟨conn, pc⟩ := job
    obtain rfl : pc = .closing stage := hpc
    refine doomed_of_use (l := .jobClose i) hp rfl (by simp only [Server.step, hj]; rfl) ?_ (hgone hne).2
    simpa only [Server.usesOf, hj] using huse s.server conn.socket.num

end Teardown

end KvDatabase
