/-
The server's connections, step by step: the accept thread, the event loop,
the handlers' jobs and the sweep of expired sessions, over what they share
(the kernel's descriptors and epoll set, `connections`, the sessions and
`expiredSockets`). Each lock's critical section, each system call and each
operation on `connections` is one step, with what its thread does for itself
around it, and steps interleave in any order. No lock makes the operations on
`connections` one step each: `Races` takes them apart, and says when they are
as good as that.

The code names a connection by its socket number alone, and the kernel gives
a closed socket's number to a later client. So the model also knows who is
at the other end: a `Handle` is a number and the client it was accepted for.
No step decides anything by the client of a handle (it tells one `Connection`
from another when a job goes to its buffer); it is there to say, of each use
of a number, whose number it was to be and whose it was (`Access`).
-/
import KvDatabase.Handler
import KvDatabase.UserSession
import KvDatabase.Lib.Runs

namespace KvDatabase

abbrev SocketType := Nat

/-- Clients, numbered as they are accepted. -/
abbrev ClientId := Nat

/-- A socket number, and the client it was accepted for. -/
structure Handle where
  num : SocketType
  client : ClientId
deriving DecidableEq, Repr

/-! ## The kernel's side -/

/-- A socket in the epoll set with `EPOLLIN | EPOLLONESHOT`: an event mutes
it until it is armed again. -/
inductive Interest
  | armed
  | muted
deriving DecidableEq, Repr

/-- Descriptors and the epoll set. Closing a descriptor takes it off the set,
so what is watched is open. -/
@[ext]
structure Kernel where
  /-- Who is at the other end of each open descriptor. -/
  owner : SocketType → Option ClientId
  epoll : SocketType → Option Interest
  watched : ∀ x, epoll x ≠ none → owner x ≠ none

namespace Kernel

def init : Kernel := ⟨fun _ => none, fun _ => none, fun _ h => absurd rfl h⟩

/-- `accept` returned this number. -/
def openFor (k : Kernel) (x : SocketType) (client : ClientId) : Kernel where
  owner := Function.update k.owner x (some client)
  epoll := k.epoll
  watched := by
    intro y hy
    by_cases hx : y = x
    · simp [hx]
    · rw [Function.update_of_ne hx]
      exact k.watched y hy

/-- `CloseSocket`; nothing happens to a number that is not open. -/
def close (k : Kernel) (x : SocketType) : Kernel where
  owner := Function.update k.owner x none
  epoll := Function.update k.epoll x none
  watched := by
    intro y hy
    by_cases hx : y = x
    · simp [hx] at hy
    · rw [Function.update_of_ne hx] at hy ⊢
      exact k.watched y hy

/-- `EPOLL_CTL_DEL`. -/
def unwatch (k : Kernel) (x : SocketType) : Kernel where
  owner := k.owner
  epoll := Function.update k.epoll x none
  watched := by
    intro y hy
    by_cases hx : y = x
    · simp [hx] at hy
    · rw [Function.update_of_ne hx] at hy
      exact k.watched y hy

/-- `EPOLL_CTL_ADD`, of an open descriptor that is not in the set. -/
def watch (k : Kernel) (x : SocketType) : Kernel :=
  if h : k.owner x ≠ none ∧ k.epoll x = none then
    { owner := k.owner
      epoll := Function.update k.epoll x (some .armed)
      watched := by
        intro y hy
        by_cases hx : y = x
        · exact hx ▸ h.1
        · rw [Function.update_of_ne hx] at hy
          exact k.watched y hy }
  else k

/-- `EPOLL_CTL_MOD`, of a descriptor in the set. -/
def rearm (k : Kernel) (x : SocketType) : Option Kernel :=
  if h : k.epoll x ≠ none then
    some
      { owner := k.owner
        epoll := Function.update k.epoll x (some .armed)
        watched := by
          intro y hy
          by_cases hx : y = x
          · exact hx ▸ k.watched x h
          · rw [Function.update_of_ne hx] at hy
            exact k.watched y hy }
  else none

/-- `epoll_wait` reports these: each is muted. -/
def report (k : Kernel) (xs : List SocketType) : Kernel where
  owner := k.owner
  epoll x := if x ∈ xs then (k.epoll x).map fun _ => .muted else k.epoll x
  watched := by
    intro y hy
    refine k.watched y fun hn => hy ?_
    simp [hn]

@[simp] theorem openFor_owner (k : Kernel) (x c) : (k.openFor x c).owner = Function.update k.owner x (some c) := rfl
@[simp] theorem openFor_epoll (k : Kernel) (x c) : (k.openFor x c).epoll = k.epoll := rfl
@[simp] theorem close_owner (k : Kernel) (x) : (k.close x).owner = Function.update k.owner x none := rfl
@[simp] theorem close_epoll (k : Kernel) (x) : (k.close x).epoll = Function.update k.epoll x none := rfl
@[simp] theorem unwatch_owner (k : Kernel) (x) : (k.unwatch x).owner = k.owner := rfl
@[simp] theorem unwatch_epoll (k : Kernel) (x) : (k.unwatch x).epoll = Function.update k.epoll x none := rfl
@[simp] theorem report_owner (k : Kernel) (xs) : (k.report xs).owner = k.owner := rfl
@[simp] theorem report_epoll (k : Kernel) (xs) (x : SocketType) :
    (k.report xs).epoll x = if x ∈ xs then (k.epoll x).map fun _ => .muted else k.epoll x := rfl

/-- `EPOLL_CTL_ADD` of an open descriptor that is not in the set. -/
theorem watch_eq {k : Kernel} {x : SocketType} (ho : k.owner x ≠ none) (he : k.epoll x = none) :
    (k.watch x).owner = k.owner ∧ (k.watch x).epoll = Function.update k.epoll x (some .armed) := by
  rw [watch, dif_pos ⟨ho, he⟩]
  exact ⟨rfl, rfl⟩

theorem watch_cases (k : Kernel) (x : SocketType) : k.watch x = k ∨ (k.owner x ≠ none ∧ k.epoll x = none ∧
    (k.watch x).owner = k.owner ∧ (k.watch x).epoll = Function.update k.epoll x (some .armed)) := by
  by_cases h : k.owner x ≠ none ∧ k.epoll x = none
  · exact .inr ⟨h.1, h.2, watch_eq h.1 h.2⟩
  · exact .inl (dif_neg h)

theorem rearm_eq_some {k k' : Kernel} {x : SocketType} (h : k.rearm x = some k') :
    k.epoll x ≠ none ∧ k'.owner = k.owner ∧ k'.epoll = Function.update k.epoll x (some .armed) := by
  by_cases hx : k.epoll x ≠ none
  · rw [rearm, dif_pos hx, Option.some.injEq] at h
    subst h
    exact ⟨hx, rfl, rfl⟩
  · rw [rearm, dif_neg hx] at h
    cases h

end Kernel

/-! ## The threads -/

structure Connection where
  socket : Handle
  sessionKey : SessionKey

inductive IOEvent
  | readable
  | writable
  | hangUp
  | error
deriving DecidableEq, Repr

/-- What `closeConnection` is about to do. -/
inductive CloseStage
  /-- `eventLoop->remove`. -/
  | unwatch
  /-- Look the connection up, and remove its session. -/
  | dropSession
  /-- `connections.erase`. -/
  | erase
  | close
deriving DecidableEq, Repr

/-- Where the accept thread is. -/
inductive AcceptPc
  | idle
  /-- `accept` has returned; the rate limit is checked. -/
  | accepted (h : Handle) (key : SessionKey)
  /-- `add_session` has returned; the socket is made non-blocking. -/
  | added (h : Handle) (key : SessionKey)
  /-- That failed, and the session is removed. -/
  | dropped (h : Handle)
  /-- The connection is in `connections`, and not watched yet. -/
  | registered (h : Handle) (key : SessionKey)

/-- The client in the accept thread's hands. -/
def AcceptPc.handle : AcceptPc → Option Handle
  | .idle => none
  | .accepted h _ | .added h _ | .dropped h | .registered h _ => some h

/-- Where the event loop is. -/
inductive LoopPc
  | top
  /-- The numbers swapped out of `expiredSockets` that are still to close. -/
  | draining (close : List Handle)
  | drainClosing (h : Handle) (stage : CloseStage) (close : List Handle)
  | waiting
  /-- The reported events that are still to handle. -/
  | dispatching (events : List (SocketType × IOEvent))
  | eventClosing (sock : SocketType) (stage : CloseStage) (events : List (SocketType × IOEvent))

/-- Where a `messageHandler` job is. -/
inductive JobPc
  | queued
  /-- About to `recv`. -/
  | receiving
  /-- A message is in: `update_activity`, then its command. -/
  | executing (message : Bytes)
  /-- About to `send`. -/
  | replying
  | rearming
  | closing (stage : CloseStage)

/-- A job, with the connection it was created for. -/
structure Job where
  conn : Connection
  pc : JobPc

abbrev JobId := Nat

/-- A use of a socket number: what handle it was taken from, and who had the
number then. -/
structure Access where
  handle : Handle
  owner : Option ClientId
deriving DecidableEq, Repr

/-- It reached nobody but the client of its handle. -/
def Access.Own (a : Access) : Prop := a.owner = none ∨ a.owner = some a.handle.client

@[ext]
structure Server where
  kernel : Kernel
  /-- How many were accepted. -/
  clients : Nat
  acceptor : AcceptPc
  loop : LoopPc
  /-- The jobs queued or running. -/
  jobs : JobId → Option Job
  connections : SocketType → Option Connection
  /-- The buffer in each client's `Connection`. -/
  commandBuffer : ClientId → Bytes
  users : UserSessionManager Handle
  expiredSockets : List Handle
  now : Time
  /-- Every use of a socket by a job. -/
  accesses : List Access
  /-- Every socket the sweep found expired. -/
  expired : List Handle
  /-- Every use of a socket by the drain of `expiredSockets`. -/
  drained : List Access

namespace Server

/-- Started, and nobody has connected. -/
def start : Server where
  kernel := .init
  clients := 0
  acceptor := .idle
  loop := .top
  jobs := fun _ => none
  connections := fun _ => none
  commandBuffer := fun _ => []
  users := fun _ => none
  expiredSockets := []
  now := 0
  accesses := []
  expired := []
  drained := []

/-- A stage of `closeConnection`, and the one after it. It erases by the
number, where the code has the iterator of its `find` (`RacyServer`). -/
def closeConnection (s : Server) (sock : SocketType) : CloseStage → Server × Option CloseStage
  | .unwatch => ({ s with kernel := s.kernel.unwatch sock }, some .dropSession)
  | .dropSession =>
    match s.connections sock with
    | some conn => ({ s with users := s.users.removeSession conn.sessionKey }, some .erase)
    | none => (s, some .close)
  | .erase => ({ s with connections := Function.update s.connections sock none }, some .close)
  | .close => ({ s with kernel := s.kernel.close sock }, none)

def access (s : Server) (h : Handle) : Access := ⟨h, s.kernel.owner h.num⟩

end Server

/-- What a `recv` leads to. -/
inductive Received
  | close
  | rearm
  | message (message : Bytes)

/-- The first half of `messageHandler`: the buffer after a `recv`, and what
comes of it. -/
def receive (commandBuffer : Bytes) : RecvResult → Bytes × Received
  | .hungUp => (commandBuffer, .close)
  | .wouldBlock => (commandBuffer, .rearm)
  | .error => (commandBuffer, .close)
  | .data chunk =>
    let commandBuffer := commandBuffer ++ chunk.bytes
    if commandBuffer.length > MAX_COMMAND_BUFFER_LENGTH then (commandBuffer, .close)
    else if newline ∉ commandBuffer then (commandBuffer, .rearm)
    else ([], .message commandBuffer)

/-- A whole run of the handler begins as `receive` does. -/
theorem messageHandler_eq_receive (st : Store) (commandBuffer : Bytes) (r : RecvResult) :
    messageHandler st commandBuffer r =
      let (commandBuffer, received) := receive commandBuffer r
      match received with
      | .close => ⟨st, commandBuffer, none, .close⟩
      | .rearm => ⟨st, commandBuffer, none, .rearm⟩
      | .message message =>
        let (st, response) := (parse message).execute st
        ⟨st, commandBuffer, some (message, response), .rearm⟩ := by
  cases r with
  | hungUp | wouldBlock | error => rfl
  | data chunk =>
    rw [messageHandler, receive]
    split
    · rfl
    · split <;> rfl

def Received.next : Received → JobPc
  | close => .closing .unwatch
  | rearm => .rearming
  | message m => .executing m

/-- A closed descriptor has nothing to read but an error. -/
def RecvResult.possible : RecvResult → Option ClientId → Bool
  | .error, _ => true
  | _, owner => owner.isSome

/-- A step of some thread. -/
inductive ServerStep
  | tick (now : Time)
  /-- `accept` returns this number, for a client at this address. -/
  | accept (num : SocketType) (key : SessionKey)
  /-- `CloseSocket` on a client that is refused. -/
  | refuse
  | addSession
  /-- `setNonBlocking` has failed: `remove_session`. -/
  | drop
  | register
  /-- `eventLoop->add`, which may fail. -/
  | watch (ok : Bool)
  /-- The sweep comes to this key. -/
  | sweep (key : SessionKey)
  | swapExpired
  | drainNext
  | drainDone
  /-- A stage of `closeConnection`, in the event loop. -/
  | loopClose
  /-- `eventLoop->wait` reports these. -/
  | wait (events : List (SocketType × IOEvent))
  | waitFailed
  /-- The next event is readable: a job, if there is a connection. -/
  | dispatch (i : JobId)
  /-- The next event is another. -/
  | hangUp
  | eventsDone
  /-- A worker takes the job. -/
  | run (i : JobId)
  | recv (i : JobId) (r : RecvResult)
  /-- `update_activity`, and the command. -/
  | execute (i : JobId)
  | send (i : JobId)
  /-- `eventLoop->rearm`, which may fail. -/
  | rearm (i : JobId) (ok : Bool)
  /-- A stage of `closeConnection`, in a job. -/
  | jobClose (i : JobId)

namespace Server

/-- The job goes on at `pc`. -/
def setJob (s : Server) (i : JobId) (job : Option Job) : Server := { s with jobs := Function.update s.jobs i job }

/-- A use of its socket by a job. -/
def logAccess (s : Server) (conn : Connection) : Server :=
  { s with accesses := s.accesses ++ [s.access conn.socket] }

/-- A use of a queued number by the drain. -/
def logDrain (s : Server) (h : Handle) : Server := { s with drained := s.drained ++ [s.access h] }

def step (s : Server) : ServerStep → Option Server
  | .tick now => if s.now ≤ now then some { s with now } else none
  | .accept num key =>
    match s.acceptor, s.kernel.owner num with
    | .idle, none =>
      some { s with
        kernel := s.kernel.openFor num s.clients
        clients := s.clients + 1
        acceptor := .accepted ⟨num, s.clients⟩ key }
    | _, _ => none
  | .refuse =>
    match s.acceptor with
    | .accepted h _ | .dropped h => some { s with kernel := s.kernel.close h.num, acceptor := .idle }
    | _ => none
  | .addSession =>
    match s.acceptor with
    | .accepted h key => some { s with users := s.users.addSession h key s.now, acceptor := .added h key }
    | _ => none
  | .drop =>
    match s.acceptor with
    | .added h key => some { s with users := s.users.removeSession key, acceptor := .dropped h }
    | _ => none
  | .register =>
    match s.acceptor with
    | .added h key =>
      some { s with
        connections := Function.update s.connections h.num (some ⟨h, key⟩)
        commandBuffer := Function.update s.commandBuffer h.client []
        acceptor := .registered h key }
    | _ => none
  | .watch ok =>
    match s.acceptor with
    | .registered h _ =>
      some { s with kernel := if ok then s.kernel.watch h.num else s.kernel, acceptor := .idle }
    | _ => none
  | .sweep key =>
    let (users, socket) := s.users.expire key s.now
    some { s with
      users
      expiredSockets := s.expiredSockets ++ socket.toList
      expired := s.expired ++ socket.toList }
  | .swapExpired =>
    match s.loop with
    | .top => some { s with loop := .draining s.expiredSockets, expiredSockets := [] }
    | _ => none
  | .drainNext =>
    match s.loop with
    | .draining (h :: close) => some { s with loop := .drainClosing h .unwatch close }
    | _ => none
  | .drainDone =>
    match s.loop with
    | .draining [] => some { s with loop := .waiting }
    | _ => none
  | .loopClose =>
    match s.loop with
    | .drainClosing h stage close =>
      let (s', next) := (s.logDrain h).closeConnection h.num stage
      some { s' with loop := next.elim (.draining close) (.drainClosing h · close) }
    | .eventClosing sock stage events =>
      let (s', next) := s.closeConnection sock stage
      some { s' with loop := next.elim (.dispatching events) (.eventClosing sock · events) }
    | _ => none
  | .wait events =>
    match s.loop with
    | .waiting =>
      if (events.map Prod.fst).Nodup ∧ ∀ x ∈ events.map Prod.fst, s.kernel.epoll x = some .armed then
        some { s with kernel := s.kernel.report (events.map Prod.fst), loop := .dispatching events }
      else none
    | _ => none
  | .waitFailed =>
    match s.loop with
    | .waiting => some { s with loop := .top }
    | _ => none
  | .dispatch i =>
    match s.loop, s.jobs i with
    | .dispatching ((sock, .readable) :: events), none =>
      let s := { s with loop := .dispatching events }
      match s.connections sock with
      | some conn => some (s.setJob i (some ⟨conn, .queued⟩))
      | none => some s
    | _, _ => none
  | .hangUp =>
    match s.loop with
    | .dispatching ((_, .readable) :: _) => none
    | .dispatching ((sock, _) :: events) => some { s with loop := .eventClosing sock .unwatch events }
    | _ => none
  | .eventsDone =>
    match s.loop with
    | .dispatching [] => some { s with loop := .top }
    | _ => none
  | .run i =>
    match s.jobs i with
    | some ⟨conn, .queued⟩ => some (s.setJob i (some ⟨conn, .receiving⟩))
    | _ => none
  | .recv i r =>
    match s.jobs i with
    | some ⟨conn, .receiving⟩ =>
      if r.possible (s.kernel.owner conn.socket.num) then
        let (commandBuffer, received) := receive (s.commandBuffer conn.socket.client) r
        let s := { s.logAccess conn with
          commandBuffer := Function.update s.commandBuffer conn.socket.client commandBuffer }
        some (s.setJob i (some ⟨conn, received.next⟩))
      else none
    | _ => none
  | .execute i =>
    match s.jobs i with
    | some ⟨conn, .executing _⟩ =>
      let s := { s with users := s.users.updateActivity conn.sessionKey s.now }
      some (s.setJob i (some ⟨conn, .replying⟩))
    | _ => none
  | .send i =>
    match s.jobs i with
    | some ⟨conn, .replying⟩ => some ((s.logAccess conn).setJob i (some ⟨conn, .rearming⟩))
    | _ => none
  | .rearm i ok =>
    match s.jobs i with
    | some ⟨conn, .rearming⟩ =>
      let s := s.logAccess conn
      if ok then
        match s.kernel.rearm conn.socket.num with
        | some kernel => some ({ s with kernel }.setJob i none)
        | none => none
      else some (s.setJob i (some ⟨conn, .closing .unwatch⟩))
    | _ => none
  | .jobClose i =>
    match s.jobs i with
    | some ⟨conn, .closing stage⟩ =>
      let (s', next) := (s.logAccess conn).closeConnection conn.socket.num stage
      some (s'.setJob i (next.map (⟨conn, .closing ·⟩)))
    | _ => none

/-! ## What each step does -/

variable {s s' : Server}

theorem step_tick {now} (hs : s.step (.tick now) = some s') : s.now ≤ now ∧ s' = { s with now } := by
  simp only [step, Option.ite_none_right_eq_some, Option.some.injEq] at hs
  exact ⟨hs.1, hs.2.symm⟩

theorem step_accept {num key} (hs : s.step (.accept num key) = some s') :
    s.acceptor = .idle ∧ s.kernel.owner num = none ∧
      s' = { s with
        kernel := s.kernel.openFor num s.clients
        clients := s.clients + 1
        acceptor := .accepted ⟨num, s.clients⟩ key } := by
  simp only [step] at hs
  split at hs
  · next hi ho => cases hs; exact ⟨hi, ho, rfl⟩
  · cases hs

theorem step_refuse (hs : s.step .refuse = some s') :
    ∃ h, s.acceptor.handle = some h ∧ s' = { s with kernel := s.kernel.close h.num, acceptor := .idle } := by
  simp only [step] at hs
  split at hs
  · next h key ha => cases hs; exact ⟨h, by rw [ha]; rfl, rfl⟩
  · next h ha => cases hs; exact ⟨h, by rw [ha]; rfl, rfl⟩
  · cases hs

theorem step_addSession (hs : s.step .addSession = some s') :
    ∃ h key, s.acceptor = .accepted h key ∧
      s' = { s with users := s.users.addSession h key s.now, acceptor := .added h key } := by
  simp only [step] at hs
  split at hs
  · next h key ha => cases hs; exact ⟨h, key, ha, rfl⟩
  · cases hs

theorem step_drop (hs : s.step .drop = some s') :
    ∃ h key, s.acceptor = .added h key ∧
      s' = { s with users := s.users.removeSession key, acceptor := .dropped h } := by
  simp only [step] at hs
  split at hs
  · next h key ha => cases hs; exact ⟨h, key, ha, rfl⟩
  · cases hs

theorem step_register (hs : s.step .register = some s') :
    ∃ h key, s.acceptor = .added h key ∧
      s' = { s with
        connections := Function.update s.connections h.num (some ⟨h, key⟩)
        commandBuffer := Function.update s.commandBuffer h.client []
        acceptor := .registered h key } := by
  simp only [step] at hs
  split at hs
  · next h key ha => cases hs; exact ⟨h, key, ha, rfl⟩
  · cases hs

theorem step_watch {ok} (hs : s.step (.watch ok) = some s') :
    ∃ h key, s.acceptor = .registered h key ∧
      s' = { s with kernel := if ok then s.kernel.watch h.num else s.kernel, acceptor := .idle } := by
  simp only [step] at hs
  split at hs
  · next h key ha => cases hs; exact ⟨h, key, ha, rfl⟩
  · cases hs

theorem step_sweep {key} (hs : s.step (.sweep key) = some s') :
    s' = s ∨ ∃ session, s.users key = some session ∧ session.isExpired s.now = true ∧
      s' = { s with
        users := s.users.removeSession key
        expiredSockets := s.expiredSockets ++ [session.userSocket]
        expired := s.expired ++ [session.userSocket] } := by
  simp only [step, Option.some.injEq] at hs
  rcases s.users.expire_cases key s.now with he | ⟨session, hu, hx, he⟩
  · refine .inl ?_
    rw [he] at hs
    simpa using hs.symm
  · refine .inr ⟨session, hu, hx, ?_⟩
    rw [he] at hs
    exact hs.symm

theorem step_swapExpired (hs : s.step .swapExpired = some s') :
    s.loop = .top ∧ s' = { s with loop := .draining s.expiredSockets, expiredSockets := [] } := by
  simp only [step] at hs
  split at hs
  · next hl => cases hs; exact ⟨hl, rfl⟩
  · cases hs

theorem step_drainNext (hs : s.step .drainNext = some s') :
    ∃ h close, s.loop = .draining (h :: close) ∧ s' = { s with loop := .drainClosing h .unwatch close } := by
  simp only [step] at hs
  split at hs
  · next h close hl => cases hs; exact ⟨h, close, hl, rfl⟩
  · cases hs

theorem step_drainDone (hs : s.step .drainDone = some s') :
    s.loop = .draining [] ∧ s' = { s with loop := .waiting } := by
  simp only [step] at hs
  split at hs
  · next hl => cases hs; exact ⟨hl, rfl⟩
  · cases hs

theorem step_loopClose (hs : s.step .loopClose = some s') :
    (∃ h stage close, s.loop = .drainClosing h stage close ∧
      s' = { ((s.logDrain h).closeConnection h.num stage).1 with
        loop := ((s.logDrain h).closeConnection h.num stage).2.elim (.draining close)
          (.drainClosing h · close) }) ∨
    ∃ sock stage events, s.loop = .eventClosing sock stage events ∧
      s' = { (s.closeConnection sock stage).1 with
        loop := (s.closeConnection sock stage).2.elim (.dispatching events) (.eventClosing sock · events) } := by
  simp only [step] at hs
  split at hs
  · next h stage close hl => cases hs; exact .inl ⟨h, stage, close, hl, rfl⟩
  · next sock stage events hl => cases hs; exact .inr ⟨sock, stage, events, hl, rfl⟩
  · cases hs

theorem step_wait {events} (hs : s.step (.wait events) = some s') :
    s.loop = .waiting ∧ (events.map Prod.fst).Nodup ∧
      (∀ x ∈ events.map Prod.fst, s.kernel.epoll x = some .armed) ∧
      s' = { s with kernel := s.kernel.report (events.map Prod.fst), loop := .dispatching events } := by
  simp only [step] at hs
  split at hs
  · next hl =>
    split at hs
    · next hc => cases hs; exact ⟨hl, hc.1, hc.2, rfl⟩
    · cases hs
  · cases hs

theorem step_waitFailed (hs : s.step .waitFailed = some s') : s.loop = .waiting ∧ s' = { s with loop := .top } := by
  simp only [step] at hs
  split at hs
  · next hl => cases hs; exact ⟨hl, rfl⟩
  · cases hs

theorem step_dispatch {i} (hs : s.step (.dispatch i) = some s') :
    ∃ sock events, s.loop = .dispatching ((sock, .readable) :: events) ∧ s.jobs i = none ∧
      ((s.connections sock = none ∧ s' = { s with loop := .dispatching events }) ∨
        ∃ conn, s.connections sock = some conn ∧
          s' = { s with loop := .dispatching events }.setJob i (some ⟨conn, .queued⟩)) := by
  simp only [step] at hs
  split at hs
  · next sock events hl hj =>
    refine ⟨sock, events, hl, hj, ?_⟩
    split at hs
    · next conn hc => cases hs; exact .inr ⟨conn, hc, rfl⟩
    · next hc => cases hs; exact .inl ⟨hc, rfl⟩
  · cases hs

theorem step_hangUp (hs : s.step .hangUp = some s') :
    ∃ sock event events, s.loop = .dispatching ((sock, event) :: events) ∧
      s' = { s with loop := .eventClosing sock .unwatch events } := by
  simp only [step] at hs
  split at hs
  · cases hs
  · next sock event events _ hl => cases hs; exact ⟨sock, event, events, hl, rfl⟩
  · cases hs

theorem step_eventsDone (hs : s.step .eventsDone = some s') :
    s.loop = .dispatching [] ∧ s' = { s with loop := .top } := by
  simp only [step] at hs
  split at hs
  · next hl => cases hs; exact ⟨hl, rfl⟩
  · cases hs

theorem step_run {i} (hs : s.step (.run i) = some s') :
    ∃ conn, s.jobs i = some ⟨conn, .queued⟩ ∧ s' = s.setJob i (some ⟨conn, .receiving⟩) := by
  simp only [step] at hs
  split at hs
  · next conn hj => cases hs; exact ⟨conn, hj, rfl⟩
  · cases hs

theorem step_recv {i r} (hs : s.step (.recv i r) = some s') :
    ∃ conn, s.jobs i = some ⟨conn, .receiving⟩ ∧ r.possible (s.kernel.owner conn.socket.num) = true ∧
      s' = { s.logAccess conn with
        commandBuffer := Function.update s.commandBuffer conn.socket.client
          (receive (s.commandBuffer conn.socket.client) r).1 }.setJob i
        (some ⟨conn, (receive (s.commandBuffer conn.socket.client) r).2.next⟩) := by
  simp only [step] at hs
  split at hs
  · next conn hj =>
    split at hs
    · next hp => cases hs; exact ⟨conn, hj, hp, rfl⟩
    · cases hs
  · cases hs

theorem step_execute {i} (hs : s.step (.execute i) = some s') :
    ∃ conn message, s.jobs i = some ⟨conn, .executing message⟩ ∧
      s' = { s with users := s.users.updateActivity conn.sessionKey s.now }.setJob i (some ⟨conn, .replying⟩) := by
  simp only [step] at hs
  split at hs
  · next conn message hj => cases hs; exact ⟨conn, message, hj, rfl⟩
  · cases hs

theorem step_send {i} (hs : s.step (.send i) = some s') :
    ∃ conn, s.jobs i = some ⟨conn, .replying⟩ ∧ s' = (s.logAccess conn).setJob i (some ⟨conn, .rearming⟩) := by
  simp only [step] at hs
  split at hs
  · next conn hj => cases hs; exact ⟨conn, hj, rfl⟩
  · cases hs

theorem step_rearm {i ok} (hs : s.step (.rearm i ok) = some s') :
    ∃ conn, s.jobs i = some ⟨conn, .rearming⟩ ∧
      ((ok = true ∧ ∃ kernel, s.kernel.rearm conn.socket.num = some kernel ∧
          s' = { s.logAccess conn with kernel }.setJob i none) ∨
        (ok = false ∧ s' = (s.logAccess conn).setJob i (some ⟨conn, .closing .unwatch⟩))) := by
  simp only [step] at hs
  split at hs
  · next conn hj =>
    refine ⟨conn, hj, ?_⟩
    cases ok with
    | true =>
      simp only [if_true] at hs
      split at hs
      · next kernel hk => cases hs; exact .inl ⟨rfl, kernel, hk, rfl⟩
      · cases hs
    | false => cases hs; exact .inr ⟨rfl, rfl⟩
  · cases hs

theorem step_jobClose {i} (hs : s.step (.jobClose i) = some s') :
    ∃ conn stage, s.jobs i = some ⟨conn, .closing stage⟩ ∧
      s' = ((s.logAccess conn).closeConnection conn.socket.num stage).1.setJob i
        (((s.logAccess conn).closeConnection conn.socket.num stage).2.map (⟨conn, .closing ·⟩)) := by
  simp only [step] at hs
  split at hs
  · next conn stage hj => cases hs; exact ⟨conn, stage, hj, rfl⟩
  · cases hs

end Server

end KvDatabase
