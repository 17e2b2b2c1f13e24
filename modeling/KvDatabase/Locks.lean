/-
The server's mutexes: which function takes which, alone or shared, and what it
calls meanwhile.

All are taken by guards, and given back in turn. Only one call is made under a
mutex to a function that takes another: `cleanup_expired_sessions` calls
`onSessionExpired` under the table's. So its threads never wait for each other
in a circle (`threads_progress`), however many there are and whatever they do.
What a condition variable makes a thread wait for is another matter
(`shutdown_strands_nobody`, `no_lost_wakeup`); here it may be woken any time.
-/
import KvDatabase.Connections
import KvDatabase.Lib.LockOrder

namespace KvDatabase

open LockOrder (Act exclusively sharing Ordered)

inductive Mutex
  /-- `HashMap`'s. -/
  | sm
  /-- `Persistence`'s. -/
  | aofMutex
  /-- `UserSessionManager`'s. -/
  | sessions
  /-- `Server`'s. -/
  | expiredMutex
  /-- `RateLimiter`'s. -/
  | globalMutex
  | mapMutex
  /-- `ThreadPool`'s. -/
  | jobs
  /-- `SnapshotScheduler`'s. -/
  | scheduler
  /-- `UserSessionBackgroundWorker`'s. -/
  | sweeper
deriving DecidableEq, Repr

namespace Locks

/-! ## What each function takes -/

def insert : List (Act Mutex) := exclusively .sm []

def get : List (Act Mutex) := sharing .sm []

def remove : List (Act Mutex) := exclusively .sm []

/-- The callback writes to a stream. -/
def forEach : List (Act Mutex) := sharing .sm []

def appendToLog : List (Act Mutex) := exclusively .aofMutex []

/-- The log is reset after the table's mutex was given back. -/
def createSnapshot : List (Act Mutex) := forEach ++ exclusively .aofMutex []

/-- A key that is not found is looked up under the shared lock only. -/
def addSession (found : Bool) : List (Act Mutex) :=
  sharing .sessions [] ++ if found then [] else exclusively .sessions []

def updateActivity : List (Act Mutex) := exclusively .sessions []

def removeSession : List (Act Mutex) := exclusively .sessions []

def closeAllSessions : List (Act Mutex) := exclusively .sessions []

def onSessionExpired : List (Act Mutex) := exclusively .expiredMutex []

/-- It calls back under the lock, for each session it finds expired. -/
def cleanupExpiredSessions (fired : Nat) : List (Act Mutex) :=
  exclusively .sessions (List.replicate fired onSessionExpired).flatten

def isAllowedGlobal : List (Act Mutex) := exclusively .globalMutex []

def isAllowedPrivate : List (Act Mutex) := exclusively .mapMutex []

def isAllowed (allowedGlobal : Bool) : List (Act Mutex) :=
  isAllowedGlobal ++ if allowedGlobal then isAllowedPrivate else []

/-- `cv.wait`, under the mutex: it is given back, and taken again each time the
thread is woken. -/
def wait (m : Mutex) (woken : Nat) : List (Act Mutex) :=
  (List.replicate woken [.release m false, .acquire m false]).flatten

def acceptJob : List (Act Mutex) := exclusively .jobs []

/-- A worker waits for a job, and takes it. -/
def takeJob (woken : Nat) : List (Act Mutex) := exclusively .jobs (wait .jobs woken)

def closeConnection (found : Bool) : List (Act Mutex) := if found then removeSession else []

def rearmSocket (armed found : Bool) : List (Act Mutex) := if armed then [] else closeConnection found

def execute : Command → List (Act Mutex)
  | .insert _ value => if value = [] then [] else insert ++ appendToLog
  | .get _ => get
  | .delete _ => remove ++ appendToLog
  | .unknown => []

def messageHandler (received : Received) (armed found : Bool) : List (Act Mutex) :=
  match received with
  | .close => closeConnection found
  | .rearm => rearmSocket armed found
  | .message message => updateActivity ++ execute (parse message) ++ rearmSocket armed found

end Locks

open Locks

/-- A round of a thread's loop, by what it comes to. -/
inductive Round
  /-- `acceptClients`: what the limiter says of the client, whether the server
  still runs then, whether there is a session, and whether the socket was made
  non-blocking. -/
  | accept (allowedGlobal allowed running found nonBlocking : Bool)
  /-- `runEventLoop`: which sockets are to close and which are reported, each
  with whether it has a connection. -/
  | loop (expired : List Bool) (events : List (IOEvent × Bool))
  /-- A worker's, which comes to a job or to its end. -/
  | job (woken : Nat) (received : Received) (armed found : Bool)
  | last (woken : Nat)
  /-- `SnapshotScheduler::run`. -/
  | snapshot (woken : Nat) (active : Bool)
  /-- `UserSessionBackgroundWorker::run`. -/
  | sweep (woken : Nat) (active : Bool) (fired : Nat)
  /-- `stop`. -/
  | stop

def Round.locks : Round → List (Act Mutex)
  | .accept allowedGlobal allowed running found nonBlocking =>
    isAllowed allowedGlobal ++
      if allowed && running then addSession found ++ if nonBlocking then [] else removeSession else []
  | .loop expired events =>
    exclusively .expiredMutex [] ++ expired.flatMap closeConnection ++ events.flatMap fun
      | (.readable, true) => acceptJob
      | (.readable, false) => []
      | (_, found) => closeConnection found
  | .job woken received armed found => takeJob woken ++ Locks.messageHandler received armed found
  | .last woken => takeJob woken
  | .snapshot woken active =>
    exclusively .scheduler (wait .scheduler woken) ++ if active then createSnapshot else []
  | .sweep woken active fired =>
    exclusively .sweeper (wait .sweeper woken) ++ if active then cleanupExpiredSessions fired else []
  | .stop => closeAllSessions

/-! ## In one order -/

/-- Which mutex is taken under which. -/
def Mutex.Before (m m' : Mutex) : Prop := m = .sessions ∧ m' = .expiredMutex

theorem Mutex.wellFounded_before : WellFounded (flip Mutex.Before) := by
  refine Subrelation.wf (fun {m m'} h => ?_) (InvImage.wf (fun m => if m = .expiredMutex then 0 else 1) Nat.lt_wfRel.wf)
  obtain ⟨rfl, rfl⟩ := h
  exact Nat.zero_lt_one

theorem ordered_exclusively (m : Mutex) : Ordered Mutex.Before [] (exclusively m []) := by
  simp [exclusively, Ordered]

theorem ordered_sharing (m : Mutex) : Ordered Mutex.Before [] (sharing m []) := by
  simp [sharing, Ordered]

theorem ordered_wait (m : Mutex) (woken : Nat) : Ordered Mutex.Before [] (exclusively m (wait m woken)) := by
  have hwait : Ordered Mutex.Before [(m, false)] (wait m woken ++ [.release m false]) := by
    induction woken with
    | zero => simp [wait, Ordered]
    | succ n ih => exact ⟨rfl, by simp, ih⟩
  exact ⟨by simp, hwait⟩

theorem ordered_cleanupExpiredSessions (fired : Nat) : Ordered Mutex.Before [] (cleanupExpiredSessions fired) := by
  have hfired : Ordered Mutex.Before [(.sessions, false)]
      ((List.replicate fired onSessionExpired).flatten ++ [.release .sessions false]) := by
    induction fired with
    | zero => simp [Ordered]
    | succ n ih => exact ⟨by simp [Mutex.Before], rfl, ih⟩
  exact ⟨by simp, hfired⟩

theorem ordered_closeConnection (found : Bool) : Ordered Mutex.Before [] (closeConnection found) := by
  cases found with
  | true => exact ordered_exclusively .sessions
  | false => rfl

theorem ordered_messageHandler (received : Received) (armed found : Bool) :
    Ordered Mutex.Before [] (Locks.messageHandler received armed found) := by
  have hrearm : Ordered Mutex.Before [] (rearmSocket armed found) := by
    cases armed with
    | true => rfl
    | false => exact ordered_closeConnection found
  cases received with
  | close => exact ordered_closeConnection found
  | rearm => exact hrearm
  | message message =>
    refine ((ordered_exclusively .sessions).append ?_).append hrearm
    cases parse message with
    | insert key value =>
      rw [execute]
      split
      · rfl
      · exact (ordered_exclusively .sm).append (ordered_exclusively .aofMutex)
    | get key => exact ordered_sharing .sm
    | delete key => exact (ordered_exclusively .sm).append (ordered_exclusively .aofMutex)
    | unknown => rfl

/-- Each round takes its mutexes in order, and gives all back. -/
theorem ordered_locks (round : Round) : Ordered Mutex.Before [] round.locks := by
  cases round with
  | accept allowedGlobal allowed running found nonBlocking =>
    have hallowed : Ordered Mutex.Before [] (isAllowed allowedGlobal) := by
      cases allowedGlobal <;> simp [isAllowed, isAllowedGlobal, isAllowedPrivate, exclusively, Ordered]
    refine hallowed.append ?_
    cases allowed && running <;> cases found <;> cases nonBlocking <;>
      simp [addSession, removeSession, exclusively, sharing, Ordered]
  | loop expired events =>
    refine ((ordered_exclusively .expiredMutex).append (.flatMap fun found _ => ordered_closeConnection found)).append
      (.flatMap fun e _ => ?_)
    obtain ⟨event, found⟩ := e
    cases event with
    | readable =>
      cases found with
      | true => exact ordered_exclusively .jobs
      | false => rfl
    | writable | hangUp | error => exact ordered_closeConnection found
  | job woken received armed found =>
    exact (ordered_wait .jobs woken).append (ordered_messageHandler received armed found)
  | last woken => exact ordered_wait .jobs woken
  | snapshot woken active =>
    refine (ordered_wait .scheduler woken).append ?_
    cases active with
    | true => exact (ordered_sharing .sm).append (ordered_exclusively .aofMutex)
    | false => rfl
  | sweep woken active fired =>
    refine (ordered_wait .sweeper woken).append ?_
    cases active with
    | true => exact ordered_cleanupExpiredSessions fired
    | false => rfl
  | stop => exact ordered_exclusively .sessions

/-- **The threads never wait in a circle**: with any number of threads, each
going through any rounds, in every state they come to whoever is in a round can
take its next mutex or give it back, or waits for a mutex of a thread that can,
or of one that waits in turn, and so on. -/
theorem threads_progress {T : Type} [DecidableEq T] {rounds : T → List Round} {s : LockOrder.Threads T Mutex}
    (h : LockOrder.Reachable (fun t => (rounds t).flatMap Round.locks) s) {t : T} (ht : s.program t ≠ []) :
    ∃ u, Relation.ReflTransGen s.WaitsFor t u ∧ (LockOrder.step s u).isSome :=
  h.progress (fun _ => .flatMap fun round _ => ordered_locks round) Mutex.wellFounded_before ht

/-- The event loop has `expiredMutex`, the sweep wants it with the sessions'
mutex, and a job wants that. -/
theorem threads_progress_example : ∃ (rounds : Fin 3 → List Round) (s : LockOrder.Threads (Fin 3) Mutex),
    LockOrder.Reachable (fun t => (rounds t).flatMap Round.locks) s ∧ s.WaitsFor 2 1 ∧ s.WaitsFor 1 0 ∧
      ∃ u, Relation.ReflTransGen s.WaitsFor 2 u ∧ (LockOrder.step s u).isSome := by
  let rounds (t : Fin 3) : List Round :=
    match t with
    | 0 => [.loop [] []]
    | 1 => [.sweep 1 true 1]
    | 2 => [.job 0 (.message (ascii "GET a\n")) true true]
  have h : LockOrder.Reachable (fun t => (rounds t).flatMap Round.locks) _ :=
    Runs.Reach.start.exec (C := fun _ _ => True) [1, 1, 1, 1, 1, 0, 2, 2] rfl (by simp)
  refine ⟨rounds, _, h, ?_, ?_, threads_progress h (List.cons_ne_nil _ _)⟩
  · exact ⟨.sessions, false, _, false, rfl, rfl⟩
  · exact ⟨.expiredMutex, false, _, false, rfl, rfl⟩

end KvDatabase
