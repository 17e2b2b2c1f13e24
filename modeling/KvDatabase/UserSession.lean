/-
The session table (`UserSession/UserSession.h`, `UserSession.cpp`): per client
address, the socket it was created with and when the client was last active.

Each operation holds the table's lock, so each is one step. (`add_session`
looks a key up under the shared lock and inserts under the other; only the
accept thread adds, so a key it has not found is still missing then.) The
type of sockets is a parameter: the table keeps one, and looks at none.
-/
import Mathlib.Logic.Function.Basic

namespace KvDatabase

/-- A client's address and port, as the raw fields of its `sockaddr_in`. -/
structure SessionKey where
  rawIp : UInt32
  rawPort : UInt16
deriving DecidableEq, Repr

/-- `steady_clock`, in nanoseconds. -/
abbrev Time := Nat

structure UserSession (S : Type) where
  userSocket : S
  lastActivityTime : Time
  /-- In seconds. -/
  sessionMaximumIdleTime : Int64
deriving DecidableEq, Repr

/-- Idle for longer than it may be. The two are compared in nanoseconds, for
which the seconds are multiplied in their 64 bits. -/
def UserSession.isExpired {S : Type} (session : UserSession S) (now : Time) : Bool :=
  (session.sessionMaximumIdleTime * 1000000000).toInt < (now : Int) - session.lastActivityTime

/-- `users_sessions`. -/
abbrev UserSessionManager (S : Type) := SessionKey → Option (UserSession S)

namespace UserSessionManager

variable {S : Type}

/-- The `max_idle` that `add_session` is called with. -/
def defaultMaxIdle : Int64 := 240

/-- A session that exists is left as it is. -/
def addSession (users : UserSessionManager S) (socket : S) (key : SessionKey) (now : Time)
    (maxIdle : Int64 := defaultMaxIdle) : UserSessionManager S :=
  match users key with
  | some _ => users
  | none => Function.update users key (some ⟨socket, now, maxIdle⟩)

def updateActivity (users : UserSessionManager S) (key : SessionKey) (now : Time) : UserSessionManager S :=
  Function.update users key ((users key).map fun session => { session with lastActivityTime := now })

def removeSession (users : UserSessionManager S) (key : SessionKey) : UserSessionManager S :=
  Function.update users key none

/-- One turn of the loop of `cleanup_expired_sessions`: an expired session's
socket goes to `on_session_expired`, and the session is erased. -/
def expire (users : UserSessionManager S) (key : SessionKey) (now : Time) : UserSessionManager S × Option S :=
  match users key with
  | some session => if session.isExpired now then (users.removeSession key, some session.userSocket) else (users, none)
  | none => (users, none)

/-- Every session after `addSession` was there before, or is the new one. -/
theorem addSession_eq_some {users : UserSessionManager S} {socket : S} {key k : SessionKey} {now : Time}
    {maxIdle : Int64} {session : UserSession S} (h : users.addSession socket key now maxIdle k = some session) :
    users k = some session ∨ session.userSocket = socket := by
  cases hu : users key with
  | some _ =>
    simp only [addSession, hu] at h
    exact .inl h
  | none =>
    simp only [addSession, hu] at h
    by_cases hk : k = key
    · rw [hk, Function.update_self, Option.some.injEq] at h
      exact .inr (h ▸ rfl)
    · rw [Function.update_of_ne hk] at h
      exact .inl h

/-- An update keeps each session's socket. -/
theorem updateActivity_eq_some {users : UserSessionManager S} {key k : SessionKey} {now : Time}
    {session : UserSession S} (h : users.updateActivity key now k = some session) :
    ∃ before, users k = some before ∧ session.userSocket = before.userSocket := by
  rw [updateActivity] at h
  by_cases hk : k = key
  · rw [hk, Function.update_self, Option.map_eq_some_iff] at h
    obtain ⟨before, hb, rfl⟩ := h
    exact ⟨before, hk ▸ hb, rfl⟩
  · rw [Function.update_of_ne hk] at h
    exact ⟨session, h, rfl⟩

theorem removeSession_eq_some {users : UserSessionManager S} {key k : SessionKey} {session : UserSession S}
    (h : users.removeSession key k = some session) : users k = some session := by
  rw [removeSession] at h
  by_cases hk : k = key
  · rw [hk, Function.update_self] at h
    cases h
  · rwa [Function.update_of_ne hk] at h

/-- A turn of the sweep removes a session and fires for its socket, or does
nothing. -/
theorem expire_cases (users : UserSessionManager S) (key : SessionKey) (now : Time) :
    users.expire key now = (users, none) ∨ ∃ session, users key = some session ∧ session.isExpired now = true ∧
      users.expire key now = (users.removeSession key, some session.userSocket) := by
  cases hu : users key with
  | none => exact .inl (by simp only [expire, hu])
  | some session =>
    by_cases he : session.isExpired now = true
    · exact .inr ⟨session, rfl, he, by simp only [expire, hu, he, if_true]⟩
    · exact .inl (by simp [expire, hu, he])

end UserSessionManager

end KvDatabase
