/-
The session table under any sequence of its operations, and what a sweep of
it does, told from the history of those operations: whom it calls, whom it
leaves, and that no session is called for twice (`FollowsHistory`).

`is_expired` has the limit in nanoseconds of 64 bits. A sweep goes by the
history as long as no idle time is between a limit and what that makes of it
(`sweeps_follow_history_iff`), and none is when the limits are below 292 years
(`sweep_follows_history`).
-/
import KvDatabase.Lib.Runs
import KvDatabase.Lib.Spans
import KvDatabase.UserSession
import Mathlib.Data.Int.Order.Basic
import Mathlib.Data.List.AList
import Mathlib.Order.Basic

namespace KvDatabase

/-- A node of `users_sessions`. -/
abbrev SessionEntry (S : Type) := Sigma fun _ : SessionKey => UserSession S

/-- `users_sessions` as the table it is: entries in some order, no key twice. -/
abbrev SessionTable (S : Type) := AList fun _ : SessionKey => UserSession S

namespace SessionTable

variable {S : Type}

def addSession (t : SessionTable S) (key : SessionKey) (socket : S) (maxIdle : Int64) (now : Time) : SessionTable S :=
  match t.lookup key with
  | some _ => t
  | none => t.insert key ⟨socket, now, maxIdle⟩

def updateActivity (t : SessionTable S) (key : SessionKey) (now : Time) : SessionTable S :=
  match t.lookup key with
  | some session => t.insert key { session with lastActivityTime := now }
  | none => t

def removeSession (t : SessionTable S) (key : SessionKey) : SessionTable S := t.erase key

def closeAllSessions (_ : SessionTable S) : SessionTable S := ∅

/-- The loop of `cleanup_expired_sessions` from where its iterator is: the
entries it leaves, and the keys and sockets it calls `on_session_expired`
(which is set) for. Each entry's turn reads the clock. -/
def cleanupFrom (clock : SessionKey → Time) : List (SessionEntry S) → List (SessionEntry S) × List (SessionKey × S)
  | [] => ([], [])
  | ⟨key, session⟩ :: it =>
    let (left, fired) := cleanupFrom clock it
    if session.isExpired (clock key) then (left, (key, session.userSocket) :: fired) -- `it = erase(it)`
    else (⟨key, session⟩ :: left, fired)

variable {clock : SessionKey → Time}

/-- An entry is left or erased by its own turn. -/
theorem cleanupFrom_eq (it : List (SessionEntry S)) : cleanupFrom clock it =
    (it.filter fun e => !e.2.isExpired (clock e.1),
      (it.filter fun e => e.2.isExpired (clock e.1)).map fun e => (e.1, e.2.userSocket)) := by
  induction it with
  | nil => rfl
  | cons e it ih =>
    rw [cleanupFrom, ih]
    cases he : e.2.isExpired (clock e.1) <;> simp [he]

theorem cleanupFrom_sublist (it : List (SessionEntry S)) : (cleanupFrom clock it).1.Sublist it := by
  rw [cleanupFrom_eq]
  exact List.filter_sublist

def cleanupExpiredSessions (t : SessionTable S) (clock : SessionKey → Time) : SessionTable S × List (SessionKey × S) :=
  (⟨(cleanupFrom clock t.entries).1, t.nodupKeys.sublist (cleanupFrom_sublist t.entries)⟩,
    (cleanupFrom clock t.entries).2)

/-! ## As a map -/

/-- What the table holds, key by key. -/
def sessions (t : SessionTable S) : UserSessionManager S := fun key => t.lookup key

@[simp] theorem sessions_apply (t : SessionTable S) (key : SessionKey) : t.sessions key = t.lookup key := rfl

theorem sessions_addSession (t : SessionTable S) (key : SessionKey) (socket : S) (maxIdle : Int64) (now : Time) :
    (t.addSession key socket maxIdle now).sessions = t.sessions.addSession socket key now maxIdle := by
  funext k
  simp only [sessions_apply, addSession, UserSessionManager.addSession]
  cases t.lookup key with
  | some session => rfl
  | none =>
    by_cases hk : k = key
    · subst hk; simp
    · simp [hk]

theorem sessions_updateActivity (t : SessionTable S) (key : SessionKey) (now : Time) :
    (t.updateActivity key now).sessions = t.sessions.updateActivity key now := by
  funext k
  simp only [sessions_apply, updateActivity, UserSessionManager.updateActivity]
  cases hs : t.lookup key with
  | some session =>
    by_cases hk : k = key
    · subst hk; simp
    · simp [hk]
  | none =>
    by_cases hk : k = key
    · subst hk; simp [hs]
    · simp [hk]

theorem sessions_removeSession (t : SessionTable S) (key : SessionKey) :
    (t.removeSession key).sessions = t.sessions.removeSession key := by
  funext k
  simp only [sessions_apply, removeSession, UserSessionManager.removeSession]
  by_cases hk : k = key
  · subst hk; simp
  · simp [hk]

theorem lookup_eq_some_iff {t : SessionTable S} {key : SessionKey} {session : UserSession S} :
    t.lookup key = some session ↔ ⟨key, session⟩ ∈ t.entries := AList.mem_lookup_iff

/-! ## A sweep -/

/-- What a sweep leaves of `t` and whom it calls. -/
structure Swept (t t' : SessionTable S) (clock : SessionKey → Time) (fired : List (SessionKey × S)) : Prop where
  mem_fired : ∀ key socket, (key, socket) ∈ fired ↔
    ∃ session, t.lookup key = some session ∧ session.isExpired (clock key) = true ∧ session.userSocket = socket
  nodup : (fired.map Prod.fst).Nodup
  lookup : ∀ key, t'.lookup key = (t.lookup key).filter fun session => !session.isExpired (clock key)

theorem swept_cleanupExpiredSessions (t : SessionTable S) (clock : SessionKey → Time) :
    Swept t (t.cleanupExpiredSessions clock).1 clock (t.cleanupExpiredSessions clock).2 := by
  have hleft : (t.cleanupExpiredSessions clock).1.entries = t.entries.filter fun e => !e.2.isExpired (clock e.1) := by
    show (cleanupFrom clock t.entries).1 = _
    rw [cleanupFrom_eq]
  have hfired : (t.cleanupExpiredSessions clock).2 =
      (t.entries.filter fun e => e.2.isExpired (clock e.1)).map fun e => (e.1, e.2.userSocket) := by
    show (cleanupFrom clock t.entries).2 = _
    rw [cleanupFrom_eq]
  refine ⟨fun key socket => ?_, ?_, fun key => ?_⟩
  · simp only [hfired, List.mem_map, List.mem_filter, lookup_eq_some_iff]
    constructor
    · rintro ⟨⟨k, session⟩, ⟨hm, he⟩, heq⟩
      cases heq
      exact ⟨session, hm, he, rfl⟩
    · rintro ⟨session, hm, he, rfl⟩
      exact ⟨⟨key, session⟩, ⟨hm, he⟩, rfl⟩
  · rw [hfired, List.map_map]
    exact t.nodupKeys.sublist List.filter_sublist
  · refine Option.ext fun session => ?_
    rw [lookup_eq_some_iff, hleft, List.mem_filter, Option.filter_eq_some_iff, lookup_eq_some_iff]

/-- Each key has the turn that `expire` is. -/
theorem sessions_cleanupExpiredSessions (t : SessionTable S) (key : SessionKey) :
    (t.cleanupExpiredSessions clock).1.sessions key = (t.sessions.expire key (clock key)).1 key := by
  rw [sessions_apply, (t.swept_cleanupExpiredSessions clock).lookup, UserSessionManager.expire, sessions_apply]
  cases ht : t.lookup key with
  | none => exact (t.sessions_apply key).trans ht |>.symm
  | some session => cases he : session.isExpired (clock key) <;> simp [he, ht, UserSessionManager.removeSession]

/-- Only what is looked up counts. -/
theorem Swept.congr {t u t' : SessionTable S} {fired : List (SessionKey × S)} (h : Swept t t' clock fired)
    (ht : ∀ key, t.lookup key = u.lookup key) : Swept u t' clock fired :=
  ⟨fun key socket => ht key ▸ h.mem_fired key socket, h.nodup, fun key => ht key ▸ h.lookup key⟩

/-- The keys a sweep calls for. -/
theorem Swept.mem_keys {t t' : SessionTable S} {fired : List (SessionKey × S)} (h : Swept t t' clock fired)
    {key : SessionKey} : key ∈ fired.map Prod.fst ↔
      ∃ session, t.lookup key = some session ∧ session.isExpired (clock key) = true := by
  rw [List.mem_map]
  constructor
  · rintro ⟨⟨k, socket⟩, hm, rfl⟩
    obtain ⟨session, hs, he, -⟩ := (h.mem_fired k socket).mp hm
    exact ⟨session, hs, he⟩
  · rintro ⟨session, hs, he⟩
    exact ⟨(key, session.userSocket), (h.mem_fired _ _).mpr ⟨session, hs, he, rfl⟩, rfl⟩

theorem Swept.lookup_fired {t t' : SessionTable S} {fired : List (SessionKey × S)} (h : Swept t t' clock fired)
    {key : SessionKey} (hk : key ∈ fired.map Prod.fst) : t'.lookup key = none := by
  obtain ⟨session, hs, he⟩ := h.mem_keys.mp hk
  simp [h.lookup, hs, he]

theorem Swept.lookup_left {t t' : SessionTable S} {fired : List (SessionKey × S)} (h : Swept t t' clock fired)
    {key : SessionKey} (hk : key ∉ fired.map Prod.fst) : t'.lookup key = t.lookup key := by
  rw [h.lookup]
  cases hs : t.lookup key with
  | none => rfl
  | some session =>
    cases he : session.isExpired (clock key) with
    | true => exact absurd (h.mem_keys.mpr ⟨session, hs, he⟩) hk
    | false => simp [he]

end SessionTable

/-! ## The limit in nanoseconds -/

/-- Idle for strictly longer than the limit. -/
def UserSession.IdleTooLong {S : Type} (session : UserSession S) (now : Time) : Prop :=
  session.sessionMaximumIdleTime.toInt * 1000000000 < (now : Int) - session.lastActivityTime

instance {S : Type} (session : UserSession S) (now : Time) : Decidable (session.IdleTooLong now) :=
  inferInstanceAs (Decidable (_ < _))

/-- The idle time is between the limit and what the limit's nanoseconds are
in 64 bits: one of the two is exceeded, the other not. -/
def UserSession.Misjudged {S : Type} (session : UserSession S) (now : Time) : Prop :=
  let idle : Int := (now : Int) - session.lastActivityTime
  let limit : Int := session.sessionMaximumIdleTime.toInt * 1000000000
  let computed : Int := (session.sessionMaximumIdleTime * 1000000000).toInt
  min limit computed < idle ∧ idle ≤ max limit computed

theorem UserSession.isExpired_right_iff {S : Type} (session : UserSession S) (now : Time) :
    (session.isExpired now = true ↔ session.IdleTooLong now) ↔ ¬ session.Misjudged now := by
  simp only [isExpired, IdleTooLong, Misjudged, decide_eq_true_eq]
  omega

/-- The limit's nanoseconds are 64 bits. -/
def LimitFits (maxIdle : Int64) : Prop := -9223372036 ≤ maxIdle.toInt ∧ maxIdle.toInt ≤ 9223372036

instance (maxIdle : Int64) : Decidable (LimitFits maxIdle) := inferInstanceAs (Decidable (_ ∧ _))

theorem LimitFits.nanoseconds {maxIdle : Int64} (h : LimitFits maxIdle) :
    (maxIdle * 1000000000).toInt = maxIdle.toInt * 1000000000 := by
  obtain ⟨hlow, hhigh⟩ := h
  have hfactor : (1000000000 : Int64).toInt = 1000000000 := by decide
  rw [Int64.toInt_mul, hfactor]
  exact Int.bmod_eq_of_le (by omega) (by omega)

theorem LimitFits.not_misjudged {S : Type} {session : UserSession S} (h : LimitFits session.sessionMaximumIdleTime)
    (now : Time) : ¬ session.Misjudged now := by
  simp only [UserSession.Misjudged, h.nanoseconds]
  omega

/-! ## The history -/

/-- A call that has been made, with the clock readings it took; of a sweep,
also whom it called. -/
inductive SessionEvent (S : Type)
  | added (key : SessionKey) (socket : S) (maxIdle : Int64) (now : Time)
  | updated (key : SessionKey) (now : Time)
  | removed (key : SessionKey)
  | cleared
  | swept (clock : SessionKey → Time) (fired : List (SessionKey × S))

variable {S : Type}

def Adds (key : SessionKey) : SessionEvent S → Prop
  | .added k _ _ _ => k = key
  | _ => False

def Ends (key : SessionKey) : SessionEvent S → Prop
  | .removed k => k = key
  | .cleared => True
  | .swept _ fired => key ∈ fired.map Prod.fst
  | _ => False

def updatedAt (key : SessionKey) : SessionEvent S → Option Time
  | .updated k now => if k = key then some now else none
  | _ => none

/-- The session that `history` tells of `key`: an add of a missing key
created it, nothing has ended it since, and it was active at the last update
since, or when it was created. -/
def SessionOf (history : List (SessionEvent S)) (key : SessionKey) (session : UserSession S) : Prop :=
  ∃ created since,
    Span.OpenedBy (Adds key) (Ends key) history
      (.added key session.userSocket session.sessionMaximumIdleTime created) since ∧
    session.lastActivityTime = (since.filterMap (updatedAt key)).getLast?.getD created

/-- `o` is what `history` tells of `key`. -/
def Told (history : List (SessionEvent S)) (key : SessionKey) : Option (UserSession S) → Prop
  | some session => SessionOf history key session
  | none => Span.Closed (Adds key) (Ends key) history

section Told

variable {history : List (SessionEvent S)} {key : SessionKey} {e : SessionEvent S}

theorem Ends.not_adds (h : Ends key e) : ¬ Adds key e := by
  cases e <;> simp_all [Ends, Adds]

theorem Told.ended (h : Ends key e) : Told (history ++ [e]) key none := Span.Closed.of_closes history h h.not_adds

/-- An add of a missing key creates a session. -/
theorem Told.added (h : Told history key none) (socket : S) (maxIdle : Int64) (now : Time) :
    Told (history ++ [.added key socket maxIdle now]) key (some ⟨socket, now, maxIdle⟩) :=
  ⟨now, [], Span.Closed.openedBy h rfl, rfl⟩

theorem SessionOf.concat {session : UserSession S} (h : SessionOf history key session) (he : ¬ Ends key e) :
    SessionOf (history ++ [e]) key
      { session with lastActivityTime := (updatedAt key e).getD session.lastActivityTime } := by
  obtain ⟨created, since, ho, ht⟩ := h
  refine ⟨created, since ++ [e], ho.concat he, ?_⟩
  rw [List.filterMap_append]
  cases hu : updatedAt key e with
  | none => simpa [hu] using ht
  | some now => simp [hu]

/-- Any other call leaves the session as it is. -/
theorem Told.concat {o : Option (UserSession S)} (h : Told history key o) (he : ¬ Ends key e)
    (ha : Adds key e → o.isSome) (hu : updatedAt key e = none) : Told (history ++ [e]) key o := by
  cases o with
  | none => exact Span.Closed.concat h fun hadds => absurd (ha hadds) (by simp)
  | some session =>
    have hs : SessionOf (history ++ [e]) key _ := SessionOf.concat h he
    rwa [hu] at hs

theorem Told.updated {session : UserSession S} (h : Told history key (some session)) (now : Time) :
    Told (history ++ [.updated key now]) key (some { session with lastActivityTime := now }) := by
  have hs : SessionOf (history ++ [.updated key now]) key _ := SessionOf.concat h (by simp [Ends])
  rwa [updatedAt, if_pos rfl] at hs

/-- A history tells of one session, and of none when it tells of none. -/
theorem Told.unique {o o' : Option (UserSession S)} (h : Told history key o) (h' : Told history key o') : o = o' := by
  match o, o', h, h' with
  | none, none, _, _ => rfl
  | none, some _, h, ⟨_, _, ho, _⟩ => exact absurd h ho.not_closed
  | some _, none, ⟨_, _, ho, _⟩, h => exact absurd h ho.not_closed
  | some ⟨socket, last, maxIdle⟩, some ⟨socket', last', maxIdle'⟩, ⟨_, _, ho, ht⟩, ⟨_, _, ho', ht'⟩ =>
    obtain ⟨he, rfl⟩ := ho.unique ho'
    cases he
    simp only at ht ht'
    rw [ht, ht']

/-! Each call keeps what the table holds for `key` what the history tells. -/

variable {t : SessionTable S}

theorem Told.addSession (h : Told history key (t.lookup key)) (k : SessionKey) (socket : S) (maxIdle : Int64)
    (now : Time) :
    Told (history ++ [.added k socket maxIdle now]) key ((t.addSession k socket maxIdle now).lookup key) := by
  rw [← SessionTable.sessions_apply, SessionTable.sessions_addSession, UserSessionManager.addSession,
    SessionTable.sessions_apply]
  cases ht : t.lookup k with
  | some session => exact h.concat (by simp [Ends]) (fun hadds => by cases hadds; simp [ht]) rfl
  | none =>
    by_cases hk : key = k
    · subst hk
      simp only [Function.update_self]
      exact Told.added (ht ▸ h) socket maxIdle now
    · simp only [Function.update_of_ne hk]
      exact h.concat (by simp [Ends]) (fun hadds => absurd hadds.symm hk) rfl

theorem Told.updateActivity (h : Told history key (t.lookup key)) (k : SessionKey) (now : Time) :
    Told (history ++ [.updated k now]) key ((t.updateActivity k now).lookup key) := by
  rw [← SessionTable.sessions_apply, SessionTable.sessions_updateActivity, UserSessionManager.updateActivity]
  by_cases hk : key = k
  · subst hk
    rw [Function.update_self, SessionTable.sessions_apply]
    cases ht : t.lookup key with
    | some session => exact Told.updated (ht ▸ h) now
    | none => exact Span.Closed.concat (ht ▸ h : Told history key none) (by simp [Adds])
  · rw [Function.update_of_ne hk]
    exact h.concat (by simp [Ends]) (by simp [Adds]) (if_neg fun he => hk he.symm)

theorem Told.removeSession (h : Told history key (t.lookup key)) (k : SessionKey) :
    Told (history ++ [.removed k]) key ((t.removeSession k).lookup key) := by
  rw [← SessionTable.sessions_apply, SessionTable.sessions_removeSession, UserSessionManager.removeSession]
  by_cases hk : key = k
  · subst hk
    rw [Function.update_self]
    exact Told.ended rfl
  · rw [Function.update_of_ne hk]
    exact h.concat (fun he => hk he.symm) (by simp [Adds]) rfl

theorem Told.swept (h : Told history key (t.lookup key)) {t' : SessionTable S} {clock : SessionKey → Time}
    {fired : List (SessionKey × S)} (hs : SessionTable.Swept t t' clock fired) :
    Told (history ++ [.swept clock fired]) key (t'.lookup key) := by
  by_cases hk : key ∈ fired.map Prod.fst
  · rw [hs.lookup_fired hk]
    exact Told.ended hk
  · rw [hs.lookup_left hk]
    exact h.concat hk (by simp [Adds]) rfl

end Told

/-! ## Runs -/

structure SessionRun (S : Type) where
  table : SessionTable S
  history : List (SessionEvent S)

inductive SessionOp (S : Type)
  | addSession (key : SessionKey) (socket : S) (maxIdle : Int64) (now : Time)
  | updateActivity (key : SessionKey) (now : Time)
  | removeSession (key : SessionKey)
  | closeAllSessions
  /-- The loop meets the entries in the order they have in `order`. -/
  | cleanupExpiredSessions (order : SessionTable S) (clock : SessionKey → Time)

namespace SessionRun

def start : SessionRun S := ⟨∅, []⟩

def step [DecidableEq S] (s : SessionRun S) : SessionOp S → Option (SessionRun S)
  | .addSession key socket maxIdle now =>
    some ⟨s.table.addSession key socket maxIdle now, s.history ++ [.added key socket maxIdle now]⟩
  | .updateActivity key now => some ⟨s.table.updateActivity key now, s.history ++ [.updated key now]⟩
  | .removeSession key => some ⟨s.table.removeSession key, s.history ++ [.removed key]⟩
  | .closeAllSessions => some ⟨s.table.closeAllSessions, s.history ++ [.cleared]⟩
  | .cleanupExpiredSessions order clock =>
    if order.entries.Perm s.table.entries then
      let (table, fired) := order.cleanupExpiredSessions clock
      some ⟨table, s.history ++ [.swept clock fired]⟩
    else none

/-- What the table holds is what the history tells. -/
def FromHistory (s : SessionRun S) : Prop := ∀ key, Told s.history key (s.table.lookup key)

theorem FromHistory.start : FromHistory (start : SessionRun S) := fun _ => Span.Closed.nil

/-- The session the table holds for a key is the one its history tells of. -/
theorem FromHistory.lookup_iff {s : SessionRun S} (h : s.FromHistory) {key : SessionKey} {session : UserSession S} :
    s.table.lookup key = some session ↔ SessionOf s.history key session :=
  ⟨fun hl => (hl ▸ h key : Told s.history key (some session)),
    fun hs => (h key).unique (show Told s.history key (some session) from hs)⟩

/-- What a sweep that takes `s` to `s'` has to do: the calls it makes and the
sessions it leaves, told from the history before it. -/
structure FollowsHistory (s s' : SessionRun S) (clock : SessionKey → Time) (fired : List (SessionKey × S)) : Prop where
  history : s'.history = s.history ++ [.swept clock fired]
  /-- It calls for the sessions idle too long, with the sockets they were
  added with. -/
  fires : ∀ key socket, (key, socket) ∈ fired ↔
    ∃ session, SessionOf s.history key session ∧ session.IdleTooLong (clock key) ∧ session.userSocket = socket
  nodup : (fired.map Prod.fst).Nodup
  /-- When an earlier sweep has called for the key, another session has been
  added since. -/
  once : ∀ before clock' fired' after key, s.history = before ++ .swept clock' fired' :: after →
    key ∈ fired'.map Prod.fst → key ∈ fired.map Prod.fst →
    ∃ socket maxIdle now, .added key socket maxIdle now ∈ after
  gone : ∀ key ∈ fired.map Prod.fst, s'.table.lookup key = none
  left : ∀ key ∉ fired.map Prod.fst, s'.table.lookup key = s.table.lookup key

/-- A sweep that misjudges no session goes by the history. -/
theorem FromHistory.followsHistory {s s' : SessionRun S} (h : s.FromHistory) {clock : SessionKey → Time}
    {fired : List (SessionKey × S)} (hs : SessionTable.Swept s.table s'.table clock fired)
    (hh : s'.history = s.history ++ [.swept clock fired])
    (hj : ∀ key session, s.table.lookup key = some session → ¬ session.Misjudged (clock key)) :
    FollowsHistory s s' clock fired := by
  refine ⟨hh, fun key socket => ?_, hs.nodup, ?_, fun _ => hs.lookup_fired, fun _ => hs.lookup_left⟩
  · rw [hs.mem_fired]
    refine exists_congr fun session => ?_
    rw [← h.lookup_iff]
    exact and_congr_right fun hl => and_congr_left' ((session.isExpired_right_iff _).mpr (hj key session hl))
  · intro before clock' fired' after key hbefore hearlier hnow
    obtain ⟨session, hl, -⟩ := hs.mem_keys.mp hnow
    obtain ⟨created, since, ho, -⟩ := h.lookup_iff.mp hl
    rw [hbefore] at ho
    have hsuffix : _ :: since <:+ after := ho.suffix_of_closes hearlier id
    exact ⟨_, _, created, hsuffix.subset List.mem_cons_self⟩

/-- And only such a one does. -/
theorem FollowsHistory.judges {s s' : SessionRun S} (h : s.FromHistory) {clock : SessionKey → Time}
    {fired : List (SessionKey × S)} (hf : FollowsHistory s s' clock fired)
    (hs : SessionTable.Swept s.table s'.table clock fired) {key : SessionKey} {session : UserSession S}
    (hl : s.table.lookup key = some session) : ¬ session.Misjudged (clock key) := by
  rw [← session.isExpired_right_iff]
  have hcalled : (∃ session', s.table.lookup key = some session' ∧ session'.isExpired (clock key) = true ∧
      session'.userSocket = session.userSocket) ↔ ∃ session', SessionOf s.history key session' ∧
      session'.IdleTooLong (clock key) ∧ session'.userSocket = session.userSocket :=
    (hs.mem_fired key session.userSocket).symm.trans (hf.fires key session.userSocket)
  simpa [← h.lookup_iff, hl] using hcalled

variable [DecidableEq S] {s s' : SessionRun S}

/-- A sweep is of the table, in whatever order. -/
theorem step_cleanupExpiredSessions {order : SessionTable S} {clock : SessionKey → Time}
    (h : s.step (.cleanupExpiredSessions order clock) = some s') :
    ∃ fired, SessionTable.Swept s.table s'.table clock fired ∧ s'.history = s.history ++ [.swept clock fired] := by
  rw [step] at h
  split at h
  case isTrue hperm =>
    cases h
    have hswept := order.swept_cleanupExpiredSessions clock
    exact ⟨_, hswept.congr fun key => AList.perm_lookup hperm, rfl⟩
  case isFalse => cases h

/-- A sweep is always possible: in the order the table has. -/
theorem step_cleanupExpiredSessions_table (s : SessionRun S) (clock : SessionKey → Time) :
    s.step (.cleanupExpiredSessions s.table clock) =
      some ⟨(s.table.cleanupExpiredSessions clock).1,
        s.history ++ [.swept clock (s.table.cleanupExpiredSessions clock).2]⟩ :=
  if_pos (List.Perm.refl _)

/-- A call leaves what the history then tells. -/
theorem FromHistory.next {op : SessionOp S} (h : s.FromHistory) (hs : s.step op = some s') : s'.FromHistory := by
  intro key
  cases op with
  | addSession k socket maxIdle now => cases hs; exact (h key).addSession k socket maxIdle now
  | updateActivity k now => cases hs; exact (h key).updateActivity k now
  | removeSession k => cases hs; exact (h key).removeSession k
  | closeAllSessions => cases hs; exact Told.ended trivial
  | cleanupExpiredSessions order clock =>
    obtain ⟨fired, hswept, hh⟩ := step_cleanupExpiredSessions hs
    exact hh ▸ (h key).swept hswept

theorem fromHistory_of_reach {C : SessionRun S → SessionOp S → Prop} (h : Runs.Reach step C start s) :
    s.FromHistory :=
  h.invariant FromHistory FromHistory.start fun _ _ _ hi _ hs => hi.next hs

/-! ## Sweeps of a run -/

/-- The step, if it is a sweep, goes by the history. -/
def Follows (q : SessionRun S) : SessionOp S → Prop
  | .cleanupExpiredSessions order clock =>
    ∀ q', q.step (.cleanupExpiredSessions order clock) = some q' → ∃ fired, FollowsHistory q q' clock fired
  | _ => True

/-- No session it meets is misjudged. -/
def Judges (q : SessionRun S) : SessionOp S → Prop
  | .cleanupExpiredSessions _ clock =>
    ∀ key session, q.table.lookup key = some session → ¬ session.Misjudged (clock key)
  | _ => True

theorem follows_iff (h : s.FromHistory) {op : SessionOp S} (hs : s.step op = some s') : s.Follows op ↔ s.Judges op := by
  cases op with
  | cleanupExpiredSessions order clock =>
    constructor
    · intro hf key session hl
      obtain ⟨fired, hfollows⟩ := hf s' hs
      obtain ⟨fired', hswept, hh⟩ := step_cleanupExpiredSessions hs
      obtain rfl : fired = fired' := by simpa using hfollows.history.symm.trans hh
      exact hfollows.judges h hswept hl
    · intro hj q' hq'
      obtain ⟨fired, hswept, hh⟩ := step_cleanupExpiredSessions hq'
      exact ⟨fired, h.followsHistory hswept hh hj⟩
  | _ => exact Iff.rfl

/-- **Sweeping follows the history** in exactly the runs in which no sweep
meets a session whose idle time is between its limit and what the limit's
nanoseconds wrap to. -/
theorem sweeps_follow_history_iff {ops : List (SessionOp S)} (h : Runs.exec step start ops = some s) :
    (∀ before op after q, ops = before ++ op :: after → Runs.exec step start before = some q → q.Follows op) ↔
      ∀ before op after q, ops = before ++ op :: after → Runs.exec step start before = some q → q.Judges op := by
  have hstep : ∀ before op after q, ops = before ++ op :: after → Runs.exec step start before = some q →
      (q.Follows op ↔ q.Judges op) := by
    intro before op after q he hq
    rw [he] at h
    obtain ⟨q₁, hq₁, hrest⟩ := Runs.exec_append.mp h
    cases hq.symm.trans hq₁
    obtain ⟨q', hs, -⟩ := Runs.exec_cons_some.mp hrest
    have hreach : Runs.Reach step (fun _ _ => True) start q :=
      Runs.Reach.start.exec before hq fun _ _ _ => trivial
    exact follows_iff (fromHistory_of_reach hreach) hs
  constructor
  · exact fun hf before op after q he hq => (hstep before op after q he hq).mp (hf before op after q he hq)
  · exact fun hj before op after q he hq => (hstep before op after q he hq).mpr (hj before op after q he hq)

/-- Two clients; the first connects twice, the second is active once more. -/
def twoClients : List (SessionOp Nat) :=
  [.addSession ⟨1, 1⟩ 7 240 0, .addSession ⟨1, 1⟩ 8 5 10, .addSession ⟨2, 2⟩ 9 240 10, .updateActivity ⟨2, 2⟩ 20]

/-- After 240 seconds and a nanosecond the first is swept, the second not. -/
theorem sweeps_follow_history_example : ∃ s s' : SessionRun Nat, Runs.exec step start twoClients = some s ∧
    let ops := twoClients ++ [.cleanupExpiredSessions s.table fun _ => 240000000001]
    Runs.exec step start ops = some s' ∧
      s'.table.lookup ⟨1, 1⟩ = none ∧ s'.table.lookup ⟨2, 2⟩ = some ⟨9, 20, 240⟩ ∧
      ∀ before op after q, ops = before ++ op :: after → Runs.exec step start before = some q → q.Follows op := by
  obtain ⟨s, hs, hentries⟩ : ∃ s : SessionRun Nat, Runs.exec step start twoClients = some s ∧
      s.table.entries = [⟨⟨2, 2⟩, ⟨9, 20, 240⟩⟩, ⟨⟨1, 1⟩, ⟨7, 0, 240⟩⟩] := ⟨_, rfl, by decide⟩
  have hrun : Runs.exec step start (twoClients ++ [.cleanupExpiredSessions s.table fun _ => 240000000001]) = some _ :=
    Runs.exec_append.mpr ⟨s, hs, Runs.exec_cons_some.mpr ⟨_, step_cleanupExpiredSessions_table s _, rfl⟩⟩
  have hswept := s.table.swept_cleanupExpiredSessions fun _ => 240000000001
  have hfirst : s.table.lookup ⟨1, 1⟩ = some ⟨7, 0, 240⟩ := SessionTable.lookup_eq_some_iff.mpr (by simp [hentries])
  have hsecond : s.table.lookup ⟨2, 2⟩ = some ⟨9, 20, 240⟩ := SessionTable.lookup_eq_some_iff.mpr (by simp [hentries])
  refine ⟨s, _, hs, hrun, ?_, ?_, (sweeps_follow_history_iff hrun).mpr ((Runs.forall_steps_append hs).mpr ⟨?_, ?_⟩)⟩
  · exact (hswept.lookup _).trans (by rw [hfirst]; decide)
  · exact (hswept.lookup _).trans (by rw [hsecond]; decide)
  · intro before op after q he hq
    have hop : op ∈ twoClients := he ▸ List.mem_append_right _ List.mem_cons_self
    simp only [twoClients, List.mem_cons, List.not_mem_nil, or_false] at hop
    rcases hop with rfl | rfl | rfl | rfl <;> trivial
  · intro key session hl
    rw [SessionTable.lookup_eq_some_iff, hentries, List.mem_cons, List.mem_singleton] at hl
    rcases hl with hl | hl
    · cases hl; exact LimitFits.not_misjudged (by decide) _
    · cases hl; exact LimitFits.not_misjudged (by decide) _

/-- Swept the moment it is added, a session is called for although its limit,
the first that does not fit, is all ahead of it. -/
theorem sweep_fires_early : ∃ s s' : SessionRun Nat,
    Runs.exec step start [.addSession ⟨1, 1⟩ 7 9223372037 0] = some s ∧
    s.step (.cleanupExpiredSessions s.table fun _ => 0) = some s' ∧
    ¬ ∃ fired, FollowsHistory s s' (fun _ => 0) fired := by
  let s : SessionRun Nat := ⟨SessionTable.addSession ∅ ⟨1, 1⟩ 7 9223372037 0, [.added ⟨1, 1⟩ 7 9223372037 0]⟩
  have hreach : Runs.Reach step (fun _ _ => True) start s :=
    Runs.Reach.start.next (l := .addSession ⟨1, 1⟩ 7 9223372037 0) trivial rfl
  refine ⟨s, _, rfl, step_cleanupExpiredSessions_table s _, ?_⟩
  rintro ⟨fired, hfollows⟩
  have hfired : fired = [(⟨1, 1⟩, 7)] := by
    have hh := hfollows.history
    simp only [List.append_cancel_left_eq, List.cons.injEq, SessionEvent.swept.injEq, and_true, true_and] at hh
    rw [← hh]
    rfl
  obtain ⟨session, hs, hidle, -⟩ := (hfollows.fires ⟨1, 1⟩ 7).mp (hfired ▸ List.mem_cons_self)
  have hl : s.table.lookup ⟨1, 1⟩ = some session := (fromHistory_of_reach hreach).lookup_iff.mpr hs
  cases hl
  exact absurd hidle (by decide)

/-! ## Runs whose limits fit -/

/-- The limits that sessions are added with fit. -/
def LimitsFit (_ : SessionRun S) : SessionOp S → Prop
  | .addSession _ _ maxIdle _ => LimitFits maxIdle
  | _ => True

/-- An add in the history has been made. -/
theorem step_history {op : SessionOp S} (h : s.step op = some s') : ∃ e, s'.history = s.history ++ [e] ∧
    ∀ key socket maxIdle now, e = .added key socket maxIdle now → op = .addSession key socket maxIdle now := by
  cases op with
  | addSession key socket maxIdle now =>
    cases h
    exact ⟨_, rfl, fun _ _ _ _ he => by cases he; rfl⟩
  | cleanupExpiredSessions order clock =>
    obtain ⟨fired, -, hh⟩ := step_cleanupExpiredSessions h
    exact ⟨_, hh, nofun⟩
  | _ => cases h; exact ⟨_, rfl, nofun⟩

theorem fits_of_added (h : Runs.Reach step LimitsFit start s) : ∀ key socket maxIdle now,
    .added key socket maxIdle now ∈ s.history → LimitFits maxIdle := by
  refine h.invariant (fun s => ∀ key socket maxIdle now, .added key socket maxIdle now ∈ s.history → LimitFits maxIdle)
    (fun _ _ _ _ ha => absurd ha List.not_mem_nil) fun s op s' ih hfits hs key socket maxIdle now ha => ?_
  obtain ⟨e, he, hadd⟩ := step_history hs
  rw [he, List.mem_append, List.mem_singleton] at ha
  rcases ha with ha | ha
  · exact ih key socket maxIdle now ha
  · rw [hadd key socket maxIdle now ha.symm] at hfits
    exact hfits

theorem fits_of_sessionOf (h : Runs.Reach step LimitsFit start s) {key : SessionKey} {session : UserSession S}
    (hs : SessionOf s.history key session) : LimitFits session.sessionMaximumIdleTime := by
  obtain ⟨created, since, ho, -⟩ := hs
  exact fits_of_added h key session.userSocket _ created (ho.suffix.subset List.mem_cons_self)

/-- Then no sweep misjudges any session. -/
theorem judges_of_limitsFit (h : Runs.Reach step LimitsFit start s) (op : SessionOp S) : s.Judges op := by
  cases op with
  | cleanupExpiredSessions order clock =>
    exact fun key session hl => (fits_of_sessionOf h ((fromHistory_of_reach h).lookup_iff.mp hl)).not_misjudged _
  | _ => trivial

theorem sweep_follows_history (h : Runs.Reach step LimitsFit start s) {order : SessionTable S}
    {clock : SessionKey → Time} (hs : s.step (.cleanupExpiredSessions order clock) = some s') :
    ∃ fired, FollowsHistory s s' clock fired :=
  (follows_iff (fromHistory_of_reach h) hs).mpr (judges_of_limitsFit h _) s' hs

end SessionRun

end KvDatabase
