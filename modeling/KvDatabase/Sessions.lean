/-
The session table as the server's threads call it, one section under its lock
after the other. `add_session` has two: it looks the key up under the shared
lock, and when the key is missing it takes the lock for itself to insert, and
inserts over whatever is there by then. The other operations have one each.

While one thread at a time adds (in the server, the accept thread), nothing
is there by then, and the calls are linearizable with respect to the
operations of `UserSessionManager`, each in one step (`sessions_linearizable`).
-/
import KvDatabase.Lib.Linearize
import KvDatabase.Sweeps

namespace KvDatabase

open Linearize

/-- A call, with the clock readings it takes. -/
inductive SessionCall (S : Type)
  | addSession (key : SessionKey) (socket : S) (maxIdle : Int64) (now : Time)
  | updateActivity (key : SessionKey) (now : Time)
  | removeSession (key : SessionKey)
  | closeAllSessions
  | cleanupExpiredSessions (clock : SessionKey → Time)

/-- The call in one step, and the sockets it calls `on_session_expired` for. -/
def UserSessionManager.operate {S : Type} (users : UserSessionManager S) :
    SessionCall S → UserSessionManager S × (SessionKey → Option S)
  | .addSession key socket maxIdle now => (users.addSession socket key now maxIdle, fun _ => none)
  | .updateActivity key now => (users.updateActivity key now, fun _ => none)
  | .removeSession key => (users.removeSession key, fun _ => none)
  | .closeAllSessions => (fun _ => none, fun _ => none)
  | .cleanupExpiredSessions clock =>
    (fun key => (users.expire key (clock key)).1 key, fun key => (users.expire key (clock key)).2)

namespace SessionTable

variable {S : Type}

/-- The last section of a call, for `add_session` the insert. -/
def perform (t : SessionTable S) : SessionCall S → SessionTable S × (SessionKey → Option S)
  | .addSession key socket maxIdle now => (t.insert key ⟨socket, now, maxIdle⟩, fun _ => none)
  | .updateActivity key now => (t.updateActivity key now, fun _ => none)
  | .removeSession key => (t.removeSession key, fun _ => none)
  | .closeAllSessions => (t.closeAllSessions, fun _ => none)
  | .cleanupExpiredSessions clock =>
    let (table, fired) := t.cleanupExpiredSessions clock
    (table, fun key => fired.lookup key)

/-- Whom a sweep calls, key by key. -/
theorem Swept.lookup_fired_eq {t t' : SessionTable S} {clock : SessionKey → Time} {fired : List (SessionKey × S)}
    (h : Swept t t' clock fired) (key : SessionKey) : fired.lookup key = (t.sessions.expire key (clock key)).2 := by
  rw [UserSessionManager.expire, sessions_apply]
  cases hl : fired.lookup key with
  | some socket =>
    obtain ⟨before, after, rfl, -⟩ := List.lookup_eq_some_iff.mp hl
    obtain ⟨session, ht, he, rfl⟩ := (h.mem_fired key socket).mp (by simp)
    simp only [ht, he, if_true]
  | none =>
    have hnot : ∀ socket, (key, socket) ∉ fired := fun socket hm => by
      simpa using List.lookup_eq_none_iff.mp hl _ hm
    cases ht : t.lookup key with
    | none => rfl
    | some session =>
      cases he : session.isExpired (clock key) with
      | false => simp only [he, Bool.false_eq_true, if_false]
      | true => exact absurd ((h.mem_fired key session.userSocket).mpr ⟨session, ht, he, rfl⟩) (hnot _)

/-- A section does what its call does in one step, when an add's key is
missing. -/
theorem perform_eq (t : SessionTable S) {call : SessionCall S}
    (hadd : ∀ key socket maxIdle now, call = .addSession key socket maxIdle now → t.lookup key = none) :
    (t.perform call).1.sessions = (t.sessions.operate call).1 ∧ (t.perform call).2 = (t.sessions.operate call).2 := by
  cases call with
  | addSession key socket maxIdle now =>
    have hinsert : t.insert key ⟨socket, now, maxIdle⟩ = t.addSession key socket maxIdle now := by
      rw [addSession, hadd key socket maxIdle now rfl]
    exact ⟨(congrArg sessions hinsert).trans (t.sessions_addSession key socket maxIdle now), rfl⟩
  | updateActivity key now => exact ⟨t.sessions_updateActivity key now, rfl⟩
  | removeSession key => exact ⟨t.sessions_removeSession key, rfl⟩
  | closeAllSessions => exact ⟨rfl, rfl⟩
  | cleanupExpiredSessions clock =>
    exact ⟨funext t.sessions_cleanupExpiredSessions, funext (t.swept_cleanupExpiredSessions clock).lookup_fired_eq⟩

/-- The order of the entries does not show. -/
theorem sessions_perm {t u : SessionTable S} (h : t.entries.Perm u.entries) : t.sessions = u.sessions :=
  funext fun _ => AList.perm_lookup h

end SessionTable

/-- A call that adds nothing leaves a missing key missing. -/
theorem UserSessionManager.operate_eq_none {S : Type} {users : UserSessionManager S} {key : SessionKey}
    (hk : users key = none) {call : SessionCall S}
    (hadd : ∀ k socket maxIdle now, call ≠ .addSession k socket maxIdle now) :
    (users.operate call).1 key = none := by
  cases call with
  | addSession k socket maxIdle now => exact absurd rfl (hadd k socket maxIdle now)
  | updateActivity k now =>
    show users.updateActivity k now key = none
    by_cases he : key = k
    · rw [updateActivity, ← he, Function.update_self, hk]
      rfl
    · rw [updateActivity, Function.update_of_ne he, hk]
  | removeSession k =>
    show users.removeSession k key = none
    by_cases he : key = k
    · rw [removeSession, he, Function.update_self]
    · rw [removeSession, Function.update_of_ne he, hk]
  | closeAllSessions => rfl
  | cleanupExpiredSessions clock => simp only [operate, expire, hk]

/-- Where a thread is with a call. -/
inductive SessionPhase (S : Type)
  | idle
  | called (id : Nat) (call : SessionCall S)
  /-- In `add_session`: the key was not found, and the shared lock is given
  back. -/
  | missing (id : Nat) (key : SessionKey) (socket : S) (maxIdle : Int64) (now : Time)
  /-- Whom the call called `on_session_expired` for. -/
  | done (id : Nat) (fired : SessionKey → Option S)

namespace SessionPhase

variable {S : Type}

def id? : SessionPhase S → Option Nat
  | idle => none
  | called id _ | missing id _ _ _ _ | done id _ => some id

/-- How far the object's call is when a thread is here. -/
def Matches : SessionPhase S → Status (SessionCall S) (SessionKey → Option S) → Prop
  | idle, _ => True
  | called _ call, status => status = .called call
  | missing _ key socket maxIdle now, status => status = .called (.addSession key socket maxIdle now)
  | done _ fired, status => status = .done fired

/-- In `add_session`, and not through with it. -/
def Adding : SessionPhase S → Prop
  | called _ (.addSession _ _ _ _) | missing _ _ _ _ _ => True
  | _ => False

/-- The call whose last section comes next. -/
def last? : SessionPhase S → Option (Nat × SessionCall S)
  | missing id key socket maxIdle now => some (id, .addSession key socket maxIdle now)
  | called _ (.addSession _ _ _ _) => none
  | called id call => some (id, call)
  | _ => none

/-- For an add, the key was missing. -/
theorem last?_cases {phase : SessionPhase S} {id : Nat} {call : SessionCall S} (h : phase.last? = some (id, call)) :
    (∃ key socket maxIdle now,
      phase = .missing id key socket maxIdle now ∧ call = .addSession key socket maxIdle now) ∨
    phase = .called id call ∧ ∀ key socket maxIdle now, call ≠ .addSession key socket maxIdle now := by
  cases phase with
  | missing id' key socket maxIdle now =>
    cases h
    exact .inl ⟨key, socket, maxIdle, now, rfl, rfl⟩
  | called id' call' =>
    cases call' with
    | addSession => cases h
    | _ => cases h; exact .inr ⟨rfl, fun _ _ _ _ he => by cases he⟩
  | idle => cases h
  | done => cases h

end SessionPhase

/-- The table and the threads of `T` that call it. -/
structure SessionThreads (T S : Type) where
  table : SessionTable S
  threads : T → SessionPhase S
  /-- The number of the next call. -/
  next : Nat
  history : List (Event (SessionCall S) (SessionKey → Option S))

inductive SessionStep (T S : Type)
  | call (t : T) (call : SessionCall S)
  /-- The first section of `add_session`, under the shared lock. -/
  | find (t : T)
  /-- The last section of a call, the entries of the table in this order. -/
  | write (t : T) (order : SessionTable S)
  | ret (t : T)

namespace SessionThreads

variable {T S : Type} [DecidableEq T]

def start : SessionThreads T S := ⟨∅, fun _ => .idle, 0, []⟩

def step [DecidableEq S] (s : SessionThreads T S) : SessionStep T S → Option (SessionThreads T S)
  | .call t call =>
    match s.threads t with
    | .idle =>
      some { s with
        threads := Function.update s.threads t (.called s.next call)
        next := s.next + 1
        history := s.history ++ [.call s.next call] }
    | _ => none
  | .find t =>
    match s.threads t with
    | .called id (.addSession key socket maxIdle now) =>
      match s.table.lookup key with
      | some _ => some { s with threads := Function.update s.threads t (.done id fun _ => none) }
      | none => some { s with threads := Function.update s.threads t (.missing id key socket maxIdle now) }
    | _ => none
  | .write t order =>
    match (s.threads t).last? with
    | some (id, call) =>
      if order.entries.Perm s.table.entries then
        some { s with
          table := (order.perform call).1
          threads := Function.update s.threads t (.done id (order.perform call).2) }
      else none
    | none => none
  | .ret t =>
    match s.threads t with
    | .done id fired =>
      some { s with threads := Function.update s.threads t .idle, history := s.history ++ [.ret id fired] }
    | _ => none

/-- One thread at a time adds. -/
def OneAdder (s : SessionThreads T S) : SessionStep T S → Prop
  | .call _ (.addSession _ _ _ _) => ∀ u, ¬ (s.threads u).Adding
  | _ => True

/-- What the threads and the object have to do with each other. -/
structure Simulates (s : SessionThreads T S)
    (o : Object (SessionCall S) (SessionKey → Option S) (UserSessionManager S)) : Prop where
  calls : Calls SessionPhase.id? SessionPhase.Matches s.threads s.next s.history o
  table : o.st = s.table.sessions
  single : ∀ t u, (s.threads t).Adding → (s.threads u).Adding → t = u
  /-- A key that `add_session` has not found is still not there. -/
  missing : ∀ t id key socket maxIdle now,
    s.threads t = .missing id key socket maxIdle now → s.table.lookup key = none

variable {s s' : SessionThreads T S} {o : Object (SessionCall S) (SessionKey → Option S) (UserSessionManager S)} {t : T}

omit [DecidableEq T] in
theorem Simulates.start : Simulates (start : SessionThreads T S) (.start fun _ => none) where
  calls := Calls.start rfl _
  table := rfl
  single := fun _ _ ht => by cases ht
  missing := fun _ _ _ _ _ _ ht => by cases ht

theorem single_update (h : ∀ t u, (s.threads t).Adding → (s.threads u).Adding → t = u)
    {phase : SessionPhase S} (hp : phase.Adding → (s.threads t).Adding ∨ ∀ u, ¬ (s.threads u).Adding) (u v : T)
    (hu : (Function.update s.threads t phase u).Adding) (hv : (Function.update s.threads t phase v).Adding) : u = v := by
  by_cases hut : u = t
  · by_cases hvt : v = t
    · rw [hut, hvt]
    · rw [Function.update_of_ne hvt] at hv
      rw [hut, Function.update_self] at hu
      rcases hp hu with ht | hnone
      · exact hut.trans (h t v ht hv)
      · exact absurd hv (hnone v)
  · rw [Function.update_of_ne hut] at hu
    by_cases hvt : v = t
    · rw [hvt, Function.update_self] at hv
      rcases hp hv with ht | hnone
      · exact (h u t hu ht).trans hvt.symm
      · exact absurd hu (hnone u)
    · rw [Function.update_of_ne hvt] at hv
      exact h u v hu hv

/-- The keys not found stay missing, when the table goes on to one that lacks
them too. -/
theorem missing_update {table : SessionTable S} {phase : SessionPhase S}
    (h : ∀ u id key socket maxIdle now, u ≠ t →
      s.threads u = .missing id key socket maxIdle now → table.lookup key = none)
    (hp : ∀ id key socket maxIdle now, phase = .missing id key socket maxIdle now → table.lookup key = none)
    (u : T) (id : Nat) (key : SessionKey) (socket : S) (maxIdle : Int64) (now : Time)
    (hu : Function.update s.threads t phase u = .missing id key socket maxIdle now) : table.lookup key = none := by
  by_cases hut : u = t
  · rw [hut, Function.update_self] at hu
    exact hp id key socket maxIdle now hu
  · rw [Function.update_of_ne hut] at hu
    exact h u id key socket maxIdle now hut hu

variable [DecidableEq S]

/-- Every step of a thread is one of the object's, or none: an `add_session`
takes effect when it finds the key, or when it inserts it. -/
theorem Simulates.step (h : Simulates s o) {l : SessionStep T S} (ho : s.OneAdder l) (hs : s.step l = some s') :
    ∃ o', Simulates s' o' ∧ (o' = o ∨ ∃ a, o.step UserSessionManager.operate a = some o') := by
  have hcalls := h.calls.calls
  have hmissing := fun t : T => fun u id key socket maxIdle now (_ : u ≠ t) => h.missing u id key socket maxIdle now
  cases l with
  | call t call =>
    simp only [SessionThreads.step] at hs
    split at hs
    · next ht =>
      cases hs
      refine ⟨_, ⟨h.calls.call t call rfl rfl, h.table, single_update h.single fun hadding => .inr ?_,
        missing_update (hmissing t) fun _ _ _ _ _ he => by cases he⟩, .inr ⟨.call call, rfl⟩⟩
      cases call with
      | addSession key socket maxIdle now => exact ho
      | _ => cases hadding
    · cases hs
  | find t =>
    simp only [SessionThreads.step] at hs
    split at hs
    · next id key socket maxIdle now ht =>
      have hcall := hcalls t id (by rw [ht]; rfl)
      rw [ht] at hcall
      have hadding : (s.threads t).Adding := by rw [ht]; trivial
      split at hs
      · next session hfound =>
        cases hs
        obtain ⟨o', ho', hst, hafter⟩ :=
          h.calls.commit UserSessionManager.operate (.done id fun _ => none) (by rw [ht]; rfl) hcall rfl rfl
        have hsame : s.table.sessions.addSession socket key now maxIdle = s.table.sessions := by
          rw [UserSessionManager.addSession, SessionTable.sessions_apply, hfound]
        refine ⟨o', ⟨hafter, ?_, single_update h.single fun _ => .inl hadding,
          missing_update (hmissing t) fun _ _ _ _ _ he => by cases he⟩, .inr ⟨.commit id, ho'⟩⟩
        rw [hst, h.table]
        exact hsame
      · next hnone =>
        cases hs
        refine ⟨o, ⟨?_, h.table, single_update h.single fun _ => .inl hadding, missing_update (hmissing t) ?_⟩,
          .inl rfl⟩
        · exact h.calls.move (by rw [ht]; rfl) (.missing id key socket maxIdle now)
            (fun i hi => (Option.some.inj hi).symm) rfl h.calls.history (fun _ _ => rfl) fun _ => hcall
        · intro id' key' socket' maxIdle' now' he
          cases he
          exact hnone
    · cases hs
  | write t order =>
    simp only [SessionThreads.step] at hs
    split at hs
    · next id call hlast =>
      split at hs
      · next hperm =>
        cases hs
        have hsame : order.sessions = s.table.sessions := SessionTable.sessions_perm hperm
        have hphase := SessionPhase.last?_cases hlast
        have hadd : ∀ key socket maxIdle now, call = .addSession key socket maxIdle now → order.lookup key = none := by
          rintro key socket maxIdle now rfl
          rcases hphase with ⟨_, _, _, _, ht, he⟩ | ⟨-, hnot⟩
          · cases he
            rw [AList.perm_lookup hperm]
            exact h.missing t id key socket maxIdle now ht
          · exact absurd rfl (hnot key socket maxIdle now)
        obtain ⟨hid, hcall⟩ : (s.threads t).id? = some id ∧ o.calls id = .called call := by
          rcases hphase with ⟨key, socket, maxIdle, now, ht, rfl⟩ | ⟨ht, -⟩
          all_goals
            have hid : (s.threads t).id? = some id := by rw [ht]; rfl
            have hcall := hcalls t id hid
            rw [ht] at hcall
            exact ⟨hid, hcall⟩
        obtain ⟨htable, hfired⟩ := order.perform_eq hadd
        obtain ⟨o', ho', hst, hafter⟩ :=
          h.calls.commit UserSessionManager.operate (.done id (order.perform call).2) hid hcall rfl
            (by rw [h.table, ← hsame, ← hfired]; rfl)
        refine ⟨o', ⟨hafter, by rw [hst, h.table, ← hsame, htable], single_update h.single (fun ha => by cases ha),
          missing_update (fun u id' key socket maxIdle now hut hu => ?_) fun _ _ _ _ _ he => by cases he⟩,
          .inr ⟨.commit id, ho'⟩⟩
        rcases hphase with ⟨_, _, _, _, ht, -⟩ | ⟨-, hnot⟩
        · -- nobody else adds
          exact absurd (h.single u t (by rw [hu]; trivial) (by rw [ht]; trivial)) hut
        · rw [← SessionTable.sessions_apply, htable, hsame]
          exact UserSessionManager.operate_eq_none (h.missing u id' key socket maxIdle now hu) hnot
      · cases hs
    · cases hs
  | ret t =>
    simp only [SessionThreads.step] at hs
    split at hs
    · next id fired ht =>
      cases hs
      have hcall := hcalls t id (by rw [ht]; rfl)
      rw [ht] at hcall
      obtain ⟨o', ho', hst, hafter⟩ :=
        h.calls.ret UserSessionManager.operate .idle (by rw [ht]; rfl) hcall rfl
      exact ⟨o', ⟨hafter, hst.trans h.table, single_update h.single (fun ha => by cases ha),
        missing_update (hmissing t) fun _ _ _ _ _ he => by cases he⟩, .inr ⟨.ret id, ho'⟩⟩
    · cases hs

/-- **The session table is linearizable** while one thread at a time adds:
whatever the other threads do between the two sections of an `add_session`,
the calls take effect one after the other as they do in one step each, in an
order that respects real time, and the table holds what they leave. -/
theorem sessions_linearizable (h : Runs.Reach step OneAdder start s) :
    ∃ order, Linearizes UserSessionManager.operate (fun _ => none) s.history order s.table.sessions := by
  have hsim : ∃ o, Simulates s o ∧
      Runs.Reach (Object.step UserSessionManager.operate) (fun _ _ => True) (.start fun _ => none) o := by
    refine h.simulate Simulates .start fun s o l s' hso ho hs => ?_
    obtain ⟨o', hso', he | ⟨a, ha⟩⟩ := hso.step ho hs
    · exact ⟨o', hso', .inl he⟩
    · exact ⟨o', hso', .inr ⟨a, trivial, ha⟩⟩
  obtain ⟨o, hso, ho⟩ := hsim
  rw [← hso.table, ← hso.calls.history]
  exact ⟨_, (Object.Sound.reach ho).linearizes⟩

/-- Between the accept thread's two sections a handler's update, of the same
key, does nothing; the session it then inserts is swept. -/
theorem sessions_linearizable_example : ∃ s : SessionThreads (Fin 3) Nat, s.history.length = 6 ∧
    ∃ order, Linearizes UserSessionManager.operate (fun _ => none) s.history order s.table.sessions := by
  have h₀ : Runs.Reach step OneAdder (start : SessionThreads (Fin 3) Nat) _ := .start
  have h₁ := h₀.next (l := .call 0 (.addSession ⟨1, 1⟩ 7 240 5)) (by rintro u hu; exact hu) rfl
  have h₂ := h₁.exec [.find 0, .call 1 (.updateActivity ⟨1, 1⟩ 6), .write 1 ∅, .ret 1, .write 0 ∅, .ret 0] rfl
    (by simp [OneAdder])
  have h₃ := h₂.exec [.call 2 (.cleanupExpiredSessions fun _ => 240000000006),
    .write 2 (AList.insert ⟨1, 1⟩ ⟨7, 5, 240⟩ ∅), .ret 2] rfl (by simp [OneAdder])
  exact ⟨_, rfl, sessions_linearizable h₃⟩

end SessionThreads

end KvDatabase
