/-
Whose socket a number is, when somebody uses it.

A job keeps its connection and uses the number in it; the drain of
`expiredSockets` uses a number from a queue. Neither knows whether the number
has been closed since and given to a later client. What keeps them on their
own client is only that the kernel does not give out a number somebody still
holds: the two theorems say for whom that is enough
(`jobs_use_own_socket`, `drain_closes_expired`), and the two runs after them
what happens else.

For the jobs the invariant is that a connection's turn is in one place
(`Turns`): armed in epoll, reported in the batch, or in one job. For the
drain it is that every stored number is still its client's or nobody's
(`Stored`).
-/
import KvDatabase.Connections

namespace KvDatabase

/-- The sockets of the events still to handle. -/
def LoopPc.pending : LoopPc → List SocketType
  | .dispatching events | .eventClosing _ _ events => events.map Prod.fst
  | _ => []

/-- The same, with the one that is being closed. -/
def LoopPc.sockets : LoopPc → List SocketType
  | .dispatching events => events.map Prod.fst
  | .eventClosing sock _ events => sock :: events.map Prod.fst
  | _ => []

/-- What the drain has still to close. -/
def LoopPc.toClose : LoopPc → List Handle
  | .draining close => close
  | .drainClosing h _ close => h :: close
  | _ => []

/-- A number that is still whose it was, or closed, is its client's or nobody's. -/
theorem Access.Own.shrink {a b : Access} (h : a.Own) (hb : b.owner = none ∨ b.owner = a.owner)
    (hh : b.handle = a.handle) : b.Own := by
  rcases hb with hb | hb
  · exact .inl hb
  · rw [Access.Own, hb, hh]
    exact h

namespace Server

variable {s s' : Server}

/-- The connection that a job, queued or running, was created for. -/
def held (s : Server) (i : JobId) : Option Connection := (s.jobs i).map Job.conn

@[simp] theorem held_setJob (s : Server) (i : JobId) (job : Option Job) :
    (s.setJob i job).held = Function.update s.held i (job.map Job.conn) := by
  funext j
  by_cases hj : j = i
  · subst hj; simp [held, setJob]
  · simp [held, setJob, hj]

/-- What a job holds once `i` was set: it is `i`, or it held that before. -/
theorem held_of_setJob {i j : JobId} {job : Option Job} {conn : Connection}
    (h : (s.setJob i job).held j = some conn) :
    (j = i ∧ job.map Job.conn = some conn) ∨ (j ≠ i ∧ s.held j = some conn) := by
  rw [held_setJob] at h
  by_cases hji : j = i
  · rw [hji, Function.update_self] at h
    exact .inl ⟨hji, h⟩
  · rw [Function.update_of_ne hji] at h
    exact .inr ⟨hji, h⟩

/-- A job that goes on holds what it held. -/
theorem held_setJob_same {i : JobId} {conn : Connection} (h : s.held i = some conn) (pc : JobPc) :
    (s.setJob i (some ⟨conn, pc⟩)).held = s.held := by
  rw [held_setJob, Option.map_some, ← h, Function.update_eq_self]

theorem held_of_jobs {i : JobId} {job : Job} (h : s.jobs i = some job) : s.held i = some job.conn := by
  rw [held, h, Option.map_some]

/-- A stage of `closeConnection` writes the kernel's tables, the sessions and
the connections, and nothing else. -/
theorem closeConnection_frame (s : Server) (sock stage) :
    (s.closeConnection sock stage).1 =
      { s with
        kernel := (s.closeConnection sock stage).1.kernel
        users := (s.closeConnection sock stage).1.users
        connections := (s.closeConnection sock stage).1.connections } := by
  cases stage with
  | dropSession => rw [closeConnection]; split <;> rfl
  | unwatch | erase | close => rfl

@[simp] theorem closeConnection_loop (s : Server) (sock stage) : (s.closeConnection sock stage).1.loop = s.loop := by
  rw [closeConnection_frame]

@[simp] theorem closeConnection_jobs (s : Server) (sock stage) : (s.closeConnection sock stage).1.jobs = s.jobs := by
  rw [closeConnection_frame]

@[simp] theorem held_closeConnection (s : Server) (sock stage) : (s.closeConnection sock stage).1.held = s.held := by
  rw [closeConnection_frame]
  rfl

/-- Closing a connection adds no session. -/
theorem users_closeConnection {sock : SocketType} {stage : CloseStage} {key : SessionKey} {session : UserSession Handle}
    (h : (s.closeConnection sock stage).1.users key = some session) : s.users key = some session := by
  cases stage with
  | unwatch | erase | close => exact h
  | dropSession =>
    rw [closeConnection] at h
    split at h
    · exact UserSessionManager.removeSession_eq_some h
    · exact h

/-! ## Jobs -/

/-- Each connection's turn is in one place, and each number in use is its
client's, or closed. -/
structure Turns (s : Server) : Prop where
  numbered : ∀ x conn, s.connections x = some conn → conn.socket.num = x
  connected : ∀ x conn, s.kernel.epoll x ≠ none → s.connections x = some conn →
    s.kernel.owner x = some conn.socket.client
  reported : ∀ x ∈ s.loop.pending, s.kernel.epoll x = some .muted
  distinct : s.loop.sockets.Nodup
  token : ∀ i conn, s.held i = some conn →
    conn.socket.num ∉ s.loop.pending ∧ s.kernel.epoll conn.socket.num ≠ some .armed
  single : ∀ i j conn conn', s.held i = some conn → s.held j = some conn' →
    conn.socket.num = conn'.socket.num → i = j
  own : ∀ i conn, s.held i = some conn → (s.access conn.socket).Own
  /-- What has just been accepted is not watched, and no job holds it. -/
  fresh : ∀ h, s.acceptor.handle = some h → s.kernel.epoll h.num = none ∧ (s.access h).Own ∧
    ∀ i conn, s.held i = some conn → conn.socket.num ≠ h.num
  registered : ∀ h key, s.acceptor = .registered h key → ∀ conn, s.connections h.num = some conn →
    conn.socket.client = h.client
  accesses : ∀ a ∈ s.accesses, a.Own

namespace Turns

theorem start : Turns start where
  numbered := by simp [Server.start]
  connected := by simp [Server.start]
  reported := by simp [Server.start, LoopPc.pending]
  distinct := by simp [Server.start, LoopPc.sockets]
  token := by simp [Server.start, held]
  single := by simp [Server.start, held]
  own := by simp [Server.start, held]
  fresh := by simp [Server.start, AcceptPc.handle]
  registered := by simp [Server.start]
  accesses := by simp [Server.start]

/-- A job that goes on. -/
theorem setJob {i : JobId} {conn : Connection} (h : Turns s) (hi : s.held i = some conn) (pc : JobPc) :
    Turns (s.setJob i (some ⟨conn, pc⟩)) := by
  have hh := held_setJob_same hi pc
  exact { h with
    token := by rw [hh]; exact h.token
    single := by rw [hh]; exact h.single
    own := by rw [hh]; exact h.own
    fresh := by rw [hh]; exact h.fresh }

/-- A job that ends. -/
theorem endJob (h : Turns s) (i : JobId) : Turns (s.setJob i none) := by
  have hh : ∀ j conn, (s.setJob i none).held j = some conn → s.held j = some conn := by
    intro j conn hj
    rcases held_of_setJob hj with ⟨-, hn⟩ | ⟨-, hj⟩
    · cases hn
    · exact hj
  exact { h with
    token := fun j conn hj => h.token j conn (hh j conn hj)
    single := fun j j' conn conn' hj hj' => h.single j j' conn conn' (hh j conn hj) (hh j' conn' hj')
    own := fun j conn hj => h.own j conn (hh j conn hj)
    fresh := fun a ha => ⟨(h.fresh a ha).1, (h.fresh a ha).2.1,
      fun j conn hj => (h.fresh a ha).2.2 j conn (hh j conn hj)⟩ }

theorem logAccess {i : JobId} {conn : Connection} (h : Turns s) (hi : s.held i = some conn) :
    Turns (s.logAccess conn) :=
  { h with
    accesses := fun a ha => by
      rcases List.mem_append.mp ha with ha | ha
      · exact h.accesses a ha
      · rw [List.mem_singleton.mp ha]
        exact h.own i conn hi }

/-- The event loop moves on. -/
theorem setLoop (h : Turns s) {loop : LoopPc} (hp : ∀ x ∈ loop.pending, x ∈ s.loop.pending)
    (hd : loop.sockets.Nodup) : Turns { s with loop } :=
  { h with
    reported := fun x hx => h.reported x (hp x hx)
    distinct := hd
    token := fun i conn hi => ⟨fun hm => (h.token i conn hi).1 (hp _ hm), (h.token i conn hi).2⟩ }

/-- The kernel takes sockets away, none of those reported. -/
theorem shrink (h : Turns s) {kernel : Kernel} (ho : ∀ x, kernel.owner x = none ∨ kernel.owner x = s.kernel.owner x)
    (he : ∀ x, kernel.epoll x = s.kernel.epoll x ∨ (kernel.epoll x = none ∧ x ∉ s.loop.pending)) :
    Turns { s with kernel } :=
  { h with
    connected := fun x conn hx hc => by
      have hne : s.kernel.epoll x ≠ none := by
        rcases he x with he | he
        · exact he ▸ hx
        · exact absurd he.1 hx
      exact ((ho x).resolve_left (kernel.watched x hx)).trans (h.connected x conn hne hc)
    reported := fun x hx => ((he x).resolve_right fun he => he.2 hx).trans (h.reported x hx)
    token := fun i conn hi => ⟨(h.token i conn hi).1, by
      rcases he conn.socket.num with he | he
      · exact he ▸ (h.token i conn hi).2
      · simp [he.1]⟩
    own := fun i conn hi => (h.own i conn hi).shrink (ho _) rfl
    fresh := fun a ha => by
      obtain ⟨hn, hown, hj⟩ := h.fresh a ha
      refine ⟨?_, hown.shrink (ho _) rfl, hj⟩
      rcases he a.num with he | he
      · exact he.trans hn
      · exact he.1 }

/-- Closing a socket, or a stage of it. -/
theorem closeSocket (h : Turns s) {sock : SocketType} (hp : sock ∉ s.loop.pending) :
    Turns { s with kernel := s.kernel.close sock } := by
  refine h.shrink (fun x => ?_) fun x => ?_
  · by_cases hx : x = sock <;> simp [hx]
  · by_cases hx : x = sock
    · subst hx; exact .inr ⟨by simp, hp⟩
    · simp [hx]

theorem closeConnection (h : Turns s) {sock : SocketType} (hp : sock ∉ s.loop.pending) (stage : CloseStage) :
    Turns (s.closeConnection sock stage).1 := by
  cases stage with
  | unwatch =>
    refine h.shrink (fun x => .inr rfl) fun x => ?_
    by_cases hx : x = sock
    · subst hx; exact .inr ⟨by simp, hp⟩
    · simp [hx]
  | dropSession =>
    rw [Server.closeConnection]
    split
    · exact { h with }
    · exact h
  | erase =>
    have hc : ∀ x conn, Function.update s.connections sock none x = some conn → s.connections x = some conn := by
      intro x conn hx
      by_cases hxs : x = sock
      · rw [hxs, Function.update_self] at hx; cases hx
      · rwa [Function.update_of_ne hxs] at hx
    exact { h with
      numbered := fun x conn hx => h.numbered x conn (hc x conn hx)
      connected := fun x conn he hx => h.connected x conn he (hc x conn hx)
      registered := fun a key ha conn hx => h.registered a key ha conn (hc _ conn hx) }
  | close => exact h.closeSocket hp

/-- A number nobody holds is given to a new client. -/
theorem accept (h : Turns s) {num : SocketType} {key : SessionKey} (ho : s.kernel.owner num = none)
    (hfree : ∀ i conn, s.held i = some conn → conn.socket.num ≠ num) :
    Turns { s with
      kernel := s.kernel.openFor num s.clients
      clients := s.clients + 1
      acceptor := .accepted ⟨num, s.clients⟩ key } := by
  have hepoll : s.kernel.epoll num = none := not_not.mp fun hne => s.kernel.watched num hne ho
  exact { h with
    connected := fun x conn hx hc => by
      have hxn : x ≠ num := fun he => hx (he ▸ hepoll)
      simpa [hxn] using h.connected x conn hx hc
    own := fun i conn hi => by
      simpa [access, Access.Own, hfree i conn hi] using h.own i conn hi
    fresh := fun a ha => by
      cases ha
      exact ⟨hepoll, .inr (by simp [access]), hfree⟩
    registered := fun a key ha => by cases ha }

/-- The accept thread goes on with the client it has. -/
theorem setAcceptor (h : Turns s) {acceptor : AcceptPc} (ha : ∀ a, acceptor.handle = some a → s.acceptor.handle = some a)
    (hr : ∀ a key, acceptor ≠ .registered a key) : Turns { s with acceptor } :=
  { h with
    fresh := fun a he => h.fresh a (ha a he)
    registered := fun a key he => absurd he (hr a key) }

theorem register (h : Turns s) {a : Handle} {key : SessionKey} (ha : s.acceptor = .added a key)
    (commandBuffer : ClientId → Bytes) :
    Turns { s with
      connections := Function.update s.connections a.num (some ⟨a, key⟩)
      commandBuffer
      acceptor := .registered a key } := by
  have hfresh := h.fresh a (by rw [ha]; rfl)
  exact { h with
    numbered := fun x conn hx => by
      by_cases hxa : x = a.num
      · subst hxa
        simp only [Function.update_self, Option.some.injEq] at hx
        exact hx ▸ rfl
      · exact h.numbered x conn (by simpa [hxa] using hx)
    connected := fun x conn he hx => by
      have hxa : x ≠ a.num := fun heq => he (heq ▸ hfresh.1)
      exact h.connected x conn he (by simpa [hxa] using hx)
    fresh := fun b hb => by cases hb; exact hfresh
    registered := fun b key' hb conn hx => by
      cases hb
      simp only [Function.update_self, Option.some.injEq] at hx
      exact hx ▸ rfl }

theorem watch (h : Turns s) {a : Handle} {key : SessionKey} (ha : s.acceptor = .registered a key) (ok : Bool) :
    Turns { s with kernel := if ok then s.kernel.watch a.num else s.kernel, acceptor := .idle } := by
  have hidle : Turns { s with acceptor := .idle } := h.setAcceptor (by simp [AcceptPc.handle]) (by simp)
  cases ok with
  | false => exact hidle
  | true =>
    rcases s.kernel.watch_cases a.num with hw | ⟨ho, he, howner, hepoll⟩
    · rw [if_pos rfl, hw]
      exact hidle
    · obtain ⟨-, hown, hfree⟩ := h.fresh a (by rw [ha]; rfl)
      exact { hidle with
        connected := fun x conn hx hc => by
          simp only [if_true, howner]
          by_cases hxa : x = a.num
          · subst hxa
            rw [h.registered a key ha conn hc]
            exact hown.resolve_left ho
          · exact h.connected x conn (by simpa [hepoll, hxa] using hx) hc
        reported := fun x hx => by
          have hxa : x ≠ a.num := fun heq => by
            have hm := h.reported x hx
            rw [heq, he] at hm
            cases hm
          simpa [hepoll, hxa] using h.reported x hx
        token := fun i conn hi => ⟨(h.token i conn hi).1, by
          simpa [hepoll, hfree i conn hi] using (h.token i conn hi).2⟩
        own := fun i conn hi => by
          simpa [access, Access.Own, howner] using h.own i conn hi
        fresh := fun b hb => by cases hb }

/-- What `epoll_wait` reports is muted, and is in the batch. -/
theorem wait (h : Turns s) {events : List (SocketType × IOEvent)} (hd : (events.map Prod.fst).Nodup)
    (harmed : ∀ x ∈ events.map Prod.fst, s.kernel.epoll x = some .armed) :
    Turns { s with kernel := s.kernel.report (events.map Prod.fst), loop := .dispatching events } := by
  have hnot : ∀ x, s.kernel.epoll x ≠ some .armed → (s.kernel.report (events.map Prod.fst)).epoll x = s.kernel.epoll x :=
    fun x hx => if_neg fun hm => hx (harmed x hm)
  exact { h with
    connected := fun x conn hx hc => by
      refine h.connected x conn (fun hn => hx ?_) hc
      rw [hnot x (by simp [hn]), hn]
    reported := fun x hx => by
      change x ∈ events.map Prod.fst at hx
      rw [Kernel.report_epoll, if_pos hx, harmed x hx]
      rfl
    distinct := hd
    token := fun i conn hi => by
      have ht := (h.token i conn hi).2
      exact ⟨fun hm => ht (harmed _ hm), by rw [hnot _ ht]; exact ht⟩
    fresh := fun a ha => by
      have hn := (h.fresh a ha).1
      exact ⟨by rw [hnot _ (by simp [hn]), hn], (h.fresh a ha).2⟩ }

/-- The event loop comes to the next event. -/
theorem nextEvent (h : Turns s) {sock : SocketType} {event : IOEvent} {events : List (SocketType × IOEvent)}
    (hl : s.loop = .dispatching ((sock, event) :: events)) :
    sock ∉ events.map Prod.fst ∧ Turns { s with loop := .dispatching events } := by
  have hd := h.distinct
  rw [hl] at hd
  refine ⟨(List.nodup_cons.mp hd).1, h.setLoop (fun x hx => ?_) (List.nodup_cons.mp hd).2⟩
  rw [hl]
  exact List.mem_cons_of_mem _ hx

/-- The turn passes from the batch to a new job. -/
theorem dispatch (h : Turns s) {sock : SocketType} {event : IOEvent} {events : List (SocketType × IOEvent)}
    (hl : s.loop = .dispatching ((sock, event) :: events)) {i : JobId} {conn : Connection}
    (hc : s.connections sock = some conn) :
    Turns ({ s with loop := .dispatching events }.setJob i (some ⟨conn, .queued⟩)) := by
  have hpending : s.loop.pending = sock :: events.map Prod.fst := by rw [hl]; rfl
  obtain ⟨hsock, hloop⟩ := h.nextEvent hl
  have hnum : conn.socket.num = sock := h.numbered sock conn hc
  have hmuted : s.kernel.epoll sock = some .muted := h.reported sock (by rw [hpending]; exact List.mem_cons_self)
  -- No job holds the number yet, as it was in the batch.
  have hother : ∀ j conn', s.held j = some conn' → conn'.socket.num ≠ sock := fun j conn' hj he =>
    (h.token j conn' hj).1 (by rw [he, hpending]; exact List.mem_cons_self)
  have hheld : ∀ j conn', ({ s with loop := .dispatching events }.setJob i (some ⟨conn, .queued⟩)).held j = some conn' →
      (j = i ∧ conn' = conn) ∨ s.held j = some conn' := by
    intro j conn' hj
    rcases held_of_setJob hj with ⟨hji, hj⟩ | ⟨-, hj⟩
    · exact .inl ⟨hji, (Option.some.inj hj).symm⟩
    · exact .inr hj
  exact { hloop with
    token := fun j conn' hj => by
      rcases hheld j conn' hj with ⟨-, rfl⟩ | hj
      · exact ⟨hnum ▸ hsock, by rw [hnum]; exact fun he => by cases hmuted.symm.trans he⟩
      · exact hloop.token j conn' hj
    single := fun j j' conn₁ conn₂ hj hj' he => by
      rcases hheld j conn₁ hj with ⟨hji, rfl⟩ | h₁ <;> rcases hheld j' conn₂ hj' with ⟨hji', rfl⟩ | h₂
      · exact hji.trans hji'.symm
      · exact absurd (he.symm.trans hnum) (hother j' conn₂ h₂)
      · exact absurd (he.trans hnum) (hother j conn₁ h₁)
      · exact h.single j j' conn₁ conn₂ h₁ h₂ he
    own := fun j conn' hj => by
      rcases hheld j conn' hj with ⟨-, rfl⟩ | hj
      · refine .inr ?_
        have := h.connected sock conn' (by simp [hmuted]) hc
        rwa [← hnum] at this
      · exact h.own j conn' hj
    fresh := fun a ha => by
      obtain ⟨hn, hown, hfree⟩ := h.fresh a ha
      refine ⟨hn, hown, fun j conn' hj => ?_⟩
      rcases hheld j conn' hj with ⟨-, rfl⟩ | hj
      · intro he
        rw [← he, hnum, hmuted] at hn
        cases hn
      · exact hfree j conn' hj }

/-- The turn passes from a job back to epoll. -/
theorem rearm (h : Turns s) {i : JobId} {conn : Connection} (hi : s.held i = some conn) {kernel : Kernel}
    (hk : s.kernel.rearm conn.socket.num = some kernel) : Turns ({ s with kernel }.setJob i none) := by
  obtain ⟨hne, howner, hepoll⟩ := Kernel.rearm_eq_some hk
  have hend := h.endJob i
  have hheld : ∀ j conn', (s.setJob i none).held j = some conn' →
      s.held j = some conn' ∧ conn'.socket.num ≠ conn.socket.num := by
    intro j conn' hj
    rcases held_of_setJob hj with ⟨-, hn⟩ | ⟨hji, hj⟩
    · cases hn
    · exact ⟨hj, fun he => hji (h.single j i conn' conn hj hi he)⟩
  exact { hend with
    connected := fun x conn' hx hc => by
      have hxe : s.kernel.epoll x ≠ none := by
        by_cases hxn : x = conn.socket.num
        · exact hxn ▸ hne
        · simpa [Server.setJob, hepoll, hxn] using hx
      exact (congrFun howner x).trans (h.connected x conn' hxe hc)
    reported := fun x hx => by
      have hxn : x ≠ conn.socket.num := fun he => (h.token i conn hi).1 (he ▸ hx)
      simpa [Server.setJob, hepoll, hxn] using h.reported x hx
    token := fun j conn' hj => by
      obtain ⟨hj, hne⟩ := hheld j conn' hj
      exact ⟨(h.token j conn' hj).1, by simpa [Server.setJob, hepoll, hne] using (h.token j conn' hj).2⟩
    own := fun j conn' hj => by
      simpa [access, Access.Own, Server.setJob, howner] using h.own j conn' (hheld j conn' hj).1
    fresh := fun a ha => by
      obtain ⟨hn, hown, hfree⟩ := h.fresh a ha
      refine ⟨?_, ?_, fun j conn' hj => hfree j conn' (hheld j conn' hj).1⟩
      · simpa [Server.setJob, hepoll, (hfree i conn hi).symm] using hn
      · simpa [access, Access.Own, Server.setJob, howner] using hown }

end Turns

/-- The kernel does not give out a number that a job, queued or running, was
created with. -/
def NotHeld (s : Server) : ServerStep → Prop
  | .accept num _ => ∀ i conn, s.held i = some conn → conn.socket.num ≠ num
  | _ => True

theorem Turns.step (h : Turns s) {l : ServerStep} (hc : s.NotHeld l) (hs : s.step l = some s') : Turns s' := by
  cases l with
  | tick now => obtain ⟨-, rfl⟩ := step_tick hs; exact { h with }
  | accept num key =>
    obtain ⟨-, ho, rfl⟩ := step_accept hs
    exact h.accept ho hc
  | refuse =>
    obtain ⟨a, ha, rfl⟩ := step_refuse hs
    have hp : a.num ∉ s.loop.pending := fun hm => by
      have hr := h.reported _ hm
      rw [(h.fresh a ha).1] at hr
      cases hr
    exact (h.closeSocket hp).setAcceptor (by simp [AcceptPc.handle]) (by simp)
  | addSession =>
    obtain ⟨a, key, ha, rfl⟩ := step_addSession hs
    have h' : Turns { s with users := s.users.addSession a key s.now } := { h with }
    exact h'.setAcceptor (by simp [AcceptPc.handle, ha]) (by simp)
  | drop =>
    obtain ⟨a, key, ha, rfl⟩ := step_drop hs
    have h' : Turns { s with users := s.users.removeSession key } := { h with }
    exact h'.setAcceptor (by simp [AcceptPc.handle, ha]) (by simp)
  | register => obtain ⟨a, key, ha, rfl⟩ := step_register hs; exact h.register ha _
  | watch ok => obtain ⟨a, key, ha, rfl⟩ := step_watch hs; exact h.watch ha ok
  | sweep key =>
    rcases step_sweep hs with rfl | ⟨session, -, -, rfl⟩
    · exact h
    · exact { h with }
  | swapExpired =>
    obtain ⟨-, rfl⟩ := step_swapExpired hs
    have h' : Turns { s with expiredSockets := [] } := { h with }
    exact h'.setLoop (by simp [LoopPc.pending]) (by simp [LoopPc.sockets])
  | drainNext =>
    obtain ⟨a, close, -, rfl⟩ := step_drainNext hs
    exact h.setLoop (by simp [LoopPc.pending]) (by simp [LoopPc.sockets])
  | drainDone =>
    obtain ⟨-, rfl⟩ := step_drainDone hs
    exact h.setLoop (by simp [LoopPc.pending]) (by simp [LoopPc.sockets])
  | loopClose =>
    rcases step_loopClose hs with ⟨a, stage, close, hl, rfl⟩ | ⟨sock, stage, events, hl, rfl⟩
    · have h' : Turns (s.logDrain a) := { h with }
      refine (h'.closeConnection (by simp [logDrain, hl, LoopPc.pending]) stage).setLoop ?_ ?_
      · cases ((s.logDrain a).closeConnection a.num stage).2 <;> simp [LoopPc.pending]
      · cases ((s.logDrain a).closeConnection a.num stage).2 <;> simp [LoopPc.sockets]
    · have hd := h.distinct
      rw [hl] at hd
      have hsock : sock ∉ events.map Prod.fst := (List.nodup_cons.mp hd).1
      refine (h.closeConnection (by rw [hl]; exact hsock) stage).setLoop ?_ ?_
      · rw [closeConnection_loop, hl]
        cases (s.closeConnection sock stage).2 <;> simp [LoopPc.pending]
      · cases (s.closeConnection sock stage).2 with
        | none => exact (List.nodup_cons.mp hd).2
        | some next => exact hd
  | wait events => obtain ⟨-, hd, harmed, rfl⟩ := step_wait hs; exact h.wait hd harmed
  | waitFailed =>
    obtain ⟨-, rfl⟩ := step_waitFailed hs
    exact h.setLoop (by simp [LoopPc.pending]) (by simp [LoopPc.sockets])
  | dispatch i =>
    obtain ⟨sock, events, hl, -, hc⟩ := step_dispatch hs
    rcases hc with ⟨-, rfl⟩ | ⟨conn, hc, rfl⟩
    · exact (h.nextEvent hl).2
    · exact h.dispatch hl hc
  | hangUp =>
    obtain ⟨sock, event, events, hl, rfl⟩ := step_hangUp hs
    have hd := h.distinct
    rw [hl] at hd
    exact h.setLoop (fun x hx => by rw [hl]; exact List.mem_cons_of_mem _ hx) hd
  | eventsDone =>
    obtain ⟨-, rfl⟩ := step_eventsDone hs
    exact h.setLoop (by simp [LoopPc.pending]) (by simp [LoopPc.sockets])
  | run i =>
    obtain ⟨conn, hj, rfl⟩ := step_run hs
    exact h.setJob (held_of_jobs hj) _
  | recv i r =>
    obtain ⟨conn, hj, -, rfl⟩ := step_recv hs
    have hi := held_of_jobs hj
    have h' : Turns { s.logAccess conn with
        commandBuffer := Function.update s.commandBuffer conn.socket.client
          (receive (s.commandBuffer conn.socket.client) r).1 } := { h.logAccess hi with }
    exact h'.setJob hi _
  | execute i =>
    obtain ⟨conn, message, hj, rfl⟩ := step_execute hs
    have h' : Turns { s with users := s.users.updateActivity conn.sessionKey s.now } := { h with }
    exact h'.setJob (held_of_jobs hj) _
  | send i =>
    obtain ⟨conn, hj, rfl⟩ := step_send hs
    exact (h.logAccess (held_of_jobs hj)).setJob (held_of_jobs hj) _
  | rearm i ok =>
    obtain ⟨conn, hj, hr⟩ := step_rearm hs
    have hi := held_of_jobs hj
    rcases hr with ⟨-, kernel, hk, rfl⟩ | ⟨-, rfl⟩
    · exact (h.logAccess hi).rearm hi hk
    · exact (h.logAccess hi).setJob hi _
  | jobClose i =>
    obtain ⟨conn, stage, hj, rfl⟩ := step_jobClose hs
    have hi := held_of_jobs hj
    have h' := (h.logAccess hi).closeConnection (h.token i conn hi).1 stage
    cases ((s.logAccess conn).closeConnection conn.socket.num stage).2 with
    | none => exact h'.endJob i
    | some next => exact h'.setJob (by rw [held_closeConnection]; exact hi) _

/-- **A handler only uses its own client's socket**, in every run in which
`accept` never returns a number that a queued or running job still has: each
`recv`, `send`, `rearm` and close of a job is on the client its connection
was made for, or on a number that is closed. -/
theorem jobs_use_own_socket (h : Runs.Reach Server.step NotHeld Server.start s) : ∀ a ∈ s.accesses, a.Own :=
  (h.invariant Turns .start fun _ _ _ hi hc hs => hi.step hc hs).accesses

/-- A client whose job runs to its reply. -/
theorem jobs_use_own_socket_example :
    ∃ s, Runs.Reach Server.step NotHeld Server.start s ∧ s.accesses ≠ [] ∧ ∀ a ∈ s.accesses, a.Own := by
  let ls : List ServerStep := [.addSession, .register, .watch true, .swapExpired, .drainDone, .wait [(5, .readable)],
    .dispatch 0, .run 0, .recv 0 (.data ⟨ascii "GET a\n", by decide, by decide⟩), .execute 0, .send 0]
  have hfree : NotHeld start (.accept 5 ⟨1, 1⟩) := by simp [NotHeld, Server.start, held]
  have h : Runs.Reach Server.step NotHeld Server.start _ :=
    (Runs.Reach.start.next hfree rfl).exec ls rfl (by simp [ls, NotHeld])
  exact ⟨_, h, by decide, jobs_use_own_socket h⟩

/-- A job waits while its client's session expires and its socket is closed.
One client comes by the number that the waiting `accept` had taken already,
the next by the job's, and the job reads its bytes and answers. -/
theorem jobs_use_own_socket_fails :
    ∃ s, Runs.Reach Server.step (fun _ _ => True) Server.start s ∧ ¬ ∀ a ∈ s.accesses, a.Own := by
  let ls : List ServerStep := [.accept 5 ⟨1, 1⟩, .addSession, .register, .watch true, .swapExpired, .drainDone,
    .wait [(5, .readable)], .dispatch 0, .eventsDone, .tick 240000000001, .sweep ⟨1, 1⟩, .swapExpired, .drainNext,
    .loopClose, .loopClose, .loopClose, .loopClose, .accept 6 ⟨3, 3⟩, .addSession, .register, .watch true,
    .accept 5 ⟨2, 2⟩, .run 0, .recv 0 (.data ⟨ascii "GET a\n", by decide, by decide⟩), .execute 0, .send 0]
  have h : Runs.Reach Server.step (fun _ _ => True) Server.start _ := Runs.Reach.start.exec ls rfl (by simp)
  refine ⟨_, h, fun hall => ?_⟩
  have hrecv := hall ⟨⟨5, 0⟩, some 2⟩ (by decide)
  simp [Access.Own] at hrecv

/-! ## The drain -/

/-- Every number stored for later, in the queue, in the drain or in a
session, is its client's, or closed; what is queued was found expired. -/
structure Stored (s : Server) : Prop where
  queued : ∀ h ∈ s.expiredSockets ++ s.loop.toClose, h ∈ s.expired ∧ (s.access h).Own
  sessions : ∀ key session, s.users key = some session → (s.access session.userSocket).Own
  accepting : ∀ h, s.acceptor.handle = some h → (s.access h).Own
  drained : ∀ a ∈ s.drained, a.handle ∈ s.expired ∧ a.Own

theorem owner_closeConnection (s : Server) (sock stage) (x : SocketType) :
    (s.closeConnection sock stage).1.kernel.owner x = none ∨
      (s.closeConnection sock stage).1.kernel.owner x = s.kernel.owner x := by
  cases stage with
  | unwatch | erase => exact .inr rfl
  | dropSession => rw [closeConnection]; split <;> exact .inr rfl
  | close =>
    by_cases hx : x = sock <;> simp [closeConnection, hx]

namespace Stored

theorem start : Stored start where
  queued := by simp [Server.start, LoopPc.toClose]
  sessions := by simp [Server.start]
  accepting := by simp [Server.start, AcceptPc.handle]
  drained := by simp [Server.start]

/-- A step that gives no number to anybody and stores none anew. -/
theorem of_le (h : Stored s) (ho : ∀ x, s'.kernel.owner x = none ∨ s'.kernel.owner x = s.kernel.owner x)
    (hq : ∀ a ∈ s'.expiredSockets ++ s'.loop.toClose, a ∈ s.expiredSockets ++ s.loop.toClose)
    (hu : ∀ key session, s'.users key = some session →
      ∃ before, s.users key = some before ∧ session.userSocket = before.userSocket)
    (ha : ∀ a, s'.acceptor.handle = some a → s.acceptor.handle = some a) (he : s'.expired = s.expired)
    (hd : s'.drained = s.drained) : Stored s' where
  queued a hm := by
    obtain ⟨hx, hown⟩ := h.queued a (hq a hm)
    exact ⟨he ▸ hx, hown.shrink (ho _) rfl⟩
  sessions key session hs := by
    obtain ⟨before, hb, heq⟩ := hu key session hs
    exact heq ▸ (h.sessions key before hb).shrink (ho _) rfl
  accepting a hh := (h.accepting a (ha a hh)).shrink (ho _) rfl
  drained a hm := by
    rw [he]
    exact h.drained a (hd ▸ hm)

/-- A step of some thread that only moves it on. -/
theorem of_same (h : Stored s) (ho : s'.kernel.owner = s.kernel.owner)
    (hq : ∀ a ∈ s'.expiredSockets ++ s'.loop.toClose, a ∈ s.expiredSockets ++ s.loop.toClose)
    (hu : s'.users = s.users) (ha : ∀ a, s'.acceptor.handle = some a → s.acceptor.handle = some a)
    (he : s'.expired = s.expired) (hd : s'.drained = s.drained) : Stored s' :=
  h.of_le (fun x => .inr (congrFun ho x)) hq (fun _ session hs => ⟨session, hu ▸ hs, rfl⟩) ha he hd

/-- The event loop moves on. -/
theorem setLoop (h : Stored s) {loop : LoopPc} (hq : ∀ a ∈ loop.toClose, a ∈ s.loop.toClose) :
    Stored { s with loop } :=
  { h with
    queued := fun a ha => h.queued a <| by
      rcases List.mem_append.mp ha with ha | ha
      · exact List.mem_append_left _ ha
      · exact List.mem_append_right _ (hq a ha) }

/-- A number that nothing stores is given to a new client. -/
theorem accept (h : Stored s) {num : SocketType} {key : SessionKey}
    (hq : ∀ a ∈ s.expiredSockets ++ s.loop.toClose, a.num ≠ num)
    (hu : ∀ key session, s.users key = some session → session.userSocket.num ≠ num) :
    Stored { s with
      kernel := s.kernel.openFor num s.clients
      clients := s.clients + 1
      acceptor := .accepted ⟨num, s.clients⟩ key } := by
  have hkeep : ∀ a : Handle, a.num ≠ num → (s.access a).Own →
      Access.Own ⟨a, Function.update s.kernel.owner num (some s.clients) a.num⟩ := fun a hne hown =>
    hown.shrink (.inr (Function.update_of_ne hne _ _)) rfl
  exact {
    queued := fun a hm => ⟨(h.queued a hm).1, hkeep a (hq a hm) (h.queued a hm).2⟩
    sessions := fun key session hs => hkeep _ (hu key session hs) (h.sessions key session hs)
    accepting := fun a ha => by
      cases ha
      exact .inr (by simp [access])
    drained := h.drained }

/-- The drain uses a number it has from the queue. -/
theorem logDrain (h : Stored s) {a : Handle} (ha : a ∈ s.loop.toClose) : Stored (s.logDrain a) :=
  { h with
    drained := fun b hb => by
      rcases List.mem_append.mp hb with hb | hb
      · exact h.drained b hb
      · rw [List.mem_singleton.mp hb]
        exact h.queued a (List.mem_append_right _ ha) }

theorem closeConnection (h : Stored s) (sock : SocketType) (stage : CloseStage) :
    Stored (s.closeConnection sock stage).1 := by
  have hf := closeConnection_frame s sock stage
  have hq : (s.closeConnection sock stage).1.expiredSockets = s.expiredSockets := by rw [hf]
  have ha : (s.closeConnection sock stage).1.acceptor = s.acceptor := by rw [hf]
  exact h.of_le (owner_closeConnection s sock stage) (by rw [hq, closeConnection_loop]; exact fun _ h => h)
    (fun key session hs => ⟨session, users_closeConnection hs, rfl⟩) (by rw [ha]; exact fun _ h => h)
    (by rw [hf]) (by rw [hf])

end Stored

/-- The kernel does not give out a number that waits in `expiredSockets`, that
the drain has still to close, or that a session has. -/
def NotStored (s : Server) : ServerStep → Prop
  | .accept num _ => (∀ h ∈ s.expiredSockets ++ s.loop.toClose, h.num ≠ num) ∧
      ∀ key session, s.users key = some session → session.userSocket.num ≠ num
  | _ => True

theorem Stored.step (h : Stored s) {l : ServerStep} (hc : s.NotStored l) (hs : s.step l = some s') : Stored s' := by
  cases l with
  | tick now => obtain ⟨-, rfl⟩ := step_tick hs; exact { h with }
  | accept num key => obtain ⟨-, -, rfl⟩ := step_accept hs; exact h.accept hc.1 hc.2
  | refuse =>
    obtain ⟨a, -, rfl⟩ := step_refuse hs
    refine h.of_le (fun x => ?_) (fun _ h => h) (fun _ session hs => ⟨session, hs, rfl⟩)
      (by simp [AcceptPc.handle]) rfl rfl
    by_cases hx : x = a.num <;> simp [hx]
  | addSession =>
    obtain ⟨a, key, ha, rfl⟩ := step_addSession hs
    have hown := h.accepting a (by rw [ha]; rfl)
    exact { h with
      sessions := fun k session hs => by
        rcases UserSessionManager.addSession_eq_some hs with hs | hs
        · exact h.sessions k session hs
        · rw [hs]; exact hown
      accepting := fun b hb => by cases hb; exact hown }
  | drop =>
    obtain ⟨a, key, ha, rfl⟩ := step_drop hs
    exact h.of_le (fun _ => .inr rfl) (fun _ h => h)
      (fun _ session hs => ⟨session, UserSessionManager.removeSession_eq_some hs, rfl⟩)
      (by simp [AcceptPc.handle, ha]) rfl rfl
  | register =>
    obtain ⟨a, key, ha, rfl⟩ := step_register hs
    exact h.of_same rfl (fun _ h => h) rfl (by simp [AcceptPc.handle, ha]) rfl rfl
  | watch ok =>
    obtain ⟨a, key, ha, rfl⟩ := step_watch hs
    refine h.of_same ?_ (fun _ h => h) rfl (by simp [AcceptPc.handle]) rfl rfl
    cases ok with
    | false => rfl
    | true =>
      rcases s.kernel.watch_cases a.num with hw | ⟨-, -, howner, -⟩
      · rw [if_pos rfl, hw]
      · exact howner
  | sweep key =>
    rcases step_sweep hs with rfl | ⟨session, hu, -, rfl⟩
    · exact h
    · exact {
        queued := fun a ha => by
          simp only [List.mem_append, List.mem_singleton] at ha ⊢
          rcases ha with (ha | rfl) | ha
          · exact (h.queued a (List.mem_append_left _ ha)).imp_left .inl
          · exact ⟨.inr rfl, h.sessions key session hu⟩
          · exact (h.queued a (List.mem_append_right _ ha)).imp_left .inl
        sessions := fun k session' hs =>
          h.sessions k session' (UserSessionManager.removeSession_eq_some hs)
        accepting := h.accepting
        drained := fun a ha => (h.drained a ha).imp_left (List.mem_append_left _) }
  | swapExpired =>
    obtain ⟨hl, rfl⟩ := step_swapExpired hs
    exact h.of_same rfl (by simp [hl, LoopPc.toClose]) rfl (fun _ h => h) rfl rfl
  | drainNext =>
    obtain ⟨a, close, hl, rfl⟩ := step_drainNext hs
    exact h.setLoop (by simp [hl, LoopPc.toClose])
  | drainDone => obtain ⟨-, rfl⟩ := step_drainDone hs; exact h.setLoop (by simp [LoopPc.toClose])
  | loopClose =>
    rcases step_loopClose hs with ⟨a, stage, close, hl, rfl⟩ | ⟨sock, stage, events, hl, rfl⟩
    · have ha : a ∈ s.loop.toClose := by rw [hl]; exact List.mem_cons_self
      refine ((h.logDrain ha).closeConnection a.num stage).setLoop fun b hb => ?_
      rw [closeConnection_loop, Server.logDrain, hl]
      cases hn : ((s.logDrain a).closeConnection a.num stage).2 with
      | none => rw [hn] at hb; exact List.mem_cons_of_mem _ hb
      | some next => rw [hn] at hb; exact hb
    · refine (h.closeConnection sock stage).setLoop fun b hb => ?_
      cases hn : (s.closeConnection sock stage).2 <;> rw [hn] at hb <;> cases hb
  | wait events =>
    obtain ⟨-, -, -, rfl⟩ := step_wait hs
    have h' : Stored { s with kernel := s.kernel.report (events.map Prod.fst) } := { h with }
    exact h'.setLoop (by simp [LoopPc.toClose])
  | waitFailed => obtain ⟨-, rfl⟩ := step_waitFailed hs; exact h.setLoop (by simp [LoopPc.toClose])
  | dispatch i =>
    obtain ⟨sock, events, -, -, hc⟩ := step_dispatch hs
    have h' : Stored { s with loop := .dispatching events } := h.setLoop (by simp [LoopPc.toClose])
    rcases hc with ⟨-, rfl⟩ | ⟨conn, -, rfl⟩
    · exact h'
    · exact { h' with }
  | hangUp =>
    obtain ⟨sock, event, events, -, rfl⟩ := step_hangUp hs
    exact h.setLoop (by simp [LoopPc.toClose])
  | eventsDone => obtain ⟨-, rfl⟩ := step_eventsDone hs; exact h.setLoop (by simp [LoopPc.toClose])
  | run i => obtain ⟨conn, -, rfl⟩ := step_run hs; exact { h with }
  | recv i r => obtain ⟨conn, -, -, rfl⟩ := step_recv hs; exact { h with }
  | execute i =>
    obtain ⟨conn, message, -, rfl⟩ := step_execute hs
    exact h.of_le (fun _ => .inr rfl) (fun _ h => h)
      (fun _ _ hs => UserSessionManager.updateActivity_eq_some hs) (fun _ h => h) rfl rfl
  | send i => obtain ⟨conn, -, rfl⟩ := step_send hs; exact { h with }
  | rearm i ok =>
    obtain ⟨conn, -, hr⟩ := step_rearm hs
    rcases hr with ⟨-, kernel, hk, rfl⟩ | ⟨-, rfl⟩
    · exact h.of_same (Kernel.rearm_eq_some hk).2.1 (fun _ h => h) rfl (fun _ h => h) rfl rfl
    · exact { h with }
  | jobClose i =>
    obtain ⟨conn, stage, -, rfl⟩ := step_jobClose hs
    have h' : Stored (s.logAccess conn) := { h with }
    exact { h'.closeConnection conn.socket.num stage with }

/-- **The drain closes only expired clients**, in every run in which `accept`
never returns a number that is queued, that the drain has still to close, or
that a session has: what it closes is a socket the sweep found expired, and
that socket's own client has the number then, or nobody. -/
theorem drain_closes_expired (h : Runs.Reach Server.step NotStored Server.start s) :
    ∀ a ∈ s.drained, a.handle ∈ s.expired ∧ a.Own :=
  (h.invariant Stored .start fun _ _ _ hi hc hs => hi.step hc hs).drained

theorem drain_closes_expired_example :
    ∃ s, Runs.Reach Server.step NotStored Server.start s ∧ s.drained ≠ [] ∧
      ∀ a ∈ s.drained, a.handle ∈ s.expired ∧ a.Own := by
  let ls : List ServerStep := [.addSession, .register, .watch true, .tick 240000000001, .sweep ⟨1, 1⟩, .swapExpired,
    .drainNext, .loopClose, .loopClose, .loopClose, .loopClose]
  have hfree : NotStored start (.accept 5 ⟨1, 1⟩) := by simp [NotStored, Server.start, LoopPc.toClose]
  have h : Runs.Reach Server.step NotStored Server.start _ :=
    (Runs.Reach.start.next hfree rfl).exec ls rfl (by simp [ls, NotStored])
  exact ⟨_, h, by decide, drain_closes_expired h⟩

/-- An expired client hangs up before the drain comes to it; its number goes
to the second client after it, whom the drain closes. -/
theorem drain_closes_expired_fails :
    ∃ s, Runs.Reach Server.step (fun _ _ => True) Server.start s ∧
      ¬ ∀ a ∈ s.drained, a.handle ∈ s.expired ∧ a.Own := by
  let ls : List ServerStep := [.accept 5 ⟨1, 1⟩, .addSession, .register, .watch true, .swapExpired, .drainDone,
    .tick 240000000001, .sweep ⟨1, 1⟩, .wait [(5, .hangUp)], .hangUp, .loopClose, .loopClose, .loopClose, .loopClose,
    .eventsDone, .accept 6 ⟨3, 3⟩, .addSession, .register, .watch true, .accept 5 ⟨2, 2⟩, .addSession, .register,
    .watch true, .swapExpired, .drainNext, .loopClose, .loopClose, .loopClose, .loopClose]
  have h : Runs.Reach Server.step (fun _ _ => True) Server.start _ := Runs.Reach.start.exec ls rfl (by simp)
  refine ⟨_, h, fun hall => ?_⟩
  have hclose := (hall ⟨⟨5, 0⟩, some 2⟩ (by decide)).2
  simp [Access.Own] at hclose

end Server

end KvDatabase
