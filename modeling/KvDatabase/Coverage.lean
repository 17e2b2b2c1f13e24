/-
A session for every connection.

A client that stays silent is found through its session, so each connection
needs one of its own: with its socket, and as young as the client's last
command. `connections` is kept by socket and the sessions by IP and port, and
`add_session` leaves a session it finds as it is. So all is well as long as no
two clients come with one address (`sessions_cover_connections`); when they
do, the second has no session, and is never found
(`sessions_cover_connections_fails`).
-/
import KvDatabase.Ownership

namespace KvDatabase

/-- What waits to be closed, and is not being closed yet. -/
def LoopPc.queue : LoopPc → List Handle
  | .draining close | .drainClosing _ _ close => close
  | _ => []

/-- The number the event loop is closing, until `connections` is done with
it. -/
def LoopPc.closes : LoopPc → Option SocketType
  | .drainClosing h stage _ => if stage = .close then none else some h.num
  | .eventClosing sock stage _ => if stage = .close then none else some sock
  | _ => none

def JobPc.closes : JobPc → Bool
  | .closing stage => stage ≠ .close
  | _ => false

/-- The session is the connection's own, and no older than when its client
was last heard. -/
def UserSessionManager.Covers (users : UserSessionManager Handle) (heardAt : ClientId → Time) (conn : Connection) :
    Prop :=
  ∃ session, users conn.sessionKey = some session ∧ session.userSocket = conn.socket ∧
    heardAt conn.socket.client ≤ session.lastActivityTime

namespace UserSessionManager.Covers

variable {users : UserSessionManager Handle} {heardAt heardAt' : ClientId → Time} {conn conn' : Connection}
  {key : SessionKey} {now : Time}

theorem congr {users' : UserSessionManager Handle} (h : Covers users heardAt conn)
    (hu : users' conn.sessionKey = users conn.sessionKey)
    (hh : heardAt' conn.socket.client = heardAt conn.socket.client) : Covers users' heardAt' conn := by
  obtain ⟨session, hs, hsock, ht⟩ := h
  exact ⟨session, hu.trans hs, hsock, hh ▸ ht⟩

/-- A new session covers the client it is for. -/
theorem addSession {a : Handle} (hu : users key = none) (hh : heardAt a.client ≤ now) :
    Covers (users.addSession a key now) heardAt ⟨a, key⟩ := by
  refine ⟨⟨a, now, defaultMaxIdle⟩, ?_, rfl, hh⟩
  simp [UserSessionManager.addSession, hu]

theorem removeSession (h : Covers users heardAt conn) (hk : conn.sessionKey ≠ key) :
    Covers (users.removeSession key) heardAt conn :=
  h.congr (Function.update_of_ne hk _ _) rfl

/-- A handled command is heard, and noted in the session under its key. -/
theorem updateActivity (h : Covers users heardAt conn) (hheard : ∀ c, heardAt c ≤ now)
    (hother : conn.sessionKey ≠ conn'.sessionKey → conn.socket.client ≠ conn'.socket.client) :
    Covers (users.updateActivity conn'.sessionKey now) (Function.update heardAt conn'.socket.client now) conn := by
  by_cases hk : conn.sessionKey = conn'.sessionKey
  · obtain ⟨session, hs, hsock, -⟩ := h
    refine ⟨{ session with lastActivityTime := now }, ?_, hsock, ?_⟩
    · rw [← hk, UserSessionManager.updateActivity, Function.update_self, hs, Option.map_some]
    · by_cases hc : conn.socket.client = conn'.socket.client
      · rw [hc, Function.update_self]
      · rw [Function.update_of_ne hc]
        exact hheard _
  · exact h.congr (Function.update_of_ne hk _ _) (Function.update_of_ne (hother hk) _ _)

end UserSessionManager.Covers

namespace Server

variable {s s' : Server} {heardAt heardAt' : ClientId → Time}

def queued (s : Server) : List Handle := s.expiredSockets ++ s.loop.queue

/-- Somebody is closing this number, and has not erased its connection. -/
def Closing (s : Server) (x : SocketType) : Prop :=
  s.loop.closes = some x ∨ ∃ i job, s.jobs i = some job ∧ job.pc.closes = true ∧ job.conn.socket.num = x

/-- Queued for closing, or being closed. -/
def Excused (s : Server) (x : SocketType) (conn : Connection) : Prop := conn.socket ∈ s.queued ∨ s.Closing x

/-- A connection that is registered, or that a job has. -/
def Known (s : Server) (conn : Connection) : Prop := (∃ x, s.connections x = some conn) ∨ ∃ i, s.held i = some conn

theorem Closing.setLoop {x : SocketType} (h : s.Closing x) {loop : LoopPc}
    (hl : s.loop.closes = some x → loop.closes = some x) : Closing { s with loop } x :=
  h.imp_left hl

/-- A job goes on, or ends; if it is closing the number, it still is. -/
theorem Closing.setJob {x : SocketType} (h : s.Closing x) {i : JobId} {job' : Option Job}
    (hi : ∀ job, s.jobs i = some job → job.pc.closes = true → job.conn.socket.num = x →
      ∃ job, job' = some job ∧ job.pc.closes = true ∧ job.conn.socket.num = x) : (s.setJob i job').Closing x := by
  rcases h with h | ⟨j, job, hj, hc, hx⟩
  · exact .inl h
  · by_cases hji : j = i
    · subst hji
      obtain ⟨next, rfl, hnc, hnx⟩ := hi job hj hc hx
      exact .inr ⟨j, next, by simp [Server.setJob], hnc, hnx⟩
    · exact .inr ⟨j, job, by simpa [Server.setJob, hji] using hj, hc, hx⟩

/-- Each registered connection has a session of its own, or is excused. -/
structure Covering (s : Server) (heardAt : ClientId → Time) : Prop where
  heard : ∀ c, heardAt c ≤ s.now
  numbered : ∀ x conn, s.connections x = some conn → conn.socket.num = x
  keys : ∀ x y conn conn', s.connections x = some conn → s.connections y = some conn' →
    conn.sessionKey = conn'.sessionKey → x = y
  known : ∀ conn, s.Known conn → conn.socket.client < s.clients
  one : ∀ conn conn', s.Known conn → s.Known conn' → conn.socket.client = conn'.socket.client → conn = conn'
  /-- What is not registered yet is nobody's connection. -/
  accepted : ∀ h key, s.acceptor = .accepted h key ∨ s.acceptor = .added h key →
    h.client < s.clients ∧ ∀ conn, s.Known conn → conn.socket.client ≠ h.client
  added : ∀ h key, s.acceptor = .added h key → (∀ x conn, s.connections x = some conn → conn.sessionKey ≠ key) ∧
    (s.users.Covers heardAt ⟨h, key⟩ ∨ h ∈ s.queued)
  covered : ∀ x conn, s.connections x = some conn → s.users.Covers heardAt conn ∨ s.Excused x conn

namespace Covering

theorem start : Covering start fun _ => 0 where
  heard _ := Nat.zero_le _
  numbered := by simp [Server.start]
  keys := by simp [Server.start]
  known := by simp [Server.start, Known, held]
  one := by simp [Server.start, Known, held]
  accepted := by simp [Server.start]
  added := by simp [Server.start]
  covered := by simp [Server.start]

/-- A step that registers nothing. -/
theorem of_le (h : Covering s heardAt) (hheard : ∀ c, heardAt' c ≤ s'.now)
    (hknown : ∀ conn, s'.Known conn → s.Known conn)
    (hconn : ∀ x conn, s'.connections x = some conn → s.connections x = some conn) (hclients : s'.clients = s.clients)
    (hacc : ∀ a key, s'.acceptor = .accepted a key → s.acceptor = .accepted a key)
    (hadded : ∀ a key, s'.acceptor = .added a key → s.acceptor = .added a key ∧
      (s.users.Covers heardAt ⟨a, key⟩ ∨ a ∈ s.queued → s'.users.Covers heardAt' ⟨a, key⟩ ∨ a ∈ s'.queued))
    (hcov : ∀ x conn, s'.connections x = some conn → s.users.Covers heardAt conn ∨ s.Excused x conn →
      s'.users.Covers heardAt' conn ∨ s'.Excused x conn) : Covering s' heardAt' where
  heard := hheard
  numbered x conn hx := h.numbered x conn (hconn x conn hx)
  keys x y conn conn' hx hy := h.keys x y conn conn' (hconn x conn hx) (hconn y conn' hy)
  known conn hk := hclients ▸ h.known conn (hknown conn hk)
  one conn conn' hk hk' := h.one conn conn' (hknown conn hk) (hknown conn' hk')
  accepted a key ha := by
    have ha : s.acceptor = .accepted a key ∨ s.acceptor = .added a key := ha.imp (hacc a key) fun ha => (hadded a key ha).1
    rw [hclients]
    exact ⟨(h.accepted a key ha).1, fun conn hk => (h.accepted a key ha).2 conn (hknown conn hk)⟩
  added a key ha := by
    obtain ⟨ha, hkeep⟩ := hadded a key ha
    exact ⟨fun x conn hx => (h.added a key ha).1 x conn (hconn x conn hx), hkeep (h.added a key ha).2⟩
  covered x conn hx := hcov x conn hx (h.covered x conn (hconn x conn hx))

/-- A step that leaves the sessions as they are, but that what was queued may
be being closed now. -/
theorem of_same (h : Covering s heardAt) (hn : s.now ≤ s'.now) (hu : s'.users = s.users)
    (hknown : ∀ conn, s'.Known conn → s.Known conn)
    (hconn : ∀ x conn, s'.connections x = some conn → s.connections x = some conn) (hclients : s'.clients = s.clients)
    (hacc : ∀ a key, (s'.acceptor = .accepted a key → s.acceptor = .accepted a key) ∧
      (s'.acceptor = .added a key → s.acceptor = .added a key))
    (hq : ∀ a ∈ s.queued, a ∈ s'.queued ∨ (s'.Closing a.num ∧ ∀ key, s'.acceptor ≠ .added a key))
    (hcl : ∀ x, s'.connections x ≠ none → s.Closing x → s'.Closing x) : Covering s' heardAt := by
  refine h.of_le (fun c => (h.heard c).trans hn) hknown hconn hclients (fun a key => (hacc a key).1)
    (fun a key ha => ⟨(hacc a key).2 ha, ?_⟩) fun x conn hx => ?_
  · rw [hu]
    exact Or.imp_right fun hm => (hq a hm).resolve_right fun hc => hc.2 key ha
  · rw [hu]
    refine Or.imp_right fun hex => ?_
    rcases hex with hm | hc
    · rw [← h.numbered x conn (hconn x conn hx)]
      exact (hq _ hm).imp_right And.left
    · exact .inr (hcl x (by simp [hx]) hc)

/-- A new client is nobody's connection yet. -/
theorem accept (h : Covering s heardAt) (num : SocketType) (key : SessionKey) :
    Covering { s with
      kernel := s.kernel.openFor num s.clients
      clients := s.clients + 1
      acceptor := .accepted ⟨num, s.clients⟩ key } (Function.update heardAt s.clients s.now) :=
  { h with
    heard := fun c => by
      by_cases hc : c = s.clients
      · rw [hc, Function.update_self]
      · rw [Function.update_of_ne hc]
        exact h.heard c
    known := fun conn hk => Nat.lt_succ_of_lt (h.known conn hk)
    accepted := fun a k ha => by
      rcases ha with ha | ha
      · cases ha
        exact ⟨Nat.lt_succ_self _, fun conn hk => (h.known conn hk).ne⟩
      · cases ha
    added := fun a k ha => by cases ha
    covered := fun x conn hx => (h.covered x conn hx).imp_left fun hc =>
      hc.congr rfl (Function.update_of_ne (h.known conn (.inl ⟨x, hx⟩)).ne _ _) }

/-- Nobody has the new client's address: the session is its own. -/
theorem addSession (h : Covering s heardAt) {a : Handle} {key : SessionKey} (ha : s.acceptor = .accepted a key)
    (hu : s.users key = none) (hkey : ∀ x conn, s.connections x = some conn → conn.sessionKey ≠ key) :
    Covering { s with users := s.users.addSession a key s.now, acceptor := .added a key } heardAt :=
  { h with
    accepted := fun b k hb => by
      rcases hb with hb | hb <;> cases hb
      exact h.accepted a key (.inl ha)
    added := fun b k hb => by
      cases hb
      exact ⟨hkey, .inl (UserSessionManager.Covers.addSession hu (h.heard _))⟩
    covered := fun x conn hx => (h.covered x conn hx).imp_left fun hc =>
      hc.congr (by simp [UserSessionManager.addSession, hu, hkey x conn hx]) rfl }

theorem register (h : Covering s heardAt) {a : Handle} {key : SessionKey} (ha : s.acceptor = .added a key)
    (commandBuffer : ClientId → Bytes) :
    Covering { s with
      connections := Function.update s.connections a.num (some ⟨a, key⟩)
      commandBuffer
      acceptor := .registered a key } heardAt := by
  obtain ⟨hlt, hnew⟩ := h.accepted a key (.inr ha)
  obtain ⟨hkeys, hown⟩ := h.added a key ha
  have hconn : ∀ x conn, Function.update s.connections a.num (some ⟨a, key⟩) x = some conn →
      (x = a.num ∧ conn = ⟨a, key⟩) ∨ s.connections x = some conn := by
    intro x conn hx
    by_cases hxa : x = a.num
    · rw [hxa, Function.update_self, Option.some.injEq] at hx
      exact .inl ⟨hxa, hx.symm⟩
    · rw [Function.update_of_ne hxa] at hx
      exact .inr hx
  have hknown : ∀ conn, Known { s with
      connections := Function.update s.connections a.num (some ⟨a, key⟩)
      commandBuffer
      acceptor := .registered a key } conn → conn = ⟨a, key⟩ ∨ s.Known conn := by
    rintro conn (⟨x, hx⟩ | hi)
    · exact (hconn x conn hx).imp And.right fun hx => .inl ⟨x, hx⟩
    · exact .inr (.inr hi)
  exact { h with
    numbered := fun x conn hx => by
      rcases hconn x conn hx with ⟨rfl, rfl⟩ | hx
      · rfl
      · exact h.numbered x conn hx
    keys := fun x y conn conn' hx hy he => by
      rcases hconn x conn hx with ⟨rfl, rfl⟩ | hx <;> rcases hconn y conn' hy with ⟨rfl, rfl⟩ | hy
      · rfl
      · exact absurd he.symm (hkeys y conn' hy)
      · exact absurd he (hkeys x conn hx)
      · exact h.keys x y conn conn' hx hy he
    known := fun conn hk => by
      rcases hknown conn hk with rfl | hk
      · exact hlt
      · exact h.known conn hk
    one := fun conn conn' hk hk' he => by
      rcases hknown conn hk with rfl | hk <;> rcases hknown conn' hk' with rfl | hk'
      · rfl
      · exact absurd he.symm (hnew conn' hk')
      · exact absurd he (hnew conn hk)
      · exact h.one conn conn' hk hk' he
    accepted := fun b k hb => by rcases hb with hb | hb <;> cases hb
    added := fun b k hb => by cases hb
    covered := fun x conn hx => by
      rcases hconn x conn hx with ⟨rfl, rfl⟩ | hx
      · exact hown.imp_right .inl
      · exact h.covered x conn hx }

/-- A session that expires leaves its connection's socket in the queue. -/
theorem sweep (h : Covering s heardAt) {key : SessionKey} {session : UserSession Handle}
    (hu : s.users key = some session) (expired : List Handle) :
    Covering { s with
      users := s.users.removeSession key
      expiredSockets := s.expiredSockets ++ [session.userSocket]
      expired } heardAt := by
  have hgrow : ∀ a ∈ s.queued, a ∈ (s.expiredSockets ++ [session.userSocket]) ++ s.loop.queue := by
    intro a ha
    rcases List.mem_append.mp ha with ha | ha <;> simp [ha]
  have hkeep : ∀ conn, s.users.Covers heardAt conn → (s.users.removeSession key).Covers heardAt conn ∨
      conn.socket ∈ (s.expiredSockets ++ [session.userSocket]) ++ s.loop.queue := by
    intro conn hc
    by_cases hk : conn.sessionKey = key
    · obtain ⟨own, hs, hsock, -⟩ := hc
      rw [hk, hu, Option.some.injEq] at hs
      subst hs
      simp [hsock]
    · exact .inl (hc.removeSession hk)
  refine h.of_le h.heard (fun _ hk => hk) (fun _ _ hx => hx) rfl (fun _ _ ha => ha) (fun a k ha => ⟨ha, ?_⟩) ?_
  · intro hcov
    rcases hcov with hc | hm
    · exact hkeep _ hc
    · exact .inr (hgrow a hm)
  · rintro x conn - (hc | hm | hcl)
    · exact (hkeep conn hc).imp_right .inl
    · exact .inr (.inl (hgrow _ hm))
    · exact .inr (.inr hcl)

theorem execute (h : Covering s heardAt) {i : JobId} {conn : Connection} (hi : s.held i = some conn) :
    Covering { s with users := s.users.updateActivity conn.sessionKey s.now }
      (Function.update heardAt conn.socket.client s.now) := by
  have hknown : s.Known conn := .inr ⟨i, hi⟩
  refine h.of_le (fun c => ?_) (fun _ hk => hk) (fun _ _ hx => hx) rfl (fun _ _ ha => ha) (fun a k ha => ⟨ha, ?_⟩) ?_
  · by_cases hc : c = conn.socket.client
    · rw [hc, Function.update_self]
    · rw [Function.update_of_ne hc]
      exact h.heard c
  · exact Or.imp_left fun hc => hc.updateActivity h.heard fun _ he => (h.accepted a k (.inr ha)).2 conn hknown he.symm
  · intro x conn' hx
    refine Or.imp_left fun hc => hc.updateActivity h.heard fun hk he => hk ?_
    rw [h.one conn' conn (.inl ⟨x, hx⟩) hknown he]

/-- The accept thread takes back the session of a client it drops. -/
theorem drop (h : Covering s heardAt) {a : Handle} {key : SessionKey} (ha : s.acceptor = .added a key) :
    Covering { s with users := s.users.removeSession key, acceptor := .dropped a } heardAt :=
  h.of_le h.heard (fun _ hk => hk) (fun _ _ hx => hx) rfl (fun _ _ hb => by cases hb) (fun _ _ hb => by cases hb)
    fun x conn hx => Or.imp_left fun hc => hc.removeSession ((h.added a key ha).1 x conn hx)

end Covering

/-- After a stage that leaves the connection registered, its closing goes on. -/
theorem closeConnection_next {sock : SocketType} {stage : CloseStage} (hs : stage ≠ .close)
    (hc : (s.closeConnection sock stage).1.connections sock ≠ none) :
    ∃ next, (s.closeConnection sock stage).2 = some next ∧ next ≠ .close := by
  cases stage with
  | unwatch => exact ⟨.dropSession, rfl, by simp⟩
  | dropSession =>
    rw [closeConnection] at hc ⊢
    split at hc
    · exact ⟨.erase, rfl, by simp⟩
    · next hn => exact absurd hn hc
  | erase => simp [closeConnection] at hc
  | close => exact absurd rfl hs

end Server

/-! ## When clients were heard -/

/-- The server, and when each client was last heard: it was accepted, or its
command was handled. -/
structure HeardServer where
  server : Server
  heardAt : ClientId → Time

namespace HeardServer

variable {o o' : HeardServer}

def start : HeardServer := ⟨.start, fun _ => 0⟩

def hear (o : HeardServer) : ServerStep → ClientId → Time
  | .accept _ _ => Function.update o.heardAt o.server.clients o.server.now
  | .execute i =>
    match o.server.jobs i with
    | some job => Function.update o.heardAt job.conn.socket.client o.server.now
    | none => o.heardAt
  | _ => o.heardAt

def step (o : HeardServer) (l : ServerStep) : Option HeardServer :=
  (o.server.step l).map fun server => ⟨server, o.hear l⟩

/-- A client that gets a session has an address nobody else has, and is
registered before the drain comes to it. -/
def OwnAddress (o : HeardServer) : ServerStep → Prop
  | .addSession => ∀ h key, o.server.acceptor = .accepted h key → o.server.users key = none ∧
      ∀ x conn, o.server.connections x = some conn → conn.sessionKey ≠ key
  | .drainNext => ∀ h key close, o.server.acceptor = .added h key → o.server.loop ≠ .draining (h :: close)
  | _ => True

end HeardServer

namespace Server

variable {s s' : Server} {heardAt : ClientId → Time}

/-- A step of some thread that touches no session and no connection. -/
theorem Covering.quiet (h : Covering s heardAt) (hn : s.now ≤ s'.now) (hu : s'.users = s.users)
    (hheld : ∀ i conn, s'.held i = some conn → s.Known conn) (hc : s'.connections = s.connections)
    (hclients : s'.clients = s.clients) (hacc : s'.acceptor = s.acceptor ∨ s'.acceptor = .idle)
    (hq : s'.queued = s.queued) (hcl : ∀ x, s.Closing x → s'.Closing x) : Covering s' heardAt := by
  refine h.of_same hn hu (fun conn hk => ?_) (by rw [hc]; exact fun _ _ hx => hx) hclients ?_
    (by rw [hq]; exact fun a ha => .inl ha) fun x _ => hcl x
  · rcases hk with hk | ⟨i, hi⟩
    · exact .inl (hc ▸ hk)
    · exact hheld i conn hi
  · rcases hacc with ha | ha <;> rw [ha]
    · exact fun _ _ => ⟨id, id⟩
    · exact fun _ _ => ⟨by simp, by simp⟩

/-- The event loop moves on, and was closing nothing. -/
theorem Covering.setLoop (h : Covering s heardAt) {loop : LoopPc} (hq : loop.queue = s.loop.queue)
    (hl : s.loop.closes = none) : Covering { s with loop } heardAt :=
  h.quiet le_rfl rfl (fun i _ hi => .inr ⟨i, hi⟩) rfl rfl (.inl rfl) (by simp only [queued, hq])
    fun _ hx => hx.setLoop fun he => by rw [hl] at he; cases he

/-- A job begins, goes on or ends, and was closing nothing. -/
theorem Covering.setJob (h : Covering s heardAt) {i : JobId} {job' : Option Job}
    (hknown : ∀ job, job' = some job → s.Known job.conn)
    (hi : ∀ job, s.jobs i = some job → job.pc.closes = false) : Covering (s.setJob i job') heardAt := by
  refine h.quiet le_rfl rfl (fun j conn hj => ?_) rfl rfl (.inl rfl) rfl
    fun x hx => hx.setJob fun job hj hcl _ => absurd hcl (by simp [hi job hj])
  rcases held_of_setJob hj with ⟨-, hj⟩ | ⟨-, hj⟩
  · obtain ⟨job, he, rfl⟩ := Option.map_eq_some_iff.mp hj
    exact hknown job he
  · exact .inr ⟨j, hj⟩

/-- A job goes on with its connection. -/
theorem Covering.nextJob (h : Covering s heardAt) {i : JobId} {conn : Connection} {pc : JobPc} (pc' : JobPc)
    (hj : s.jobs i = some ⟨conn, pc⟩) (hpc : pc.closes = false) :
    Covering (s.setJob i (some ⟨conn, pc'⟩)) heardAt := by
  have hi : s.held i = some conn := held_of_jobs hj
  refine h.setJob (fun job he => ?_) fun job he => ?_
  · cases he
    exact .inr ⟨i, hi⟩
  · cases hj.symm.trans he
    exact hpc

theorem connections_closeConnection {sock : SocketType} {stage : CloseStage} {x : SocketType} {conn : Connection}
    (h : (s.closeConnection sock stage).1.connections x = some conn) : s.connections x = some conn := by
  cases stage with
  | unwatch | close => exact h
  | dropSession =>
    rw [closeConnection] at h
    split at h <;> exact h
  | erase =>
    simp only [closeConnection] at h
    by_cases hx : x = sock
    · rw [hx, Function.update_self] at h
      cases h
    · rwa [Function.update_of_ne hx] at h

/-- A stage of `closeConnection`: the session it removes is that of the
connection it erases next. -/
theorem Covering.closeConnection (h : Covering s heardAt) {sock : SocketType} {stage : CloseStage} {loop : LoopPc}
    {jobs : JobId → Option Job} (hthis : stage ≠ .close → s.Closing sock)
    (hheld : ∀ i job, jobs i = some job → s.held i = some job.conn) (hq : loop.queue = s.loop.queue)
    (hcl : ∀ x, (s.closeConnection sock stage).1.connections x ≠ none → s.Closing x →
      Closing { (s.closeConnection sock stage).1 with loop, jobs } x) :
    Covering { (s.closeConnection sock stage).1 with loop, jobs } heardAt := by
  have hf := closeConnection_frame s sock stage
  have hclients : (s.closeConnection sock stage).1.clients = s.clients := by rw [hf]
  have hacc : (s.closeConnection sock stage).1.acceptor = s.acceptor := by rw [hf]
  have hn : (s.closeConnection sock stage).1.now = s.now := by rw [hf]
  have hexpired : (s.closeConnection sock stage).1.expiredSockets = s.expiredSockets := by rw [hf]
  have hqueued : queued { (s.closeConnection sock stage).1 with loop, jobs } = s.queued := by
    simp only [queued, hexpired, hq]
  have hknown : ∀ conn, Known { (s.closeConnection sock stage).1 with loop, jobs } conn → s.Known conn := by
    rintro conn (⟨x, hx⟩ | ⟨i, hi⟩)
    · exact .inl ⟨x, connections_closeConnection hx⟩
    · obtain ⟨job, hj, rfl⟩ := Option.map_eq_some_iff.mp hi
      exact .inr ⟨i, hheld i job hj⟩
  have hsame (hu : (s.closeConnection sock stage).1.users = s.users) :
      Covering { (s.closeConnection sock stage).1 with loop, jobs } heardAt :=
    h.of_same hn.ge hu hknown (fun _ _ => connections_closeConnection) hclients
      (fun a key => ⟨fun ha => hacc ▸ ha, fun ha => hacc ▸ ha⟩) (fun a ha => .inl (hqueued ▸ ha)) hcl
  cases stage with
  | unwatch | erase | close => exact hsame rfl
  | dropSession =>
    cases hsock : s.connections sock with
    | none => exact hsame (by rw [Server.closeConnection, hsock])
    | some conn =>
      have hclose : s.closeConnection sock .dropSession =
          ({ s with users := s.users.removeSession conn.sessionKey }, some .erase) := by
        rw [Server.closeConnection, hsock]
      rw [hclose] at hknown hqueued hcl ⊢
      refine h.of_le h.heard hknown (fun _ _ hx => hx) rfl (fun _ _ ha => ha) (fun a key ha => ⟨ha, ?_⟩)
        fun x conn' hx => ?_
      · rw [hqueued]
        exact Or.imp_left fun hcov => hcov.removeSession ((h.added a key ha).1 sock conn hsock).symm
      · intro hcov
        rcases hcov with hcov | hm | hclosing
        · by_cases hk : conn'.sessionKey = conn.sessionKey
          · rw [h.keys x sock conn' conn hx hsock hk]
            exact .inr (.inr (hcl sock (by simp [hsock]) (hthis (by simp))))
          · exact .inl (hcov.removeSession hk)
        · exact .inr (.inl (hqueued ▸ hm))
        · exact .inr (.inr (hcl x (Option.ne_none_iff_exists'.mpr ⟨conn', hx⟩) hclosing))

/-- A stage of `closeConnection` in a job. -/
theorem Covering.jobClose (h : Covering s heardAt) {i : JobId} (hs : s.step (.jobClose i) = some s') :
    Covering s' heardAt := by
  obtain ⟨conn, stage, hj, rfl⟩ := step_jobClose hs
  have hi : s.held i = some conn := held_of_jobs hj
  have hlog : Covering (s.logAccess conn) heardAt := { h with }
  have hjobs : ((s.logAccess conn).closeConnection conn.socket.num stage).1.jobs = s.jobs := closeConnection_jobs ..
  have hloop : ((s.logAccess conn).closeConnection conn.socket.num stage).1.loop = s.loop := closeConnection_loop ..
  refine hlog.closeConnection (fun hne => ?_) (fun j job hj' => ?_) (by rw [hloop]; rfl) fun x hx hcx => ?_
  · exact .inr ⟨i, ⟨conn, .closing stage⟩, hj, by simpa [JobPc.closes] using hne, rfl⟩
  · by_cases hji : j = i
    · rw [hji, Function.update_self, Option.map_eq_some_iff] at hj'
      obtain ⟨next, -, rfl⟩ := hj'
      exact hji ▸ hi
    · rw [Function.update_of_ne hji, hjobs] at hj'
      exact held_of_jobs hj'
  · have h₁ : Closing ((s.logAccess conn).closeConnection conn.socket.num stage).1 x := by
      rw [Closing, hloop, hjobs]
      exact hcx
    refine h₁.setJob fun job hj' hcj hjx => ?_
    rw [hjobs] at hj'
    cases hj.symm.trans hj'
    obtain rfl : conn.socket.num = x := hjx
    obtain ⟨next, hn, hne⟩ := closeConnection_next (by simpa [JobPc.closes] using hcj) hx
    exact ⟨_, by rw [hn]; rfl, by simpa [JobPc.closes] using hne, rfl⟩

/-- A stage of `closeConnection` in the event loop. -/
theorem Covering.closeInLoop (h : Covering s heardAt) {sock : SocketType} {stage : CloseStage} {loop : LoopPc}
    (hl : s.loop.closes = if stage = .close then none else some sock) (hq : loop.queue = s.loop.queue)
    (hnext : ∀ next, (s.closeConnection sock stage).2 = some next → next ≠ .close → loop.closes = some sock) :
    Covering { (s.closeConnection sock stage).1 with loop } heardAt := by
  have hjobs := closeConnection_jobs s sock stage
  refine h.closeConnection (fun hne => .inl (by rw [hl, if_neg hne])) (fun j job hj => held_of_jobs (hjobs ▸ hj)) hq
    fun x hx hcx => ?_
  rcases hcx with hcx | hcx
  · rw [hl] at hcx
    split at hcx
    · cases hcx
    · next hne =>
      obtain rfl : sock = x := Option.some.inj hcx
      obtain ⟨next, hn, hnc⟩ := closeConnection_next hne hx
      exact .inl (hnext next hn hnc)
  · exact .inr (by rw [hjobs]; exact hcx)

theorem Covering.loopClose (h : Covering s heardAt) (hs : s.step .loopClose = some s') : Covering s' heardAt := by
  rcases step_loopClose hs with ⟨a, stage, close, hl, rfl⟩ | ⟨sock, stage, events, hl, rfl⟩
  · have hlog : Covering (s.logDrain a) heardAt := { h with }
    have hloop : (s.logDrain a).loop = .drainClosing a stage close := hl
    refine hlog.closeInLoop (by rw [hloop]; rfl) ?_ fun next hn hne => ?_
    · rw [hloop]
      cases ((s.logDrain a).closeConnection a.num stage).2 <;> rfl
    · rw [hn, Option.elim_some, LoopPc.closes, if_neg hne]
  · refine h.closeInLoop (by rw [hl]; rfl) ?_ fun next hn hne => ?_
    · rw [hl]
      cases (s.closeConnection sock stage).2 <;> rfl
    · rw [hn, Option.elim_some, LoopPc.closes, if_neg hne]

end Server

namespace HeardServer

variable {o o' : HeardServer}

open Server in
theorem covering_step (h : Covering o.server o.heardAt) {l : ServerStep} (hc : o.OwnAddress l)
    (hs : o.step l = some o') : Covering o'.server o'.heardAt := by
  obtain ⟨s, heardAt⟩ := o
  rw [step, Option.map_eq_some_iff] at hs
  obtain ⟨s', hs, rfl⟩ := hs
  change Covering s heardAt at h
  change Covering s' _
  change s.step l = some s' at hs
  cases l with
  | tick now =>
    obtain ⟨hn, rfl⟩ := step_tick hs
    exact h.quiet hn rfl (fun i conn hi => .inr ⟨i, hi⟩) rfl rfl (.inl rfl) rfl fun _ hx => hx
  | accept num key => obtain ⟨-, -, rfl⟩ := step_accept hs; exact h.accept num key
  | refuse =>
    obtain ⟨a, -, rfl⟩ := step_refuse hs
    exact h.quiet le_rfl rfl (fun i conn hi => .inr ⟨i, hi⟩) rfl rfl (.inr rfl) rfl fun _ hx => hx
  | addSession =>
    obtain ⟨a, key, ha, rfl⟩ := step_addSession hs
    exact h.addSession ha (hc a key ha).1 (hc a key ha).2
  | drop => obtain ⟨a, key, ha, rfl⟩ := step_drop hs; exact h.drop ha
  | register => obtain ⟨a, key, ha, rfl⟩ := step_register hs; exact h.register ha _
  | watch ok =>
    obtain ⟨a, key, -, rfl⟩ := step_watch hs
    exact h.quiet le_rfl rfl (fun i conn hi => .inr ⟨i, hi⟩) rfl rfl (.inr rfl) rfl fun _ hx => hx
  | sweep key =>
    rcases step_sweep hs with rfl | ⟨session, hu, -, rfl⟩
    · exact h
    · exact h.sweep hu _
  | swapExpired =>
    obtain ⟨hl, rfl⟩ := step_swapExpired hs
    exact h.quiet le_rfl rfl (fun i conn hi => .inr ⟨i, hi⟩) rfl rfl (.inl rfl) (by simp [queued, hl, LoopPc.queue])
      fun x hx => hx.imp_left (by rw [hl]; exact fun he => by cases he)
  | drainNext =>
    obtain ⟨a, close, hl, rfl⟩ := step_drainNext hs
    refine h.of_same le_rfl rfl (fun _ hk => hk) (fun _ _ hx => hx) rfl (fun _ _ => ⟨id, id⟩) (fun b hb => ?_)
      fun x _ hx => hx.setLoop (by rw [hl]; exact fun he => by cases he)
    rw [queued, hl, LoopPc.queue, List.mem_append, List.mem_cons] at hb
    rcases hb with hb | rfl | hb
    · exact .inl (List.mem_append_left _ hb)
    · exact .inr ⟨.inl rfl, fun key ha => hc b key close ha hl⟩
    · exact .inl (List.mem_append_right _ hb)
  | drainDone => obtain ⟨hl, rfl⟩ := step_drainDone hs; exact h.setLoop (by rw [hl]; rfl) (by rw [hl]; rfl)
  | loopClose => exact h.loopClose hs
  | wait events =>
    obtain ⟨hl, -, -, rfl⟩ := step_wait hs
    have h' : Covering { s with kernel := s.kernel.report (events.map Prod.fst) } heardAt := { h with }
    exact h'.setLoop (by rw [hl]; rfl) (by rw [hl]; rfl)
  | waitFailed => obtain ⟨hl, rfl⟩ := step_waitFailed hs; exact h.setLoop (by rw [hl]; rfl) (by rw [hl]; rfl)
  | dispatch i =>
    obtain ⟨sock, events, hl, hj, hconn⟩ := step_dispatch hs
    have h' : Covering { s with loop := .dispatching events } heardAt := h.setLoop (by rw [hl]; rfl) (by rw [hl]; rfl)
    rcases hconn with ⟨-, rfl⟩ | ⟨conn, hconn, rfl⟩
    · exact h'
    · exact h'.setJob (fun job he => by cases he; exact .inl ⟨sock, hconn⟩) fun job he => by cases hj.symm.trans he
  | hangUp =>
    obtain ⟨sock, event, events, hl, rfl⟩ := step_hangUp hs
    exact h.setLoop (by rw [hl]; rfl) (by rw [hl]; rfl)
  | eventsDone => obtain ⟨hl, rfl⟩ := step_eventsDone hs; exact h.setLoop (by rw [hl]; rfl) (by rw [hl]; rfl)
  | run i => obtain ⟨conn, hj, rfl⟩ := step_run hs; exact h.nextJob _ hj rfl
  | recv i r =>
    obtain ⟨conn, hj, -, rfl⟩ := step_recv hs
    have h' : Covering { s.logAccess conn with
        commandBuffer := Function.update s.commandBuffer conn.socket.client
          (receive (s.commandBuffer conn.socket.client) r).1 } heardAt := { h with }
    exact h'.nextJob _ hj rfl
  | execute i =>
    obtain ⟨conn, message, hj, rfl⟩ := step_execute hs
    rw [hear, hj]
    exact (h.execute (held_of_jobs hj)).nextJob _ hj rfl
  | send i =>
    obtain ⟨conn, hj, rfl⟩ := step_send hs
    have h' : Covering (s.logAccess conn) heardAt := { h with }
    exact h'.nextJob _ hj rfl
  | rearm i ok =>
    obtain ⟨conn, hj, hr⟩ := step_rearm hs
    rcases hr with ⟨-, kernel, -, rfl⟩ | ⟨-, rfl⟩
    · have h' : Covering { s.logAccess conn with kernel } heardAt := { h with }
      exact h'.setJob (fun _ he => by cases he) fun job he => by cases hj.symm.trans he; rfl
    · have h' : Covering (s.logAccess conn) heardAt := { h with }
      exact h'.nextJob _ hj rfl
  | jobClose i => exact h.jobClose hs

/-- **Every connection has its session**, in every run in which each client
that gets a session has an address that no session and no registered
connection has, and the drain comes to no client before it is registered: who
is registered, and neither queued for closing nor being closed, has a session
under its key that is its own, and as young as its accept and its last
command. -/
theorem sessions_cover_connections (h : Runs.Reach HeardServer.step OwnAddress HeardServer.start o) :
    ∀ x conn, o.server.connections x = some conn → conn.socket ∉ o.server.queued → ¬o.server.Closing x →
      o.server.users.Covers o.heardAt conn := by
  have hc : Server.Covering o.server o.heardAt :=
    h.invariant (fun o => Server.Covering o.server o.heardAt) .start fun _ _ _ hi hc hs => covering_step hi hc hs
  intro x conn hx hq hcl
  exact (hc.covered x conn hx).resolve_right fun hex => hex.elim hq hcl

/-- A client that sends a command a second after it came. -/
theorem sessions_cover_connections_example :
    ∃ o, Runs.Reach HeardServer.step OwnAddress HeardServer.start o ∧ o.heardAt 0 = 1000000000 ∧
      o.server.users.Covers o.heardAt ⟨⟨5, 0⟩, ⟨1, 1⟩⟩ := by
  let ls : List ServerStep := [.register, .watch true, .swapExpired, .drainDone, .wait [(5, .readable)], .dispatch 0,
    .eventsDone, .tick 1000000000, .run 0, .recv 0 (.data ⟨ascii "GET a\n", by decide, by decide⟩), .execute 0, .send 0,
    .rearm 0 true]
  have hfree : OwnAddress start (.accept 5 ⟨1, 1⟩) := trivial
  have haccept : Runs.Reach HeardServer.step OwnAddress HeardServer.start _ := Runs.Reach.start.next hfree rfl
  have hsession : Runs.Reach HeardServer.step OwnAddress HeardServer.start _ :=
    haccept.next (l := ServerStep.addSession) (fun _ _ _ => ⟨rfl, fun _ _ hx => by cases hx⟩) rfl
  have h : Runs.Reach HeardServer.step OwnAddress HeardServer.start _ :=
    hsession.exec ls rfl (by simp [ls, OwnAddress])
  refine ⟨_, h, by decide, sessions_cover_connections h 5 _ rfl (by decide) ?_⟩
  intro hclosing
  rcases hclosing with hcl | ⟨i, job, hj, -⟩
  · cases hcl
  · simp [Server.setJob, Server.logAccess, Server.start, start] at hj

/-- A second client comes with the first one's address: its connection is
registered, and the session under its key has the first one's socket. -/
theorem sessions_cover_connections_fails :
    ¬ ∀ o, Runs.Reach HeardServer.step (fun _ _ => True) HeardServer.start o →
      ∀ x conn, o.server.connections x = some conn → conn.socket ∉ o.server.queued → ¬o.server.Closing x →
        o.server.users.Covers o.heardAt conn := by
  let ls : List ServerStep := [.accept 5 ⟨1, 1⟩, .addSession, .register, .watch true, .accept 6 ⟨1, 1⟩, .addSession,
    .register, .watch true]
  have h : Runs.Reach HeardServer.step (fun _ _ => True) HeardServer.start _ := Runs.Reach.start.exec ls rfl (by simp)
  intro hall
  obtain ⟨session, hs, hsock, -⟩ := hall _ h 6 ⟨⟨6, 1⟩, ⟨1, 1⟩⟩ rfl (by decide)
    (by rintro (hcl | ⟨i, job, hj, -⟩) <;> [cases hcl; cases hj])
  cases hs
  cases hsock

end HeardServer

end KvDatabase
