/-
The whole service: the server's threads, the table their jobs work on, and
the clients at the other end of the sockets.

Each client's bytes are told apart from the others' by who was at the other
end of the socket when they were received, not by what the code takes them for.
A step is one of the server's, as in `Connections` with each operation on
`connections` in one; beside it is kept what it did to the table and the
streams. Then each client's messages are executed once, in the order of its
bytes, and its replies are sent to it in that order, in every run in which no
number is given out that a job still has (`clients_served`). What of a reply
gets to the client is up to its socket, and each run is one for some outcomes
of the sends.
-/
import KvDatabase.Clients
import KvDatabase.Replies
import KvDatabase.Requests
import KvDatabase.Steps

namespace KvDatabase

open Linearize (Entry Legal)

/-! ## A job's command and its reply -/

namespace Server

variable {s s' : Server} {l : ServerStep}

/-- A job comes to a command by `recv`, and leaves it by `execute`. -/
theorem executing_iff (hs : s.step l = some s') (hr : ∀ i r, l ≠ .recv i r) (he : ∀ i, l ≠ .execute i) {i : JobId}
    {conn : Connection} {message : Bytes} :
    s'.jobs i = some ⟨conn, .executing message⟩ ↔ s.jobs i = some ⟨conn, .executing message⟩ := by
  constructor
  · intro hj
    rcases (step_effect hs).jobs i _ hj with hj | ⟨pc, -, hm⟩ | ⟨-, hq, -⟩
    · exact hj
    · generalize hpc : (⟨conn, .executing message⟩ : Job).pc = pc' at hm
      cases hm with
      | recv commandBuffer r => exact absurd rfl (hr i r)
      | _ => cases hpc
    · cases hq
  · intro hj
    by_cases hl : l.job? = some i
    · cases l with
      | dispatch j =>
        cases hl
        obtain ⟨sock, events, -, hn, -⟩ := step_dispatch hs
        rw [hn] at hj; cases hj
      | run j => cases hl; obtain ⟨c, hn, -⟩ := step_run hs; rw [hn] at hj; cases hj
      | recv j r => exact absurd rfl (hr j r)
      | execute j => exact absurd rfl (he j)
      | send j => cases hl; obtain ⟨c, hn, -⟩ := step_send hs; rw [hn] at hj; cases hj
      | rearm j ok => cases hl; obtain ⟨c, hn, -⟩ := step_rearm hs; rw [hn] at hj; cases hj
      | jobClose j => cases hl; obtain ⟨c, stage, hn, -⟩ := step_jobClose hs; rw [hn] at hj; cases hj
      | _ => cases hl
    · rw [(step_frame hs).jobs i hl]
      exact hj

/-- It comes to its reply by `execute`, and leaves it by `send`. -/
theorem replying_iff (hs : s.step l = some s') (he : ∀ i, l ≠ .execute i) (hsend : ∀ i, l ≠ .send i) {i : JobId}
    {conn : Connection} : s'.jobs i = some ⟨conn, .replying⟩ ↔ s.jobs i = some ⟨conn, .replying⟩ := by
  constructor
  · intro hj
    rcases (step_effect hs).jobs i _ hj with hj | ⟨pc, -, hm⟩ | ⟨-, hq, -⟩
    · exact hj
    · generalize hpc : (⟨conn, .replying⟩ : Job).pc = pc' at hm
      cases hm with
      | execute message => exact absurd rfl (he i)
      | recv commandBuffer r => cases hrec : (receive commandBuffer r).2 <;> rw [hrec] at hpc <;> cases hpc
      | _ => cases hpc
    · cases hq
  · intro hj
    by_cases hl : l.job? = some i
    · cases l with
      | dispatch j =>
        cases hl
        obtain ⟨sock, events, -, hn, -⟩ := step_dispatch hs
        rw [hn] at hj; cases hj
      | run j => cases hl; obtain ⟨c, hn, -⟩ := step_run hs; rw [hn] at hj; cases hj
      | recv j r => cases hl; obtain ⟨c, hn, -⟩ := step_recv hs; rw [hn] at hj; cases hj
      | execute j => exact absurd rfl (he j)
      | send j => exact absurd rfl (hsend j)
      | rearm j ok => cases hl; obtain ⟨c, hn, -⟩ := step_rearm hs; rw [hn] at hj; cases hj
      | jobClose j => cases hl; obtain ⟨c, stage, hn, -⟩ := step_jobClose hs; rw [hn] at hj; cases hj
      | _ => cases hl
    · rw [(step_frame hs).jobs i hl]
      exact hj

end Server

/-- The message found, if one was. -/
def Received.whole : Received → List Bytes
  | message m => [m]
  | close | rearm => []

/-- No byte received is lost, or used twice. -/
theorem receive_bytes (commandBuffer : Bytes) (r : RecvResult) :
    commandBuffer ++ r.bytes =
      (receive commandBuffer r).2.whole.flatten ++ (receive commandBuffer r).1 := by
  cases r with
  | hungUp | wouldBlock | error => simp [receive, RecvResult.bytes, Received.whole]
  | data chunk =>
    simp only [receive, RecvResult.bytes]
    split
    · rfl
    · split
      · rfl
      · simp [Received.whole]

theorem receive_whole {commandBuffer m : Bytes} {r : RecvResult} (h : m ∈ (receive commandBuffer r).2.whole) :
    newline ∈ m ∧ m.length ≤ MAX_COMMAND_BUFFER_LENGTH := by
  cases r with
  | hungUp | wouldBlock | error => cases h
  | data chunk =>
    simp only [receive] at h
    split at h
    · cases h
    · next hlen =>
      split at h
      · cases h
      · next hnl =>
        simp only [Received.whole, List.mem_singleton] at h
        subst h
        exact ⟨not_not.mp hnl, Nat.le_of_not_lt hlen⟩

/-! ## The service -/

structure Service where
  server : Server
  hashMap : HashMap
  /-- The number each client was accepted with. -/
  number : ClientId → SocketType
  /-- What each client sent that was received. -/
  received : ClientId → Bytes
  /-- The whole messages found in each client's buffer. -/
  messages : ClientId → List Bytes
  /-- The commands executed, each with the client whose connection it came from. -/
  executed : List (Entry Bytes Bytes)
  /-- `response` in each job. -/
  responses : JobId → Bytes
  /-- What each client's socket takes of the replies, one after another. -/
  outcomes : ClientId → ℕ → SendOutcome
  /-- The responses sent to each client. -/
  sent : ClientId → List Bytes
  /-- What its socket took of each. -/
  delivered : ClientId → List Bytes

namespace Service

def start (hashMap : HashMap) (outcomes : ClientId → ℕ → SendOutcome) : Service where
  server := .start
  hashMap := hashMap
  number := fun _ => 0
  received := fun _ => []
  messages := fun _ => []
  executed := []
  responses := fun _ => []
  outcomes := outcomes
  sent := fun _ => []
  delivered := fun _ => []

/-- What a `recv` gets is from whoever is at the other end of the socket; it
goes to the buffer of the job's connection. -/
def recv (s : Service) (conn : Connection) (r : RecvResult) : Service :=
  { s with
    received := match s.server.kernel.owner conn.socket.num with
      | some c => Function.update s.received c (s.received c ++ r.bytes)
      | none => s.received
    messages := Function.update s.messages conn.socket.client
      (s.messages conn.socket.client ++ (receive (s.server.commandBuffer conn.socket.client) r).2.whole) }

def execute (s : Service) (i : JobId) (conn : Connection) (message : Bytes) : Service :=
  let (hashMap, response) := (parse message).operate s.hashMap
  { s with
    hashMap
    executed := s.executed ++ [⟨conn.socket.client, message, response⟩]
    responses := Function.update s.responses i response }

/-- What of the response the next `send` to the client gets to it. -/
def accepted (s : Service) (c : ClientId) (response : Bytes) : Bytes :=
  response.take ((s.outcomes c (s.sent c).length).accepted response.length)

/-- What is sent gets to whoever is at the other end, as far as the socket takes
it. The handler does not look how far that is. -/
def send (s : Service) (i : JobId) (conn : Connection) : Service :=
  { s with
    sent := match s.server.kernel.owner conn.socket.num with
      | some c => Function.update s.sent c (s.sent c ++ [s.responses i])
      | none => s.sent
    delivered := match s.server.kernel.owner conn.socket.num with
      | some c => Function.update s.delivered c (s.delivered c ++ [s.accepted c (s.responses i)])
      | none => s.delivered }

/-- What a step of the server does to the table and the streams. -/
def note (s : Service) : ServerStep → Service
  | .accept num _ => { s with number := Function.update s.number s.server.clients num }
  | .recv i r =>
    match s.server.jobs i with
    | some ⟨conn, .receiving⟩ => s.recv conn r
    | _ => s
  | .execute i =>
    match s.server.jobs i with
    | some ⟨conn, .executing message⟩ => s.execute i conn message
    | _ => s
  | .send i =>
    match s.server.jobs i with
    | some ⟨conn, .replying⟩ => s.send i conn
    | _ => s
  | _ => s

def step (s : Service) (l : ServerStep) : Option Service :=
  (s.server.step l).map fun server => { s.note l with server }

/-- The messages of client `c` that were executed, in order. -/
def taken (s : Service) (c : ClientId) : List Bytes := (s.executed.filter fun e => e.id = c).map Entry.op

/-- What they were answered. -/
def answers (s : Service) (c : ClientId) : List Bytes := (s.executed.filter fun e => e.id = c).map Entry.res

/-! ## Whose is whose -/

/-- `h` is how a client was accepted. -/
def Known (s : Service) (h : Handle) : Prop := h.num = s.number h.client ∧ h.client < s.server.clients

/-- Nothing of client `c` was received. -/
def Unheard (s : Service) (c : ClientId) : Prop := s.received c = [] ∧ s.messages c = []

/-- Client `c` is not connected, and no job is for it. -/
def Absent (s : Service) (c : ClientId) : Prop :=
  (∀ x conn, s.server.connections x = some conn → conn.socket.client ≠ c) ∧
    ∀ i job, s.server.jobs i = some job → job.conn.socket.client ≠ c

structure Handles (s : Service) : Prop where
  turns : s.server.Turns
  connections : ∀ x conn, s.server.connections x = some conn → s.Known conn.socket
  jobs : ∀ i job, s.server.jobs i = some job → s.Known job.conn.socket
  /-- Before its connection is made, a client is not heard. -/
  accepted : ∀ h key, s.server.acceptor = .accepted h key ∨ s.server.acceptor = .added h key →
    s.Known h ∧ s.Unheard h.client ∧ s.Absent h.client
  later : ∀ c, s.server.clients ≤ c → s.Unheard c

variable {s s' : Service} {l : ServerStep}

theorem Handles.start (hashMap : HashMap) (outcomes) : Handles (start hashMap outcomes) where
  turns := .start
  connections := by intro x conn h; cases h
  jobs := by intro i job h; cases h
  accepted := by rintro h key (ha | ha) <;> cases ha
  later := fun _ _ => ⟨rfl, rfl⟩

theorem step_eq_some (hs : s.step l = some s') :
    ∃ server, s.server.step l = some server ∧ s' = { s.note l with server } := by
  obtain ⟨server, hserver, rfl⟩ := Option.map_eq_some_iff.mp hs
  exact ⟨server, hserver, rfl⟩

/-- Who is at the other end of a job's socket is its client, if anybody is. -/
theorem Handles.own (h : Handles s) {i : JobId} {job : Job} (hj : s.server.jobs i = some job) :
    s.server.kernel.owner job.conn.socket.num = none ∨
      s.server.kernel.owner job.conn.socket.num = some job.conn.socket.client :=
  h.turns.own i job.conn (Server.held_of_jobs hj)

/-- A client has one job at a time. -/
theorem Handles.single (h : Handles s) {i j : JobId} {job job' : Job} (hi : s.server.jobs i = some job)
    (hj : s.server.jobs j = some job') (hc : job.conn.socket.client = job'.conn.socket.client) : i = j := by
  refine h.turns.single i j job.conn job'.conn (Server.held_of_jobs hi) (Server.held_of_jobs hj) ?_
  rw [(h.jobs i job hi).1, (h.jobs j job' hj).1, hc]

theorem note_number (hl : ∀ num key, l ≠ .accept num key) : (s.note l).number = s.number := by
  cases l with
  | accept num key => exact absurd rfl (hl num key)
  | recv i r => rw [note]; split <;> rfl
  | execute i => rw [note]; split <;> rfl
  | send i => rw [note]; split <;> rfl
  | _ => rfl

/-- What is received is a job's client's. -/
theorem Handles.note_other (h : Handles s) {c : ClientId}
    (hc : ∀ i r job, l = .recv i r → s.server.jobs i = some job → job.conn.socket.client ≠ c) :
    (s.note l).received c = s.received c ∧ (s.note l).messages c = s.messages c := by
  cases l with
  | recv i r =>
    rw [note]
    split
    · next conn hj =>
      have hne := hc i r _ rfl hj
      refine ⟨?_, ?_⟩
      · rw [recv]
        rcases h.own hj with ho | ho
        · rw [ho]
        · simp only [ho]
          exact Function.update_of_ne (Ne.symm hne) _ _
      · exact Function.update_of_ne (Ne.symm hne) _ _
    · exact ⟨rfl, rfl⟩
  | execute i => rw [note]; split <;> exact ⟨rfl, rfl⟩
  | send i => rw [note]; split <;> exact ⟨rfl, rfl⟩
  | _ => exact ⟨rfl, rfl⟩

/-- Who is absent stays unheard. -/
theorem Handles.unheard (h : Handles s) {c : ClientId} (hu : s.Unheard c)
    (hc : ∀ i job, s.server.jobs i = some job → job.conn.socket.client ≠ c) (server : Server) :
    ({ s.note l with server } : Service).Unheard c := by
  obtain ⟨hr, hm⟩ := h.note_other (l := l) fun i r job _ hj => hc i job hj
  exact ⟨hr.trans hu.1, hm.trans hu.2⟩

/-- No job and no connection is for a client to come. -/
theorem Handles.absent (h : Handles s) {c : ClientId} (hc : s.server.clients ≤ c) : s.Absent c :=
  ⟨fun x conn hx he => Nat.not_lt.mpr hc (he ▸ (h.connections x conn hx).2),
    fun i job hj he => Nat.not_lt.mpr hc (he ▸ (h.jobs i job hj).2)⟩

theorem Handles.accept (h : Handles s) {num : SocketType} {key : SessionKey} (hc : s.server.NotHeld (.accept num key))
    {server : Server} (hs : s.server.step (.accept num key) = some server) :
    Handles { s.note (.accept num key) with server } := by
  have hturns := h.turns.step hc hs
  obtain ⟨-, -, rfl⟩ := Server.step_accept hs
  have known : ∀ {a : Handle}, s.Known a →
      a.num = Function.update s.number s.server.clients num a.client ∧ a.client < s.server.clients + 1 := by
    intro a ha
    rw [Function.update_of_ne (Nat.ne_of_lt ha.2)]
    exact ⟨ha.1, Nat.lt_succ_of_lt ha.2⟩
  refine ⟨hturns, fun x conn hx => known (h.connections x conn hx), fun i job hj => known (h.jobs i job hj), ?_, ?_⟩
  · rintro a key' (ha | ha)
    · cases ha
      have hnum : num = Function.update s.number s.server.clients num s.server.clients := by rw [Function.update_self]
      exact ⟨⟨hnum, Nat.lt_succ_self _⟩, h.later _ (Nat.le_refl _), h.absent (Nat.le_refl _)⟩
    · cases ha
  · intro c hlt
    exact h.later c (Nat.le_of_succ_le hlt)

/-- The accept thread goes on with the client it has, or lets it go. -/
theorem Handles.acceptor (h : Handles s) {server : Server} (hn : s.note l = s) (hc : s.server.NotHeld l)
    (hs : s.server.step l = some server) (hclients : server.clients = s.server.clients)
    (hjobs : server.jobs = s.server.jobs)
    (hconn : ∀ x conn, server.connections x = some conn → s.server.connections x = some conn ∨
      ∃ a key, (∃ key', s.server.acceptor = .accepted a key' ∨ s.server.acceptor = .added a key') ∧ conn = ⟨a, key⟩)
    (hacc : ∀ a key, server.acceptor = .accepted a key ∨ server.acceptor = .added a key →
      server.connections = s.server.connections ∧
        ∃ key', s.server.acceptor = .accepted a key' ∨ s.server.acceptor = .added a key') :
    Handles { s.note l with server } := by
  have hturns := h.turns.step hc hs
  rw [hn]
  have known : ∀ {a : Handle}, s.Known a → a.num = s.number a.client ∧ a.client < server.clients :=
    fun ha => ⟨ha.1, hclients ▸ ha.2⟩
  refine ⟨hturns, fun x conn hx => ?_, fun i job hj => known (h.jobs i job (hjobs ▸ hj)), fun a key ha => ?_, ?_⟩
  · rcases hconn x conn hx with hx | ⟨a, key, ⟨key', ha⟩, rfl⟩
    · exact known (h.connections x conn hx)
    · exact known (h.accepted a key' ha).1
  · obtain ⟨hsame, key', ha'⟩ := hacc a key ha
    obtain ⟨hk, hu, hab⟩ := h.accepted a key' ha'
    exact ⟨known hk, hu, fun x conn hx => hab.1 x conn (hsame ▸ hx), fun i job hj => hab.2 i job (hjobs ▸ hj)⟩
  · intro c hlt
    exact h.later c (hclients ▸ hlt)

/-- What the other threads do. -/
theorem Handles.other (h : Handles s) {server : Server} (ht : l.thread ≠ .acceptor) (hc : s.server.NotHeld l)
    (hs : s.server.step l = some server) : Handles { s.note l with server } := by
  have heffect := Server.step_effect hs
  have hframe := Server.step_frame hs
  obtain ⟨hacceptor, hclients⟩ := heffect.acceptor ht
  have hreg : l ≠ .register := by rintro rfl; exact ht rfl
  have hnumber := note_number (s := s) (l := l) fun num key he => by subst he; exact ht rfl
  have known : ∀ {a : Handle}, s.Known a → a.num = (s.note l).number a.client ∧ a.client < server.clients := by
    intro a ha
    rw [hnumber, hclients]
    exact ha
  have hjobs : ∀ i job, server.jobs i = some job → (∃ pc, s.server.jobs i = some ⟨job.conn, pc⟩) ∨
      ∃ x, s.server.connections x = some job.conn := by
    intro i job hj
    rcases heffect.jobs i job hj with hj | ⟨pc, hj, -⟩ | ⟨-, -, x, hx⟩
    · exact .inl ⟨job.pc, hj⟩
    · exact .inl ⟨pc, hj⟩
    · exact .inr ⟨x, hx⟩
  refine ⟨h.turns.step hc hs, fun x conn hx => known (h.connections x conn (hframe.connections hreg x conn hx)),
    fun i job hj => ?_, fun a key ha => ?_, fun c hlt => ?_⟩
  · rcases hjobs i job hj with ⟨pc, hj⟩ | ⟨x, hx⟩
    · exact known (h.jobs i ⟨job.conn, pc⟩ hj)
    · exact known (h.connections x _ hx)
  · simp only [hacceptor] at ha
    obtain ⟨hk, hu, hab⟩ := h.accepted a key ha
    refine ⟨known hk, h.unheard hu hab.2 server, fun x conn hx => hab.1 x conn (hframe.connections hreg x conn hx),
      fun i job hj => ?_⟩
    rcases hjobs i job hj with ⟨pc, hj⟩ | ⟨x, hx⟩
    · exact hab.2 i ⟨job.conn, pc⟩ hj
    · exact hab.1 x _ hx
  · have hlt' : s.server.clients ≤ c := hclients ▸ hlt
    exact h.unheard (h.later c hlt') (h.absent hlt').2 server

theorem Handles.step (h : Handles s) (hc : s.server.NotHeld l) (hs : s.step l = some s') : Handles s' := by
  obtain ⟨server, hserver, rfl⟩ := step_eq_some hs
  by_cases ht : l.thread = .acceptor
  · cases l with
    | accept num key => exact h.accept hc hserver
    | refuse =>
      have hstep := hserver
      obtain ⟨a, -, rfl⟩ := Server.step_refuse hstep
      exact h.acceptor rfl hc hserver rfl rfl (fun _ _ hx => .inl hx) (by simp)
    | addSession =>
      have hstep := hserver
      obtain ⟨a, key, ha, rfl⟩ := Server.step_addSession hstep
      refine h.acceptor rfl hc hserver rfl rfl (fun _ _ hx => .inl hx) fun b key' hb => ⟨rfl, ?_⟩
      simp only [AcceptPc.added.injEq, reduceCtorEq, false_or] at hb
      exact ⟨key, .inl (hb.1 ▸ ha)⟩
    | drop =>
      have hstep := hserver
      obtain ⟨a, key, -, rfl⟩ := Server.step_drop hstep
      exact h.acceptor rfl hc hserver rfl rfl (fun _ _ hx => .inl hx) (by simp)
    | register =>
      have hstep := hserver
      obtain ⟨a, key, ha, rfl⟩ := Server.step_register hstep
      refine h.acceptor rfl hc hserver rfl rfl (fun x conn hx => ?_) (by simp)
      by_cases hxa : x = a.num
      · simp only [hxa, Function.update_self, Option.some.injEq] at hx
        exact .inr ⟨a, key, ⟨key, .inr ha⟩, hx.symm⟩
      · simp only [Function.update_of_ne hxa] at hx
        exact .inl hx
    | watch ok =>
      have hstep := hserver
      obtain ⟨a, key, -, rfl⟩ := Server.step_watch hstep
      exact h.acceptor rfl hc hserver rfl rfl (fun _ _ hx => .inl hx) (by simp)
    | _ => cases ht
  · exact h.other ht hc hserver

/-! ## Each client's messages, in order -/

/-- What is kept for each client, and of the table. -/
structure Ordered (m₀ : Bytes → Option Bytes) (s : Service) : Prop where
  /-- A client's bytes are its messages, and what is in its buffer. -/
  stream : ∀ c, s.received c = (s.messages c).flatten ++ s.server.commandBuffer c
  framed : ∀ c, ∀ m ∈ s.messages c, newline ∈ m ∧ m.length ≤ MAX_COMMAND_BUFFER_LENGTH
  /-- They are all executed but the one its job is about to. -/
  executing : ∀ i conn m, s.server.jobs i = some ⟨conn, .executing m⟩ →
    s.messages conn.socket.client = s.taken conn.socket.client ++ [m]
  caughtUp : ∀ c, (∀ i conn m, s.server.jobs i = some ⟨conn, .executing m⟩ → conn.socket.client ≠ c) →
    s.messages c = s.taken c
  /-- And all answered, as long as it is connected, but the one its job is about to. -/
  replying : ∀ i conn, s.server.jobs i = some ⟨conn, .replying⟩ →
    s.server.kernel.owner conn.socket.num = some conn.socket.client →
    s.answers conn.socket.client = s.sent conn.socket.client ++ [s.responses i]
  replied : ∀ c, s.server.kernel.owner (s.number c) = some c →
    (∀ i conn, s.server.jobs i = some ⟨conn, .replying⟩ → conn.socket.client ≠ c) → s.answers c = s.sent c
  cut : ∀ c, s.sent c <+: s.answers c
  legal : Legal Clients.specification m₀ s.executed s.hashMap.contents

theorem Ordered.start (hashMap : HashMap) (outcomes) : Ordered hashMap.contents (start hashMap outcomes) where
  stream := fun _ => rfl
  framed := by intro c m hm; cases hm
  executing := by intro i conn m hj; cases hj
  caughtUp := fun _ _ => rfl
  replying := by intro i conn hj; cases hj
  replied := fun _ _ _ => rfl
  cut := fun _ => List.prefix_rfl
  legal := rfl

/-- Nothing was executed for a client to come. -/
theorem Ordered.answers_eq_nil {m₀ : Bytes → Option Bytes} (h : Ordered m₀ s) {c : ClientId} (hu : s.Unheard c)
    (ha : s.Absent c) : s.answers c = [] ∧ s.sent c = [] := by
  have htaken : s.taken c = [] := by
    rw [← h.caughtUp c fun i conn m hj => ha.2 i _ hj]
    exact hu.2
  have hanswers : s.answers c = [] := List.map_eq_nil_iff.mpr (List.map_eq_nil_iff.mp htaken)
  refine ⟨hanswers, ?_⟩
  have hcut := h.cut c
  rwa [hanswers, List.prefix_nil] at hcut

/-- A step that is about no message. -/
theorem Ordered.quiet {m₀ : Bytes → Option Bytes} (h : Ordered m₀ s) (hh : Handles s) {server : Server}
    (hs : s.server.step l = some server) (hr : ∀ i r, l ≠ .recv i r) (he : ∀ i, l ≠ .execute i)
    (hsend : ∀ i, l ≠ .send i) : Ordered m₀ { s.note l with server } := by
  have hnote : s.note l = { s with number := (s.note l).number } := by
    cases l with
    | recv i r => exact absurd rfl (hr i r)
    | execute i => exact absurd rfl (he i)
    | send i => exact absurd rfl (hsend i)
    | _ => rfl
  have hframe := Server.step_frame hs
  have hexecuting : ∀ i conn m,
      server.jobs i = some ⟨conn, .executing m⟩ ↔ s.server.jobs i = some ⟨conn, .executing m⟩ :=
    fun _ _ _ => Server.executing_iff hs hr he
  have hreplying : ∀ i conn, server.jobs i = some ⟨conn, .replying⟩ ↔ s.server.jobs i = some ⟨conn, .replying⟩ :=
    fun _ _ => Server.replying_iff hs he hsend
  -- who has a number now had it before, or is just accepted
  have howner : ∀ x c, server.kernel.owner x = some c →
      s.server.kernel.owner x = some c ∨ c = s.server.clients ∧ ∃ key, l = .accept x key := by
    intro x c ho
    rcases (Server.step_effect hs).owner x c ho with ho | ⟨key, hl, hc⟩
    · exact .inl ho
    · exact .inr ⟨hc, key, hl⟩
  rw [hnote]
  refine ⟨fun c => ?_, h.framed, fun i conn m hj => ?_, fun c hc => ?_, fun i conn hj ho => ?_, fun c ho hc => ?_,
    h.cut, h.legal⟩
  · by_cases hreg : l = .register
    · subst hreg
      obtain ⟨a, key, ha, rfl⟩ := Server.step_register hs
      by_cases hc : c = a.client
      · obtain ⟨hrec, hmes⟩ := (hh.accepted a key (.inr ha)).2.1
        simp only [hc, hrec, hmes, Function.update_self]
        rfl
      · simp only [Function.update_of_ne hc]
        exact h.stream c
    · simp only [hframe.commandBuffer hreg hr]
      exact h.stream c
  · exact h.executing i conn m ((hexecuting i conn m).mp hj)
  · exact h.caughtUp c fun i conn m hj => hc i conn m ((hexecuting i conn m).mpr hj)
  · have hj' := (hreplying i conn).mp hj
    rcases howner _ _ ho with ho | ⟨hc, -⟩
    · exact h.replying i conn hj' ho
    · exact absurd hc (Nat.ne_of_lt (hh.jobs i _ hj').2)
  · rcases howner _ _ ho with ho | ⟨rfl, -⟩
    · -- a number other than that of the client just accepted is as it was
      have hc' : ∀ i conn, s.server.jobs i = some ⟨conn, .replying⟩ → conn.socket.client ≠ c :=
        fun i conn hj => hc i conn ((hreplying i conn).mpr hj)
      by_cases hacc : ∃ num key, l = .accept num key
      · obtain ⟨num, key, rfl⟩ := hacc
        by_cases hcl : c = s.server.clients
        · subst hcl
          obtain ⟨hans, hdel⟩ := h.answers_eq_nil (hh.later _ (Nat.le_refl _)) (hh.absent (Nat.le_refl _))
          exact hans.trans hdel.symm
        · rw [note] at ho
          simp only [Function.update_of_ne hcl] at ho
          exact h.replied c ho hc'
      · have hnum : (s.note l).number = s.number := note_number fun num key hl => hacc ⟨num, key, hl⟩
        rw [hnum] at ho
        exact h.replied c ho hc'
    · obtain ⟨hans, hdel⟩ := h.answers_eq_nil (hh.later _ (Nat.le_refl _)) (hh.absent (Nat.le_refl _))
      exact hans.trans hdel.symm

/-- What job `i` is at after a step that takes it to `pc`. -/
theorem jobs_setJob {server : Server} {i j : JobId} {conn conn' : Connection} {pc pc' : JobPc}
    (h : (server.setJob i (some ⟨conn, pc⟩)).jobs j = some ⟨conn', pc'⟩) :
    (j = i ∧ conn = conn' ∧ pc = pc') ∨ (j ≠ i ∧ server.jobs j = some ⟨conn', pc'⟩) := by
  rcases Server.jobs_of_setJob h with ⟨rfl, he⟩ | ⟨hne, hj⟩
  · cases he
    exact .inl ⟨rfl, rfl, rfl⟩
  · exact .inr ⟨hne, hj⟩

theorem Ordered.recv {m₀ : Bytes → Option Bytes} (h : Ordered m₀ s) (hh : Handles s) {i : JobId} {r : RecvResult}
    {server : Server} (hs : s.server.step (.recv i r) = some server) :
    Ordered m₀ { s.note (.recv i r) with server } := by
  obtain ⟨conn, hj, hposs, rfl⟩ := Server.step_recv hs
  have hnote : s.note (.recv i r) = s.recv conn r := by simp only [note, hj]
  -- no other job is at this client's buffer
  have hidle : ∀ j conn' m, s.server.jobs j = some ⟨conn', .executing m⟩ →
      conn'.socket.client ≠ conn.socket.client := by
    intro j conn' m hj' hc
    obtain rfl := hh.single hj' hj hc
    rw [hj] at hj'
    cases hj'
  have hbytes := receive_bytes (s.server.commandBuffer conn.socket.client) r
  have hrec : (s.recv conn r).received =
      Function.update s.received conn.socket.client (s.received conn.socket.client ++ r.bytes) := by
    rcases hh.own hj with ho | ho
    · -- a closed socket gives no bytes
      have hnone : r.bytes = [] := by
        rw [ho] at hposs
        cases r with
        | data chunk => cases hposs
        | _ => rfl
      simp only [Service.recv, ho, hnone, List.append_nil, Function.update_eq_self]
    · simp only [Service.recv, ho]
  rw [hnote]
  refine ⟨fun c => ?_, fun c m hm => ?_, fun j conn' m hj' => ?_, fun c hc => ?_, fun j conn' hj' ho => ?_,
    fun c ho hc => ?_, h.cut, h.legal⟩
  · simp only [hrec]
    by_cases hc : c = conn.socket.client
    · subst hc
      simp only [Service.recv, Server.setJob, Function.update_self, List.flatten_append, List.append_assoc, ← hbytes]
      rw [← List.append_assoc, ← h.stream]
    · simp only [Service.recv, Server.setJob, Server.logAccess, Function.update_of_ne hc]
      exact h.stream c
  · simp only [Service.recv] at hm
    by_cases hc : c = conn.socket.client
    · subst hc
      rw [Function.update_self] at hm
      rcases List.mem_append.mp hm with hm | hm
      · exact h.framed _ m hm
      · exact receive_whole hm
    · rw [Function.update_of_ne hc] at hm
      exact h.framed c m hm
  · rcases jobs_setJob hj' with ⟨rfl, rfl, hpc⟩ | ⟨hne, hj'⟩
    · have hwhole : (receive (s.server.commandBuffer conn.socket.client) r).2.whole = [m] := by
        cases hres : (receive (s.server.commandBuffer conn.socket.client) r).2 with
        | message m' => rw [hres] at hpc; cases hpc; rfl
        | close => rw [hres] at hpc; cases hpc
        | rearm => rw [hres] at hpc; cases hpc
      show Function.update s.messages conn.socket.client _ conn.socket.client = _
      rw [Function.update_self, hwhole, h.caughtUp _ hidle]
      rfl
    · show Function.update s.messages conn.socket.client _ conn'.socket.client = _
      rw [Function.update_of_ne (hidle j conn' m hj')]
      exact h.executing j conn' m hj'
  · by_cases hcc : c = conn.socket.client
    · subst hcc
      have hwhole : (receive (s.server.commandBuffer conn.socket.client) r).2.whole = [] := by
        cases hres : (receive (s.server.commandBuffer conn.socket.client) r).2 with
        | message m' => exact absurd rfl (hc i conn m' (by simp [Server.setJob, hres, Received.next]))
        | close => rfl
        | rearm => rfl
      show Function.update s.messages conn.socket.client _ conn.socket.client = _
      rw [Function.update_self, hwhole, List.append_nil]
      exact h.caughtUp _ hidle
    · show Function.update s.messages conn.socket.client _ c = _
      rw [Function.update_of_ne hcc]
      refine h.caughtUp c fun j conn' m hj' => ?_
      by_cases hji : j = i
      · subst hji
        rw [hj] at hj'
        cases hj'
      · exact hc j conn' m ((Server.setJob_jobs_ne (fun he => hji (Option.some.inj he).symm)).trans hj')
  · rcases jobs_setJob hj' with ⟨-, -, hpc⟩ | ⟨-, hj'⟩
    · cases hres : (receive (s.server.commandBuffer conn.socket.client) r).2 <;> rw [hres] at hpc <;> cases hpc
    · exact h.replying j conn' hj' ho
  · refine h.replied c ho fun j conn' hj' => ?_
    by_cases hji : j = i
    · subst hji
      rw [hj] at hj'
      cases hj'
    · exact hc j conn' ((Server.setJob_jobs_ne (fun he => hji (Option.some.inj he).symm)).trans hj')

theorem Ordered.execute {m₀ : Bytes → Option Bytes} (h : Ordered m₀ s) (hh : Handles s) {i : JobId} {server : Server}
    (hs : s.server.step (.execute i) = some server) : Ordered m₀ { s.note (.execute i) with server } := by
  obtain ⟨conn, message, hj, rfl⟩ := Server.step_execute hs
  have hnote : s.note (.execute i) = s.execute i conn message := by simp only [note, hj]
  -- the client's one job is this one
  have hother : ∀ j conn' pc, j ≠ i → s.server.jobs j = some ⟨conn', pc⟩ → conn'.socket.client ≠ conn.socket.client :=
    fun j conn' pc hne hj' hc => hne (hh.single hj' hj hc)
  have hmine : ∀ {conn' pc'}, s.server.jobs i = some ⟨conn', pc'⟩ → pc' = .executing message := by
    intro conn' pc' hj'
    rw [hj] at hj'
    cases hj'
    rfl
  have htaken : ∀ server : Server, ({ s.execute i conn message with server } : Service).taken conn.socket.client =
      s.taken conn.socket.client ++ [message] := by
    intro server
    simp [taken, Service.execute]
  have hanswers : ∀ server : Server, ({ s.execute i conn message with server } : Service).answers conn.socket.client =
      s.answers conn.socket.client ++ [((parse message).operate s.hashMap).2] := by
    intro server
    simp [answers, Service.execute]
  have hsame : ∀ (server : Server) c, c ≠ conn.socket.client →
      ({ s.execute i conn message with server } : Service).taken c = s.taken c ∧
        ({ s.execute i conn message with server } : Service).answers c = s.answers c := by
    intro server c hc
    simp [taken, answers, Service.execute, Ne.symm hc]
  rw [hnote]
  refine ⟨h.stream, h.framed, fun j conn' m hj' => ?_, fun c hc => ?_, fun j conn' hj' ho => ?_, fun c ho hc => ?_,
    fun c => ?_, ?_⟩
  · rcases jobs_setJob hj' with ⟨-, -, hpc⟩ | ⟨hne, hj'⟩
    · cases hpc
    · rw [(hsame _ _ (hother j conn' _ hne hj')).1]
      exact h.executing j conn' m hj'
  · by_cases hcc : c = conn.socket.client
    · subst hcc
      rw [htaken]
      exact h.executing i conn message hj
    · rw [(hsame _ c hcc).1]
      refine h.caughtUp c fun j conn' m hj' => ?_
      by_cases hji : j = i
      · subst hji
        rw [hj] at hj'
        cases hj'
        exact Ne.symm hcc
      · exact hc j conn' m ((Server.setJob_jobs_ne fun he => hji (Option.some.inj he).symm).trans hj')
  · rcases jobs_setJob hj' with ⟨rfl, rfl, -⟩ | ⟨hne, hj'⟩
    · have hnum := (hh.jobs j _ hj).1
      have hall : s.answers conn.socket.client = s.sent conn.socket.client := by
        refine h.replied _ (hnum ▸ ho) fun k conn' hk hc => ?_
        obtain rfl := hh.single hk hj hc
        cases hmine hk
      rw [hanswers, hall]
      simp [Service.execute]
    · have hne' := hother j conn' _ hne hj'
      rw [(hsame _ _ hne').2]
      have hold := h.replying j conn' hj' ho
      simp only [Service.execute, Function.update_of_ne hne]
      exact hold
  · by_cases hcc : c = conn.socket.client
    · exact absurd hcc.symm (hc i conn (by simp [Server.setJob]))
    · rw [(hsame _ c hcc).2]
      refine h.replied c ho fun j conn' hj' => ?_
      by_cases hji : j = i
      · subst hji
        cases hmine hj'
      · exact hc j conn' ((Server.setJob_jobs_ne fun he => hji (Option.some.inj he).symm).trans hj')
  · by_cases hcc : c = conn.socket.client
    · subst hcc
      rw [hanswers]
      exact (h.cut _).trans (List.prefix_append _ _)
    · rw [(hsame _ c hcc).2]
      exact h.cut c
  · have hop := (parse message).operate_onMap s.hashMap
    refine Linearize.legal_append.mpr ⟨s.hashMap.contents, h.legal, ?_, ?_⟩
    · exact congrArg Prod.snd hop
    · exact congrArg Prod.fst hop

theorem Ordered.send {m₀ : Bytes → Option Bytes} (h : Ordered m₀ s) (hh : Handles s) {i : JobId} {server : Server}
    (hs : s.server.step (.send i) = some server) : Ordered m₀ { s.note (.send i) with server } := by
  obtain ⟨conn, hj, rfl⟩ := Server.step_send hs
  have hnote : s.note (.send i) = s.send i conn := by simp only [note, hj]
  have hother : ∀ j conn', j ≠ i → s.server.jobs j = some ⟨conn', .replying⟩ →
      conn'.socket.client ≠ conn.socket.client := fun j conn' hne hj' hc => hne (hh.single hj' hj hc)
  have hsame : ∀ c, c ≠ conn.socket.client → (s.send i conn).sent c = s.sent c := by
    intro c hc
    simp only [Service.send]
    rcases hh.own hj with ho | ho
    · rw [ho]
    · simp only [ho]
      exact Function.update_of_ne hc _ _
  have hsent : s.server.kernel.owner conn.socket.num = some conn.socket.client →
      (s.send i conn).sent conn.socket.client = s.answers conn.socket.client := by
    intro ho
    simp only [Service.send, ho, Function.update_self]
    exact (h.replying i conn hj ho).symm
  rw [hnote]
  refine ⟨h.stream, h.framed, fun j conn' m hj' => ?_, fun c hc => ?_, fun j conn' hj' ho => ?_, fun c ho hc => ?_,
    fun c => ?_, h.legal⟩
  · rcases jobs_setJob hj' with ⟨-, -, hpc⟩ | ⟨-, hj'⟩
    · cases hpc
    · exact h.executing j conn' m hj'
  · refine h.caughtUp c fun j conn' m hj' => ?_
    by_cases hji : j = i
    · subst hji
      rw [hj] at hj'
      cases hj'
    · exact hc j conn' m ((Server.setJob_jobs_ne fun he => hji (Option.some.inj he).symm).trans hj')
  · rcases jobs_setJob hj' with ⟨-, -, hpc⟩ | ⟨hne, hj'⟩
    · cases hpc
    · simp only [hsame _ (hother j conn' hne hj')]
      exact h.replying j conn' hj' ho
  · by_cases hcc : c = conn.socket.client
    · subst hcc
      exact (hsent ((hh.jobs i _ hj).1 ▸ ho)).symm
    · simp only [hsame c hcc]
      refine h.replied c ho fun j conn' hj' => ?_
      by_cases hji : j = i
      · subst hji
        rw [hj] at hj'
        cases hj'
        exact Ne.symm hcc
      · exact hc j conn' ((Server.setJob_jobs_ne fun he => hji (Option.some.inj he).symm).trans hj')
  · by_cases hcc : c = conn.socket.client
    · subst hcc
      rcases hh.own hj with ho | ho
      · simp only [Service.send, ho]
        exact h.cut _
      · simp only [hsent ho]
        exact List.prefix_rfl
    · simp only [hsame c hcc]
      exact h.cut c

theorem Ordered.step {m₀ : Bytes → Option Bytes} (h : Ordered m₀ s) (hh : Handles s) (hs : s.step l = some s') :
    Ordered m₀ s' := by
  obtain ⟨server, hserver, rfl⟩ := step_eq_some hs
  cases l with
  | recv i r => exact h.recv hh hserver
  | execute i => exact h.execute hh hserver
  | send i => exact h.send hh hserver
  | _ => exact h.quiet hh hserver (fun _ _ he => by cases he) (fun _ he => by cases he) fun _ he => by cases he

/-! ## What gets to the clients -/

/-- Of each reply that was sent a first part got to the client, and all of it
if its socket takes all that it is given. -/
def Arrived (s : Service) : Prop :=
  ∀ c, List.Forall₂ (· <+: ·) (s.delivered c) (s.sent c) ∧
    ((∀ n, s.outcomes c n = .all) → s.delivered c = s.sent c)

theorem Arrived.start (hashMap : HashMap) (outcomes) : Arrived (start hashMap outcomes) :=
  fun _ => ⟨.nil, fun _ => rfl⟩

theorem accepted_of_all {c : ClientId} (h : ∀ n, s.outcomes c n = .all) (response : Bytes) :
    s.accepted c response = response := by
  rw [accepted, h]
  exact List.take_length

theorem Arrived.send (h : Arrived s) (i : JobId) (conn : Connection) : Arrived (s.send i conn) := by
  intro c
  cases ho : s.server.kernel.owner conn.socket.num with
  | none =>
    simp only [Service.send, ho]
    exact h c
  | some c' =>
    simp only [Service.send, ho]
    by_cases hc : c = c'
    · subst hc
      simp only [Function.update_self]
      refine ⟨List.rel_append (h c).1 (.cons (List.take_prefix _ _) .nil), fun hall => ?_⟩
      rw [(h c).2 hall, accepted_of_all hall]
    · simp only [Function.update_of_ne hc]
      exact h c

theorem Arrived.step (h : Arrived s) (hs : s.step l = some s') : Arrived s' := by
  obtain ⟨server, -, rfl⟩ := step_eq_some hs
  cases l with
  | recv i r => simp only [note]; split <;> exact h
  | execute i => simp only [note]; split <;> exact h
  | send i =>
    simp only [note]
    split
    · exact h.send i _
    · exact h
  | _ => exact h

/-! ## Every run -/

/-- The runs in which no number is given out that a job still has. -/
abbrev Reachable (hashMap : HashMap) (outcomes : ClientId → ℕ → SendOutcome) (s : Service) : Prop :=
  Runs.Reach step (fun s l => s.server.NotHeld l) (start hashMap outcomes) s

theorem Reachable.ordered {hashMap : HashMap} {outcomes : ClientId → ℕ → SendOutcome}
    (h : Reachable hashMap outcomes s) :
    Handles s ∧ Ordered hashMap.contents s :=
  h.invariant (fun s => Handles s ∧ Ordered hashMap.contents s) ⟨.start .., .start ..⟩
    fun _ _ _ hi hc hs => ⟨hi.1.step hc hs, hi.2.step hi.1 hs⟩

end Service

end KvDatabase
