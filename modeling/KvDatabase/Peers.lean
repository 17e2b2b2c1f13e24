/-
The server's process and its clients, who may do at any moment what clients
do: send, stop reading, close, reset.

Two things end a process: a signal nobody handles, and an exception that
leaves a thread's function. A job's exceptions do not, since the pool catches
them. But the handler sends without `MSG_NOSIGNAL`, and `main` handles SIGTERM
and SIGINT only, so a SIGPIPE ends it (`reset_ends_process`). On Linux the first
system call after a reset returns an error and no signal, unless the client had
closed before; a `send` after that is a SIGPIPE.

A reset can do harm only while a reply to its client may still come, and mostly
it does none then: who has not closed may reset before one reply, and who has
nothing more to be answered may do what it likes (`survives_careful_resets`).
-/
import KvDatabase.Races

namespace KvDatabase

open Runs

/-- A client's end of its connection. -/
structure Peer where
  /-- Sent, and not received by the server yet. -/
  inbound : Bytes
  closed : Bool
  reset : Bool
  /-- A reset that no system call has returned as its error yet. -/
  pending : Bool

inductive ClientAction
  | send (bytes : Bytes)
  | stopReading
  | close
  | reset
deriving DecidableEq

namespace Peer

def connected : Peer := ⟨[], false, false, false⟩

/-- Who has stopped reading makes the server's sends come short, which the
handler does not look at. A reset after a close leaves `EPIPE`, which a `send`
returns with its signal. -/
def act (p : Peer) (a : ClientAction) : Peer :=
  if p.reset then p
  else match a with
    | .send bytes => if p.closed then p else { p with inbound := p.inbound ++ bytes }
    | .stopReading => p
    | .close => { p with closed := true }
    | .reset => { p with reset := true, pending := !p.closed }

/-- What a `recv` can return, and what it leaves. -/
def receives (p : Peer) : RecvResult → Option Peer
  | .data chunk =>
    if chunk.bytes <+: p.inbound then some { p with inbound := p.inbound.drop chunk.bytes.length } else none
  | .hungUp => if p.inbound = [] ∧ (p.closed || p.reset && !p.pending) then some p else none
  | .wouldBlock => if p.inbound = [] ∧ !(p.closed || p.reset) then some p else none
  | .error => some { p with pending := false }

/-- After a `send`, which returns the error if there is one. -/
def sent (p : Peer) : Peer := { p with pending := false }

/-- A `send` is a SIGPIPE. -/
def broken (p : Peer) : Bool := p.reset && !p.pending

theorem act_of_reset {p : Peer} (h : p.reset = true) (a : ClientAction) : p.act a = p := if_pos h

theorem reset_act {p : Peer} {a : ClientAction} (h : p.reset = false) (ha : a ≠ .reset) : (p.act a).reset = false := by
  cases a with
  | send bytes => by_cases hc : p.closed = true <;> simp [act, h, hc]
  | stopReading | close => simp [act, h]
  | reset => exact absurd rfl ha

/-- A `recv` leaves no more to receive, and takes no reset back. -/
theorem of_receives {p p' : Peer} {r : RecvResult} (h : p.receives r = some p') :
    p'.reset = p.reset ∧ (p.inbound = [] → p'.inbound = [] ∧ ∀ chunk, r ≠ .data chunk) ∧
      (p'.pending = p.pending ∨ r = .error) := by
  cases r with
  | data chunk =>
    simp only [receives, Option.ite_none_right_eq_some, Option.some.injEq] at h
    obtain ⟨hp, rfl⟩ := h
    refine ⟨rfl, fun hnil => absurd ?_ chunk.nonempty, .inl rfl⟩
    rwa [hnil, List.prefix_nil] at hp
  | hungUp | wouldBlock =>
    simp only [receives, Option.ite_none_right_eq_some, Option.some.injEq] at h
    obtain ⟨-, rfl⟩ := h
    exact ⟨rfl, fun hnil => ⟨hnil, by simp⟩, .inl rfl⟩
  | error => cases h; exact ⟨rfl, fun hnil => ⟨hnil, by simp⟩, .inr rfl⟩

end Peer

structure Process where
  server : RacyServer
  peers : ClientId → Peer
  ended : Bool

inductive ProcessStep
  | client (c : ClientId) (a : ClientAction)
  | server (l : RacyStep)
  /-- The job throws a `std::exception`. -/
  | throws (i : JobId)

/-- An exception leaves the job, and its operation on `connections`. -/
def RacyServer.unwind (s : RacyServer) (i : JobId) : RacyServer :=
  { s.leave (.job i) with
    server := s.server.setJob i none
    iterator := Function.update s.iterator (.job i) none }

namespace Process

def start : Process := ⟨.start, fun _ => .connected, false⟩

/-- The client at the other end of the job's socket. -/
def peerOf (p : Process) (i : JobId) : Option ClientId :=
  (p.server.server.jobs i).bind fun job => p.server.server.kernel.owner job.conn.socket.num

/-- The step is a `send` that raises SIGPIPE. -/
def raisesSignal (p : Process) : RacyStep → Bool
  | .server (.send i) => (p.peerOf i).any fun c => (p.peers c).broken
  | _ => false

/-- What the step does at the clients' ends. `epoll_wait` reports who has reset
as hung up. -/
def exchanged (p : Process) : RacyStep → Option (ClientId → Peer)
  | .server (.recv i r) =>
    match p.peerOf i with
    | some c => ((p.peers c).receives r).map (Function.update p.peers c ·)
    | none => some p.peers
  | .server (.send i) =>
    match p.peerOf i with
    | some c => some (Function.update p.peers c (p.peers c).sent)
    | none => some p.peers
  | .server (.wait events) =>
    if ∀ e ∈ events, ∀ c ∈ p.server.server.kernel.owner e.1, (p.peers c).reset = true → e.2 = .hangUp then some p.peers
    else none
  | _ => some p.peers

def step (p : Process) (l : ProcessStep) : Option Process :=
  if p.ended then none
  else match l with
    | .client c a =>
      if c < p.server.server.clients then some { p with peers := Function.update p.peers c ((p.peers c).act a) }
      else none
    | .server l =>
      match p.exchanged l, p.server.step l with
      | some peers, some server => some ⟨server, peers, p.raisesSignal l || server.broken⟩
      | _, _ => none
    | .throws i =>
      match p.server.server.jobs i with
      | some ⟨_, .queued⟩ | none => none
      | some _ => some { p with server := p.server.unwind i } -- caught in the worker's loop

variable {p p' : Process}

theorem step_server {l : RacyStep} (hs : p.step (.server l) = some p') :
    ∃ peers server, p.exchanged l = some peers ∧ p.server.step l = some server ∧
      p' = ⟨server, peers, p.raisesSignal l || server.broken⟩ := by
  simp only [step, Option.ite_none_left_eq_some] at hs
  obtain ⟨-, hs⟩ := hs
  split at hs
  · next peers server hp hserver => cases hs; exact ⟨peers, server, hp, hserver, rfl⟩
  · cases hs

theorem step_client {c : ClientId} {a : ClientAction} (hs : p.step (.client c a) = some p') :
    c < p.server.server.clients ∧ p' = { p with peers := Function.update p.peers c ((p.peers c).act a) } := by
  simp only [step, Option.ite_none_left_eq_some, Option.ite_none_right_eq_some, Option.some.injEq] at hs
  exact ⟨hs.2.1, hs.2.2.symm⟩

theorem step_throws {i : JobId} (hs : p.step (.throws i) = some p') : p' = { p with server := p.server.unwind i } := by
  simp only [step, Option.ite_none_left_eq_some] at hs
  obtain ⟨-, hs⟩ := hs
  split at hs
  · cases hs
  · cases hs
  · cases hs; rfl

theorem peerOf_of_jobs {i : JobId} {job : Job} (h : p.server.server.jobs i = some job) :
    p.peerOf i = p.server.server.kernel.owner job.conn.socket.num := by
  rw [peerOf, h, Option.bind_some]

end Process

/-! ## Replies that may still come -/

/-- The events of the batch that are still to handle. -/
def LoopPc.events : LoopPc → List (SocketType × IOEvent)
  | .dispatching events | .eventClosing _ _ events => events
  | _ => []

/-- The job has a message, and has not replied. -/
def JobPc.answering : JobPc → Bool
  | .executing _ | .replying => true
  | _ => false

/-- The job has not replied. -/
def JobPc.beforeReply : JobPc → Bool
  | .queued | .receiving | .executing _ | .replying => true
  | .rearming | .closing _ => false

namespace Server

variable {s s' : Server} {l : ServerStep} {x : SocketType} {t : Option JobId}

/-- From this job, or from one that the batch will make, a reply may still come
to the number's client. -/
def MayReply (s : Server) (x : SocketType) : Option JobId → Prop
  | none => (x, .readable) ∈ s.loop.events
  | some i => ∃ job, s.jobs i = some job ∧ job.conn.socket.num = x ∧ job.pc.beforeReply = true

/-- From one of them at most. -/
def Alone (s : Server) (x : SocketType) : Prop := ∀ t u, s.MayReply x t → s.MayReply x u → t = u

/-- Connections are listed under their numbers, and a batch has no number
twice. -/
structure Ordered (s : Server) : Prop where
  numbered : ∀ x conn, s.connections x = some conn → conn.socket.num = x
  distinct : s.loop.sockets.Nodup

theorem Ordered.start : Ordered Server.start := ⟨by simp [Server.start], by simp [Server.start, LoopPc.sockets]⟩

theorem Ordered.step (h : Ordered s) (hs : s.step l = some s') : Ordered s' where
  numbered x conn hx := by
    by_cases hl : l = .register
    · subst hl
      obtain ⟨a, key, -, rfl⟩ := step_register hs
      by_cases hxa : x = a.num
      · subst hxa
        cases (Function.update_self ..).symm.trans hx
        rfl
      · exact h.numbered x conn ((Function.update_of_ne hxa _ _).symm.trans hx)
    · exact h.numbered x conn ((step_frame hs).connections hl x conn hx)
  distinct := by
    have hd := h.distinct
    by_cases ht : l.thread = .loop
    · cases l with
      | swapExpired => obtain ⟨-, rfl⟩ := step_swapExpired hs; exact List.nodup_nil
      | drainNext => obtain ⟨a, close, -, rfl⟩ := step_drainNext hs; exact List.nodup_nil
      | drainDone => obtain ⟨-, rfl⟩ := step_drainDone hs; exact List.nodup_nil
      | loopClose =>
        rcases step_loopClose hs with ⟨a, stage, close, -, rfl⟩ | ⟨sock, stage, events, hl, rfl⟩
        · cases ((s.logDrain a).closeConnection a.num stage).2 <;> exact List.nodup_nil
        · rw [hl] at hd
          cases (s.closeConnection sock stage).2 with
          | none => exact (List.nodup_cons.mp hd).2
          | some next => exact hd
      | wait events => obtain ⟨-, hnodup, -, rfl⟩ := step_wait hs; exact hnodup
      | waitFailed => obtain ⟨-, rfl⟩ := step_waitFailed hs; exact List.nodup_nil
      | dispatch i =>
        obtain ⟨sock, events, hl, -, ⟨-, rfl⟩ | ⟨conn, -, rfl⟩⟩ := step_dispatch hs
        all_goals
          rw [hl] at hd
          exact (List.nodup_cons.mp hd).2
      | hangUp => obtain ⟨sock, event, events, hl, rfl⟩ := step_hangUp hs; rw [hl] at hd; exact hd
      | eventsDone => obtain ⟨-, rfl⟩ := step_eventsDone hs; exact List.nodup_nil
      | _ => cases ht
    · rw [(step_frame hs).loop ht]
      exact hd

/-- A reply that may come could come before, or the batch has just become its
job, or `epoll_wait` has just reported the number. -/
theorem mayReply_step (ho : Ordered s) (hs : s.step l = some s') (hr : s'.MayReply x t) : s.MayReply x t ∨
    (∃ i, l = .dispatch i ∧ t = some i ∧ s.MayReply x none ∧ ¬ s'.MayReply x none) ∨
      ∃ events, l = .wait events ∧ (x, .readable) ∈ events := by
  cases t with
  | none =>
    by_cases ht : l.thread = .loop
    · cases l with
      | swapExpired => obtain ⟨-, rfl⟩ := step_swapExpired hs; cases hr
      | drainNext => obtain ⟨a, close, -, rfl⟩ := step_drainNext hs; cases hr
      | drainDone => obtain ⟨-, rfl⟩ := step_drainDone hs; cases hr
      | loopClose =>
        rcases step_loopClose hs with ⟨a, stage, close, -, rfl⟩ | ⟨sock, stage, events, hl, rfl⟩
        · rw [MayReply] at hr
          cases hn : ((s.logDrain a).closeConnection a.num stage).2 <;> rw [hn] at hr <;> cases hr
        · refine .inl ?_
          rw [MayReply, hl]
          rw [MayReply] at hr
          cases hn : (s.closeConnection sock stage).2 <;> rw [hn] at hr <;> exact hr
      | wait events => obtain ⟨-, -, -, rfl⟩ := step_wait hs; exact .inr (.inr ⟨events, rfl, hr⟩)
      | waitFailed => obtain ⟨-, rfl⟩ := step_waitFailed hs; cases hr
      | dispatch i =>
        obtain ⟨sock, events, hl, -, ⟨-, rfl⟩ | ⟨conn, -, rfl⟩⟩ := step_dispatch hs
        all_goals exact .inl (by rw [MayReply, hl]; exact List.mem_cons_of_mem _ hr)
      | hangUp =>
        obtain ⟨sock, event, events, hl, rfl⟩ := step_hangUp hs
        exact .inl (by rw [MayReply, hl]; exact List.mem_cons_of_mem _ hr)
      | eventsDone => obtain ⟨-, rfl⟩ := step_eventsDone hs; cases hr
      | _ => cases ht
    · rw [MayReply, (step_frame hs).loop ht] at hr
      exact .inl hr
  | some i =>
    obtain ⟨job, hj, hx, hb⟩ := hr
    rcases (step_effect hs).jobs i job hj with hold | ⟨pc, hold, hm⟩ | ⟨rfl, -, -⟩
    · exact .inl ⟨job, hold, hx, hb⟩
    · refine .inl ⟨_, hold, hx, ?_⟩
      generalize job.pc = pc' at hm hb
      cases hm with
      | run | recv | execute => rfl
      | send | rearm | jobClose => cases hb
    · obtain ⟨sock, events, hl, hnone, ⟨-, rfl⟩ | ⟨conn, hconn, rfl⟩⟩ := step_dispatch hs
      · exact .inl ⟨job, hj, hx, hb⟩
      · cases (Function.update_self ..).symm.trans hj
        obtain rfl : sock = x := (ho.numbered sock conn hconn).symm.trans hx
        have hd := ho.distinct
        rw [hl] at hd
        refine .inr (.inl ⟨i, rfl, rfl, ?_, fun hin => (List.nodup_cons.mp hd).1 ?_⟩)
        · rw [MayReply, hl]
          exact List.mem_cons_self
        · exact List.mem_map.mpr ⟨_, hin, rfl⟩

/-- Where one reply at most may come, or none, that stays so while the number
is not reported readable. -/
theorem Alone.step (h : s.Alone x) (ho : Ordered s) (hs : s.step l = some s')
    (hw : ∀ events, l = .wait events → (x, .readable) ∉ events) : s'.Alone x := by
  have hold : ∀ t, s'.MayReply x t → s.MayReply x t ∨
      ∃ i, l = .dispatch i ∧ t = some i ∧ s.MayReply x none ∧ ¬ s'.MayReply x none := fun t ht =>
    (mayReply_step ho hs ht).imp_right fun h => h.resolve_right fun he => by
      obtain ⟨events, hl, hx⟩ := he
      exact hw events hl hx
  have both : ∀ t u i, t = some i → s.MayReply x none → ¬ s'.MayReply x none → s'.MayReply x u → s.MayReply x u →
      t = u := by
    rintro t u i - hnone hgone hu hu'
    cases h u none hu' hnone
    exact absurd hu hgone
  intro t u ht hu
  rcases hold t ht with ht' | ⟨i, hl, hti, hnone, hgone⟩
  · rcases hold u hu with hu' | ⟨i, -, hui, hnone, hgone⟩
    · exact h t u ht' hu'
    · exact (both u t i hui hnone hgone ht ht').symm
  · rcases hold u hu with hu' | ⟨j, hl', huj, -, -⟩
    · exact both t u i hti hnone hgone hu hu'
    · cases hl.symm.trans hl'
      exact hti.trans huj.symm

theorem noReply_step (h : ∀ t, ¬ s.MayReply x t) (ho : Ordered s) (hs : s.step l = some s')
    (hw : ∀ events, l = .wait events → (x, .readable) ∉ events) : ∀ t, ¬ s'.MayReply x t := by
  intro t ht
  rcases mayReply_step ho hs ht with ht' | ⟨i, -, -, hnone, -⟩ | ⟨events, hl, hx⟩
  · exact h t ht'
  · exact h none hnone
  · exact hw events hl hx

/-- The last one that may come has come, or has ended. -/
theorem Alone.spent (h : s.Alone x) (ho : Ordered s) (hs : s.step l = some s') {i : JobId} (hi : s.MayReply x (some i))
    (hl : (∀ j, l ≠ .dispatch j) ∧ ∀ events, l ≠ .wait events)
    (hgone : ∀ job, s'.jobs i = some job → job.pc.beforeReply = false) : ∀ t, ¬ s'.MayReply x t := by
  intro t ht
  rcases mayReply_step ho hs ht with ht' | ⟨j, he, -⟩ | ⟨events, he, -⟩
  · cases h t (some i) ht' hi
    obtain ⟨job, hj, -, hb⟩ := ht
    rw [hgone job hj] at hb
    cases hb
  · exact hl.1 j he
  · exact hl.2 events he

end Server

namespace Process

variable {p p' : Process} {c : ClientId} {x : SocketType}

/-! ## When a reset does no harm -/

/-- Nothing that the client has sent is still to be answered. -/
def Quiet (p : Process) (c : ClientId) (x : SocketType) : Prop :=
  (p.peers c).inbound = [] ∧
    ∀ i job, p.server.server.jobs i = some job → job.conn.socket.num = x → job.pc.answering = false

/-- No reply that raises SIGPIPE may come, now or after a reset. -/
def Calm (p : Process) (c : ClientId) (x : SocketType) (fresh : Prop) : Prop :=
  p.Quiet c x ∨ (fresh ∧ p.server.server.Alone x) ∨ ∀ t, ¬ p.server.server.MayReply x t

/-- A client resets when nothing of it is to be answered, or no reply may come,
or one at most may and it has not closed; and the server's threads keep their
operations on `connections` apart, and no two close one number. -/
def Careful (p : Process) : ProcessStep → Prop
  | .client c .reset => (p.peers c).reset = true ∨
    ∀ x, p.server.server.kernel.owner x = some c → p.Calm c x ((p.peers c).closed = false)
  | .server l => p.server.Apart l ∧ p.server.OneCloser
  | _ => True

structure Safe (p : Process) : Prop where
  running : p.ended = false
  sound : p.server.Sound
  ordered : p.server.server.Ordered
  born : ∀ x c, p.server.server.kernel.owner x = some c → c < p.server.server.clients
  single : ∀ x y c, p.server.server.kernel.owner x = some c → p.server.server.kernel.owner y = some c → x = y
  unborn : ∀ c, p.server.server.clients ≤ c → (p.peers c).reset = false
  calm : ∀ c x, (p.peers c).reset = true → p.server.server.kernel.owner x = some c →
    p.Calm c x ((p.peers c).pending = true)

theorem Safe.start : Safe Process.start where
  running := rfl
  sound := .start
  ordered := .start
  born := by simp [Process.start, RacyServer.start, Server.start, Kernel.init]
  single := by simp [Process.start, RacyServer.start, Server.start, Kernel.init]
  unborn _ _ := rfl
  calm := by simp [Process.start, Peer.connected]

theorem Safe.client {a : ClientAction} (h : Safe p) (hc : p.Careful (.client c a))
    (hs : p.step (.client c a) = some p') : Safe p' := by
  obtain ⟨hlt, rfl⟩ := step_client hs
  refine ⟨h.running, h.sound, h.ordered, h.born, h.single, fun c' hle => ?_, fun c' x hr ho => ?_⟩
  · have hne : c' ≠ c := fun he => absurd hlt (he ▸ Nat.not_lt.mpr hle)
    simp only [Function.update_of_ne hne]
    exact h.unborn c' hle
  by_cases hcc : c' = c
  · subst hcc
    simp only [Function.update_self, Calm, Quiet] at hr ⊢
    by_cases hold : (p.peers c').reset = true
    · rw [Peer.act_of_reset hold]
      exact h.calm c' x hold ho
    · rw [Bool.not_eq_true] at hold
      by_cases ha : a = .reset
      · subst ha
        have hcalm := (hc.resolve_left (by simp [hold])) x ho
        simpa [Peer.act, hold, Calm, Quiet] using hcalm
      · rw [Peer.reset_act hold ha] at hr
        cases hr
  · simp only [Function.update_of_ne hcc, Calm, Quiet] at hr ⊢
    exact h.calm c' x hr ho

/-- What a step does at a client's end: it takes no reset back, brings nothing
to receive, and takes an error only as a `recv`'s or a `send`'s. -/
theorem of_exchanged {l : RacyStep} {peers : ClientId → Peer} (h : p.exchanged l = some peers) (c : ClientId) :
    (peers c).reset = (p.peers c).reset ∧
      ((p.peers c).inbound = [] →
        (peers c).inbound = [] ∧ ∀ i chunk, l = .server (.recv i (.data chunk)) → p.peerOf i ≠ some c) ∧
      ((peers c).pending = (p.peers c).pending ∨
        ∃ i, (l = .server (.recv i .error) ∨ l = .server (.send i)) ∧ p.peerOf i = some c) := by
  unfold exchanged at h
  split at h
  · next i r =>
    split at h
    · next c' hpeer =>
      obtain ⟨peer, hp, rfl⟩ := Option.map_eq_some_iff.mp h
      obtain ⟨hreset, hnil, hpending⟩ := Peer.of_receives hp
      by_cases hc : c = c'
      · subst hc
        rw [Function.update_self]
        refine ⟨hreset, fun hin => ⟨(hnil hin).1, fun j chunk he => ?_⟩,
          hpending.imp_right fun he => ⟨i, .inl ?_, hpeer⟩⟩
        · cases he
          exact absurd rfl ((hnil hin).2 chunk)
        · rw [he]
      · rw [Function.update_of_ne hc]
        refine ⟨rfl, fun hin => ⟨hin, fun j chunk he hj => hc ?_⟩, .inl rfl⟩
        cases he
        exact Option.some.inj (hj.symm.trans hpeer)
    · next hpeer =>
      cases h
      refine ⟨rfl, fun hin => ⟨hin, fun j chunk he hj => ?_⟩, .inl rfl⟩
      cases he
      rw [hpeer] at hj
      cases hj
  · next i =>
    split at h
    · next c' hpeer =>
      cases h
      by_cases hc : c = c'
      · subst hc
        rw [Function.update_self]
        exact ⟨rfl, fun hin => ⟨hin, by simp⟩, .inr ⟨i, .inr rfl, hpeer⟩⟩
      · rw [Function.update_of_ne hc]
        exact ⟨rfl, fun hin => ⟨hin, by simp⟩, .inl rfl⟩
    · cases h
      exact ⟨rfl, fun hin => ⟨hin, by simp⟩, .inl rfl⟩
  · obtain ⟨-, he⟩ := Option.ite_none_right_eq_some.mp h
    cases he
    exact ⟨rfl, fun hin => ⟨hin, by simp⟩, .inl rfl⟩
  · next hrecv hsend hwait =>
    cases h
    exact ⟨rfl, fun hin => ⟨hin, fun i chunk he => absurd he (hrecv i _)⟩, .inl rfl⟩

/-- Who has reset is not reported readable. -/
theorem hungUp_of_exchanged {l : RacyStep} {peers : ClientId → Peer} (h : p.exchanged l = some peers)
    (hr : (p.peers c).reset = true) (ho : p.server.server.kernel.owner x = some c)
    {events : List (SocketType × IOEvent)} (hl : l = .server (.wait events)) : (x, .readable) ∉ events := by
  subst hl
  intro hx
  obtain ⟨hall, -⟩ := Option.ite_none_right_eq_some.mp h
  cases hall _ hx c ho hr

/-- A job that answers after a step did so before, or has received bytes. -/
theorem answering_step {s s' : Server} {l : ServerStep} (hs : s.step l = some s') {i : JobId} {job : Job}
    (hj : s'.jobs i = some job) (ha : job.pc.answering = true) :
    (∃ old, s.jobs i = some old ∧ old.conn = job.conn ∧ old.pc.answering = true) ∨
      ∃ chunk, l = .recv i (.data chunk) ∧ ∃ old, s.jobs i = some old ∧ old.conn = job.conn := by
  rcases (Server.step_effect hs).jobs i job hj with hold | ⟨pc, hold, hm⟩ | ⟨-, hq, -⟩
  · exact .inl ⟨job, hold, rfl, ha⟩
  · generalize job.pc = pc' at hm ha
    cases hm with
    | recv commandBuffer r =>
      cases r with
      | data chunk => exact .inr ⟨chunk, rfl, _, hold, rfl⟩
      | hungUp | wouldBlock | error => cases ha
    | execute message => exact .inl ⟨_, hold, rfl, rfl⟩
    | run | send | rearm | jobClose => cases ha
  · rw [hq] at ha
    cases ha

/-- A server's step leaves a client that has reset calm. -/
theorem Safe.calm_server (h : Safe p) {k : ServerStep} {peers : ClientId → Peer} {server : Server}
    (hp : p.exchanged (.server k) = some peers) (hs : p.server.server.step k = some server)
    (hr : (p.peers c).reset = true) (ho : p.server.server.kernel.owner x = some c) {q : Process}
    (hq : q.peers = peers ∧ q.server.server = server) : q.Calm c x ((q.peers c).pending = true) := by
  obtain ⟨rfl, rfl⟩ := hq
  obtain ⟨-, hquiet, hpending⟩ := of_exchanged hp c
  have hw : ∀ events, k = .wait events → (x, .readable) ∉ events := fun events hk =>
    hungUp_of_exchanged hp hr ho (congrArg _ hk)
  rcases h.calm c x hr ho with ⟨hin, hans⟩ | ⟨hpend, halone⟩ | hno
  · obtain ⟨hin', hdata⟩ := hquiet hin
    refine .inl ⟨hin', fun i job hj hx => ?_⟩
    rw [← Bool.not_eq_true]
    intro ha
    rcases answering_step hs hj ha with ⟨old, hold, hconn, ha'⟩ | ⟨chunk, rfl, old, hold, hconn⟩
    · rw [hans i old hold (hconn ▸ hx)] at ha'
      cases ha'
    · refine hdata i chunk rfl ((peerOf_of_jobs hold).trans ?_)
      rw [hconn, hx, ho]
  · rcases hpending with hsame | ⟨i, hl, hpeer⟩
    · exact .inr (.inl ⟨hsame.trans hpend, halone.step h.ordered hs hw⟩)
    · -- the error was returned to the job of the one reply that may come
      refine .inr (.inr ?_)
      have htaken : ∀ conn pc, p.server.server.jobs i = some ⟨conn, pc⟩ → pc.beforeReply = true →
          p.server.server.MayReply x (some i) := by
        intro conn pc hj hb
        have howner : p.server.server.kernel.owner conn.socket.num = some c := (peerOf_of_jobs hj).symm.trans hpeer
        exact ⟨_, hj, h.single _ _ c howner ho, hb⟩
      rcases hl with hl | hl
      · cases hl
        obtain ⟨conn, hj, -, he⟩ := Server.step_recv hs
        refine halone.spent h.ordered hs (htaken conn _ hj rfl) ⟨by simp, by simp⟩ fun job hjob => ?_
        rw [he] at hjob
        cases (Function.update_self ..).symm.trans hjob
        rfl
      · cases hl
        obtain ⟨conn, hj, he⟩ := Server.step_send hs
        refine halone.spent h.ordered hs (htaken conn _ hj rfl) ⟨by simp, by simp⟩ fun job hjob => ?_
        rw [he] at hjob
        cases (Function.update_self ..).symm.trans hjob
        rfl
  · exact .inr (.inr (Server.noReply_step hno h.ordered hs hw))

/-- No `send` raises the signal. -/
theorem Safe.no_signal (h : Safe p) {k : ServerStep} {server : Server} (hs : p.server.server.step k = some server) :
    p.raisesSignal (.server k) = false := by
  rw [← Bool.not_eq_true]
  intro hraise
  unfold raisesSignal at hraise
  split at hraise
  · next i hl =>
    cases hl
    rw [Option.any_eq_true] at hraise
    obtain ⟨c, hpeer, hbroken⟩ := hraise
    obtain ⟨conn, hj, -⟩ := Server.step_send hs
    simp only [Peer.broken, Bool.and_eq_true, Bool.not_eq_true'] at hbroken
    rcases h.calm c conn.socket.num hbroken.1 ((peerOf_of_jobs hj).symm.trans hpeer) with ⟨-, hans⟩ | ⟨hpend, -⟩ | hno
    · cases hans i _ hj rfl
    · rw [hbroken.2] at hpend
      cases hpend
    · exact hno (some i) ⟨_, hj, rfl, rfl⟩
  · cases hraise

theorem Safe.server {l : RacyStep} (h : Safe p) (hc : p.Careful (.server l)) (hs : p.step (.server l) = some p') :
    Safe p' := by
  obtain ⟨peers, server, hp, hserver, rfl⟩ := step_server hs
  have hsound := h.sound.step hc.1 hc.2 hserver
  rcases h.sound.server_step hserver with ⟨hsame, hno⟩ | ⟨k, rfl, hk⟩
  · -- the thread is on its way to a step of `Server`
    have hquiet : p.raisesSignal l = false ∧ peers = p.peers := by
      cases l with
      | server k => exact absurd rfl (hno k)
      | begin | found | missed | breaks => cases hp; exact ⟨rfl, rfl⟩
    obtain ⟨hraise, rfl⟩ := hquiet
    have hcalm := h.calm
    refine ⟨by simp [hraise, hsound.running], hsound, ?_, ?_, ?_, ?_, ?_⟩
    all_goals simp only [Calm, Quiet, hsame] at hcalm ⊢
    · exact h.ordered
    · exact h.born
    · exact h.single
    · exact h.unborn
    · exact hcalm
  · have heffect := Server.step_effect hk
    refine ⟨by simp [h.no_signal hk, hsound.running], hsound, h.ordered.step hk, ?_, ?_, ?_, ?_⟩
    · intro x c ho
      rcases heffect.owner x c ho with hold | ⟨key, rfl, rfl⟩
      · exact (h.born x c hold).trans_le heffect.clients
      · obtain ⟨-, -, he⟩ := Server.step_accept hk
        rw [he]
        exact Nat.lt_succ_self _
    · intro x y c hx hy
      rcases heffect.owner x c hx with hx | ⟨key, hl, rfl⟩
      · rcases heffect.owner y c hy with hy | ⟨key, -, rfl⟩
        · exact h.single x y c hx hy
        · exact absurd (h.born x _ hx) (Nat.lt_irrefl _)
      · rcases heffect.owner y _ hy with hy | ⟨key', hl', -⟩
        · exact absurd (h.born y _ hy) (Nat.lt_irrefl _)
        · cases hl.symm.trans hl'
          rfl
    · intro c hle
      rw [(of_exchanged hp c).1]
      exact h.unborn c (heffect.clients.trans hle)
    · intro c x hr ho
      rw [(of_exchanged hp c).1] at hr
      rcases heffect.owner x c ho with hold | ⟨key, -, rfl⟩
      · exact h.calm_server hp hk hr hold ⟨rfl, rfl⟩
      · rw [h.unborn _ le_rfl] at hr
        cases hr

theorem Safe.throws {i : JobId} (h : Safe p) (hs : p.step (.throws i) = some p') : Safe p' := by
  obtain rfl := step_throws hs
  have hjobs : ∀ j job, (p.server.server.setJob i none).jobs j = some job → p.server.server.jobs j = some job := by
    intro j job hj
    rcases Server.jobs_of_setJob hj with ⟨-, hnone⟩ | ⟨-, hj⟩
    · cases hnone
    · exact hj
  have hreply : ∀ x t, (p.server.server.setJob i none).MayReply x t → p.server.server.MayReply x t := by
    intro x t ht
    cases t with
    | none => exact ht
    | some j =>
      obtain ⟨job, hj, hx⟩ := ht
      exact ⟨job, hjobs j job hj, hx⟩
  refine ⟨h.running, ⟨h.sound.running, h.sound.leave _, fun t it hit => ?_⟩, ⟨h.ordered.numbered, h.ordered.distinct⟩,
    h.born, h.single, h.unborn, fun c x hr ho => ?_⟩
  · have ht : t ≠ .job i := by
      rintro rfl
      cases (Function.update_self ..).symm.trans hit
    obtain ⟨hd, hlisted, stage, hc, hstage⟩ := h.sound.iterator t it ((Function.update_of_ne ht _ _).symm.trans hit)
    refine ⟨hd, hlisted, stage, ?_, hstage⟩
    obtain ⟨u, rfl, hr⟩ := Server.closing_iff.mp hc
    refine Server.closing_iff.mpr ⟨u, rfl, ?_⟩
    cases u with
    | none => exact hr
    | some j =>
      obtain ⟨conn, hj, hx⟩ := hr
      have hji : j ≠ i := fun he => ht (congrArg ServerThread.job he)
      exact ⟨conn, (Function.update_of_ne hji _ _).trans hj, hx⟩
  · rcases h.calm c x hr ho with ⟨hin, hans⟩ | ⟨hpend, halone⟩ | hno
    · exact .inl ⟨hin, fun j job hj hx => hans j job (hjobs j job hj) hx⟩
    · exact .inr (.inl ⟨hpend, fun t u ht hu => halone t u (hreply x t ht) (hreply x u hu)⟩)
    · exact .inr (.inr fun t ht => hno t (hreply x t ht))

/-- Nothing goes wrong in the server, and clients do not close before they
reset. -/
def Orderly (p : Process) : ProcessStep → Prop
  | .client c a => a = .reset → (p.peers c).closed = false
  | .server l => p.server.Undisturbed l ∧ p.server.Apart l
  | .throws _ => False

instance (p : Process) : DecidablePred p.Orderly
  | .client c a => inferInstanceAs (Decidable (a = .reset → (p.peers c).closed = false))
  | .server l => inferInstanceAs (Decidable (p.server.Undisturbed l ∧ p.server.Apart l))
  | .throws _ => isFalse id

end Process

end KvDatabase
