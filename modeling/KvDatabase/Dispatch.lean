/-
A connection's turn, in runs in which nothing goes wrong: no session expires
and no `epoll_ctl` fails.

With `EPOLLONESHOT` a socket that was reported is muted, and only its job arms
it again. `Turns` says that nobody else touches the socket meanwhile; here
also that the turn is not lost: whoever is connected is armed, or in the
batch, or has one job (`dispatch_turn`). That needs each event in the batch to
find its connection, each `rearm` to find the socket in the epoll set, and
each path of the handler to end in `rearm` or in a close (`Placed`).

An operation on `connections` is one step here. `Races` says what it takes for
that to be so.
-/
import KvDatabase.Ownership
import KvDatabase.Lib.Token

namespace KvDatabase

/-- Where a connection's turn can be. -/
inductive Turn
  | armed
  /-- In the batch that is being processed. -/
  | reported
  /-- With this job, queued or running. -/
  | job (i : JobId)

/-- Before `EPOLL_CTL_DEL`. -/
def CloseStage.watched : CloseStage → Bool
  | .unwatch => true
  | .dropSession | .erase | .close => false

def JobPc.watched : JobPc → Bool
  | .closing stage => stage.watched
  | .queued | .receiving | .executing _ | .replying | .rearming => true

/-- Whatever was received, the job's socket stays in the epoll set for now. -/
theorem Received.next_watched (received : Received) : received.next.watched = true := by
  cases received <;> rfl

namespace Server

variable {s s' : Server}

/-- Whoever is connected, and out of the accept thread's hands. -/
def Open (s : Server) (x : SocketType) : Prop :=
  s.kernel.owner x ≠ none ∧ ∀ h, s.acceptor.handle = some h → h.num ≠ x

def TurnAt (s : Server) (x : SocketType) : Turn → Prop
  | .armed => s.kernel.epoll x = some .armed
  | .reported => x ∈ s.loop.sockets
  | .job i => ∃ conn, s.held i = some conn ∧ conn.socket.num = x

/-- No session expires, and no `epoll_ctl` fails. -/
def Undisturbed (s : Server) : ServerStep → Prop
  | .sweep key => (s.users.expire key s.now).2 = none
  | .watch ok | .rearm _ ok => ok = true
  | _ => True

instance (s : Server) : DecidablePred s.Undisturbed
  | .sweep key => inferInstanceAs (Decidable ((s.users.expire key s.now).2 = none))
  | .watch ok | .rearm _ ok => inferInstanceAs (Decidable (ok = true))
  | .tick _ | .accept _ _ | .refuse | .addSession | .drop | .register | .swapExpired | .drainNext | .drainDone
  | .loopClose | .wait _ | .waitFailed | .dispatch _ | .hangUp | .eventsDone | .run _ | .recv _ _ | .execute _
  | .send _ | .jobClose _ => isTrue trivial

/-- Everybody who is connected has a turn, but for the one whose turn is in
hand, and can be found when it comes. -/
structure Placed (hand : Option SocketType) (s : Server) : Prop where
  turns : Turns s
  tokens : Tokens hand s.TurnAt s.Open
  unexpired : s.expiredSockets = [] ∧ s.loop.toClose = []
  /-- No two sockets are one client's. -/
  clients : ∀ x c, s.kernel.owner x = some c → c < s.clients ∧ ∀ y, s.kernel.owner y = some c → y = x
  accepting : ∀ h, s.acceptor.handle = some h → s.kernel.owner h.num ≠ none
  registered : ∀ h key, s.acceptor = .registered h key → s.connections h.num ≠ none
  /-- What is watched is in `connections`. -/
  listed : ∀ x, s.kernel.epoll x ≠ none → s.connections x ≠ none
  /-- A job's socket is in the epoll set until the job takes it off. -/
  jobs : ∀ i job, s.jobs i = some job → (job.pc.watched = true ↔ s.kernel.epoll job.conn.socket.num ≠ none)
  closing : ∀ x stage events, s.loop = .eventClosing x stage events →
    (stage.watched = true ↔ s.kernel.epoll x ≠ none)

/-- A job's place is the only one that the job's going on or ending concerns. -/
theorem turnAt_setJob_ne {i : JobId} {job : Option Job} {x : SocketType} {t : Turn} (ht : t ≠ .job i) :
    (s.setJob i job).TurnAt x t ↔ s.TurnAt x t := by
  cases t with
  | armed | reported => exact Iff.rfl
  | job j =>
    have hji : j ≠ i := fun he => ht (he ▸ rfl)
    simp only [TurnAt, held_setJob, Function.update_of_ne hji]

theorem turnAt_setJob_self {i : JobId} {job : Option Job} {x : SocketType} :
    (s.setJob i job).TurnAt x (.job i) ↔ ∃ j, job = some j ∧ j.conn.socket.num = x := by
  simp only [TurnAt, held_setJob, Function.update_self, Option.map_eq_some_iff]
  constructor
  · intro hturn
    obtain ⟨_, ⟨j, hj, rfl⟩, hn⟩ := hturn
    exact ⟨j, hj, hn⟩
  · intro hturn
    obtain ⟨j, hj, hn⟩ := hturn
    exact ⟨_, ⟨j, hj, rfl⟩, hn⟩

namespace Placed

variable {hand : Option SocketType} {x : SocketType} {i : JobId} {conn : Connection} {pc pc' : JobPc}

theorem start : Placed none start := by
  have hno : ∀ x t, ¬Server.start.TurnAt x t := by
    intro x t ht
    cases t <;> simp [Server.start, TurnAt, Kernel.init, LoopPc.sockets, Server.held] at ht
  exact {
    turns := .start
    tokens := ⟨fun x t _ ht => absurd ht (hno x t), fun x t ht => absurd ht (hno x t), fun x hx => absurd rfl hx.1,
      fun x hx => by cases hx⟩
    unexpired := ⟨rfl, rfl⟩
    clients := by simp [Server.start, Kernel.init]
    accepting := by simp [Server.start, AcceptPc.handle]
    registered := by simp [Server.start]
    listed := by simp [Server.start, Kernel.init]
    jobs := by simp [Server.start]
    closing := by simp [Server.start] }

/-- A job's client is connected. -/
theorem held (h : Placed hand s) (hi : s.held i = some conn) : s.kernel.owner conn.socket.num ≠ none :=
  (h.tokens.placed _ (.job i) ⟨conn, hi, rfl⟩).1

/-- `accept` cannot return a number that a job has, as it is open. -/
theorem notHeld (h : Placed hand s) {l : ServerStep} (hs : s.step l = some s') : s.NotHeld l := by
  cases l with
  | accept num key =>
    obtain ⟨-, ho, -⟩ := step_accept hs
    exact fun i conn hi he => h.held hi (he ▸ ho)
  | _ => trivial

/-! ## The turn is taken -/

/-- From a job, which is over. -/
theorem takeJob (h : Placed none s) (hi : s.held i = some conn) :
    Placed (some conn.socket.num) (s.setJob i none) :=
  { h with
    turns := h.turns.endJob i
    tokens := by
      have hjob : s.TurnAt conn.socket.num (.job i) := ⟨conn, hi, rfl⟩
      refine h.tokens.take hjob fun y t => ?_
      by_cases ht : t = .job i
      · subst ht
        rw [turnAt_setJob_self]
        constructor
        · intro hturn
          obtain ⟨j, hj, -⟩ := hturn
          cases hj
        · intro hturn
          obtain ⟨⟨conn', hi', hn⟩, hne⟩ := hturn
          cases hi.symm.trans hi'
          exact absurd hn.symm hne
      · rw [turnAt_setJob_ne ht]
        exact ⟨fun hy => ⟨hy, fun he => ht (h.tokens.unique _ t (.job i) (he ▸ hy) hjob)⟩, And.left⟩
    jobs := fun j job hj => by
      by_cases hji : j = i
      · simp [Server.setJob, hji] at hj
      · exact h.jobs j job (by simpa [Server.setJob, hji] using hj) }

/-- From the batch. -/
theorem takeEvent (h : Placed none s) {events : List (SocketType × IOEvent)}
    (hl : s.loop.sockets = x :: events.map Prod.fst)
    (ht : Turns { s with loop := .dispatching events }) : Placed (some x) { s with loop := .dispatching events } :=
  { h with
    turns := ht
    tokens := by
      have hx : s.TurnAt x .reported := by rw [TurnAt, hl]; exact List.mem_cons_self
      have hxs : x ∉ events.map Prod.fst := (List.nodup_cons.mp (hl ▸ h.turns.distinct)).1
      refine h.tokens.take hx fun y t => ?_
      have hne : ∀ t, t ≠ .reported → s.TurnAt y t → y ≠ x := fun t ht hy he =>
        ht (h.tokens.unique x t .reported (he ▸ hy) hx)
      cases t with
      | armed => exact ⟨fun hy => ⟨hy, hne .armed (by simp) hy⟩, And.left⟩
      | job j => exact ⟨fun hy => ⟨hy, hne (.job j) (by simp) hy⟩, And.left⟩
      | reported =>
        change y ∈ events.map Prod.fst ↔ y ∈ s.loop.sockets ∧ y ≠ x
        rw [hl, List.mem_cons]
        exact ⟨fun hy => ⟨.inr hy, fun he => hxs (he ▸ hy)⟩, fun hy => hy.1.resolve_left hy.2⟩
    unexpired := ⟨h.unexpired.1, rfl⟩
    closing := fun _ _ _ he => by cases he }

/-- From the accept thread. -/
theorem takeAccepted (h : Placed none s) {a : Handle} (ha : s.acceptor.handle = some a) :
    Placed (some a.num) { s with acceptor := .idle } :=
  { h with
    turns := h.turns.setAcceptor (by simp [AcceptPc.handle]) (by simp)
    tokens := by
      refine h.tokens.bring (fun hx => hx.2 a ha rfl) fun y => ?_
      have hidle : ∀ b, AcceptPc.idle.handle = some b → b.num ≠ y := by simp [AcceptPc.handle]
      constructor
      · intro hturn
        obtain ⟨ho, -⟩ := hturn
        by_cases hy : y = a.num
        · exact .inr hy
        · refine .inl ⟨ho, fun b hb he => hy ?_⟩
          cases ha.symm.trans hb
          exact he.symm
      · intro hturn
        rcases hturn with ⟨ho, -⟩ | rfl
        · exact ⟨ho, hidle⟩
        · exact ⟨h.accepting a ha, hidle⟩
    accepting := by simp [AcceptPc.handle]
    registered := by simp }

/-! ## The turn is given -/

/-- What happens to a socket whose turn is in hand concerns no job and no
close. -/
theorem others (h : Placed (some x) s) {epoll : SocketType → Option Interest}
    (he : ∀ y, y ≠ x → epoll y = s.kernel.epoll y) :
    (∀ i job, s.jobs i = some job → (job.pc.watched = true ↔ epoll job.conn.socket.num ≠ none)) ∧
      ∀ y stage events, s.loop = .eventClosing y stage events → (stage.watched = true ↔ epoll y ≠ none) := by
  have hfree := (h.tokens.free x rfl).2
  constructor
  · intro i job hj
    have hjx : job.conn.socket.num ≠ x := fun hn => hfree (.job i) ⟨_, held_of_jobs hj, hn⟩
    rw [he _ hjx]
    exact h.jobs i job hj
  · intro y stage events hl
    have hyx : y ≠ x := by
      rintro rfl
      exact hfree .reported (by rw [TurnAt, hl]; exact List.mem_cons_self)
    rw [he y hyx]
    exact h.closing y stage events hl

/-- To a job. -/
theorem giveJob (h : Placed (some conn.socket.num) s) (hj : s.jobs i = none)
    (hw : pc.watched = true ↔ s.kernel.epoll conn.socket.num ≠ none)
    (ht : Turns (s.setJob i (some ⟨conn, pc⟩))) : Placed none (s.setJob i (some ⟨conn, pc⟩)) :=
  { h with
    turns := ht
    tokens := by
      refine h.tokens.give (t := .job i) fun y t => ?_
      by_cases hti : t = .job i
      · subst hti
        have hno : ¬s.TurnAt y (.job i) := by
          intro hturn
          obtain ⟨conn', hi, -⟩ := hturn
          rw [Server.held, hj] at hi
          cases hi
        rw [turnAt_setJob_self]
        constructor
        · intro hturn
          obtain ⟨j, hj', hn⟩ := hturn
          cases hj'
          exact .inr ⟨hn.symm, rfl⟩
        · intro hturn
          rcases hturn with hy | ⟨hy, -⟩
          · exact absurd hy hno
          · exact ⟨_, rfl, hy.symm⟩
      · rw [turnAt_setJob_ne hti]
        exact ⟨.inl, fun hy => hy.resolve_right fun he => hti he.2⟩
    jobs := fun j job hj' => by
      by_cases hji : j = i
      · simp only [Server.setJob, hji, Function.update_self, Option.some.injEq] at hj'
        exact hj' ▸ hw
      · exact h.jobs j job (by simpa [Server.setJob, hji] using hj') }

/-- To the event loop, which is to close the connection. -/
theorem giveEvent (h : Placed (some x) s) {events : List (SocketType × IOEvent)} {stage : CloseStage}
    (hl : s.loop = .dispatching events) (hw : stage.watched = true ↔ s.kernel.epoll x ≠ none)
    (ht : Turns { s with loop := .eventClosing x stage events }) :
    Placed none { s with loop := .eventClosing x stage events } :=
  { h with
    turns := ht
    tokens := by
      refine h.tokens.give (t := .reported) fun y t => ?_
      cases t with
      | reported =>
        change y ∈ x :: events.map Prod.fst ↔ y ∈ s.loop.sockets ∨ _
        rw [hl, List.mem_cons, and_iff_left rfl]
        exact or_comm
      | armed | job => simp [TurnAt, Server.held]
    unexpired := ⟨h.unexpired.1, rfl⟩
    closing := fun _ _ _ he => by cases he; exact hw }

/-- To epoll. -/
theorem giveEpoll (h : Placed (some x) s) {kernel : Kernel} (ho : kernel.owner = s.kernel.owner)
    (he : kernel.epoll = Function.update s.kernel.epoll x (some .armed)) (hc : s.connections x ≠ none)
    (ht : Turns { s with kernel }) : Placed none { s with kernel } := by
  have hepoll : ∀ y, y ≠ x → kernel.epoll y = s.kernel.epoll y := fun y hy => by rw [he, Function.update_of_ne hy]
  exact { h with
    turns := ht
    tokens := by
      have hopen : Tokens (some x) s.TurnAt (Open { s with kernel }) :=
        h.tokens.congr (fun _ _ => Iff.rfl) fun y => by simp only [Open, ho]
      refine hopen.give (t := .armed) fun y t => ?_
      cases t with
      | armed =>
        by_cases hy : y = x
        · simp [TurnAt, he, hy]
        · simp [TurnAt, hepoll y hy, hy]
      | reported | job => simp [TurnAt, Server.held]
    clients := by rw [ho]; exact h.clients
    accepting := by rw [ho]; exact h.accepting
    listed := fun y hy => by
      by_cases hyx : y = x
      · exact hyx ▸ hc
      · exact h.listed y (hepoll y hyx ▸ hy)
    jobs := (h.others hepoll).1
    closing := (h.others hepoll).2 }

/-- To nobody: the socket is closed. -/
theorem giveUp (h : Placed (some x) s) (ht : Turns { s with kernel := s.kernel.close x }) :
    Placed none { s with kernel := s.kernel.close x } := by
  have hfree := (h.tokens.free x rfl).2
  have hepoll : ∀ y, y ≠ x → (s.kernel.close x).epoll y = s.kernel.epoll y := fun y hy => by simp [hy]
  have howner : ∀ y, y ≠ x → (s.kernel.close x).owner y = s.kernel.owner y := fun y hy => by simp [hy]
  have hclosed : ∀ y c, (s.kernel.close x).owner y = some c → s.kernel.owner y = some c := by
    intro y c hy
    by_cases hyx : y = x
    · simp [hyx] at hy
    · rwa [howner y hyx] at hy
  exact { h with
    turns := ht
    tokens := by
      have hplace : Tokens (some x) (TurnAt { s with kernel := s.kernel.close x }) s.Open := by
        refine h.tokens.congr (fun y t => ?_) fun _ => Iff.rfl
        cases t with
        | armed =>
          by_cases hyx : y = x
          · subst hyx
            exact ⟨fun hy => by simp [TurnAt] at hy, fun hy => absurd hy (hfree .armed)⟩
          · simp [TurnAt, hepoll y hyx]
        | reported | job => exact Iff.rfl
      refine hplace.drop fun y => ?_
      by_cases hyx : y = x
      · simp [Open, hyx]
      · simp [Open, howner y hyx, hyx]
    clients := fun y c hy => ⟨(h.clients y c (hclosed y c hy)).1,
      fun z hz => (h.clients y c (hclosed y c hy)).2 z (hclosed z c hz)⟩
    accepting := fun a ha => by
      rw [howner _ ((h.tokens.free x rfl).1.2 a ha)]
      exact h.accepting a ha
    listed := fun y hy => by
      by_cases hyx : y = x
      · simp [hyx] at hy
      · exact h.listed y (hepoll y hyx ▸ hy)
    jobs := (h.others hepoll).1
    closing := (h.others hepoll).2 }

/-! ## The turn is kept -/

/-- A socket that is being closed comes off the epoll set. -/
theorem unwatch (h : Placed (some x) s) (ht : Turns { s with kernel := s.kernel.unwatch x }) :
    Placed (some x) { s with kernel := s.kernel.unwatch x } := by
  have hepoll : ∀ y, y ≠ x → (s.kernel.unwatch x).epoll y = s.kernel.epoll y := fun y hy => by simp [hy]
  exact { h with
    turns := ht
    tokens := by
      refine h.tokens.congr (fun y t => ?_) fun _ => Iff.rfl
      cases t with
      | armed =>
        by_cases hyx : y = x
        · subst hyx
          exact ⟨fun hy => by simp [TurnAt] at hy, fun hy => absurd hy ((h.tokens.free y rfl).2 .armed)⟩
        · simp [TurnAt, hepoll y hyx]
      | reported | job => exact Iff.rfl
    listed := fun y hy => by
      by_cases hyx : y = x
      · simp [hyx] at hy
      · exact h.listed y (hepoll y hyx ▸ hy)
    jobs := (h.others hepoll).1
    closing := (h.others hepoll).2 }

theorem erase (h : Placed (some x) s) (he : s.kernel.epoll x = none)
    (ht : Turns { s with connections := Function.update s.connections x none }) :
    Placed (some x) { s with connections := Function.update s.connections x none } :=
  { h with
    turns := ht
    registered := fun a key ha => by
      have hax : a.num ≠ x := (h.tokens.free x rfl).1.2 a (by rw [ha]; rfl)
      simpa [hax] using h.registered a key ha
    listed := fun y hy => by
      have hyx : y ≠ x := fun hyx => hy (hyx ▸ he)
      simpa [hyx] using h.listed y hy }

/-- A stage of `closeConnection` that is not its last. -/
theorem closeConnection (h : Placed (some x) s) {stage : CloseStage}
    (hw : stage.watched = true ↔ s.kernel.epoll x ≠ none) (hs : stage ≠ .close) :
    ∃ next, (s.closeConnection x stage).2 = some next ∧ Placed (some x) (s.closeConnection x stage).1 ∧
      (next.watched = true ↔ (s.closeConnection x stage).1.kernel.epoll x ≠ none) := by
  have hp : x ∉ s.loop.pending := by
    have hnot : x ∉ s.loop.sockets := (h.tokens.free x rfl).2 .reported
    cases hl : s.loop <;> simp_all [LoopPc.pending, LoopPc.sockets]
  have ht := h.turns.closeConnection hp stage
  cases stage with
  | unwatch => exact ⟨.dropSession, rfl, h.unwatch ht, by simp [CloseStage.watched, Server.closeConnection]⟩
  | dropSession =>
    have he : s.kernel.epoll x = none := by simpa [CloseStage.watched] using hw
    rw [Server.closeConnection] at ht ⊢
    split at ht
    · exact ⟨.erase, rfl, { h with turns := ht }, by simp [CloseStage.watched, he]⟩
    · exact ⟨.close, rfl, h, by simp [CloseStage.watched, he]⟩
  | erase =>
    have he : s.kernel.epoll x = none := by simpa [CloseStage.watched] using hw
    exact ⟨.close, rfl, h.erase he ht, by simp [CloseStage.watched, Server.closeConnection, he]⟩
  | close => exact absurd rfl hs

/-- A job goes on. -/
theorem setJob (h : Placed hand s) (hj : s.jobs i = some ⟨conn, pc⟩) (hw : pc'.watched = pc.watched)
    (ht : Turns (s.setJob i (some ⟨conn, pc'⟩))) : Placed hand (s.setJob i (some ⟨conn, pc'⟩)) :=
  { h with
    turns := ht
    tokens := by
      refine h.tokens.congr (fun y t => ?_) fun _ => Iff.rfl
      cases t with
      | armed | reported => exact Iff.rfl
      | job j => rw [TurnAt, held_setJob_same (held_of_jobs hj) pc']; exact Iff.rfl
    jobs := fun j job hj' => by
      by_cases hji : j = i
      · subst hji
        simp only [Server.setJob, Function.update_self, Option.some.injEq] at hj'
        rw [← hj', hw]
        exact h.jobs j _ hj
      · exact h.jobs j job (by simpa [Server.setJob, hji] using hj') }

/-- The event loop moves on, with the same batch. -/
theorem setLoop (h : Placed hand s) {loop : LoopPc} (hs : loop.sockets = s.loop.sockets) (hq : loop.toClose = [])
    (hc : ∀ x stage events, loop = .eventClosing x stage events → (stage.watched = true ↔ s.kernel.epoll x ≠ none))
    (ht : Turns { s with loop }) : Placed hand { s with loop } :=
  { h with
    turns := ht
    tokens := by
      refine h.tokens.congr (fun y t => ?_) fun _ => Iff.rfl
      cases t with
      | armed | job => exact Iff.rfl
      | reported => rw [TurnAt, hs]; exact Iff.rfl
    unexpired := ⟨h.unexpired.1, hq⟩
    closing := hc }

/-- The accept thread goes on with the client it has. -/
theorem setAcceptor (h : Placed hand s) {acceptor : AcceptPc} (ha : acceptor.handle = s.acceptor.handle)
    (hr : ∀ a key, acceptor = .registered a key → s.connections a.num ≠ none) (ht : Turns { s with acceptor }) :
    Placed hand { s with acceptor } :=
  { h with
    turns := ht
    tokens := h.tokens.congr (fun _ _ => Iff.rfl) fun y => by simp only [Open, ha]
    accepting := by rw [ha]; exact h.accepting
    registered := hr }

/-- A new client has no turn yet, as it is in the accept thread's hands. -/
theorem accept (h : Placed hand s) {num : SocketType} {key : SessionKey} (ha : s.acceptor = .idle)
    (ho : s.kernel.owner num = none)
    (ht : Turns { s with
      kernel := s.kernel.openFor num s.clients
      clients := s.clients + 1
      acceptor := .accepted ⟨num, s.clients⟩ key }) :
    Placed hand { s with
      kernel := s.kernel.openFor num s.clients
      clients := s.clients + 1
      acceptor := .accepted ⟨num, s.clients⟩ key } :=
  { h with
    turns := ht
    tokens := by
      refine h.tokens.congr (fun y t => by cases t <;> exact Iff.rfl) fun y => ?_
      by_cases hy : y = num
      · simp [Open, AcceptPc.handle, hy, ho]
      · simp [Open, AcceptPc.handle, ha, hy, Ne.symm hy]
    clients := fun y c hy => by
      by_cases hyn : y = num
      · simp only [Kernel.openFor_owner, hyn, Function.update_self, Option.some.injEq] at hy
        subst hy
        refine ⟨Nat.lt_succ_self _, fun z hz => ?_⟩
        by_cases hzn : z = num
        · rw [hzn, hyn]
        · exact absurd (h.clients z _ (by simpa [hzn] using hz)).1 (Nat.lt_irrefl _)
      · have hc := h.clients y c (by simpa [hyn] using hy)
        refine ⟨Nat.lt_succ_of_lt hc.1, fun z hz => ?_⟩
        by_cases hzn : z = num
        · simp only [Kernel.openFor_owner, hzn, Function.update_self, Option.some.injEq] at hz
          exact absurd (hz ▸ hc.1) (Nat.lt_irrefl _)
        · exact hc.2 z (by simpa [hzn] using hz)
    accepting := fun a ha => by cases ha; simp
    registered := fun _ _ he => by cases he }

/-- What `epoll_wait` reports moves from epoll to the batch. -/
theorem wait (h : Placed none s) {events : List (SocketType × IOEvent)} (hl : s.loop = .waiting)
    (harmed : ∀ x ∈ events.map Prod.fst, s.kernel.epoll x = some .armed)
    (ht : Turns { s with kernel := s.kernel.report (events.map Prod.fst), loop := .dispatching events }) :
    Placed none { s with kernel := s.kernel.report (events.map Prod.fst), loop := .dispatching events } := by
  have hepoll : ∀ y, (s.kernel.report (events.map Prod.fst)).epoll y ≠ none ↔ s.kernel.epoll y ≠ none := fun y => by
    by_cases hy : y ∈ events.map Prod.fst
    · rw [Kernel.report_epoll, if_pos hy]
      simp
    · rw [Kernel.report_epoll, if_neg hy]
  exact { h with
    turns := ht
    tokens := by
      let f (y : SocketType) : Turn → Turn
        | .armed => if y ∈ events.map Prod.fst then .reported else .armed
        | t => t
      refine h.tokens.move f fun y u => ?_
      by_cases hy : y ∈ events.map Prod.fst
      · -- It was armed, so it had no other turn.
        have hya : s.TurnAt y .armed := harmed y hy
        have hfy : f y .armed = .reported := if_pos hy
        have hto : (∃ t, s.TurnAt y t ∧ f y t = u) ↔ u = .reported := by
          constructor
          · intro hturn
            obtain ⟨t, ht, rfl⟩ := hturn
            rw [h.tokens.unique y t .armed ht hya, hfy]
          · exact fun hu => ⟨.armed, hya, hfy.trans hu.symm⟩
        rw [hto]
        cases u with
        | armed => simp [TurnAt, Kernel.report_epoll, hy]
        | reported => exact iff_of_true hy rfl
        | job j =>
          refine ⟨fun hj => ?_, fun he => by cases he⟩
          have he := h.tokens.unique y (.job j) .armed hj hya
          cases he
      · have hfy : ∀ t, f y t = t := fun t => by cases t <;> simp [f, hy]
        simp only [hfy, exists_eq_right]
        cases u with
        | armed => simp [TurnAt, hy]
        | reported => simp [TurnAt, LoopPc.sockets, hl, hy]
        | job => exact Iff.rfl
    unexpired := ⟨h.unexpired.1, rfl⟩
    listed := fun y hy => h.listed y ((hepoll y).mp hy)
    jobs := fun j job hj => (h.jobs j job hj).trans (hepoll _).symm
    closing := fun _ _ _ he => by cases he }

end Placed

theorem setJob_setJob (s : Server) (i : JobId) (job job' : Option Job) :
    (s.setJob i job).setJob i job' = s.setJob i job' := by
  simp [setJob]

theorem closeConnection_setJob (s : Server) (i : JobId) (job : Option Job) (sock stage) :
    (s.setJob i job).closeConnection sock stage =
      ((s.closeConnection sock stage).1.setJob i job, (s.closeConnection sock stage).2) := by
  cases stage with
  | dropSession =>
    unfold closeConnection
    simp only [setJob]
    split <;> rfl
  | unwatch | erase | close => rfl

theorem closeConnection_setLoop (s : Server) (loop : LoopPc) (sock stage) :
    closeConnection { s with loop } sock stage =
      ({ (s.closeConnection sock stage).1 with loop }, (s.closeConnection sock stage).2) := by
  cases stage with
  | dropSession =>
    unfold closeConnection
    simp only
    split <;> rfl
  | unwatch | erase | close => rfl

namespace Placed

/-- A stage of `closeConnection` in a job: its turn ends with the last. -/
theorem jobClose (h : Placed none s) {i : JobId} (hs : s.step (.jobClose i) = some s') (ht : Turns s') :
    Placed none s' := by
  obtain ⟨conn, stage, hj, rfl⟩ := step_jobClose hs
  have hi : s.held i = some conn := held_of_jobs hj
  have hlog : Placed none (s.logAccess conn) := { h with turns := h.turns.logAccess hi }
  have htake : Placed (some conn.socket.num) ((s.logAccess conn).setJob i none) := hlog.takeJob hi
  by_cases hlast : stage = .close
  · subst hlast
    exact htake.giveUp ht
  · obtain ⟨next, hn, hclose, hw⟩ := htake.closeConnection (h.jobs i _ hj) hlast
    rw [closeConnection_setJob] at hn hclose hw
    simp only at hn hclose hw
    rw [hn, Option.map_some] at ht ⊢
    have hw : (JobPc.closing next).watched = true ↔ _ := hw
    have hgive := hclose.giveJob (i := i) (by simp [Server.setJob]) hw (by rwa [setJob_setJob])
    rwa [setJob_setJob] at hgive

/-- And in the event loop. -/
theorem loopClose (h : Placed none s) (hs : s.step .loopClose = some s') (ht : Turns s') : Placed none s' := by
  rcases step_loopClose hs with ⟨a, stage, close, hl, rfl⟩ | ⟨sock, stage, events, hl, rfl⟩
  · have hq := h.unexpired.2
    rw [hl] at hq
    cases hq
  · have hsockets : s.loop.sockets = sock :: events.map Prod.fst := by rw [hl]; rfl
    have hd := h.turns.distinct
    rw [hsockets] at hd
    have htake : Placed (some sock) { s with loop := .dispatching events } :=
      h.takeEvent hsockets (h.turns.setLoop (by rw [hl]; exact fun _ hx => hx) (List.nodup_cons.mp hd).2)
    by_cases hlast : stage = .close
    · subst hlast
      exact htake.giveUp ht
    · obtain ⟨next, hn, hclose, hw⟩ := htake.closeConnection (h.closing sock stage events hl) hlast
      rw [closeConnection_setLoop] at hn hclose hw
      simp only at hn hclose hw
      rw [hn, Option.elim_some] at ht ⊢
      exact hclose.giveEvent rfl hw ht

end Placed

theorem Placed.step (h : Placed none s) {l : ServerStep} (hc : s.Undisturbed l) (hs : s.step l = some s') :
    Placed none s' := by
  have ht : Turns s' := h.turns.step (h.notHeld hs) hs
  cases l with
  | tick now => obtain ⟨-, rfl⟩ := step_tick hs; exact { h with turns := ht }
  | accept num key => obtain ⟨ha, ho, rfl⟩ := step_accept hs; exact h.accept ha ho ht
  | refuse =>
    obtain ⟨a, ha, rfl⟩ := step_refuse hs
    exact (h.takeAccepted ha).giveUp ht
  | addSession =>
    obtain ⟨a, key, ha, rfl⟩ := step_addSession hs
    have h' : Placed none { s with users := s.users.addSession a key s.now } := { h with turns := { h.turns with } }
    exact h'.setAcceptor (by simp [AcceptPc.handle, ha]) (by simp) ht
  | drop =>
    obtain ⟨a, key, ha, rfl⟩ := step_drop hs
    have h' : Placed none { s with users := s.users.removeSession key } := { h with turns := { h.turns with } }
    exact h'.setAcceptor (by simp [AcceptPc.handle, ha]) (by simp) ht
  | register =>
    obtain ⟨a, key, ha, rfl⟩ := step_register hs
    exact { h with
      turns := ht
      tokens := h.tokens.congr (fun _ _ => Iff.rfl) fun y => by simp only [Open, AcceptPc.handle, ha]
      accepting := by simpa [AcceptPc.handle, ha] using h.accepting
      registered := fun b k hb => by cases hb; simp
      listed := fun y hy => by
        by_cases hya : y = a.num
        · simp [hya]
        · simpa [hya] using h.listed y hy }
  | watch ok =>
    obtain ⟨a, key, ha, rfl⟩ := step_watch hs
    obtain rfl : ok = true := hc
    have hhandle : s.acceptor.handle = some a := by rw [ha]; rfl
    obtain ⟨howner, hepoll⟩ := Kernel.watch_eq (h.accepting a hhandle) (h.turns.fresh a hhandle).1
    exact (h.takeAccepted hhandle).giveEpoll howner hepoll (h.registered a key ha) ht
  | sweep key =>
    rcases step_sweep hs with rfl | ⟨session, hu, hx, rfl⟩
    · exact h
    · simp [Undisturbed, UserSessionManager.expire, hu, hx] at hc
  | swapExpired =>
    obtain ⟨hl, rfl⟩ := step_swapExpired hs
    rw [h.unexpired.1] at ht ⊢
    have h' : Placed none { s with expiredSockets := [] } :=
      { h with turns := { h.turns with }, unexpired := ⟨rfl, h.unexpired.2⟩ }
    exact h'.setLoop (by rw [hl]; rfl) rfl (by simp) ht
  | drainNext =>
    obtain ⟨a, close, hl, rfl⟩ := step_drainNext hs
    have hq := h.unexpired.2
    rw [hl] at hq
    cases hq
  | drainDone => obtain ⟨hl, rfl⟩ := step_drainDone hs; exact h.setLoop (by rw [hl]; rfl) rfl (by simp) ht
  | loopClose => exact h.loopClose hs ht
  | wait events => obtain ⟨hl, -, harmed, rfl⟩ := step_wait hs; exact h.wait hl harmed ht
  | waitFailed => obtain ⟨hl, rfl⟩ := step_waitFailed hs; exact h.setLoop (by rw [hl]; rfl) rfl (by simp) ht
  | dispatch i =>
    obtain ⟨sock, events, hl, hj, hconn⟩ := step_dispatch hs
    have hmuted : s.kernel.epoll sock = some .muted := h.turns.reported sock (by rw [hl]; exact List.mem_cons_self)
    rcases hconn with ⟨hn, -⟩ | ⟨conn, hconn, rfl⟩
    · exact absurd hn (h.listed sock (by simp [hmuted]))
    · obtain rfl := h.turns.numbered sock conn hconn
      have htake := h.takeEvent (by rw [hl]; rfl) (h.turns.nextEvent hl).2
      exact htake.giveJob hj (by simp [JobPc.watched, hmuted]) ht
  | hangUp =>
    obtain ⟨sock, event, events, hl, rfl⟩ := step_hangUp hs
    have hmuted : s.kernel.epoll sock = some .muted := h.turns.reported sock (by rw [hl]; exact List.mem_cons_self)
    refine h.setLoop (by rw [hl]; rfl) rfl (fun x stage events he => ?_) ht
    cases he
    simp [CloseStage.watched, hmuted]
  | eventsDone => obtain ⟨hl, rfl⟩ := step_eventsDone hs; exact h.setLoop (by rw [hl]; rfl) rfl (by simp) ht
  | run i => obtain ⟨conn, hj, rfl⟩ := step_run hs; exact h.setJob hj rfl ht
  | recv i r =>
    obtain ⟨conn, hj, -, rfl⟩ := step_recv hs
    have h' : Placed none { s.logAccess conn with
        commandBuffer := Function.update s.commandBuffer conn.socket.client
          (receive (s.commandBuffer conn.socket.client) r).1 } :=
      { h with turns := { h.turns.logAccess (held_of_jobs hj) with } }
    exact h'.setJob hj (Received.next_watched _) ht
  | execute i =>
    obtain ⟨conn, message, hj, rfl⟩ := step_execute hs
    have h' : Placed none { s with users := s.users.updateActivity conn.sessionKey s.now } :=
      { h with turns := { h.turns with } }
    exact h'.setJob hj rfl ht
  | send i =>
    obtain ⟨conn, hj, rfl⟩ := step_send hs
    have h' : Placed none (s.logAccess conn) := { h with turns := h.turns.logAccess (held_of_jobs hj) }
    exact h'.setJob hj rfl ht
  | rearm i ok =>
    obtain ⟨conn, hj, hr⟩ := step_rearm hs
    rcases hr with ⟨-, kernel, hk, rfl⟩ | ⟨hok, -⟩
    · obtain ⟨hne, howner, hepoll⟩ := Kernel.rearm_eq_some hk
      have hi : s.held i = some conn := held_of_jobs hj
      have hlog : Placed none (s.logAccess conn) := { h with turns := h.turns.logAccess hi }
      exact (hlog.takeJob hi).giveEpoll howner hepoll (h.listed _ hne) ht
    · cases hok.symm.trans hc
  | jobClose i => exact h.jobClose hs ht

/-- In every run in which no session expires and no `epoll_ctl` fails, the turn
of each open connection that the accept thread is done with is in exactly one
place: the connection is armed, or in the batch that is being processed, or has
one job that has not ended. So one job at most is at a client's buffer, whoever
is muted is in the batch or has a job, and a job that comes to arm its socket
finds it in the epoll set. -/
theorem dispatch_turn (h : Runs.Reach Server.step Undisturbed Server.start s) :
    (∀ x, s.Open x → ∃! t, s.TurnAt x t) ∧
      (∀ i j conn conn', s.held i = some conn → s.held j = some conn' →
        conn.socket.client = conn'.socket.client → i = j) ∧
      (∀ x, s.Open x → s.kernel.epoll x ≠ some .armed → x ∈ s.loop.sockets ∨ ∃ i, s.TurnAt x (.job i)) ∧
      ∀ i conn, s.jobs i = some ⟨conn, .rearming⟩ → s.kernel.rearm conn.socket.num ≠ none := by
  have hp : Placed none s := h.invariant (Placed none) .start fun _ _ _ hi hc hs => hi.step hc hs
  refine ⟨fun x hx => hp.tokens.existsUnique hx, fun i j conn conn' hi hj he => ?_, fun x hx hmuted => ?_,
    fun i conn hj => ?_⟩
  · have howner : ∀ {i conn}, s.held i = some conn → s.kernel.owner conn.socket.num = some conn.socket.client :=
      fun hi => (hp.turns.own _ _ hi).resolve_left (hp.held hi)
    exact hp.turns.single i j conn conn' hi hj ((hp.clients _ _ (he ▸ howner hj)).2 _ (howner hi))
  · obtain ⟨t, ht, -⟩ := hp.tokens.existsUnique hx
    cases t with
    | armed => exact absurd ht hmuted
    | reported => exact .inl ht
    | job i => exact .inr ⟨i, ht⟩
  · have hne := (hp.jobs i _ hj).mp rfl
    rw [Kernel.rearm, dif_pos hne]
    exact Option.some_ne_none _

end Server

end KvDatabase
