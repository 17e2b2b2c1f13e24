/-
The server and its limiter. `acceptClients` asks the limiter once for each
client, before there is a session or a connection, and nothing else asks it.
So the bucket of an address bounds the connections that come from there
(`connection_tokens`), and not the commands they then send
(`commands_over_bucket`).
-/
import KvDatabase.Buckets
import KvDatabase.Steps

namespace KvDatabase

/-- A client the bucket of its address was asked about. -/
structure Asked where
  client : ClientId
  call : PrivateCall
  ok : Bool
deriving DecidableEq, Repr

/-- A command that a job executed, and when. -/
structure Executed where
  conn : Connection
  message : Bytes
  time : Time

structure GatedServer where
  server : Server
  rt : RateLimiter
  /-- What `isAllowed` has answered for the client the accept thread has. -/
  verdict : Option Bool
  asked : List Asked
  executed : List Executed

inductive GatedStep
  /-- `rt.isAllowed(clientIP)`, with its two readings of the clock. -/
  | isAllowed (globalNow privateNow : Time)
  | server (l : ServerStep)

namespace RateLimiter

theorem isAllowed_config (rt : RateLimiter) (c : Call) :
    (rt.isAllowed c).2.maxTokens = rt.maxTokens ∧ (rt.isAllowed c).2.refillRate = rt.refillRate :=
  ⟨(rt.run_config [c]).1, (rt.run_config [c]).2.1⟩

theorem inSeconds_le_iff {t₁ t₂ : Time} : inSeconds t₁ ≤ inSeconds t₂ ↔ t₁ ≤ t₂ := by
  rw [inSeconds, inSeconds, div_le_div_iff_of_pos_right (by norm_num), Nat.cast_le]

/-- Who is allowed was counted in the window. -/
theorem isAllowed_passes (rt : RateLimiter) (c : Call) (h : (rt.isAllowed c).1 = true) :
    (rt.isAllowedGlobal c.globalNow).1 = true := by
  rw [isAllowed_fst, Bool.and_eq_true] at h
  exact h.1

/-- A call is one of its bucket if the window lets it come there. -/
theorem Tracks.isAllowed {rt : RateLimiter} {outcomes : List (PrivateCall × Bool)} (h : rt.Tracks outcomes) (c : Call) :
    (rt.isAllowed c).2.Tracks (outcomes ++
      if (rt.isAllowedGlobal c.globalNow).1 then [(⟨c.ip, c.privateNow⟩, (rt.isAllowed c).1)] else []) := by
  obtain ⟨count, start, he⟩ := rt.isAllowedGlobal_snd c.globalNow
  have hglobal : (rt.isAllowedGlobal c.globalNow).2.Tracks outcomes := he ▸ { held := h.held, lawful := h.lawful }
  rw [RateLimiter.isAllowed]
  cases hok : (rt.isAllowedGlobal c.globalNow).1 with
  | false => simpa [hok] using hglobal
  | true => simpa [hok] using hglobal.isAllowedPrivate ⟨c.ip, c.privateNow⟩

end RateLimiter

namespace GatedServer

def start (maxTokens refillRate : ℚ) (globalLimit : Int) (t₀ : Time) : GatedServer where
  server := .start
  rt := .new maxTokens refillRate globalLimit t₀
  verdict := none
  asked := []
  executed := []

/-- What the limiter's answer lets the accept thread do. -/
def permits (g : GatedServer) : ServerStep → Bool
  | .addSession => g.verdict = some true
  | .refuse =>
    match g.server.acceptor with
    | .accepted _ _ => g.verdict = some false
    | _ => true
  | _ => true

/-- The command the step executes. -/
def executes (g : GatedServer) : ServerStep → List Executed
  | .execute i =>
    match g.server.jobs i with
    | some ⟨conn, .executing message⟩ => [⟨conn, message, g.server.now⟩]
    | _ => []
  | _ => []

/-- The answer that still stands after the step: a new client has none. -/
def verdictAfter (g : GatedServer) : ServerStep → Option Bool
  | .accept _ _ => none
  | _ => g.verdict

def step (g : GatedServer) : GatedStep → Option GatedServer
  | .isAllowed globalNow privateNow =>
    match g.server.acceptor, g.verdict with
    | .accepted h key, none =>
      if g.server.now ≤ globalNow ∧ globalNow ≤ privateNow then
        let (ok, rt) := g.rt.isAllowed ⟨key.rawIp, globalNow, privateNow⟩
        -- a client that the window refuses does not come to its bucket
        let asked := if (g.rt.isAllowedGlobal globalNow).1 then [⟨h.client, ⟨key.rawIp, privateNow⟩, ok⟩] else []
        some { g with
          server := { g.server with now := privateNow }
          rt
          verdict := some ok
          asked := g.asked ++ asked }
      else none
    | _, _ => none
  | .server l =>
    if g.permits l then
      (g.server.step l).map fun server => { g with
        server
        verdict := g.verdictAfter l
        executed := g.executed ++ g.executes l }
    else none

/-- The clients that passed. -/
def passed (g : GatedServer) : List Asked := g.asked.filter Asked.ok

/-- Those of an address that passed in an interval. -/
def passedIn (g : GatedServer) (ip : UInt32) (start stop : Time) : List Asked :=
  g.passed.filter fun a => a.call.ip = ip ∧ start ≤ a.call.now ∧ a.call.now ≤ stop

/-- The commands executed for an address in an interval. -/
def executedIn (g : GatedServer) (ip : UInt32) (start stop : Time) : List Executed :=
  g.executed.filter fun e => e.conn.sessionKey.rawIp = ip ∧ start ≤ e.time ∧ e.time ≤ stop

/-- The client of this connection has passed, from its address. -/
def Passed (g : GatedServer) (conn : Connection) : Prop :=
  ∃ a ∈ g.passed, a.client = conn.socket.client ∧ a.call.ip = conn.sessionKey.rawIp

/-! ## Each client is asked about once -/

variable {g g' : GatedServer} {maxTokens refillRate : ℚ}

theorem step_isAllowed {globalNow privateNow : Time} (hs : g.step (.isAllowed globalNow privateNow) = some g') :
    ∃ h key, g.server.acceptor = .accepted h key ∧ g.verdict = none ∧ g.server.now ≤ privateNow ∧
      g' = { g with
        server := { g.server with now := privateNow }
        rt := (g.rt.isAllowed ⟨key.rawIp, globalNow, privateNow⟩).2
        verdict := some (g.rt.isAllowed ⟨key.rawIp, globalNow, privateNow⟩).1
        asked := g.asked ++ if (g.rt.isAllowedGlobal globalNow).1 then
          [⟨h.client, ⟨key.rawIp, privateNow⟩, (g.rt.isAllowed ⟨key.rawIp, globalNow, privateNow⟩).1⟩] else [] } := by
  simp only [step] at hs
  split at hs
  · next h key ha hv =>
    split at hs
    · next hle => cases hs; exact ⟨h, key, ha, hv, hle.1.trans hle.2, rfl⟩
    · cases hs
  · cases hs

theorem step_server {l : ServerStep} (hs : g.step (.server l) = some g') :
    g.permits l = true ∧ ∃ server, g.server.step l = some server ∧
      g' = { g with
        server
        verdict := g.verdictAfter l
        executed := g.executed ++ g.executes l } := by
  simp only [step, Option.ite_none_right_eq_some, Option.map_eq_some_iff] at hs
  obtain ⟨hp, server, hserver, rfl⟩ := hs
  exact ⟨hp, server, hserver, rfl⟩

/-- The limiter answers for its buckets, each client was asked about once, and
nobody has a connection who did not pass. -/
structure Gated (maxTokens refillRate : ℚ) (g : GatedServer) : Prop where
  maxTokens : g.rt.maxTokens = maxTokens
  refillRate : g.rt.refillRate = refillRate
  tracks : g.rt.Tracks (g.asked.map fun a => (a.call, a.ok))
  earlier : ∀ a ∈ g.asked, a.call.now ≤ g.server.now
  old : ∀ a ∈ g.asked, a.client < g.server.clients
  once : (g.asked.map Asked.client).Nodup
  /-- The client the accept thread has, before it has a session: it is asked
  about once. -/
  accepted : ∀ h key, g.server.acceptor = .accepted h key → h.client < g.server.clients ∧
    (g.verdict = none → ∀ a ∈ g.asked, a.client ≠ h.client) ∧ (g.verdict = some true → g.Passed ⟨h, key⟩)
  added : ∀ h key, g.server.acceptor = .added h key → g.Passed ⟨h, key⟩
  known : ∀ conn, g.server.Known conn → g.Passed conn
  executed : ∀ e ∈ g.executed, ∃ a ∈ g.passed, a.client = e.conn.socket.client ∧
    a.call.ip = e.conn.sessionKey.rawIp ∧ a.call.now ≤ e.time

theorem Gated.start (maxTokens refillRate : ℚ) (globalLimit : Int) (t₀ : Time) :
    Gated maxTokens refillRate (start maxTokens refillRate globalLimit t₀) where
  maxTokens := rfl
  refillRate := rfl
  tracks := RateLimiter.tracks_new maxTokens refillRate globalLimit t₀
  earlier := by simp [GatedServer.start]
  old := by simp [GatedServer.start]
  once := by simp [GatedServer.start]
  accepted := by simp [GatedServer.start, Server.start]
  added := by simp [GatedServer.start, Server.start]
  known := by simp [GatedServer.start, Server.start, Server.Known, Server.held]
  executed := by simp [GatedServer.start]

/-- More clients passed. -/
theorem Passed.mono {conn : Connection} (h : g.Passed conn) (hp : ∀ a ∈ g.passed, a ∈ g'.passed) : g'.Passed conn := by
  obtain ⟨a, ha, hc, hip⟩ := h
  exact ⟨a, hp a ha, hc, hip⟩

/-- The client the accept thread has is asked about. -/
theorem Gated.isAllowed (hg : Gated maxTokens refillRate g) {globalNow privateNow : Time}
    (hs : g.step (.isAllowed globalNow privateNow) = some g') : Gated maxTokens refillRate g' := by
  obtain ⟨h, key, ha, hv, hle, rfl⟩ := step_isAllowed hs
  obtain ⟨hold, hnew, -⟩ := hg.accepted h key ha
  have hnew := hnew hv
  obtain ⟨hM, hr⟩ := g.rt.isAllowed_config ⟨key.rawIp, globalNow, privateNow⟩
  have htracks := hg.tracks.isAllowed ⟨key.rawIp, globalNow, privateNow⟩
  have hok := g.rt.isAllowed_passes ⟨key.rawIp, globalNow, privateNow⟩
  generalize g.rt.isAllowed ⟨key.rawIp, globalNow, privateNow⟩ = answer at hM hr htracks hok ⊢
  obtain ⟨ok, rt⟩ := answer
  -- the calls of the bucket: one more, or none
  generalize hq : (if (g.rt.isAllowedGlobal globalNow).1 = true then [Asked.mk h.client ⟨key.rawIp, privateNow⟩ ok]
    else []) = asked
  have hasked : ∀ a ∈ asked, a = ⟨h.client, ⟨key.rawIp, privateNow⟩, ok⟩ := by
    intro a ha
    rw [← hq] at ha
    split at ha
    · simpa using ha
    · cases ha
  have hnodup : (asked.map Asked.client).Nodup := by
    rw [← hq]
    split <;> simp
  have hpassed : ∀ a ∈ g.passed, a ∈ (g.asked ++ asked).filter Asked.ok := fun a ha => by
    rw [List.filter_append]
    exact List.mem_append_left _ ha
  have hmap : asked.map (fun a => (a.call, a.ok)) =
      if (g.rt.isAllowedGlobal globalNow).1 = true then [(⟨key.rawIp, privateNow⟩, ok)] else [] := by
    rw [← hq]
    split <;> rfl
  exact
    { maxTokens := hM.trans hg.maxTokens
      refillRate := hr.trans hg.refillRate
      tracks := by
        rw [List.map_append, hmap]
        exact htracks
      earlier := by
        intro a ha
        rcases List.mem_append.mp ha with ha | ha
        · exact (hg.earlier a ha).trans hle
        · rw [hasked a ha]
      old := by
        intro a ha
        rcases List.mem_append.mp ha with ha | ha
        · exact hg.old a ha
        · rw [hasked a ha]
          exact hold
      once := by
        rw [List.map_append, List.nodup_append]
        refine ⟨hg.once, hnodup, fun c hc c' hc' he => ?_⟩
        obtain ⟨a, ha, rfl⟩ := List.mem_map.mp hc
        obtain ⟨a', ha', rfl⟩ := List.mem_map.mp hc'
        rw [hasked a' ha'] at he
        exact hnew a ha he
      accepted := by
        intro h' key' ha'
        obtain ⟨rfl, rfl⟩ := AcceptPc.accepted.inj (ha.symm.trans ha')
        refine ⟨hold, by simp, fun hv => ?_⟩
        simp only [Option.some.injEq] at hv
        subst hv
        refine ⟨⟨h.client, ⟨key.rawIp, privateNow⟩, true⟩, ?_, rfl, rfl⟩
        simp [GatedServer.passed, ← hq, hok rfl]
      added := fun h' key' ha' => (hg.added h' key' ha').mono hpassed
      known := fun conn hk => (hg.known conn hk).mono hpassed
      executed := by
        intro e he
        obtain ⟨a, ha, hrest⟩ := hg.executed e he
        exact ⟨a, hpassed a ha, hrest⟩ }

/-- Whatever a step leaves somebody has, passed. -/
theorem Gated.known_step (hg : Gated maxTokens refillRate g) {l : ServerStep} {server : Server}
    (hs : g.server.step l = some server) {conn : Connection} (hk : server.Known conn) : g.Passed conn := by
  have he := Server.step_effect hs
  rcases hk with ⟨x, hx⟩ | ⟨i, hi⟩
  · rcases he.connections x conn hx with hx | ha
    · exact hg.known conn (.inl ⟨x, hx⟩)
    · exact hg.added _ _ ha
  · obtain ⟨job, hj, rfl⟩ := Option.map_eq_some_iff.mp hi
    rcases he.jobs i job hj with hj | ⟨pc, hj, -⟩ | ⟨-, -, x, hx⟩
    · exact hg.known _ (.inr ⟨i, Server.held_of_jobs hj⟩)
    · have hheld := Server.held_of_jobs hj
      exact hg.known _ (.inr ⟨i, hheld⟩)
    · exact hg.known _ (.inl ⟨x, hx⟩)

/-- What a step executes, it executes for somebody who passed. -/
theorem Gated.executes (hg : Gated maxTokens refillRate g) {l : ServerStep} {e : Executed} (he : e ∈ g.executes l) :
    ∃ a ∈ g.passed, a.client = e.conn.socket.client ∧ a.call.ip = e.conn.sessionKey.rawIp ∧ a.call.now ≤ e.time := by
  unfold GatedServer.executes at he
  split at he
  · next i =>
    split at he
    · next conn message hj =>
      obtain rfl := List.mem_singleton.mp he
      obtain ⟨a, ha, hc, hip⟩ := hg.known conn (.inr ⟨i, Server.held_of_jobs hj⟩)
      exact ⟨a, ha, hc, hip, hg.earlier a (List.mem_of_mem_filter ha)⟩
    · cases he
  · cases he

theorem verdictAfter_of_thread {l : ServerStep} (ht : l.thread ≠ .acceptor) : g.verdictAfter l = g.verdict := by
  cases l with
  | accept num key => exact absurd rfl ht
  | _ => rfl

theorem Gated.server (hg : Gated maxTokens refillRate g) {l : ServerStep} (hs : g.step (.server l) = some g') :
    Gated maxTokens refillRate g' := by
  obtain ⟨hp, server, hserver, rfl⟩ := step_server hs
  have he := Server.step_effect hserver
  exact
    { maxTokens := hg.maxTokens
      refillRate := hg.refillRate
      tracks := hg.tracks
      earlier := fun a ha => (hg.earlier a ha).trans he.now
      old := fun a ha => (hg.old a ha).trans_le he.clients
      once := hg.once
      accepted := by
        intro h key ha
        rcases Server.accepted_of_step hserver ha with ⟨ht, hold⟩ | ⟨num, rfl, rfl, hc⟩
        · obtain ⟨hlt, hnone, hsome⟩ := hg.accepted h key hold
          simp only [verdictAfter_of_thread ht]
          exact ⟨hlt.trans_le he.clients, hnone, hsome⟩
        · -- a new client: nobody has asked about it
          refine ⟨?_, fun _ a ha => Nat.ne_of_lt (hg.old a ha), fun hv => by cases hv⟩
          simp only [hc]
          exact Nat.lt_succ_self _
      added := by
        intro h key ha
        rcases Server.added_of_step hserver ha with hold | ⟨rfl, hold⟩
        · exact hg.added h key hold
        · exact (hg.accepted h key hold).2.2 (by simpa [permits] using hp)
      known := fun conn hk => hg.known_step hserver hk
      executed := by
        intro e hmem
        rcases List.mem_append.mp hmem with hmem | hmem
        · exact hg.executed e hmem
        · exact hg.executes hmem }

theorem Gated.step (hg : Gated maxTokens refillRate g) {l : GatedStep} (hs : g.step l = some g') :
    Gated maxTokens refillRate g' := by
  cases l with
  | isAllowed globalNow privateNow => exact hg.isAllowed hs
  | server l => exact hg.server hs

/-- Those who passed in an interval, as calls of their bucket. -/
theorem length_passedIn (g : GatedServer) (ip : UInt32) {start stop : Time} :
    (g.passedIn ip start stop).length = (TokenBucket.admittedIn
      (RateLimiter.timed (RateLimiter.callsOf ip (g.asked.map fun a => (a.call, a.ok))))
      (RateLimiter.inSeconds start) (RateLimiter.inSeconds stop)).length := by
  simp only [passedIn, passed, TokenBucket.admittedIn, RateLimiter.timed, RateLimiter.callsOf, List.filter_map,
    List.length_map, List.filter_filter, Function.comp_def, RateLimiter.inSeconds_le_iff]
  congr 2
  funext a
  by_cases hok : a.ok = true <;> by_cases hip : a.call.ip = ip <;> simp [hok, hip]

/-- **A connection costs a token.** In every run of the server, over any
interval, no more connections from an address pass the limiter than its bucket
holds and is refilled; each client passes once; and a command that a job
executes is of a connection that has passed, from the command's address. -/
theorem connection_tokens (hM : 0 ≤ maxTokens) (hr : 0 ≤ refillRate) (globalLimit : Int) (t₀ : Time)
    (h : Runs.Reach step (fun _ _ => True) (start maxTokens refillRate globalLimit t₀) g) (ip : UInt32)
    {start stop : Time} (hle : start ≤ stop) :
    ((g.passedIn ip start stop).length : ℚ) ≤ maxTokens + refillRate * RateLimiter.seconds start stop ∧
      (g.passed.map Asked.client).Nodup ∧
      ∀ e ∈ g.executed, ∃ a ∈ g.passed, a.client = e.conn.socket.client ∧ a.call.ip = e.conn.sessionKey.rawIp ∧
        a.call.now ≤ e.time := by
  have hg : Gated maxTokens refillRate g :=
    h.invariant (Gated maxTokens refillRate) (.start _ _ _ _) fun _ _ _ hi _ hs => hi.step hs
  refine ⟨?_, hg.once.sublist (List.filter_sublist.map _), hg.executed⟩
  have hlaw := hg.tracks.lawful ip
  rw [hg.maxTokens, hg.refillRate] at hlaw
  have hin : RateLimiter.inSeconds start ≤ RateLimiter.inSeconds stop := RateLimiter.inSeconds_le_iff.mpr hle
  rw [length_passedIn, RateLimiter.seconds_eq, mul_comm refillRate]
  exact hlaw.bound hM hr hin

/-- One client was accepted, and has passed. -/
def onePassed (rt : RateLimiter) : GatedServer where
  server := { Server.start with
    kernel := Kernel.init.openFor 5 0
    clients := 1
    acceptor := .accepted ⟨5, 0⟩ ⟨1, 1⟩ }
  rt := rt
  verdict := some true
  asked := [⟨0, ⟨1, 0⟩, true⟩]
  executed := []

/-- The first client of a new server passes, if a bucket holds a token. -/
theorem first_client (hM : 1 ≤ maxTokens) (refillRate : ℚ) : ∃ rt,
    Runs.exec step (start maxTokens refillRate 1000 0) [.server (.accept 5 ⟨1, 1⟩), .isAllowed 0 0] =
      some (onePassed rt) := by
  have hglobal : ((RateLimiter.new maxTokens refillRate 1000 0).isAllowedGlobal 0).1 = true := rfl
  have hok : ((RateLimiter.new maxTokens refillRate 1000 0).isAllowed ⟨1, 0, 0⟩).1 = true := by
    rw [RateLimiter.isAllowed_fst, RateLimiter.tokensAt_of_none rfl, hglobal, Bool.true_and, decide_eq_true_iff]
    exact hM
  refine ⟨((RateLimiter.new maxTokens refillRate 1000 0).isAllowed ⟨1, 0, 0⟩).2, ?_⟩
  refine Runs.exec_cons_some.mpr ⟨_, rfl, Runs.exec_cons_some.mpr ⟨_, ?_, rfl⟩⟩
  simp [step, start, Server.start, verdictAfter, executes, onePassed, hok, hglobal]

/-- Connecting after that, and then a command. -/
def connect : List GatedStep := [.server .addSession, .server .register, .server (.watch true)]

def command : List GatedStep :=
  [.server .swapExpired, .server .drainDone, .server (.wait [(5, .readable)]), .server (.dispatch 0),
    .server .eventsDone, .server (.run 0), .server (.recv 0 (.data ⟨ascii "GET a\n", by decide, by decide⟩)),
    .server (.execute 0), .server (.send 0), .server (.rearm 0 true)]

/-- A client that passes and sends a command. -/
theorem connection_tokens_example :
    ∃ g, Runs.Reach step (fun _ _ => True) (start 10 5 1000 0) g ∧ g.executed ≠ [] ∧
      ((g.passedIn 1 0 0).length : ℚ) ≤ 10 + 5 * RateLimiter.seconds 0 0 ∧ (g.passed.map Asked.client).Nodup ∧
      ∀ e ∈ g.executed, ∃ a ∈ g.passed, a.client = e.conn.socket.client ∧ a.call.ip = e.conn.sessionKey.rawIp ∧
        a.call.now ≤ e.time := by
  obtain ⟨rt, hrun⟩ := first_client (show (1 : ℚ) ≤ 10 by norm_num) 5
  have hfirst : Runs.Reach step (fun _ _ => True) (start 10 5 1000 0) _ :=
    Runs.Reach.start.exec _ hrun fun _ _ _ => trivial
  have h : Runs.Reach step (fun _ _ => True) (start 10 5 1000 0) _ :=
    hfirst.exec (connect ++ command) rfl fun _ _ _ => trivial
  exact ⟨_, h, List.cons_ne_nil _ _, connection_tokens (by norm_num) (by norm_num) 1000 0 h 1 le_rfl⟩

/-- A client is connected, nothing is under way, and `n` commands were
executed for it. -/
structure Ready (n : Nat) (g : GatedServer) : Prop where
  loop : g.server.loop = .top
  expired : g.server.expiredSockets = []
  job : g.server.jobs 0 = none
  connected : g.server.connections 5 = some ⟨⟨5, 0⟩, ⟨1, 1⟩⟩
  armed : g.server.kernel.epoll 5 = some .armed
  owner : g.server.kernel.owner 5 = some 0
  commandBuffer : g.server.commandBuffer 0 = []
  now : g.server.now = 0
  count : (g.executedIn 1 0 0).length = n

/-- It sends one more, and nobody asks the limiter. -/
theorem Ready.command {n : Nat} (h : Ready n g) : ∃ g', Runs.exec step g command = some g' ∧ Ready (n + 1) g' := by
  have hreceive : receive [] (.data ⟨ascii "GET a\n", by decide, by decide⟩) = ([], .message (ascii "GET a\n")) := rfl
  have hnext : (Received.message (ascii "GET a\n")).next = .executing (ascii "GET a\n") := rfl
  have hp : (RecvResult.data ⟨ascii "GET a\n", by decide, by decide⟩).possible (some 0) = true := rfl
  obtain ⟨k, hk⟩ : ∃ k, (g.server.kernel.report [5]).rearm 5 = some k := by
    rw [Kernel.rearm, dif_pos (by simp [h.armed])]
    exact ⟨_, rfl⟩
  obtain ⟨-, howner, hepoll⟩ := Kernel.rearm_eq_some hk
  refine ⟨?g', ?run, ?ready⟩
  case run =>
    simp [GatedServer.command, Runs.exec_cons, step, permits, verdictAfter, executes, Server.step, Server.setJob,
      Server.logAccess, h.loop, h.expired, h.job, h.connected, h.armed, h.owner, h.commandBuffer, hreceive, hnext, hp,
      hk]
    rfl
  case ready =>
    have hcount := h.count
    have hnow := h.now
    exact
      { loop := rfl
        expired := rfl
        job := by simp
        connected := h.connected
        armed := by simp [hepoll]
        owner := by simpa [howner] using h.owner
        commandBuffer := by simp
        now := hnow
        count := by simpa [executedIn, hnow] using hcount }

theorem Ready.commands {m : Nat} (h : Ready m g) (n : Nat) :
    ∃ ls g', Runs.exec step g ls = some g' ∧ Ready (m + n) g' := by
  induction n with
  | zero => exact ⟨[], g, rfl, h⟩
  | succ n ih =>
    obtain ⟨ls, g', hrun, hready⟩ := ih
    obtain ⟨g'', hcommand, hready'⟩ := hready.command
    exact ⟨ls ++ GatedServer.command, g'', Runs.exec_append.mpr ⟨g', hrun, hcommand⟩, hready'⟩

/-- One client passes, and then sends commands without end: the bucket of ten
that the server is made with does not hold eleven. -/
theorem commands_over_bucket :
    ¬ ∀ g, Runs.Reach step (fun _ _ => True) (start 10 5 1000 0) g → ∀ ip start stop, start ≤ stop →
      ((g.executedIn ip start stop).length : ℚ) ≤ 10 + 5 * RateLimiter.seconds start stop := by
  obtain ⟨rt, hrun⟩ := first_client (show (1 : ℚ) ≤ 10 by norm_num) 5
  have hfirst : Runs.Reach step (fun _ _ => True) (start 10 5 1000 0) (onePassed rt) :=
    Runs.Reach.start.exec _ hrun fun _ _ _ => trivial
  obtain ⟨g₀, hconnect, hready⟩ : ∃ g₀, Runs.exec step (onePassed rt) connect = some g₀ ∧ Ready 0 g₀ :=
    ⟨_, rfl, ⟨rfl, rfl, rfl, rfl, rfl, rfl, rfl, rfl, rfl⟩⟩
  obtain ⟨ls, g, hcommands, hg⟩ := hready.commands 11
  have h := (hfirst.exec _ hconnect fun _ _ _ => trivial).exec _ hcommands fun _ _ _ => trivial
  intro hall
  have hcount := hall g h 1 0 0 le_rfl
  norm_num [hg.count, RateLimiter.seconds] at hcount

end GatedServer

end KvDatabase
