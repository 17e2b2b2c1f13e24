/-
Whoever the sweep finds expired is closed. The sweep only queues the number
(`onSessionExpired`), and the event loop closes it when it comes round to its
drain, which it does from wherever it is: it waits for a second at most, its
batches end, and nothing that another thread does can stop it. So every queued
number is closed in every run in which the event loop is scheduled fairly,
whatever goes wrong in it (`expired_closed`).
-/
import KvDatabase.Progress
import Mathlib.Data.Prod.Lex

namespace KvDatabase

open Runs

/-- How far the event loop is from the top of its round. -/
def LoopPc.round (loop : LoopPc) : ℕ ×ₗ ℕ :=
  match loop with
  | .top => toLex (0, loop.rest)
  | .dispatching _ | .eventClosing _ _ _ => toLex (1, loop.rest)
  | .waiting => toLex (2, loop.rest)
  | .draining _ | .drainClosing _ _ _ => toLex (3, loop.rest)

namespace Server

variable {s s' : Server} {l : ServerStep} {h : Handle}

/-- Each of its steps brings it nearer, until it is there. -/
theorem round_lt (hs : s.step l = some s') (ht : l.thread = .loop) (hl : l ≠ .swapExpired) :
    s'.loop.round < s.loop.round := by
  have earlier : ∀ {a b m n : ℕ}, a < b → toLex (a, m) < toLex (b, n) := fun hab =>
    Prod.Lex.toLex_lt_toLex.mpr (.inl hab)
  have shorter : ∀ {a m n : ℕ}, m < n → toLex (a, m) < toLex (a, n) := fun hmn =>
    Prod.Lex.toLex_lt_toLex.mpr (.inr ⟨rfl, hmn⟩)
  cases l with
  | swapExpired => exact absurd rfl hl
  | drainNext =>
    obtain ⟨a, close, hd, rfl⟩ := step_drainNext hs
    rw [hd]
    exact shorter (by simp [LoopPc.rest, CloseStage.rest]; omega)
  | drainDone => obtain ⟨hd, rfl⟩ := step_drainDone hs; rw [hd]; exact earlier (by decide)
  | loopClose =>
    rcases step_loopClose hs with ⟨a, stage, close, hd, rfl⟩ | ⟨sock, stage, events, hd, rfl⟩
    · rw [hd]
      cases hn : ((s.logDrain a).closeConnection a.num stage).2 with
      | none => exact shorter (Nat.lt_add_of_pos_right stage.rest_pos)
      | some next => exact shorter (Nat.add_lt_add_left (closeConnection_next_stage hn).rest_lt _)
    · rw [hd]
      cases hn : (s.closeConnection sock stage).2 with
      | none => exact shorter (Nat.lt_add_of_pos_right stage.rest_pos)
      | some next => exact shorter (Nat.add_lt_add_left (closeConnection_next_stage hn).rest_lt _)
  | wait events => obtain ⟨hw, -, -, rfl⟩ := step_wait hs; rw [hw]; exact earlier (by decide)
  | waitFailed => obtain ⟨hw, rfl⟩ := step_waitFailed hs; rw [hw]; exact earlier (by decide)
  | dispatch i =>
    obtain ⟨sock, events, hd, -, ⟨-, rfl⟩ | ⟨conn, -, rfl⟩⟩ := step_dispatch hs
    all_goals
      rw [hd]
      exact shorter (by simp [LoopPc.rest, setJob])
  | hangUp =>
    obtain ⟨sock, event, events, hd, rfl⟩ := step_hangUp hs
    rw [hd]
    exact shorter (by simp [LoopPc.rest, CloseStage.rest]; omega)
  | eventsDone => obtain ⟨hd, rfl⟩ := step_eventsDone hs; rw [hd]; exact earlier (by decide)
  | _ => cases ht

/-- The event loop closes this number, as one from the queue. -/
def ClosesExpired (s : Server) (l : ServerStep) (h : Handle) : Prop :=
  l = .loopClose ∧ ∃ close, s.loop = .drainClosing h .close close

/-- Then it is nobody's. -/
theorem ClosesExpired.owner (hc : s.ClosesExpired l h) (hs : s.step l = some s') : s'.kernel.owner h.num = none := by
  obtain ⟨rfl, close, hd⟩ := hc
  rcases step_loopClose hs with ⟨a, stage, close', hd', rfl⟩ | ⟨sock, stage, events, hd', -⟩
  · cases hd.symm.trans hd'
    exact owner_of_last rfl
  · cases hd.symm.trans hd'

/-- What is to be closed stays so until it is. -/
theorem toClose_step (hs : s.step l = some s') (hq : h ∈ s.loop.toClose) :
    h ∈ s'.loop.toClose ∨ s.ClosesExpired l h := by
  by_cases ht : l.thread = .loop
  · cases l with
    | drainNext => obtain ⟨a, close, hd, rfl⟩ := step_drainNext hs; rw [hd] at hq; exact .inl hq
    | loopClose =>
      rcases step_loopClose hs with ⟨a, stage, close, hd, rfl⟩ | ⟨sock, stage, events, hd, -⟩
      · rw [hd] at hq
        cases hn : ((s.logDrain a).closeConnection a.num stage).2 with
        | some next => exact .inl hq
        | none =>
          obtain rfl := stage_of_last hn
          rcases List.mem_cons.mp hq with rfl | hq
          · exact .inr ⟨rfl, close, hd⟩
          · exact .inl hq
      · rw [hd] at hq
        cases hq
    | swapExpired => obtain ⟨hd, -⟩ := step_swapExpired hs; rw [hd] at hq; cases hq
    | drainDone => obtain ⟨hd, -⟩ := step_drainDone hs; rw [hd] at hq; cases hq
    | wait events => obtain ⟨hd, -⟩ := step_wait hs; rw [hd] at hq; cases hq
    | waitFailed => obtain ⟨hd, -⟩ := step_waitFailed hs; rw [hd] at hq; cases hq
    | dispatch i => obtain ⟨sock, events, hd, -⟩ := step_dispatch hs; rw [hd] at hq; cases hq
    | hangUp => obtain ⟨sock, event, events, hd, -⟩ := step_hangUp hs; rw [hd] at hq; cases hq
    | eventsDone => obtain ⟨hd, -⟩ := step_eventsDone hs; rw [hd] at hq; cases hq
    | _ => cases ht
  · rw [(step_frame hs).loop ht]
    exact .inl hq

/-- What is queued stays so until it is to be closed. -/
theorem expired_step (hs : s.step l = some s') (hq : h ∈ s.expiredSockets) :
    h ∈ s'.loop.toClose ∨ h ∈ s'.expiredSockets ∧ l ≠ .swapExpired := by
  by_cases hl : l = .swapExpired
  · subst hl
    obtain ⟨-, rfl⟩ := step_swapExpired hs
    exact .inl hq
  · exact .inr ⟨(step_frame hs).expiredSockets hl h hq, hl⟩

section

variable {states : ℕ → Server} {labels : ℕ → ServerStep}

/-- What every step keeps, or the next round begins, comes about in this one. -/
theorem round_leadsTo (h₀ : Reach Server.step (fun _ _ => True) Server.start (states 0))
    (hrun : Forever Server.step (fun _ _ => True) states labels)
    (hfair : Fair Server.step (fun _ _ => True) states labels fun l => l.thread = .loop) {P Q : ℕ → Prop}
    (next : ∀ n, P n → Q n ∨ Q (n + 1) ∨ P (n + 1) ∧ labels n ≠ .swapExpired) : LeadsTo P Q := by
  have hhelped := LeadsTo.of_helpful (Q := Q) (fun _ : Unit => hfair) (fun _ r n => r = (states n).loop.round ∧ P n)
    (fun _ _ n _ => loop_enabled (fun _ _ => trivial) (exists_free (hrun.reach h₀ n))) fun _ r n hn => ?_
  · exact fun n hn => hhelped n ⟨(), _, rfl, hn⟩
  · obtain ⟨rfl, hn⟩ := hn
    rcases next n hn with hq | hq | ⟨hn', hl⟩
    · exact .inl hq
    · exact .inr (.inl hq)
    · by_cases ht : (labels n).thread = .loop
      · exact .inr (.inr (.inl ⟨(), _, round_lt (hrun.next n) ht hl, rfl, hn'⟩))
      · exact .inr (.inr (.inr ⟨⟨by rw [(step_frame (hrun.next n)).loop ht], hn'⟩, ht⟩))

/-- The drain closes what it has to close, -/
theorem toClose_leadsTo (h₀ : Reach Server.step (fun _ _ => True) Server.start (states 0))
    (hrun : Forever Server.step (fun _ _ => True) states labels)
    (hfair : Fair Server.step (fun _ _ => True) states labels fun l => l.thread = .loop) (h : Handle) :
    LeadsTo (fun n => h ∈ (states n).loop.toClose) fun n => (states n).ClosesExpired (labels n) h := by
  refine round_leadsTo h₀ hrun hfair fun n hq => ?_
  rcases toClose_step (hrun.next n) hq with hq' | hcloses
  · refine .inr (.inr ⟨hq', fun hl => ?_⟩)
    obtain ⟨htop, -⟩ := step_swapExpired (hl ▸ hrun.next n)
    rw [htop] at hq
    cases hq
  · exact .inl hcloses

/-- and comes to what is queued. -/
theorem expired_leadsTo (h₀ : Reach Server.step (fun _ _ => True) Server.start (states 0))
    (hrun : Forever Server.step (fun _ _ => True) states labels)
    (hfair : Fair Server.step (fun _ _ => True) states labels fun l => l.thread = .loop) (h : Handle) :
    LeadsTo (fun n => h ∈ (states n).expiredSockets) fun n => (states n).ClosesExpired (labels n) h := by
  have hswapped : LeadsTo (fun n => h ∈ (states n).expiredSockets) fun n => h ∈ (states n).loop.toClose :=
    round_leadsTo h₀ hrun hfair fun n hq => .inr (expired_step (hrun.next n) hq)
  exact hswapped.trans (toClose_leadsTo h₀ hrun hfair h)

/-- **Whoever is found expired is closed**: in every run without end in which
the event loop is scheduled fairly, each number that the sweep has queued is
closed by the event loop's drain some time, whatever the accept thread, the
jobs, the sweep and the clients do. -/
theorem expired_closed (h₀ : Reach Server.step (fun _ _ => True) Server.start (states 0))
    (hrun : Forever Server.step (fun _ _ => True) states labels)
    (hfair : Fair Server.step (fun _ _ => True) states labels fun l => l.thread = .loop) {n : ℕ}
    (hq : h ∈ (states n).expiredSockets) :
    ∃ m, n ≤ m ∧ (states m).ClosesExpired (labels m) h ∧ (states (m + 1)).kernel.owner h.num = none := by
  obtain ⟨m, hnm, hm⟩ := expired_leadsTo h₀ hrun hfair h n hq
  exact ⟨m, hnm, hm, hm.owner (hrun.next m)⟩

end

/-- A client is silent for too long, and the sweep has just found it. -/
theorem expired_closed_example : ∃ (states : ℕ → Server) (labels : ℕ → ServerStep),
    Forever Server.step (fun _ _ => True) states labels ∧ (states 0).expiredSockets = [⟨5, 0⟩] ∧
      ∃ m, 0 ≤ m ∧ (states m).ClosesExpired (labels m) ⟨5, 0⟩ ∧ (states (m + 1)).kernel.owner 5 = none := by
  let first : List ServerStep :=
    [.accept 5 ⟨1, 1⟩, .addSession, .register, .watch true, .tick 240000000001, .sweep ⟨1, 1⟩]
  let drain : List ServerStep :=
    [.swapExpired, .drainNext, .loopClose, .loopClose, .loopClose, .loopClose, .drainDone, .waitFailed]
  let round : List ServerStep := [.swapExpired, .drainDone, .waitFailed]
  obtain ⟨s₀, hfirst⟩ : ∃ s₀, exec Server.step Server.start first = some s₀ := ⟨_, rfl⟩
  obtain ⟨s₁, hdrain⟩ : ∃ s₁, exec Server.step s₀ drain = some s₁ := by
    cases hfirst
    exact ⟨_, rfl⟩
  have hround : exec Server.step s₁ round = some s₁ := by
    cases hfirst
    cases hdrain
    rfl
  obtain ⟨rest, next, hrest, hstates, hlabels⟩ :=
    Forever.of_cycle (C := fun _ _ => True) (fun _ => s₁) (by decide) (fun _ => hround) fun _ _ _ _ _ => trivial
  have hzero : rest 0 = s₁ := (Option.some.inj (hstates 0 0 (by decide))).symm
  obtain ⟨states, labels, hrun, hstart, hstates', hlabels'⟩ :=
    hrest.prepend (hdrain.trans (congrArg some hzero.symm)) fun _ _ _ => trivial
  have hfair : Fair Server.step (fun _ _ => True) rest next fun l => l.thread = .loop := fun n _ =>
    ⟨3 * n, by omega, by rw [show next (3 * n) = _ from hlabels n 0 (by decide)]; rfl⟩
  have h₀ : Reach Server.step (fun _ _ => True) Server.start (states 0) := by
    rw [hstart]
    exact Reach.start.exec first hfirst (by simp)
  have hqueued : (states 0).expiredSockets = [⟨5, 0⟩] := by
    rw [hstart]
    cases hfirst
    rfl
  have hmem : ⟨5, 0⟩ ∈ (states 0).expiredSockets := by rw [hqueued]; exact List.mem_singleton_self _
  exact ⟨states, labels, hrun, hqueued, expired_closed (n := 0) h₀ hrun (hfair.prepend hstates' hlabels') hmem⟩

end Server

end KvDatabase
