/-
No descriptor is lost. A number that `accept` gave out must be closed by
somebody some time, and what is in nobody's books is open for ever. The books
are three: the accept thread's hands, `connections`, and the `closeConnection`
calls under way, in the event loop and in jobs.

That holds in every run (`descriptors_kept`), also when numbers are used
again, or `epoll_ctl` fails. What helps is that `closeConnection` erases the
connection before it closes the number, and never stops in between. `Races`
says what it takes that it can erase it.
-/
import KvDatabase.Progress

namespace KvDatabase

open Runs

/-- Whom the accept thread has, and has not registered. -/
def AcceptPc.unlisted : AcceptPc → Option Handle
  | .accepted h _ | .added h _ | .dropped h => some h
  | .idle | .registered _ _ => none

/-- The number the event loop is closing, and the stage it is at. -/
def LoopPc.closing : LoopPc → Option (SocketType × CloseStage)
  | .drainClosing h stage _ => some (h.num, stage)
  | .eventClosing sock stage _ => some (sock, stage)
  | _ => none

namespace Server

variable {s s' : Server} {l : ServerStep} {x : SocketType} {h : Handle} {stage : CloseStage} {t : Option JobId}

/-- The event loop, or this job, is closing the number. -/
def Releases (s : Server) (x : SocketType) (stage : CloseStage) : Option JobId → Prop
  | none => s.loop.closing = some (x, stage)
  | some i => ∃ conn, s.jobs i = some ⟨conn, .closing stage⟩ ∧ conn.socket.num = x

/-- The client's number is in somebody's books. -/
def Kept (s : Server) (h : Handle) : Prop :=
  (∃ key, s.connections h.num = some ⟨h, key⟩) ∨ s.acceptor.unlisted = some h ∨ ∃ t stage, s.Releases h.num stage t

/-- A thread that is closing a number takes no other step. -/
theorem Releases.label (hr : s.Releases x stage t) (hs : s.step l = some s') (ht : l.thread = .ofJob t) :
    l = .loopClose ∧ t = none ∨ ∃ i, l = .jobClose i ∧ t = some i := by
  cases t with
  | none =>
    rw [Releases] at hr
    cases l with
    | loopClose => exact .inl ⟨rfl, rfl⟩
    | swapExpired => obtain ⟨hl, -⟩ := step_swapExpired hs; rw [hl] at hr; cases hr
    | drainNext => obtain ⟨a, close, hl, -⟩ := step_drainNext hs; rw [hl] at hr; cases hr
    | drainDone => obtain ⟨hl, -⟩ := step_drainDone hs; rw [hl] at hr; cases hr
    | wait events => obtain ⟨hl, -⟩ := step_wait hs; rw [hl] at hr; cases hr
    | waitFailed => obtain ⟨hl, -⟩ := step_waitFailed hs; rw [hl] at hr; cases hr
    | dispatch i => obtain ⟨sock, events, hl, -⟩ := step_dispatch hs; rw [hl] at hr; cases hr
    | hangUp => obtain ⟨sock, event, events, hl, -⟩ := step_hangUp hs; rw [hl] at hr; cases hr
    | eventsDone => obtain ⟨hl, -⟩ := step_eventsDone hs; rw [hl] at hr; cases hr
    | _ => cases ht
  | some i =>
    obtain ⟨conn, hj, -⟩ := hr
    refine .inr ⟨i, ?_, rfl⟩
    rcases job_moves hs ht hj with ⟨pc', hm, -⟩ | ⟨⟨-, hpc⟩ | ⟨hl, -⟩, -⟩
    · cases hm
      rfl
    · cases hpc
    · exact hl

/-- A closing goes on by steps of its thread, until the number is closed. -/
theorem Releases.step (hr : s.Releases x stage t) (hs : s.step l = some s') :
    l.thread ≠ .ofJob t ∧ s'.Releases x stage t ∨ (∃ next, stage.Next next ∧ s'.Releases x next t) ∨
      s'.kernel.owner x = none := by
  by_cases ht : l.thread = .ofJob t
  · refine .inr ?_
    rcases hr.label hs ht with ⟨rfl, rfl⟩ | ⟨i, rfl, rfl⟩
    · rcases step_loopClose hs with ⟨a, stage', close, hl, rfl⟩ | ⟨sock, stage', events, hl, rfl⟩
      · rw [Releases, hl] at hr
        cases hr
        cases hn : ((s.logDrain a).closeConnection a.num stage).2 with
        | none => exact .inr (owner_of_last hn)
        | some next => exact .inl ⟨next, closeConnection_next_stage hn, rfl⟩
      · rw [Releases, hl] at hr
        cases hr
        cases hn : (s.closeConnection x stage).2 with
        | none => exact .inr (owner_of_last hn)
        | some next => exact .inl ⟨next, closeConnection_next_stage hn, rfl⟩
    · obtain ⟨conn, hj, rfl⟩ := hr
      obtain ⟨conn', stage', hj', rfl⟩ := step_jobClose hs
      cases hj.symm.trans hj'
      cases hn : ((s.logAccess conn).closeConnection conn.socket.num stage).2 with
      | none => exact .inr (owner_of_last hn)
      | some next => exact .inl ⟨next, closeConnection_next_stage hn, conn, by simp [setJob], rfl⟩
  · refine .inl ⟨ht, ?_⟩
    cases t with
    | none =>
      rw [Releases, (step_frame hs).loop ht]
      exact hr
    | some i =>
      obtain ⟨conn, hj, hx⟩ := hr
      exact ⟨conn, job_kept hs ht hj, hx⟩

/-- A connection stays listed until another takes its number, or until it is
erased by a thread that closes the number next. -/
theorem listed_step {conn : Connection} (hx : s.connections x = some conn) (hs : s.step l = some s') :
    s'.connections x = some conn ∨ (∃ a key, s.acceptor = .added a key ∧ a.num = x ∧
      s'.connections x = some ⟨a, key⟩) ∨ ∃ t stage, s'.Releases x stage t := by
  have erase : ∀ (s₁ : Server) (sock : SocketType) (stage : CloseStage), s₁.connections = s.connections →
      (s₁.closeConnection sock stage).1.connections x = some conn ∨
        x = sock ∧ (s₁.closeConnection sock stage).2 = some .close := by
    intro s₁ sock stage hc
    cases stage with
    | unwatch | close => exact .inl (hc ▸ hx)
    | dropSession =>
      rw [closeConnection]
      split <;> exact .inl (hc ▸ hx)
    | erase =>
      by_cases hsock : x = sock
      · exact .inr ⟨hsock, rfl⟩
      · exact .inl ((Function.update_of_ne hsock _ _).trans (hc ▸ hx))
  cases l with
  | register =>
    obtain ⟨a, key, ha, rfl⟩ := step_register hs
    by_cases hax : x = a.num
    · exact .inr (.inl ⟨a, key, ha, hax.symm, by rw [hax]; exact Function.update_self ..⟩)
    · exact .inl ((Function.update_of_ne hax _ _).trans hx)
  | loopClose =>
    rcases step_loopClose hs with ⟨a, stage, close, -, rfl⟩ | ⟨sock, stage, events, -, rfl⟩
    · rcases erase (s.logDrain a) a.num stage rfl with hc | ⟨rfl, hn⟩
      · exact .inl hc
      · exact .inr (.inr ⟨none, .close, by rw [hn]; rfl⟩)
    · rcases erase s sock stage rfl with hc | ⟨rfl, hn⟩
      · exact .inl hc
      · exact .inr (.inr ⟨none, .close, by rw [hn]; rfl⟩)
  | jobClose i =>
    obtain ⟨own, stage, -, rfl⟩ := step_jobClose hs
    rcases erase (s.logAccess own) own.socket.num stage rfl with hc | ⟨rfl, hn⟩
    · exact .inl hc
    · exact .inr (.inr ⟨some i, .close, own, by simp [setJob, hn], rfl⟩)
  | _ => exact .inl ((congrFun ((step_frame hs).listed (by simp) (by simp) (by simp)) x).trans hx)

/-- Whom the accept thread has not registered, it had, or has just accepted. -/
theorem unlisted_of_step (hs : s.step l = some s') (hh : s'.acceptor.unlisted = some h) :
    s.acceptor.unlisted = some h ∨ s'.kernel.owner h.num = some h.client := by
  by_cases ht : l.thread = .acceptor
  · cases l with
    | accept num key => obtain ⟨-, -, rfl⟩ := step_accept hs; cases hh; exact .inr (Function.update_self ..)
    | refuse => obtain ⟨a, -, rfl⟩ := step_refuse hs; cases hh
    | addSession => obtain ⟨a, key, ha, rfl⟩ := step_addSession hs; cases hh; exact .inl (by rw [ha]; rfl)
    | drop => obtain ⟨a, key, ha, rfl⟩ := step_drop hs; cases hh; exact .inl (by rw [ha]; rfl)
    | register => obtain ⟨a, key, ha, rfl⟩ := step_register hs; cases hh
    | watch ok => obtain ⟨a, key, -, rfl⟩ := step_watch hs; cases hh
    | _ => cases ht
  · exact .inl (((step_effect hs).acceptor ht).1 ▸ hh)

/-- It has them until they are registered or closed. -/
theorem unlisted_step (hs : s.step l = some s') (hh : s.acceptor.unlisted = some h) :
    s'.acceptor.unlisted = some h ∨ (∃ key, s.acceptor = .added h key ∧ s'.connections h.num = some ⟨h, key⟩) ∨
      s'.kernel.owner h.num = none := by
  by_cases ht : l.thread = .acceptor
  · cases l with
    | accept num key => obtain ⟨ha, -, -⟩ := step_accept hs; rw [ha] at hh; cases hh
    | refuse =>
      obtain ⟨a, ha, rfl⟩ := step_refuse hs
      have hah : a = h := by
        cases hacc : s.acceptor with
        | idle | registered => rw [hacc] at hh; cases hh
        | accepted | added | dropped => rw [hacc] at ha hh; cases ha; cases hh; rfl
      exact .inr (.inr (hah ▸ Function.update_self ..))
    | addSession => obtain ⟨a, key, ha, rfl⟩ := step_addSession hs; rw [ha] at hh; cases hh; exact .inl rfl
    | drop => obtain ⟨a, key, ha, rfl⟩ := step_drop hs; rw [ha] at hh; cases hh; exact .inl rfl
    | register =>
      obtain ⟨a, key, ha, rfl⟩ := step_register hs
      rw [ha] at hh
      cases hh
      exact .inr (.inl ⟨key, ha, Function.update_self ..⟩)
    | watch ok => obtain ⟨a, key, ha, -⟩ := step_watch hs; rw [ha] at hh; cases hh
    | _ => cases ht
  · exact .inl (((step_effect hs).acceptor ht).1 ▸ hh)

/-- Each number in use is in the books under its own client. -/
structure Tracked (s : Server) : Prop where
  unlisted : ∀ h, s.acceptor.unlisted = some h → s.kernel.owner h.num = none ∨ s.kernel.owner h.num = some h.client
  kept : ∀ h, s.kernel.owner h.num = some h.client → s.Kept h

theorem Tracked.start : Tracked start where
  unlisted := by simp [Server.start, AcceptPc.unlisted]
  kept := by simp [Server.start, Kernel.init]

theorem Tracked.step (hi : Tracked s) (hs : s.step l = some s') : Tracked s' := by
  have howner : ∀ x c, s'.kernel.owner x = some c → s.kernel.owner x = some c ∨ s'.acceptor.unlisted = some ⟨x, c⟩ := by
    intro x c ho
    rcases (step_effect hs).owner x c ho with ho | ⟨key, rfl, rfl⟩
    · exact .inl ho
    · obtain ⟨-, -, rfl⟩ := step_accept hs
      exact .inr rfl
  refine ⟨fun h hh => ?_, fun h ho => ?_⟩
  · rcases unlisted_of_step hs hh with hold | hnew
    · cases ho : s'.kernel.owner h.num with
      | none => exact .inl rfl
      | some c =>
        rcases howner _ c ho with ho | hh'
        · exact .inr (congrArg some (by simpa [ho] using hi.unlisted h hold))
        · have he : h = ⟨h.num, c⟩ := Option.some.inj (hh.symm.trans hh')
          exact .inr (congrArg some (congrArg Handle.client he).symm)
    · exact .inr hnew
  · rcases howner _ _ ho with hold | hnew
    · rcases hi.kept h hold with ⟨key, hc⟩ | hh | ⟨t, stage, hr⟩
      · rcases listed_step hc hs with hc | ⟨a, key', ha, hnum, hc⟩ | hr
        · exact .inl ⟨key, hc⟩
        · have hown := hi.unlisted a (by rw [ha]; rfl)
          rw [hnum, hold] at hown
          have hclient : h.client = a.client := by simpa using hown
          obtain rfl : a = h := congrArg₂ Handle.mk hnum hclient.symm
          exact .inl ⟨key', hc⟩
        · exact .inr (.inr hr)
      · rcases unlisted_step hs hh with hh | ⟨key, -, hc⟩ | hnone
        · exact .inr (.inl hh)
        · exact .inl ⟨key, hc⟩
        · rw [hnone] at ho
          cases ho
      · rcases hr.step hs with ⟨-, hr⟩ | ⟨next, -, hr⟩ | hnone
        · exact .inr (.inr ⟨t, stage, hr⟩)
        · exact .inr (.inr ⟨t, next, hr⟩)
        · rw [hnone] at ho
          cases ho
    · exact .inr (.inl hnew)

theorem tracked_of_reach {C : Server → ServerStep → Prop} (hr : Reach Server.step C Server.start s) : Tracked s :=
  hr.invariant Tracked .start fun _ _ _ hi _ hs => hi.step hs

end Server

end KvDatabase
