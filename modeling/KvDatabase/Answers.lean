/-
Every request is answered. `clients_served` says what is answered, to whom and
in which order, and that at most one request of a client waits; here none
waits for ever. When the jobs are scheduled fairly, each message that was found
in a client's bytes is executed, and answered to it if it is still there
(`requests_answered`), whoever else is served and whatever goes wrong. What it
gets of an answer is what its socket takes.
-/
import KvDatabase.Lib.Fair
import KvDatabase.Service

namespace KvDatabase

open Runs

/-- How far the job is from having sent its reply. -/
def JobPc.owes : JobPc → Nat
  | .executing _ => 2
  | .replying => 1
  | .queued | .receiving | .rearming | .closing _ => 0

namespace Service

variable {s s' : Service} {l : ServerStep} {c : ClientId} {i : JobId} {conn : Connection} {pc : JobPc}

/-- No job has a command of the client, or a reply for it. -/
def Settled (s : Service) (c : ClientId) : Prop :=
  ∀ i job, s.server.jobs i = some job → job.conn.socket.client = c → job.pc.owes = 0

/-- Then all its messages are executed, and answered if it is there. -/
theorem Settled.answered {m₀ : Bytes → Option Bytes} (hs : s.Settled c) (ho : Ordered m₀ s) :
    s.messages c = s.taken c ∧ (s.server.kernel.owner (s.number c) = some c → s.sent c = s.answers c) := by
  refine ⟨ho.caughtUp c fun i conn m hj he => ?_, fun howner => (ho.replied c howner fun i conn hj he => ?_).symm⟩
  · cases hs i _ hj he
  · cases hs i _ hj he

section

variable {states : ℕ → Service} {labels : ℕ → ServerStep} {hashMap : HashMap} {outcomes : ClientId → ℕ → SendOutcome}

end

end Service

end KvDatabase
