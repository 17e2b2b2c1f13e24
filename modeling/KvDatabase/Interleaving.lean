/-
Handlers and a snapshot, step by step: any number of handlers, each between
its map update, its log append and its reply, and one `createSnapshot`, each
step atomic under the lock it takes and nothing atomic across two of them.

The map is what the updates made it and the log is what the appends made it
(`exec_contents`, `exec_disk`); the two theorems compare the two orders. With
no snapshot they give the same map exactly when, key by key, the last append
and the last update leave the same (`log_order_agrees_iff`). With one, what
was appended between the snapshot's read and its reset of the log is in
neither file (`concurrent_snapshot_iff`).
-/
import KvDatabase.Durability
import KvDatabase.Lib.Runs

namespace KvDatabase

open WriteLog (replay last)

/-- Where a worker is in the INSERT or DELETE branch of `messageHandler`. -/
inductive HandlerPc
  | idle
  /-- The map has the write, the log does not. -/
  | updated (w : Write)
  /-- Both have it; the reply is not sent yet. -/
  | logged (w : Write)
deriving DecidableEq

/-- Where the scheduler thread is in `createSnapshot`. -/
inductive SnapshotPc
  | idle
  /-- The snapshot file is open, and empty. -/
  | opened
  /-- In `forEach`, under the map's lock, with these nodes still to write. -/
  | reading (rest : List Node)
  /-- `forEach` has returned and its lock is free. -/
  | read
  | closed
  | done
deriving DecidableEq

/-- `forEach` holds the map's lock, shared: no update can run. -/
def SnapshotPc.holdsLock : SnapshotPc → Bool
  | reading _ => true
  | _ => false

/-- The server's threads over one store; `T` names the workers. -/
structure Threads (T : Type) where
  hashMap : HashMap
  disk : Disk
  handlers : T → HandlerPc
  snapshot : SnapshotPc

/-- A step of some thread. -/
inductive ThreadStep (T : Type)
  /-- A worker takes up a write: `hashMap.insert` or `hashMap.remove`. -/
  | update (t : T) (w : Write)
  /-- `pers.appendToLog`. -/
  | log (t : T) (w : Write)
  /-- `send`: the write is acknowledged. -/
  | reply (t : T) (w : Write)
  /-- Opening the snapshot file with `trunc`. -/
  | openRdb
  /-- `forEach` takes the lock. -/
  | lockMap
  /-- Its callback writes one node's line. -/
  | writeEntry
  /-- `forEach` returns. -/
  | unlockMap
  | closeRdb
  /-- The log reset, under `aof_mutex`. -/
  | resetLog
deriving DecidableEq

namespace Threads

variable {T : Type}

/-- No worker busy, no snapshot begun. -/
def start (st : Store) : Threads T := ⟨st.hashMap, st.disk, fun _ => .idle, .idle⟩

/-- No handler is between its two steps. -/
def Quiet (s : Threads T) : Prop := ∀ t w, s.handlers t ≠ .updated w

/-- The writes a schedule's updates made, in their order. -/
def updated (ls : List (ThreadStep T)) : List Write := ls.filterMap fun
  | .update _ w => some w
  | _ => none

/-- The writes a schedule's appends logged, in their order. -/
def logged (ls : List (ThreadStep T)) : List Write := ls.filterMap fun
  | .log _ w => some w
  | _ => none

/-- A step of a handler, and not of the snapshot. -/
def OfHandler : ThreadStep T → Prop
  | .update _ _ | .log _ _ | .reply _ _ => True
  | _ => False

@[simp] theorem updated_append (xs ys : List (ThreadStep T)) : updated (xs ++ ys) = updated xs ++ updated ys := by
  simp [updated]

@[simp] theorem logged_append (xs ys : List (ThreadStep T)) : logged (xs ++ ys) = logged xs ++ logged ys := by
  simp [logged]

@[simp] theorem updated_update (t : T) (w) : updated [.update t w] = [w] := rfl
@[simp] theorem logged_update (t : T) (w) : logged [.update t w] = [] := rfl
@[simp] theorem updated_log (t : T) (w) : updated [.log t w] = [] := rfl
@[simp] theorem logged_log (t : T) (w) : logged [.log t w] = [w] := rfl
@[simp] theorem updated_reply (t : T) (w) : updated [.reply t w] = [] := rfl
@[simp] theorem logged_reply (t : T) (w) : logged [.reply t w] = [] := rfl

variable [DecidableEq T]

def step (s : Threads T) : ThreadStep T → Option (Threads T)
  | .update t w =>
    if s.handlers t = .idle ∧ s.snapshot.holdsLock = false then
      some { s with hashMap := w.update s.hashMap, handlers := Function.update s.handlers t (.updated w) }
    else none
  | .log t w =>
    if s.handlers t = .updated w then
      some { s with disk := w.log s.disk, handlers := Function.update s.handlers t (.logged w) }
    else none
  | .reply t w =>
    if s.handlers t = .logged w then some { s with handlers := Function.update s.handlers t .idle } else none
  | .openRdb =>
    if s.snapshot = .idle then some { s with disk := s.disk.truncateRdb, snapshot := .opened } else none
  | .lockMap =>
    if s.snapshot = .opened then some { s with snapshot := .reading s.hashMap.nodes } else none
  | .writeEntry =>
    match s.snapshot with
    | .reading (n :: rest) =>
      some { s with disk := s.disk.writeEntry n.key n.value, snapshot := .reading rest }
    | _ => none
  | .unlockMap => if s.snapshot = .reading [] then some { s with snapshot := .read } else none
  | .closeRdb => if s.snapshot = .read then some { s with snapshot := .closed } else none
  | .resetLog =>
    if s.snapshot = .closed then some { s with disk := s.disk.resetLog, snapshot := .done } else none

/-- Take the steps of a schedule in order. -/
abbrev exec (s : Threads T) (ls : List (ThreadStep T)) : Option (Threads T) := Runs.exec step s ls

/-! ## What a step can do -/

theorem step_update {s s' : Threads T} {t w} : step s (.update t w) = some s' ↔
    (s.handlers t = .idle ∧ s.snapshot.holdsLock = false) ∧
      { s with hashMap := w.update s.hashMap, handlers := Function.update s.handlers t (.updated w) } = s' := by
  simp [step]

theorem step_log {s s' : Threads T} {t w} : step s (.log t w) = some s' ↔ s.handlers t = .updated w ∧
    { s with disk := w.log s.disk, handlers := Function.update s.handlers t (.logged w) } = s' := by
  simp [step]

theorem step_reply {s s' : Threads T} {t w} : step s (.reply t w) = some s' ↔
    s.handlers t = .logged w ∧ { s with handlers := Function.update s.handlers t .idle } = s' := by
  simp [step]

theorem step_openRdb {s s' : Threads T} : step s .openRdb = some s' ↔
    s.snapshot = .idle ∧ { s with disk := s.disk.truncateRdb, snapshot := .opened } = s' := by
  simp [step]

theorem step_lockMap {s s' : Threads T} : step s .lockMap = some s' ↔
    s.snapshot = .opened ∧ { s with snapshot := .reading s.hashMap.nodes } = s' := by
  simp [step]

theorem step_writeEntry {s s' : Threads T} : step s .writeEntry = some s' ↔
    ∃ n rest, s.snapshot = .reading (n :: rest) ∧
      { s with disk := s.disk.writeEntry n.key n.value, snapshot := .reading rest } = s' := by
  rw [step]
  split
  · next n rest h => simp [h]
  · next h => simpa using fun n rest he => absurd he (h n rest)

theorem step_unlockMap {s s' : Threads T} : step s .unlockMap = some s' ↔
    s.snapshot = .reading [] ∧ { s with snapshot := .read } = s' := by
  simp [step]

theorem step_closeRdb {s s' : Threads T} : step s .closeRdb = some s' ↔
    s.snapshot = .read ∧ { s with snapshot := .closed } = s' := by
  simp [step]

theorem step_resetLog {s s' : Threads T} : step s .resetLog = some s' ↔
    s.snapshot = .closed ∧ { s with disk := s.disk.resetLog, snapshot := .done } = s' := by
  simp [step]

/-! ## The map follows the updates, the log the appends -/

/-- The snapshot's steps leave the map and the handlers alone. -/
theorem step_snapshot {s s' : Threads T} {l : ThreadStep T} (hl : ¬ OfHandler l) (h : step s l = some s') :
    s'.hashMap = s.hashMap ∧ s'.handlers = s.handlers := by
  cases l with
  | update t w | log t w | reply t w => exact absurd trivial hl
  | openRdb => obtain ⟨-, rfl⟩ := step_openRdb.mp h; exact ⟨rfl, rfl⟩
  | lockMap => obtain ⟨-, rfl⟩ := step_lockMap.mp h; exact ⟨rfl, rfl⟩
  | writeEntry => obtain ⟨n, rest, -, rfl⟩ := step_writeEntry.mp h; exact ⟨rfl, rfl⟩
  | unlockMap => obtain ⟨-, rfl⟩ := step_unlockMap.mp h; exact ⟨rfl, rfl⟩
  | closeRdb => obtain ⟨-, rfl⟩ := step_closeRdb.mp h; exact ⟨rfl, rfl⟩
  | resetLog => obtain ⟨-, rfl⟩ := step_resetLog.mp h; exact ⟨rfl, rfl⟩

/-- A handler's step leaves the snapshot, and the snapshot file, alone. -/
theorem step_ofHandler {s s' : Threads T} {l : ThreadStep T} (h : step s l = some s') (hl : OfHandler l) :
    s'.snapshot = s.snapshot ∧ s'.disk.rdbBytes = s.disk.rdbBytes := by
  cases l with
  | update t w => obtain ⟨-, rfl⟩ := step_update.mp h; exact ⟨rfl, rfl⟩
  | log t w => obtain ⟨-, rfl⟩ := step_log.mp h; exact ⟨rfl, rfl⟩
  | reply t w => obtain ⟨-, rfl⟩ := step_reply.mp h; exact ⟨rfl, rfl⟩
  | openRdb | lockMap | writeEntry | unlockMap | closeRdb | resetLog => cases hl

theorem step_contents {s s' : Threads T} {l : ThreadStep T} (h : step s l = some s') :
    s'.hashMap.contents = applyAll (updated [l]) s.hashMap.contents := by
  cases l with
  | update t w => obtain ⟨-, rfl⟩ := step_update.mp h; simp [updated, applyAll]
  | log t w => obtain ⟨-, rfl⟩ := step_log.mp h; rfl
  | reply t w => obtain ⟨-, rfl⟩ := step_reply.mp h; rfl
  | openRdb | lockMap | writeEntry | unlockMap | closeRdb | resetLog =>
    rw [(step_snapshot id h).1]; rfl

/-- After any schedule the map is what its updates made of the first. -/
theorem exec_contents {s s' : Threads T} {ls : List (ThreadStep T)} (h : exec s ls = some s') :
    s'.hashMap.contents = applyAll (updated ls) s.hashMap.contents :=
  Runs.exec_induction h (fun ls s' => s'.hashMap.contents = applyAll (updated ls) s.hashMap.contents) rfl
    fun ls s₁ l s₂ ih hs => by rw [step_contents hs, ih, updated_append, applyAll_append]

/-- Between handlers' steps alone, the files are what the appends made of
them. -/
theorem exec_disk {s s' : Threads T} {ls : List (ThreadStep T)} (hl : ∀ l ∈ ls, OfHandler l)
    (h : exec s ls = some s') : s'.disk = logAll (logged ls) s.disk := by
  refine Runs.exec_induction h (fun ls s' => (∀ l ∈ ls, OfHandler l) → s'.disk = logAll (logged ls) s.disk)
    (fun _ => rfl) (fun ls s₁ l s₂ ih hs hl => ?_) hl
  have ih := ih fun l' hl' => hl l' (List.mem_append_left _ hl')
  have hol := hl l (by simp)
  rw [logged_append, logAll_append, ← ih]
  cases l with
  | update t w => obtain ⟨-, rfl⟩ := step_update.mp hs; rfl
  | log t w => obtain ⟨-, rfl⟩ := step_log.mp hs; rfl
  | reply t w => obtain ⟨-, rfl⟩ := step_reply.mp hs; rfl
  | openRdb | lockMap | writeEntry | unlockMap | closeRdb | resetLog => cases hol

theorem pending_update {f : T → HandlerPc} {t : T} {pc : HandlerPc} {w : Write} :
    (∃ u, Function.update f t pc u = .updated w) ↔ pc = .updated w ∨ ∃ u, u ≠ t ∧ f u = .updated w :=
  Function.exists_update_iff f fun _ pc => pc = .updated w

theorem pending_split {f : T → HandlerPc} (t : T) {w : Write} :
    (∃ u, f u = .updated w) ↔ f t = .updated w ∨ ∃ u, u ≠ t ∧ f u = .updated w := by
  rw [← pending_update, Function.update_eq_self]

/-- A write that is in the map is in the log, or its handler is between its
two steps. -/
theorem mem_updated_iff {st : Store} {s : Threads T} {ls : List (ThreadStep T)} (h : exec (start st) ls = some s)
    (w : Write) : w ∈ updated ls ↔ w ∈ logged ls ∨ ∃ t, s.handlers t = .updated w := by
  refine Runs.exec_induction h
    (fun ls s => w ∈ updated ls ↔ w ∈ logged ls ∨ ∃ t, s.handlers t = .updated w)
    (by simp [updated, logged, start]) fun ls s₁ l s₂ ih hs => ?_
  rw [updated_append, logged_append, List.mem_append, List.mem_append, ih]
  cases l with
  | update t w' =>
    obtain ⟨⟨hi, -⟩, rfl⟩ := step_update.mp hs
    have he : HandlerPc.updated w' = .updated w ↔ w = w' := by simp [eq_comm]
    rw [pending_split t, pending_update, hi, he]
    simp only [reduceCtorEq, false_or, updated_update, logged_update, List.mem_singleton, List.not_mem_nil, or_false]
    rw [or_assoc, or_comm (b := w = w')]
  | log t w' =>
    obtain ⟨hu, rfl⟩ := step_log.mp hs
    rw [pending_split t, pending_update, hu]
    simp [or_assoc, eq_comm]
  | reply t w' =>
    obtain ⟨hr, rfl⟩ := step_reply.mp hs
    rw [pending_split t, pending_update, hr]
    simp
  | openRdb | lockMap | writeEntry | unlockMap | closeRdb | resetLog =>
    rw [(step_snapshot id hs).2]
    simp [updated, logged]

/-! ## The order of the log -/

/-- **Log order and memory order.** With any number of handlers, no snapshot
and no crash, in any state where no handler is between its two steps, the
files recover to the map exactly when, on every key, the last append and the
last update leave the same. The two orders are chosen apart: two writers of
one key may take them the other way round. -/
theorem log_order_agrees_iff {st : Store} (hst : st.Durable) {ls : List (ThreadStep T)}
    (hl : ∀ l ∈ ls, OfHandler l) {s : Threads T} (h : exec (start st) ls = some s) (hq : s.Quiet) :
    s.disk.Recovers s.hashMap.contents ↔
      ∀ k, last k ((logged ls).map Write.effect) = last k ((updated ls).map Write.effect) := by
  have hmem : ∀ w, w ∈ updated ls ↔ w ∈ logged ls := fun w => by
    rw [mem_updated_iff h w]
    simp [hq _ w]
  have hnone : ∀ k, last k ((logged ls).map Write.effect) = none ↔ last k ((updated ls).map Write.effect) = none := by
    intro k
    simp [WriteLog.last_eq_none_iff, hmem]
  have hc : s.hashMap.contents = replay ((updated ls).map Write.effect) st.hashMap.contents := exec_contents h
  have hd : s.disk = logAll (logged ls) st.disk := exec_disk hl h
  rw [Disk.recovers_iff, hd, writes_logAll hst.terminated, WriteLog.replay_append,
    Disk.recovers_iff.mp hst.recovers, hc, funext_iff]
  refine forall_congr' fun k => ?_
  rw [WriteLog.replay_eq, WriteLog.replay_eq]
  have hk := hnone k
  cases hlast : last k ((logged ls).map Write.effect) with
  | none => simp [hk.mp hlast]
  | some o =>
    cases hu : last k ((updated ls).map Write.effect) with
    | none => rw [hk.mpr hu] at hlast; cases hlast
    | some o' => simp

/-- Two writes to different keys, logged in the other order. -/
theorem log_order_agrees_example :
    let w := Write.insert (ascii "a") (ascii "1") (by decide) (by decide)
    let ls := [ThreadStep.update true w, .update false (.delete (ascii "b") (by decide)),
      .log false (.delete (ascii "b") (by decide)), .log true w, .reply true w]
    ∃ s : Threads Bool, exec (start (Store.onDisk ⟨none, none⟩ 100 (by decide))) ls = some s ∧
      s.disk.Recovers s.hashMap.contents := by
  intro w ls
  have h : exec (start (Store.onDisk ⟨none, none⟩ 100 (by decide))) ls = some _ := rfl
  refine ⟨_, h, (log_order_agrees_iff (Store.durable_onDisk rfl rfl 100 (by decide)) ?_ h ?_).mpr fun k => ?_⟩
  · simp [ls, OfHandler]
  · simp [Quiet, Function.update]
  · have hne : ascii "a" ≠ ascii "b" := by decide
    by_cases ha : ascii "a" = k
    · subst ha
      simp [ls, w, logged, updated, Write.effect, last, hne.symm]
    · simp [ls, w, logged, updated, Write.effect, last, ha]

/-- Two writers of one key: the map has the second's value, the log ends with
the first's. -/
theorem log_order_agrees_two_writers :
    let w₁ := Write.insert (ascii "a") (ascii "1") (by decide) (by decide)
    let w₂ := Write.insert (ascii "a") (ascii "2") (by decide) (by decide)
    let st := Store.onDisk ⟨none, none⟩ 100 (by decide)
    let ls : List (ThreadStep Bool) := [.update true w₁, .update false w₂, .log false w₂, .log true w₁]
    st.Durable ∧ (∀ l ∈ ls, OfHandler l) ∧
      ∃ s, exec (start st) ls = some s ∧ s.Quiet ∧ ¬ s.disk.Recovers s.hashMap.contents := by
  intro w₁ w₂ st ls
  have h : exec (start st) ls = some _ := rfl
  refine ⟨Store.durable_onDisk rfl rfl 100 (by decide), by simp [ls, OfHandler], _, h, ?_, fun hr => ?_⟩
  · simp [Quiet, Function.update]
  · rw [Disk.recovers_iff, exec_contents h] at hr
    exact absurd (congrFun hr (ascii "a")) (by decide)

/-! ## A snapshot among the writes of one handler -/

/-- The snapshot file between the read's start, over these nodes, and the
end. -/
def Snapshots (nodes : List Node) (s : Threads T) : Prop :=
  match s.snapshot with
  | .idle | .opened => False
  | .reading rest => s.disk.rdbBytes ++ snapshotBytes rest = snapshotBytes nodes
  | .read | .closed | .done => s.disk.rdbBytes = snapshotBytes nodes

theorem Snapshots.step {nodes : List Node} {s s' : Threads T} (h : Snapshots nodes s) {l : ThreadStep T}
    (hs : step s l = some s') : Snapshots nodes s' := by
  cases l with
  | update t w | log t w | reply t w =>
    obtain ⟨hpc, hrdb⟩ := step_ofHandler hs trivial
    rw [Snapshots, hpc, hrdb]
    exact h
  | openRdb => obtain ⟨hpc, -⟩ := step_openRdb.mp hs; simp [Snapshots, hpc] at h
  | lockMap => obtain ⟨hpc, -⟩ := step_lockMap.mp hs; simp [Snapshots, hpc] at h
  | writeEntry =>
    obtain ⟨n, rest, hpc, rfl⟩ := step_writeEntry.mp hs
    simpa [Snapshots, hpc, snapshotBytes, Disk.writeEntry, Disk.rdbBytes, List.append_assoc] using h
  | unlockMap =>
    obtain ⟨hpc, rfl⟩ := step_unlockMap.mp hs
    simpa [Snapshots, hpc, snapshotBytes] using h
  | closeRdb => obtain ⟨hpc, rfl⟩ := step_closeRdb.mp hs; simpa [Snapshots, hpc] using h
  | resetLog => obtain ⟨hpc, rfl⟩ := step_resetLog.mp hs; simpa [Snapshots, hpc] using h

theorem Snapshots.exec {nodes : List Node} {s s' : Threads T} (h : Snapshots nodes s) {ls : List (ThreadStep T)}
    (hs : exec s ls = some s') : Snapshots nodes s' :=
  Runs.exec_induction hs (fun _ s => Snapshots nodes s) h fun _ _ _ _ hi hs => hi.step hs

/-- The snapshot file is empty from its opening to the read. -/
theorem rdbBytes_of_opened {st : Store} {s : Threads T} {ls : List (ThreadStep T)} (h : exec (start st) ls = some s)
    (hpc : s.snapshot = .opened) : s.disk.rdbBytes = [] := by
  refine Runs.exec_induction h (fun _ s => s.snapshot = .opened → s.disk.rdbBytes = []) (by simp [start])
    (fun _ s l s' ih hs hpc => ?_) hpc
  cases l with
  | update t w | log t w | reply t w =>
    obtain ⟨hpc', hrdb⟩ := step_ofHandler hs trivial
    rw [hrdb]
    exact ih (hpc' ▸ hpc)
  | openRdb => obtain ⟨-, rfl⟩ := step_openRdb.mp hs; rfl
  | lockMap => obtain ⟨-, rfl⟩ := step_lockMap.mp hs; cases hpc
  | writeEntry => obtain ⟨n, rest, -, rfl⟩ := step_writeEntry.mp hs; cases hpc
  | unlockMap => obtain ⟨-, rfl⟩ := step_unlockMap.mp hs; cases hpc
  | closeRdb => obtain ⟨-, rfl⟩ := step_closeRdb.mp hs; cases hpc
  | resetLog => obtain ⟨-, rfl⟩ := step_resetLog.mp hs; cases hpc

/-- Once the snapshot is done only handlers step. -/
theorem ofHandler_of_done {s s' : Threads T} {ls : List (ThreadStep T)} (h : exec s ls = some s')
    (hpc : s.snapshot = .done) : ∀ l ∈ ls, OfHandler l := by
  refine (Runs.exec_induction h (fun ls s => s.snapshot = .done ∧ ∀ l ∈ ls, OfHandler l) ⟨hpc, by simp⟩
    fun ls s l s' ⟨hpc, ih⟩ hs => ?_).2
  have hl : OfHandler l ∧ s'.snapshot = .done := by
    cases l with
    | update t w | log t w | reply t w => exact ⟨trivial, (step_ofHandler hs trivial).1.trans hpc⟩
    | openRdb | lockMap | writeEntry | unlockMap | closeRdb | resetLog => simp [step, hpc] at hs
  refine ⟨hl.2, fun l' hl' => ?_⟩
  rcases List.mem_append.mp hl' with hl' | hl'
  · exact ih l' hl'
  · rw [List.mem_singleton.mp hl']; exact hl.1

/-- A snapshot that is done began its read, and after that reset the log. -/
theorem split_of_done {st : Store} {s : Threads T} {ls : List (ThreadStep T)} (h : exec (start st) ls = some s)
    (hpc : s.snapshot = .done) : ∃ pre mid post, ls = pre ++ .lockMap :: (mid ++ .resetLog :: post) := by
  refine (Runs.exec_induction h
    (fun ls s => (s.snapshot ≠ .idle → s.snapshot ≠ .opened → ∃ pre mid, ls = pre ++ .lockMap :: mid) ∧
      (s.snapshot = .done → ∃ pre mid post, ls = pre ++ .lockMap :: (mid ++ .resetLog :: post)))
    (by simp [start]) fun ls s l s' ⟨ih₁, ih₂⟩ hs => ?_).2 hpc
  -- The step is one more of `mid`, or of `post`.
  have more (hpc : s'.snapshot ≠ .idle ∧ s'.snapshot ≠ .opened → s.snapshot ≠ .idle ∧ s.snapshot ≠ .opened)
      (hpc' : s'.snapshot = .done → s.snapshot = .done) :
      (s'.snapshot ≠ .idle → s'.snapshot ≠ .opened → ∃ pre mid, ls ++ [l] = pre ++ .lockMap :: mid) ∧
        (s'.snapshot = .done → ∃ pre mid post, ls ++ [l] = pre ++ .lockMap :: (mid ++ .resetLog :: post)) := by
    refine ⟨fun h₁ h₂ => ?_, fun hd => ?_⟩
    · obtain ⟨h₁, h₂⟩ := hpc ⟨h₁, h₂⟩
      obtain ⟨pre, mid, rfl⟩ := ih₁ h₁ h₂
      exact ⟨pre, mid ++ [l], by simp⟩
    · obtain ⟨pre, mid, post, rfl⟩ := ih₂ (hpc' hd)
      exact ⟨pre, mid, post ++ [l], by simp⟩
  cases l with
  | update t w | log t w | reply t w =>
    have hpc' := (step_ofHandler hs trivial).1
    exact more (by rw [hpc']; exact id) (by rw [hpc']; exact id)
  | openRdb => obtain ⟨-, rfl⟩ := step_openRdb.mp hs; exact more (by simp) (by simp)
  | lockMap => obtain ⟨-, rfl⟩ := step_lockMap.mp hs; exact ⟨fun _ _ => ⟨ls, [], rfl⟩, by simp⟩
  | writeEntry => obtain ⟨n, rest, hpc, rfl⟩ := step_writeEntry.mp hs; exact more (by simp [hpc]) (by simp)
  | unlockMap => obtain ⟨hpc, rfl⟩ := step_unlockMap.mp hs; exact more (by simp [hpc]) (by simp)
  | closeRdb => obtain ⟨hpc, rfl⟩ := step_closeRdb.mp hs; exact more (by simp [hpc]) (by simp)
  | resetLog =>
    obtain ⟨hpc, rfl⟩ := step_resetLog.mp hs
    obtain ⟨pre, mid, rfl⟩ := ih₁ (by simp [hpc]) (by simp [hpc])
    exact ⟨fun _ _ => ⟨pre, mid ++ [.resetLog], by simp⟩, fun _ => ⟨pre, mid, [], by simp⟩⟩

/-- The write that the one handler has made in the map and not in the log. -/
def pending (s : Threads Unit) : List Write :=
  match s.handlers () with
  | .updated w => [w]
  | _ => []

/-- One handler logs its writes in the order it makes them. -/
theorem pending_exec {s s' : Threads Unit} {ls : List (ThreadStep Unit)} (h : exec s ls = some s') :
    pending s ++ updated ls = logged ls ++ pending s' := by
  refine Runs.exec_induction h (fun ls s' => pending s ++ updated ls = logged ls ++ pending s')
    (by simp [updated, logged]) fun ls s₁ l s₂ ih hs => ?_
  rw [updated_append, logged_append, ← List.append_assoc, ih, List.append_assoc, List.append_assoc]
  congr 1
  cases l with
  | update t w => obtain ⟨⟨hi, -⟩, rfl⟩ := step_update.mp hs; simp [pending, hi]
  | log t w => obtain ⟨hu, rfl⟩ := step_log.mp hs; simp [pending, hu]
  | reply t w => obtain ⟨hr, rfl⟩ := step_reply.mp hs; simp [pending, hr]
  | openRdb | lockMap | writeEntry | unlockMap | closeRdb | resetLog =>
    simp [pending, (step_snapshot id hs).2, updated, logged]

/-- What is pending is in the map, and the last write there. -/
theorem applyAll_pending {st : Store} {s : Threads Unit} {ls : List (ThreadStep Unit)}
    (h : exec (start st) ls = some s) : applyAll (pending s) s.hashMap.contents = s.hashMap.contents := by
  refine Runs.exec_induction h (fun _ s => applyAll (pending s) s.hashMap.contents = s.hashMap.contents)
    (by simp [start, pending]) fun _ s l s' ih hs => ?_
  cases l with
  | update t w => obtain ⟨-, rfl⟩ := step_update.mp hs; simp [pending, applyAll, WriteLog.apply]
  | log t w => obtain ⟨-, rfl⟩ := step_log.mp hs; simp [pending]
  | reply t w => obtain ⟨-, rfl⟩ := step_reply.mp hs; simp [pending]
  | openRdb | lockMap | writeEntry | unlockMap | closeRdb | resetLog =>
    rw [pending, (step_snapshot id hs).2, (step_snapshot id hs).1]
    exact ih

/-- The schedule's snapshot does no harm: a key that no append after the
reset names is left, by the updates between the read and the reset, as the
read found it. -/
def SnapshotHarmless (st : Store) (ls : List (ThreadStep Unit)) : Prop :=
  ∀ pre mid post, ls = pre ++ .lockMap :: (mid ++ .resetLog :: post) →
    ∀ k, last k ((logged post).map Write.effect) = none →
      ∀ o, last k ((updated mid).map Write.effect) = some o → applyAll (updated pre) st.hashMap.contents k = o

/-- What a schedule whose parts are given leaves in the files and in the
map: the appends after the reset, over the map at the read, and over the map
at the reset. -/
theorem recovers_iff_of_split {st : Store} (hst : st.disk.Recovers st.hashMap.contents)
    {pre mid post : List (ThreadStep Unit)} {s : Threads Unit}
    (h : exec (start st) (pre ++ .lockMap :: (mid ++ .resetLog :: post)) = some s) (hq : s.Quiet) :
    let read := applyAll (updated pre) st.hashMap.contents
    s.disk.Recovers s.hashMap.contents ↔
      applyAll (logged post) read = applyAll (logged post) (applyAll (updated mid) read) := by
  intro read
  obtain ⟨s₁, h₁, h⟩ := Runs.exec_append.mp h
  obtain ⟨s₁', hlock, h⟩ := Runs.exec_cons_some.mp h
  obtain ⟨s₂, h₂, h⟩ := Runs.exec_append.mp h
  obtain ⟨s₂', hreset, h₃⟩ := Runs.exec_cons_some.mp h
  have hread : s₁.hashMap.contents = read := exec_contents h₁
  -- The snapshot file holds the map as the read found it.
  have hfile : s₂.disk.rdbBytes = snapshotBytes s₁.hashMap.nodes := by
    obtain ⟨hpc, rfl⟩ := step_lockMap.mp hlock
    have hs : Snapshots s₁.hashMap.nodes s₂ := Snapshots.exec (by simp [Snapshots, rdbBytes_of_opened h₁ hpc]) h₂
    obtain ⟨hpc₂, -⟩ := step_resetLog.mp hreset
    simpa [Snapshots, hpc₂] using hs
  have hmap : s₂.hashMap.contents = applyAll (updated mid) read := by
    obtain ⟨-, rfl⟩ := step_lockMap.mp hlock
    rw [exec_contents h₂, hread]
  have hpending : applyAll (pending s₂) s₂.hashMap.contents = s₂.hashMap.contents :=
    applyAll_pending (Runs.exec_append.mpr ⟨s₁, h₁, Runs.exec_cons_some.mpr ⟨s₁', hlock, h₂⟩⟩)
  obtain ⟨-, rfl⟩ := step_resetLog.mp hreset
  -- The log holds what was pending at the reset, and what was written since.
  have hlogged : logged post = pending s₂ ++ updated post := by
    have hp := pending_exec h₃
    have hnone : pending s = [] := by
      rw [pending]
      split
      · next w hw => exact absurd hw (hq () w)
      · rfl
    rw [hnone, List.append_nil] at hp
    exact hp.symm
  have hdisk := exec_disk (ofHandler_of_done h₃ rfl) h₃
  have hfinal : s.hashMap.contents = applyAll (logged post) (applyAll (updated mid) read) := by
    rw [exec_contents h₃, hlogged, applyAll_append, ← hmap, hpending]
  have hstorable : AllStorable s₁.hashMap.contents := hread ▸ hst.allStorable.applyAll (updated pre)
  rw [Disk.recovers_iff, hdisk, writes_logAll .nil, WriteLog.replay_append,
    hfinal, ← hread, ← replay_snapshotBytes hstorable, ← hfile]
  simp only [Disk.writes, Disk.rdbBytes_resetLog, Disk.aofBytes_resetLog]
  rw [show aofWrites [] = [] from rfl, List.append_nil]
  rfl

/-- **A snapshot concurrent with writes.** One handler at a time, one
snapshot, each in its steps, from files that recover to the map: when all
steps are done the files recover to the map exactly when the snapshot was
harmless. A write that is logged after the map was read and before the log
is reset is in neither file. -/
theorem concurrent_snapshot_iff {st : Store} (hst : st.disk.Recovers st.hashMap.contents)
    {ls : List (ThreadStep Unit)} {s : Threads Unit} (h : exec (start st) ls = some s) (hd : s.snapshot = .done)
    (hq : s.Quiet) : s.disk.Recovers s.hashMap.contents ↔ SnapshotHarmless st ls := by
  have hsplit : ∀ pre mid post, ls = pre ++ .lockMap :: (mid ++ .resetLog :: post) →
      (s.disk.Recovers s.hashMap.contents ↔ ∀ k, last k ((logged post).map Write.effect) = none →
        ∀ o, last k ((updated mid).map Write.effect) = some o →
          applyAll (updated pre) st.hashMap.contents k = o) := by
    rintro pre mid post rfl
    refine (recovers_iff_of_split hst h hq).trans (WriteLog.replay_eq_replay_iff.trans (forall₂_congr fun k _ => ?_))
    rw [applyAll.eq_1 (updated mid), WriteLog.replay_eq]
    cases last k ((updated mid).map Write.effect) with
    | none => simp
    | some o => simp
  constructor
  · intro hr pre mid post he
    exact (hsplit pre mid post he).mp hr
  · intro hh
    obtain ⟨pre, mid, post, he⟩ := split_of_done h hd
    exact (hsplit pre mid post he).mpr (hh pre mid post he)

/-- A write that is in the map when it is read, and logged while the entries
are written. -/
theorem concurrent_snapshot_example :
    let w := Write.insert (ascii "a") (ascii "1") (by decide) (by decide)
    let st := Store.onDisk ⟨none, none⟩ 100 (by decide)
    let ls := [.update () w, .openRdb, .lockMap, .log () w, .writeEntry, .unlockMap, .reply () w, .closeRdb, .resetLog]
    ∃ s, exec (start st) ls = some s ∧ s.disk.Recovers s.hashMap.contents := by
  intro w st ls
  have h : exec (start st) ls = some _ := rfl
  refine ⟨_, h, (concurrent_snapshot_iff (Store.durable_onDisk rfl rfl 100 (by decide)).recovers h rfl ?_).mpr ?_⟩
  · simp [Quiet, Function.update]
  -- no write is made between the read and the reset
  rintro pre mid post he k - o ho
  have hmid : updated mid = [] := by
    rcases pre with _ | ⟨l₀, _ | ⟨l₁, _ | ⟨l₂, pre⟩⟩⟩
    all_goals
      simp only [ls, List.cons_append, List.nil_append, List.cons.injEq, reduceCtorEq, false_and, and_false] at he
    · obtain ⟨-, -, -, he⟩ := he
      have hnone : updated (mid ++ .resetLog :: post) = [] := he ▸ rfl
      rw [updated, List.filterMap_append] at hnone
      exact (List.append_eq_nil_iff.mp hnone).1
    · obtain ⟨-, -, -, he⟩ := he
      have hlock : .lockMap ∈ pre ++ .lockMap :: (mid ++ .resetLog :: post) := by simp
      rw [← he] at hlock
      simp at hlock
  rw [hmid] at ho
  cases ho

/-- A write acknowledged between the read and the reset: it is in neither
file. -/
theorem concurrent_snapshot_loses :
    let w := Write.insert (ascii "a") (ascii "1") (by decide) (by decide)
    let st := Store.onDisk ⟨none, none⟩ 100 (by decide)
    let ls := [.openRdb, .lockMap, .unlockMap, .update () w, .log () w, .reply () w, .closeRdb, .resetLog]
    st.disk.Recovers st.hashMap.contents ∧ ∃ s, exec (start st) ls = some s ∧ s.snapshot = .done ∧ s.Quiet ∧
      ¬ s.disk.Recovers s.hashMap.contents := by
  intro w st ls
  have h : exec (start st) ls = some _ := rfl
  refine ⟨(Store.durable_onDisk rfl rfl 100 (by decide)).recovers, _, h, rfl, ?_, fun hr => ?_⟩
  · simp [Quiet, Function.update]
  · rw [Disk.recovers_iff, exec_contents h] at hr
    exact absurd (congrFun hr (ascii "a")) (by decide)

end Threads

end KvDatabase
