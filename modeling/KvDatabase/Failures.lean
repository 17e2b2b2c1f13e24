/-
File operations that fail.

A stream tells of a failed write by its state alone, and nothing here looks
at the state: a command is answered though its line was not written, and the
log is emptied though the snapshot was not. What throws (no snapshot file, no
resize, no reopening) ends the process, and does no harm. So what was
answered is kept as long as no line fails to reach its file
(`answered_kept`), and not always otherwise (`answered_kept_fails`).
-/
import KvDatabase.Durability
import KvDatabase.Lib.Runs

namespace KvDatabase

open WriteLog (replay)

/-! ## Streams -/

/-- A `std::ofstream`: whether it has a file, its state, and what a failed
write has left in its buffer. -/
structure OutStream where
  isOpen : Bool
  good : Bool
  buffer : Bytes

namespace OutStream

/-- After `open`, which clears the state. -/
def fresh : OutStream := ⟨true, true, []⟩

/-- `<< line << std::endl`: all of it reaches the file, or the write fails
and only `n` bytes do. A stream that is not good writes nothing. -/
def write (stream : OutStream) (file line : Bytes) (fails : Option Nat) : OutStream × Bytes :=
  if stream.isOpen && stream.good then
    match fails with
    | none => (stream, file ++ line)
    | some n => ({ stream with good := false, buffer := line }, file ++ line.take n)
  else ({ stream with good := false }, file)

/-- `close` tries once more to write what is in the buffer. -/
def close (stream : OutStream) (file : Bytes) (late : Nat) : OutStream × Bytes :=
  ({ stream with isOpen := false, buffer := [] }, file ++ stream.buffer.take late)

@[simp] theorem write_fresh (file line : Bytes) : fresh.write file line none = (fresh, file ++ line) := rfl

@[simp] theorem close_fresh (file : Bytes) (late : Nat) : (fresh.close file late).2 = file := by
  simp [close, fresh]

end OutStream

/-! ## The server -/

/-- What fails in one `createSnapshot`. -/
structure SnapshotFailures where
  openRdb : Bool
  /-- Which of the snapshot's lines, and how much of it is written. -/
  rdbLine : Nat → Option Nat
  lateRdb : Nat
  /-- Closing the snapshot, and how much of the file is kept. -/
  closeRdb : Option Nat
  lateAof : Nat
  resizeAof : Bool
  reopenAof : Bool

/-- A write answered as successful, and whether its line reached the log. -/
structure Answer where
  effect : Bytes × Option Bytes
  logged : Bool

/-- The snapshot file and the map, when the log was emptied. -/
structure Reset where
  rdb : Bytes
  hashMap : HashMap

structure FailingServer where
  store : Store
  aofStream : OutStream
  /-- No exception has ended the process. -/
  running : Bool
  answered : List Answer
  resets : List Reset

namespace FailingServer

/-- Started on these files, and loaded. -/
def start (d : Disk) (capacity : Nat) (pos : 0 < capacity) : FailingServer where
  store := { hashMap := loadDataOnStartup d.openLog (.empty capacity pos), disk := d.openLog }
  aofStream := .fresh
  running := true
  answered := []
  resets := []

/-- The INSERT and DELETE branches of `messageHandler`: the update, the log,
the reply. -/
def write (s : FailingServer) (w : Write) (fails : Option Nat) : FailingServer :=
  let hashMap := w.update s.store.hashMap
  let (aofStream, aof) := s.aofStream.write s.store.disk.aofBytes w.record fails
  { s with
    store := { hashMap, disk := { s.store.disk with aof := some aof } }
    aofStream
    answered := s.answered ++ [⟨w.effect, aof = s.store.disk.aofBytes ++ w.record⟩] }

/-- The `forEach` callback; the lines are counted. -/
def writeRdbLine (rdbLine : Nat → Option Nat) (written : OutStream × Bytes × Nat) (key value : Bytes) :
    OutStream × Bytes × Nat :=
  let (stream, file, i) := written
  let (stream, file) := stream.write file (record INSERT key value) (rdbLine i)
  (stream, file, i + 1)

/-- Nothing in `SnapshotScheduler::run` catches what it throws. -/
def createSnapshot (s : FailingServer) (f : SnapshotFailures) : FailingServer :=
  if f.openRdb then { s with running := false }
  else
    let (rdbStream, rdb, _) := s.store.hashMap.forEach (writeRdbLine f.rdbLine) (.fresh, [], 0)
    let (_, rdb) := rdbStream.close rdb f.lateRdb
    let rdb := match f.closeRdb with
      | some n => rdb.take n
      | none => rdb
    let (aofStream, aof) := s.aofStream.close s.store.disk.aofBytes f.lateAof
    if f.resizeAof then
      { s with store := { s.store with disk := ⟨some rdb, some aof⟩ }, aofStream, running := false }
    else
      let s : FailingServer := { s with
        store := { s.store with disk := ⟨some rdb, some []⟩ }
        resets := s.resets ++ [⟨rdb, s.store.hashMap⟩] }
      if f.reopenAof then { s with aofStream, running := false } else { s with aofStream := .fresh }

end FailingServer

inductive FailingStep
  | write (w : Write) (fails : Option Nat)
  | snapshot (f : SnapshotFailures)

namespace FailingServer

variable {s s' : FailingServer} {m : Bytes → Option Bytes}

def step (s : FailingServer) (l : FailingStep) : Option FailingServer :=
  if s.running then
    match l with
    | .write w fails => some (s.write w fails)
    | .snapshot f => some (s.createSnapshot f)
  else none

/-- What was answered is in the files, over the map `m` they held before: its
line was written, and the log was emptied for a whole snapshot only. -/
structure Kept (m : Bytes → Option Bytes) (s : FailingServer) : Prop where
  recovers : s.store.disk.Recovers (replay (s.answered.map Answer.effect) m)
  logged : ∀ a ∈ s.answered, a.logged = true
  complete : ∀ r ∈ s.resets, (⟨some r.rdb, none⟩ : Disk).Recovers r.hashMap.contents

/-- Every line reaches its file. -/
def LinesWritten (s : FailingServer) : FailingStep → Prop
  | .write _ fails => fails = none
  | .snapshot f => f.openRdb = false →
      (∀ i < s.store.hashMap.nodes.length, f.rdbLine i = none) ∧ f.closeRdb = none

/-! ## Lines that are written -/

theorem foldl_writeRdbLine {rdbLine : Nat → Option Nat} (nodes : List Node) (file : Bytes) (i : Nat)
    (h : ∀ j, i ≤ j → j < i + nodes.length → rdbLine j = none) :
    nodes.foldl (fun written n => writeRdbLine rdbLine written n.key n.value) (.fresh, file, i) =
      (.fresh, file ++ snapshotBytes nodes, i + nodes.length) := by
  induction nodes generalizing file i with
  | nil => simp [snapshotBytes]
  | cons n nodes ih =>
    have hi : rdbLine i = none := h i le_rfl (by simp)
    rw [List.foldl_cons, writeRdbLine, hi, OutStream.write_fresh, ih]
    · simp only [snapshotBytes, List.flatMap_cons, List.append_assoc, List.length_cons]
      congr 2
      omega
    · intro j hij hj
      rw [List.length_cons] at h
      exact h j (by omega) (by omega)

/-- A snapshot whose lines are written is whole. -/
theorem forEach_writeRdbLine {h : HashMap} {rdbLine : Nat → Option Nat}
    (hl : ∀ i < h.nodes.length, rdbLine i = none) :
    h.forEach (writeRdbLine rdbLine) (.fresh, [], 0) = (.fresh, snapshotBytes h.nodes, h.nodes.length) := by
  have hf := foldl_writeRdbLine h.nodes [] 0 fun j _ hj => hl j (by omega)
  rw [List.nil_append, Nat.zero_add] at hf
  exact hf

/-- While the log is not emptied yet, its lines are replayed over the
snapshot of the map they led to. -/
theorem recovers_before_reset {st : Store} (h : st.Durable) :
    (⟨some (snapshotBytes st.hashMap.nodes), some st.disk.aofBytes⟩ : Disk).Recovers st.hashMap.contents := by
  have hm := Disk.recovers_iff.mp h.recovers
  rw [Disk.writes, WriteLog.replay_append] at hm
  rw [Disk.recovers_iff, Disk.writes, WriteLog.replay_append]
  change replay (aofWrites st.disk.aofBytes) (replay (rdbWrites (snapshotBytes st.hashMap.nodes)) _) = _
  rw [replay_snapshotBytes h.recovers.allStorable]
  calc replay (aofWrites st.disk.aofBytes) st.hashMap.contents
      = replay (aofWrites st.disk.aofBytes) (replay (aofWrites st.disk.aofBytes)
          (replay (rdbWrites st.disk.rdbBytes) fun _ => none)) := by rw [hm]
    _ = st.hashMap.contents := by rw [WriteLog.replay_replay, hm]

/-! ## The run -/

/-- What was answered is kept, and a running server can go on. -/
structure Sound (m : Bytes → Option Bytes) (s : FailingServer) : Prop where
  kept : s.Kept m
  running : s.running = true → s.aofStream = .fresh ∧ s.store.Durable ∧
    s.store.hashMap.contents = replay (s.answered.map Answer.effect) m

theorem Sound.start {d : Disk} (ht : Terminated d.aofBytes) (capacity : Nat) (pos : 0 < capacity) :
    Sound (loadDataOnStartup d (.empty capacity pos)).contents (start d capacity pos) := by
  have hr : d.openLog.Recovers (loadDataOnStartup d (.empty capacity pos)).contents :=
    (d.recovers_load capacity pos).openLog
  have hload : (loadDataOnStartup d.openLog (.empty capacity pos)).contents =
      (loadDataOnStartup d (.empty capacity pos)).contents := hr capacity pos
  refine ⟨⟨hr, by simp [FailingServer.start], by simp [FailingServer.start]⟩, fun _ => ⟨rfl, ⟨?_, ht⟩, hload⟩⟩
  change d.openLog.Recovers (loadDataOnStartup d.openLog (.empty capacity pos)).contents
  rw [hload]
  exact hr

/-- A line that is written makes the write's two steps. -/
theorem Sound.write (h : s.Sound m) (hrun : s.running = true) (w : Write) : (s.write w none).Sound m := by
  obtain ⟨hstream, hdurable, hmap⟩ := h.running hrun
  have hw : (s.write w none) = { s with
      store := s.store.write w
      answered := s.answered ++ [⟨w.effect, true⟩] } := by
    simp only [FailingServer.write, hstream, OutStream.write_fresh, decide_true]
    rfl
  have hmap' : (s.store.write w).hashMap.contents =
      replay ((s.answered ++ [Answer.mk w.effect true]).map Answer.effect) m := by
    rw [List.map_append, WriteLog.replay_append, ← hmap]
    exact w.contents_update s.store.hashMap
  rw [hw]
  refine ⟨⟨hmap' ▸ (hdurable.write w).recovers, fun a ha => ?_, h.kept.complete⟩,
    fun _ => ⟨hstream, hdurable.write w, hmap'⟩⟩
  rcases List.mem_append.mp ha with ha | ha
  · exact h.kept.logged a ha
  · rw [List.mem_singleton.mp ha]

theorem Sound.createSnapshot (h : s.Sound m) (hrun : s.running = true) {f : SnapshotFailures}
    (hf : s.LinesWritten (.snapshot f)) : (s.createSnapshot f).Sound m := by
  obtain ⟨hstream, hdurable, hmap⟩ := h.running hrun
  have hs := hdurable.recovers.allStorable
  unfold FailingServer.createSnapshot
  split
  · exact ⟨{ h.kept with }, fun hr => by cases hr⟩
  · next hopen =>
    obtain ⟨hlines, hclose⟩ := hf (by simpa using hopen)
    simp only [forEach_writeRdbLine hlines, OutStream.close_fresh, hclose, hstream]
    split
    · -- not resized: the process ends, with the whole log over the snapshot
      exact ⟨⟨hmap ▸ recovers_before_reset hdurable, h.kept.logged, h.kept.complete⟩, fun hr => by cases hr⟩
    · have hempty : (⟨some (snapshotBytes s.store.hashMap.nodes), some []⟩ : Disk).Recovers s.store.hashMap.contents := by
        have hr := createSnapshot_recovers hs s.store.disk
        rwa [createSnapshot_eq] at hr
      have hresets : ∀ r ∈ s.resets ++ [Reset.mk (snapshotBytes s.store.hashMap.nodes) s.store.hashMap],
          (⟨some r.rdb, none⟩ : Disk).Recovers r.hashMap.contents := by
        intro r hr
        rcases List.mem_append.mp hr with hr | hr
        · exact h.kept.complete r hr
        · rw [List.mem_singleton.mp hr]
          exact hempty
      split
      · exact ⟨⟨hmap ▸ hempty, h.kept.logged, hresets⟩, fun hr => by cases hr⟩
      · exact ⟨⟨hmap ▸ hempty, h.kept.logged, hresets⟩, fun _ => ⟨rfl, ⟨hempty, by simp [Disk.aofBytes, Text.Terminated]⟩, hmap⟩⟩

theorem Sound.step (h : s.Sound m) {l : FailingStep} (hc : s.LinesWritten l) (hs : s.step l = some s') :
    s'.Sound m := by
  unfold FailingServer.step at hs
  split at hs
  · next hrun =>
    cases l with
    | write w fails =>
      obtain rfl : fails = none := hc
      cases hs
      exact h.write hrun w
    | snapshot f =>
      cases hs
      exact h.createSnapshot hrun hc
  · cases hs

/-- **What was answered is kept**, in every run in which each line reaches its
file, whatever else fails: from files whose log ends where a line ends, after
any writes and snapshots, the files recover to what was answered, over what
they held at the start; every line answered for was written, and the log was
emptied only when the snapshot had every entry of the map. -/
theorem answered_kept {d : Disk} (ht : Terminated d.aofBytes) (capacity : Nat) (pos : 0 < capacity)
    (h : Runs.Reach step LinesWritten (start d capacity pos) s) :
    s.Kept (loadDataOnStartup d (.empty capacity pos)).contents :=
  (h.invariant (Sound _) (.start ht capacity pos) fun _ _ _ hi hc hs => hi.step hc hs).kept

/-- The log cannot be resized after a snapshot, and the process ends. -/
theorem answered_kept_example :
    ∃ s, Runs.Reach step LinesWritten (start ⟨none, none⟩ 2 (by decide)) s ∧ s.running = false ∧
      s.answered.length = 2 ∧ s.Kept (loadDataOnStartup ⟨none, none⟩ (.empty 2 (by decide))).contents := by
  let f : SnapshotFailures := ⟨false, fun _ => none, 0, none, 0, true, false⟩
  let ls : List FailingStep := [.write (.insert (ascii "a") (ascii "1") (by decide) (by decide)) none,
    .write (.delete (ascii "a") (by decide)) none, .snapshot f]
  have h : Runs.Reach step LinesWritten (start ⟨none, none⟩ 2 (by decide)) _ :=
    Runs.Reach.start.exec ls rfl (by simp [ls, f, LinesWritten])
  exact ⟨_, h, rfl, rfl, answered_kept (by simp [Disk.aofBytes, Text.Terminated]) 2 (by decide) h⟩

/-- The disk is full: the line of an answered write is not written, or the
line of a snapshot is not, and the log is emptied. -/
theorem answered_kept_fails :
    let w : Write := .insert (ascii "a") (ascii "1") (by decide) (by decide)
    let full : SnapshotFailures := ⟨false, fun _ => some 0, 0, none, 0, false, false⟩
    let s₀ := start ⟨none, none⟩ 2 (by decide)
    let m := (loadDataOnStartup ⟨none, none⟩ (.empty 2 (by decide))).contents
    (∃ s, Runs.exec step s₀ [.write w (some 0)] = some s ∧ ¬s.Kept m) ∧
      ∃ s, Runs.exec step s₀ [.write w none, .snapshot full] = some s ∧ ¬s.Kept m := by
  refine ⟨⟨_, rfl, fun h => ?_⟩, _, rfl, fun h => ?_⟩
  · exact absurd (congrFun (Disk.recovers_iff.mp h.recovers) (ascii "a")) (by decide)
  · exact absurd (congrFun (Disk.recovers_iff.mp h.recovers) (ascii "a")) (by decide)

end FailingServer

end KvDatabase
