/-
Serial durability: a server that handles one message at a time, takes
snapshots and is restarted cleanly, in any order, always has files that
recover to the map it serves.

The invariant ties the three representations together (`Store.Durable`): the
files recover to the table's map, and the log ends where a line ends, so the
next line appended to it is a line of its own.
-/
import KvDatabase.Handler

namespace KvDatabase

/-- What happens to a server between two messages. -/
inductive Operation
  /-- A message reaches the parser. -/
  | message (bytes : Bytes)
  | snapshot
  /-- A clean restart, the fresh table of any capacity. -/
  | restart (capacity : Nat) (pos : 0 < capacity)

def Store.operate (st : Store) : Operation → Store
  | .message bytes => ((parse bytes).execute st).1
  | .snapshot => { st with disk := st.disk.createSnapshot st.hashMap }
  | .restart capacity pos =>
    let disk := st.disk.openLog
    { hashMap := loadDataOnStartup disk (.empty capacity pos), disk }

/-- A server started on a disk: the log opened, the table empty. -/
def Store.onDisk (d : Disk) (capacity : Nat) (pos : 0 < capacity) : Store :=
  { hashMap := .empty capacity pos, disk := d.openLog }

def Store.run (st : Store) (ops : List Operation) : Store := ops.foldl Store.operate st

/-- The files recover to the map, and the log can be appended to. -/
structure Store.Durable (st : Store) : Prop where
  recovers : st.disk.Recovers st.hashMap.contents
  terminated : Terminated st.disk.aofBytes

@[simp] theorem Disk.writes_openLog (d : Disk) : d.openLog.writes = d.writes := rfl

theorem Disk.Recovers.openLog {d : Disk} {m : Bytes → Option Bytes} (h : d.Recovers m) : d.openLog.Recovers m := by
  rw [Disk.recovers_iff, Disk.writes_openLog]
  exact Disk.recovers_iff.mp h

/-- A write keeps the files and the map together. -/
theorem Store.Durable.write {st : Store} (h : st.Durable) (w : Write) : (st.write w).Durable := by
  have hw : (w.log st.disk).writes = st.disk.writes ++ [w.effect] := writes_logAll h.terminated [w]
  refine ⟨?_, ?_⟩
  · have hr := Disk.recovers_iff.mp h.recovers
    rw [Disk.recovers_iff, Store.write, hw, WriteLog.replay_append, hr]
    simp
  · simpa [Store.write] using h.terminated.append w.terminated_record

theorem Store.Durable.snapshot {st : Store} (h : st.Durable) : (st.operate .snapshot).Durable where
  recovers := createSnapshot_recovers h.recovers.allStorable st.disk
  terminated := by simp [Store.operate, createSnapshot_eq, Disk.aofBytes, Text.Terminated]

theorem Store.Durable.restart {st : Store} (h : st.Durable) (capacity pos) :
    (st.operate (.restart capacity pos)).Durable where
  recovers := by
    have hr : st.disk.openLog.Recovers st.hashMap.contents := h.recovers.openLog
    rw [Store.operate, hr capacity pos]
    exact hr
  terminated := h.terminated

/-- Every operation keeps the invariant. -/
theorem Store.Durable.operate {st : Store} (h : st.Durable) (op : Operation) : (st.operate op).Durable := by
  cases op with
  | message bytes =>
    rcases execute_cases st bytes with he | ⟨w, he⟩
    · rw [Store.operate, he]; exact h
    · rw [Store.operate, he]; exact h.write w
  | snapshot => exact h.snapshot
  | restart capacity pos => exact h.restart capacity pos

theorem Store.Durable.run {st : Store} (h : st.Durable) (ops : List Operation) : (st.run ops).Durable := by
  induction ops generalizing st with
  | nil => exact h
  | cons op ops ih => exact ih (h.operate op)

/-- A server on empty files starts out durable. -/
theorem Store.durable_onDisk {d : Disk} (hr : d.rdbBytes = []) (ha : d.aofBytes = []) (capacity pos) :
    (Store.onDisk d capacity pos).Durable where
  recovers := by
    rw [Disk.recovers_iff, Store.onDisk, Disk.writes_openLog, Disk.writes, hr, ha]
    rfl
  terminated := by simp [Store.onDisk, Disk.openLog, Disk.aofBytes] at ha ⊢; simp [ha, Text.Terminated]

/-- **Serial durability.** From empty files and an empty table, after any
messages (whatever their bytes), snapshots and clean restarts, in any order,
loading the files into an empty table of any capacity gives the map the
server holds. -/
theorem serial_durability {d : Disk} (hr : d.rdbBytes = []) (ha : d.aofBytes = []) (capacity : Nat)
    (pos : 0 < capacity) (ops : List Operation) :
    ((Store.onDisk d capacity pos).run ops).disk.Recovers ((Store.onDisk d capacity pos).run ops).hashMap.contents :=
  ((Store.durable_onDisk hr ha capacity pos).run ops).recovers

theorem serial_durability_example :
    let ops : List Operation := [.message (ascii "INSERT a 1\n"), .message (ascii "DELETE\n"), .snapshot,
      .message (ascii "INSERT b 2 rest\nDELETE a\n"), .restart 7 (by decide), .message (ascii "DELETE a\n")]
    let st := (Store.onDisk ⟨none, none⟩ 100 (by decide)).run ops
    st.disk.Recovers st.hashMap.contents :=
  serial_durability (d := ⟨none, none⟩) rfl rfl 100 (by decide) _

end KvDatabase
