/-
The writes a handler makes, each in two steps: the map update, then the
line appended to the log.

`Write` has only what the INSERT and DELETE branches of `messageHandler` can
be reached with, so a line they log always reads back as the same write
(`Write.aofWrite_line`), and a log of them, appended to a file that ends
where a line ends, replays as them (`writes_logAll`).
-/
import KvDatabase.Persistence

namespace KvDatabase

open WriteLog (replay)

/-- A write of the handler. An INSERT that is not refused has a value, so
its key was read too; a DELETE may have no key, and removes the empty one. -/
inductive Write
  | insert (key value : Bytes) (hk : IsWord key) (hv : IsWord value)
  | delete (key : Bytes) (hk : BlankFree key)
deriving DecidableEq

namespace Write

/-- The arguments of its `appendToLog`. -/
def command : Write → Bytes
  | insert _ _ _ _ => INSERT
  | delete _ _ => DELETE

def key : Write → Bytes
  | insert key _ _ _ => key
  | delete key _ => key

def value : Write → Bytes
  | insert _ value _ _ => value
  | delete _ _ => []

/-- The first step, under the map's lock. -/
def update : Write → HashMap → HashMap
  | insert key value _ _, hashMap => hashMap.insert key value
  | delete key _, hashMap => hashMap.remove key

/-- The second step, under the log's lock. -/
def log (w : Write) (d : Disk) : Disk := d.appendToLog w.command w.key w.value

/-- The line the second step appends. -/
def line (w : Write) : Bytes := lineOf w.command w.key w.value

/-- The same with its newline. -/
def record (w : Write) : Bytes := KvDatabase.record w.command w.key w.value

/-- What the write leaves at its key. -/
def effect : Write → Bytes × Option Bytes
  | insert key value _ _ => (key, some value)
  | delete key _ => (key, none)

@[simp] theorem contents_update (w : Write) (h : HashMap) :
    (w.update h).contents = WriteLog.apply h.contents w.effect := by
  cases w <;> simp [update, effect]

@[simp] theorem aofBytes_log (w : Write) (d : Disk) : (w.log d).aofBytes = d.aofBytes ++ w.record := rfl

@[simp] theorem rdbBytes_log (w : Write) (d : Disk) : (w.log d).rdbBytes = d.rdbBytes := rfl

@[simp] theorem effect_fst (w : Write) : w.effect.1 = w.key := by cases w <;> rfl

theorem contents_update_self (w : Write) (h : HashMap) : (w.update h).contents w.key = w.effect.2 := by
  rw [contents_update, WriteLog.apply, effect_fst, Function.update_self]

theorem contents_update_of_ne {w : Write} {k : Bytes} (hk : k ≠ w.key) (h : HashMap) :
    (w.update h).contents k = h.contents k := by
  rw [contents_update, WriteLog.apply, effect_fst, Function.update_of_ne hk]

theorem isWord_command (w : Write) : IsWord w.command := by
  cases w with
  | insert => exact isWord_INSERT
  | delete => exact isWord_DELETE

theorem storable (w : Write) : Storable w.key w.value := by
  cases w with
  | insert key value hk hv => exact .of_words hk hv
  | delete key hk => exact ⟨hk, by simp [value, Text.BlankFree], fun _ => rfl⟩

theorem terminated_record (w : Write) : Terminated w.record := .append_sep w.line

theorem newline_not_mem_line (w : Write) : newline ∉ w.line :=
  newline_not_mem_lineOf w.isWord_command.2 w.storable.1 w.storable.2.1

/-- A logged line reads back as the write that logged it. -/
theorem aofWrite_line (w : Write) : aofWrite w.line = w.effect := by
  cases w with
  | insert key value hk hv => exact aofWrite_insert (.of_words hk hv)
  | delete key hk => exact aofWrite_delete hk

/-- A write leaves a map of storable entries. -/
theorem allStorable_apply (w : Write) {m : Bytes → Option Bytes} (hm : AllStorable m) :
    AllStorable (WriteLog.apply m w.effect) := by
  refine hm.apply fun v hv => ?_
  cases w with
  | insert key value hkey hval =>
    simp only [effect, Option.some.injEq] at hv
    exact hv ▸ .of_words hkey hval
  | delete key hkey => cases hv

end Write

/-- The bytes that logging these writes appends. -/
def logOf (ws : List Write) : Bytes := ws.flatMap Write.record

/-- The second steps of these writes, in order. -/
def logAll (ws : List Write) (d : Disk) : Disk := ws.foldl (fun d w => w.log d) d

/-- What these writes do to a map. -/
def applyAll (ws : List Write) (m : Bytes → Option Bytes) : Bytes → Option Bytes := replay (ws.map Write.effect) m

@[simp] theorem applyAll_nil (m : Bytes → Option Bytes) : applyAll [] m = m := rfl

theorem applyAll_append (xs ys : List Write) (m : Bytes → Option Bytes) :
    applyAll (xs ++ ys) m = applyAll ys (applyAll xs m) := by
  rw [applyAll, List.map_append, WriteLog.replay_append]; rfl

theorem AllStorable.applyAll {m : Bytes → Option Bytes} (hm : AllStorable m) (ws : List Write) :
    AllStorable (applyAll ws m) := by
  induction ws generalizing m with
  | nil => exact hm
  | cons w ws ih => exact ih (w.allStorable_apply hm)

theorem logAll_append (xs ys : List Write) (d : Disk) : logAll (xs ++ ys) d = logAll ys (logAll xs d) :=
  List.foldl_append

theorem terminated_logOf (ws : List Write) : Terminated (logOf ws) := by
  induction ws with
  | nil => exact .nil
  | cons w ws ih => exact Text.Terminated.append w.terminated_record ih

theorem aofWrites_append {file : Bytes} (h : Terminated file) (more : Bytes) :
    aofWrites (file ++ more) = aofWrites file ++ aofWrites more := by
  rw [aofWrites, getlines, Text.records_append h, List.map_append]; rfl

theorem aofWrites_record (w : Write) : aofWrites w.record = [w.effect] := by
  have h := getlines_record w.isWord_command.2 w.storable.1 w.storable.2.1 []
  rw [List.append_nil] at h
  rw [aofWrites, Write.record, h, List.map_cons, ← w.aofWrite_line]
  rfl

theorem aofWrites_logOf (ws : List Write) : aofWrites (logOf ws) = ws.map Write.effect := by
  induction ws with
  | nil => rfl
  | cons w ws ih =>
    rw [logOf, List.flatMap_cons, aofWrites_append w.terminated_record, aofWrites_record, List.map_cons, ← ih]
    rfl

@[simp] theorem aofBytes_logAll (ws : List Write) (d : Disk) : (logAll ws d).aofBytes = d.aofBytes ++ logOf ws := by
  induction ws generalizing d with
  | nil => simp [logAll, logOf]
  | cons w ws ih =>
    rw [logAll, List.foldl_cons, ← logAll, ih, Write.aofBytes_log, List.append_assoc]
    rfl

@[simp] theorem rdbBytes_logAll (ws : List Write) (d : Disk) : (logAll ws d).rdbBytes = d.rdbBytes := by
  induction ws generalizing d with
  | nil => rfl
  | cons w ws ih => rw [logAll, List.foldl_cons, ← logAll, ih, Write.rdbBytes_log]

/-- Writes appended to a log that ends where a line ends are replayed after
what the files held. -/
theorem writes_logAll {d : Disk} (h : Terminated d.aofBytes) (ws : List Write) :
    (logAll ws d).writes = d.writes ++ ws.map Write.effect := by
  rw [Disk.writes, rdbBytes_logAll, aofBytes_logAll, aofWrites_append h, aofWrites_logOf, ← List.append_assoc]; rfl

end KvDatabase
