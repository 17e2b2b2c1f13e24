/-
The load at startup, with the snapshot thread already running.

The constructor starts the scheduler, and `start` loads afterwards, a line at
a time. A tick in between writes the map as far as it is loaded over the
snapshot file and empties the log, both of which the load is still reading.
It does no harm only if it comes when the map is complete already, and what
is then left to read changes nothing (`load_survives_ticks`); any other tick,
when it is the last, loses something (`last_tick_iff`).
-/
import KvDatabase.Durability
import KvDatabase.Lib.Runs

namespace KvDatabase

open WriteLog (replay last)

/-- A `std::ifstream`: how far the file was read, and what was read of it and
not taken yet. -/
structure Reader where
  offset : Nat
  buffer : Bytes

namespace Reader

def opened : Reader := ⟨0, []⟩

/-- A `read` of at most `n` bytes into the buffer. -/
def fill (r : Reader) (file : Bytes) (n : Nat) : Reader :=
  let chunk := (file.drop r.offset).take n
  ⟨r.offset + chunk.length, r.buffer ++ chunk⟩

/-- `getline`, when there is a whole line in the buffer. -/
def getline (r : Reader) : Option (Bytes × Reader) :=
  if newline ∈ r.buffer then
    some (r.buffer.takeWhile (· ≠ newline), { r with buffer := (r.buffer.dropWhile (· ≠ newline)).tail })
  else none

/-- What it has still to give, if the file stays as it is. -/
def rest (r : Reader) (file : Bytes) : Bytes := r.buffer ++ file.drop r.offset

/-- Nothing is left to read, and no whole line to take. -/
def AtEnd (r : Reader) (file : Bytes) : Prop := file.length ≤ r.offset ∧ newline ∉ r.buffer

instance (r : Reader) (file : Bytes) : Decidable (r.AtEnd file) := inferInstanceAs (Decidable (_ ∧ _))

theorem rest_fill (r : Reader) (file : Bytes) (n : Nat) : (r.fill file n).rest file = r.rest file := by
  have hd : file.drop (r.offset + ((file.drop r.offset).take n).length) = (file.drop r.offset).drop n := by
    rw [← List.drop_drop, List.length_take]
    by_cases hn : n ≤ (file.drop r.offset).length
    · rw [Nat.min_eq_left hn]
    · rw [Nat.min_eq_right (by omega), List.drop_length, List.drop_of_length_le (by omega)]
  rw [rest, rest, fill, hd, List.append_assoc, List.take_append_drop]

/-- The line it gives is the next one of what it has to give. -/
theorem getline_eq_some {r r' : Reader} {line : Bytes} (h : r.getline = some (line, r')) :
    newline ∉ line ∧ r'.offset = r.offset ∧ r.buffer = line ++ newline :: r'.buffer := by
  unfold getline at h
  split at h
  · next hm =>
    simp only [Option.some.injEq, Prod.mk.injEq] at h
    obtain ⟨rfl, rfl⟩ := h
    refine ⟨fun hl => ?_, rfl, ?_⟩
    · simpa using List.mem_takeWhile_imp hl
    · have hne : r.buffer.dropWhile (· ≠ newline) ≠ [] := by
        intro he
        rw [List.dropWhile_eq_nil_iff] at he
        simpa using he newline hm
      have hhead : (r.buffer.dropWhile (· ≠ newline)).head hne = newline := by
        simpa using List.head_dropWhile_not (· ≠ newline) hne
      calc r.buffer = r.buffer.takeWhile (· ≠ newline) ++ r.buffer.dropWhile (· ≠ newline) :=
            (List.takeWhile_append_dropWhile).symm
        _ = _ := by rw [← List.cons_head_tail hne, hhead]; rfl
  · cases h

theorem getlines_rest {r r' : Reader} {line : Bytes} (h : r.getline = some (line, r')) (file : Bytes) :
    getlines (r.rest file) = line :: getlines (r'.rest file) := by
  obtain ⟨hl, ho, hb⟩ := getline_eq_some h
  rw [rest, hb, List.append_assoc, List.cons_append, rest, ho]
  exact Text.records_record hl _

/-- At the end of the file, the rest is a line without its newline, or
nothing. -/
theorem getlines_atEnd {r : Reader} {file : Bytes} (h : r.AtEnd file) :
    getlines (r.rest file) = if r.buffer = [] then [] else [r.buffer] := by
  rw [rest, List.drop_of_length_le h.1, List.append_nil]
  split
  · next he => rw [he]; rfl
  · next hne => exact Text.records_tail h.2 hne

end Reader

/-! ## The load -/

/-- Where `loadDataOnStartup` is. -/
inductive LoadPc
  | begin
  | rdb (r : Reader)
  /-- The snapshot is read, or there is none. -/
  | between
  | aof (r : Reader)
  | done

structure StartingServer where
  disk : Disk
  hashMap : HashMap
  pc : LoadPc

inductive LoadStep
  | openRdb
  | openAof
  /-- The stream reads at most `n` bytes into its buffer. -/
  | fill (n : Nat)
  /-- A line is taken, and inserted or removed. -/
  | line
  /-- The stream finds the end of the file; what is in its buffer is the last
  line. -/
  | eof
  /-- `createSnapshot`, in the scheduler's thread. -/
  | tick

namespace StartingServer

variable {s s' : StartingServer} {m : Bytes → Option Bytes}

/-- The constructor is through: the log is opened, the scheduler started. -/
def start (d : Disk) (capacity : Nat) (pos : 0 < capacity) : StartingServer where
  disk := d.openLog
  hashMap := .empty capacity pos
  pc := .begin

def tick (s : StartingServer) : StartingServer := { s with disk := s.disk.createSnapshot s.hashMap }

def step (s : StartingServer) : LoadStep → Option StartingServer
  | .openRdb =>
    match s.pc with
    | .begin => some { s with pc := if s.disk.rdb.isSome then .rdb .opened else .between }
    | _ => none
  | .openAof =>
    match s.pc with
    | .between => some { s with pc := if s.disk.aof.isSome then .aof .opened else .done }
    | _ => none
  | .fill n =>
    match s.pc with
    | .rdb r => some { s with pc := .rdb (r.fill s.disk.rdbBytes n) }
    | .aof r => some { s with pc := .aof (r.fill s.disk.aofBytes n) }
    | _ => none
  | .line =>
    match s.pc with
    | .rdb r => r.getline.map fun (line, r) => { s with hashMap := loadRdbLine s.hashMap line, pc := .rdb r }
    | .aof r => r.getline.map fun (line, r) => { s with hashMap := loadAofLine s.hashMap line, pc := .aof r }
    | _ => none
  | .eof =>
    match s.pc with
    | .rdb r =>
      if r.AtEnd s.disk.rdbBytes then
        some { s with
          hashMap := if r.buffer = [] then s.hashMap else loadRdbLine s.hashMap r.buffer
          pc := .between }
      else none
    | .aof r =>
      if r.AtEnd s.disk.aofBytes then
        some { s with
          hashMap := if r.buffer = [] then s.hashMap else loadAofLine s.hashMap r.buffer
          pc := .done }
      else none
    | _ => none
  | .tick => some s.tick

/-- The writes the load has still to make, if the files stay as they are. -/
def rest (s : StartingServer) : List (Bytes × Option Bytes) :=
  match s.pc with
  | .begin => s.disk.writes
  | .rdb r => rdbWrites (r.rest s.disk.rdbBytes) ++ aofWrites s.disk.aofBytes
  | .between => aofWrites s.disk.aofBytes
  | .aof r => aofWrites (r.rest s.disk.aofBytes)
  | .done => []

/-- The map the load will leave. -/
def outcome (s : StartingServer) : Bytes → Option Bytes := replay s.rest s.hashMap.contents

theorem rdbWrites_line {r r' : Reader} {line : Bytes} (h : r.getline = some (line, r')) (file : Bytes) :
    rdbWrites (r.rest file) = rdbWrite line :: rdbWrites (r'.rest file) := by
  rw [rdbWrites, Reader.getlines_rest h, List.map_cons]
  rfl

theorem aofWrites_line {r r' : Reader} {line : Bytes} (h : r.getline = some (line, r')) (file : Bytes) :
    aofWrites (r.rest file) = aofWrite line :: aofWrites (r'.rest file) := by
  rw [aofWrites, Reader.getlines_rest h, List.map_cons]
  rfl

/-- A step of the load is on the way to the map it will leave. -/
theorem outcome_step {l : LoadStep} (hl : l ≠ .tick) (hs : s.step l = some s') :
    s'.disk = s.disk ∧ s'.outcome = s.outcome := by
  cases l with
  | openRdb =>
    simp only [step] at hs
    split at hs
    · next hpc =>
      cases hs
      refine ⟨rfl, ?_⟩
      simp only [outcome, rest, hpc, Disk.writes, Disk.rdbBytes]
      cases s.disk.rdb <;> rfl
    · cases hs
  | openAof =>
    simp only [step] at hs
    split at hs
    · next hpc =>
      cases hs
      refine ⟨rfl, ?_⟩
      simp only [outcome, rest, hpc, Disk.aofBytes]
      cases s.disk.aof <;> rfl
    · cases hs
  | fill n =>
    simp only [step] at hs
    split at hs
    · next r hpc => cases hs; exact ⟨rfl, by simp only [outcome, rest, hpc, Reader.rest_fill]⟩
    · next r hpc => cases hs; exact ⟨rfl, by simp only [outcome, rest, hpc, Reader.rest_fill]⟩
    · cases hs
  | line =>
    simp only [step] at hs
    split at hs
    · next r hpc =>
      obtain ⟨⟨line, r'⟩, hg, rfl⟩ := Option.map_eq_some_iff.mp hs
      refine ⟨rfl, ?_⟩
      simp only [outcome, rest, hpc, rdbWrites_line hg, List.cons_append, WriteLog.replay_cons, contents_loadRdbLine]
    · next r hpc =>
      obtain ⟨⟨line, r'⟩, hg, rfl⟩ := Option.map_eq_some_iff.mp hs
      refine ⟨rfl, ?_⟩
      simp only [outcome, rest, hpc, aofWrites_line hg, WriteLog.replay_cons, contents_loadAofLine]
    · cases hs
  | eof =>
    simp only [step] at hs
    split at hs
    · next r hpc =>
      split at hs
      · next hend =>
        cases hs
        refine ⟨rfl, ?_⟩
        simp only [outcome, rest, hpc, rdbWrites, Reader.getlines_atEnd hend]
        split
        · rfl
        · simp only [List.map_cons, List.map_nil, List.cons_append, List.nil_append, WriteLog.replay_cons,
            contents_loadRdbLine]
      · cases hs
    · next r hpc =>
      split at hs
      · next hend =>
        cases hs
        refine ⟨rfl, ?_⟩
        simp only [outcome, rest, hpc, aofWrites, Reader.getlines_atEnd hend]
        split
        · rfl
        · simp only [List.map_cons, List.map_nil, WriteLog.replay_cons, contents_loadAofLine]
      · cases hs
    · cases hs
  | tick => exact absurd rfl hl

/-- The writes of the lines left, once a tick has put the map in the snapshot
file's place and emptied the log: those in the buffer, and in the first phase
those of the new file behind the offset reached. -/
def leftover (s : StartingServer) : List (Bytes × Option Bytes) :=
  match s.pc with
  | .begin => rdbWrites (snapshotBytes s.hashMap.nodes)
  | .rdb r => rdbWrites (r.rest (snapshotBytes s.hashMap.nodes))
  | .aof r => aofWrites r.buffer
  | .between | .done => []

theorem rest_tick (s : StartingServer) : s.tick.rest = s.leftover := by
  obtain ⟨disk, hashMap, pc⟩ := s
  cases pc with
  | begin | rdb r =>
    simp [tick, createSnapshot_eq, rest, leftover, Disk.writes, Disk.rdbBytes, Disk.aofBytes, aofWrites]
  | between => simp [tick, createSnapshot_eq, rest, leftover, Disk.aofBytes, aofWrites]
  | aof r => simp [tick, createSnapshot_eq, rest, leftover, Disk.aofBytes, Reader.rest]
  | done => rfl

/-- A tick before the load has ended comes when the map is complete, and the
last of the lines left for a key, if there is one, leaves there what the map
has. -/
def Timely (m : Bytes → Option Bytes) (s : StartingServer) : LoadStep → Prop
  | .tick => s.pc ≠ .done → s.hashMap.contents = m ∧ ∀ key o, last key s.leftover = some o → m key = o
  | _ => True

/-- The lines left say nothing new exactly when the load ends as the tick
found it. -/
theorem outcome_tick_iff : s.tick.outcome = s.hashMap.contents ↔
    ∀ key o, last key s.leftover = some o → s.hashMap.contents key = o := by
  rw [outcome, rest_tick]
  exact WriteLog.replay_eq_self_iff

/-- The load will leave the map `m`, and the files describe it. -/
structure OnTheWay (m : Bytes → Option Bytes) (s : StartingServer) : Prop where
  outcome : s.outcome = m
  recovers : s.disk.Recovers m

theorem OnTheWay.step (h : s.OnTheWay m) {l : LoadStep} (hc : s.Timely m l) (hs : s.step l = some s') :
    s'.OnTheWay m := by
  by_cases hl : l = .tick
  · subst hl
    cases hs
    by_cases hpc : s.pc = .done
    · have hm : s.hashMap.contents = m := by
        rw [← h.outcome, StartingServer.outcome, rest, hpc]
        rfl
      refine ⟨?_, ?_⟩
      · rw [← h.outcome, StartingServer.outcome, StartingServer.outcome, rest, rest, tick, hpc]
      · exact hm ▸ createSnapshot_recovers (hm ▸ h.recovers.allStorable) s.disk
    · obtain ⟨rfl, hleft⟩ := hc hpc
      exact ⟨outcome_tick_iff.mpr hleft, createSnapshot_recovers h.recovers.allStorable s.disk⟩
  · obtain ⟨hd, ho⟩ := outcome_step hl hs
    exact ⟨ho.trans h.outcome, hd ▸ h.recovers⟩

theorem OnTheWay.start (d : Disk) (capacity : Nat) (pos : 0 < capacity) :
    OnTheWay (loadDataOnStartup d (.empty capacity pos)).contents (start d capacity pos) := by
  refine ⟨?_, (d.recovers_load capacity pos).openLog⟩
  rw [contents_load, HashMap.contents_empty, StartingServer.outcome, StartingServer.start, HashMap.contents_empty]
  rfl

/-- **The load survives ticks**, in every run in which each tick before its
end is timely: once it has ended, the map is the one that the files described
at the start, and they still do. -/
theorem load_survives_ticks {d : Disk} {capacity : Nat} {pos : 0 < capacity}
    (h : Runs.Reach step (Timely (loadDataOnStartup d (.empty capacity pos)).contents) (start d capacity pos) s)
    (hdone : s.pc = .done) :
    s.hashMap.contents = (loadDataOnStartup d (.empty capacity pos)).contents ∧
      s.disk.Recovers (loadDataOnStartup d (.empty capacity pos)).contents := by
  have hw := h.invariant (OnTheWay _) (.start d capacity pos) fun _ _ _ hi hc hs => hi.step hc hs
  refine ⟨?_, hw.recovers⟩
  rw [← hw.outcome, outcome, rest, hdone]
  rfl

/-- The log's one line is read and inserted when the tick comes. -/
theorem load_survives_ticks_example :
    let d : Disk := ⟨none, some (ascii "INSERT a 1\n")⟩
    let m := (loadDataOnStartup d (.empty 2 (by decide))).contents
    ∃ s, Runs.Reach step (Timely m) (start d 2 (by decide)) s ∧ s.pc = .done ∧ s.disk.aof = some [] ∧
      s.hashMap.contents = m ∧ s.disk.Recovers m := by
  intro d m
  let ls : List LoadStep := [.openRdb, .openAof, .fill 4096, .line]
  have hload : Runs.Reach step (Timely m) (start d 2 (by decide)) _ :=
    Runs.Reach.start.exec ls rfl (by simp [ls, Timely])
  have htick : Runs.Reach step (Timely m) (start d 2 (by decide)) _ :=
    hload.next (l := LoadStep.tick) (fun _ => ⟨rfl, fun _ _ hk => by cases hk⟩) rfl
  have h : Runs.Reach step (Timely m) (start d 2 (by decide)) _ := htick.next (l := LoadStep.eof) trivial rfl
  exact ⟨_, h, rfl, rfl, load_survives_ticks h rfl⟩

/-- A tick before the load begins: the map is empty, and then the files are. -/
theorem load_survives_ticks_fails :
    ¬ ∀ d capacity (pos : 0 < capacity) s, Runs.Reach step (fun _ _ => True) (start d capacity pos) s → s.pc = .done →
      s.hashMap.contents = (loadDataOnStartup d (.empty capacity pos)).contents ∧
        s.disk.Recovers (loadDataOnStartup d (.empty capacity pos)).contents := by
  intro hall
  let d : Disk := ⟨some (ascii "INSERT a 1\n"), some []⟩
  let ls : List LoadStep := [.tick, .openRdb, .eof, .openAof, .eof]
  have h : Runs.Reach step (fun _ _ => True) (start d 2 (by decide)) _ := Runs.Reach.start.exec ls rfl (by simp)
  have hlost := congrFun (Disk.recovers_iff.mp (hall _ _ _ _ h rfl).2) (ascii "a")
  rw [contents_load, HashMap.contents_empty] at hlost
  exact absurd hlost (by decide)

/-! ## The last tick -/

/-- A step leaves the map as it is, or makes a line's write. -/
theorem hashMap_step {l : LoadStep} (hs : s.step l = some s') : s'.hashMap = s.hashMap ∨
    ∃ line, s'.hashMap = loadRdbLine s.hashMap line ∨ s'.hashMap = loadAofLine s.hashMap line := by
  cases l with
  | openRdb | openAof | fill n =>
    simp only [step] at hs
    split at hs <;> cases hs <;> exact .inl rfl
  | line =>
    simp only [step] at hs
    split at hs
    · obtain ⟨⟨line, r'⟩, -, rfl⟩ := Option.map_eq_some_iff.mp hs
      exact .inr ⟨line, .inl rfl⟩
    · obtain ⟨⟨line, r'⟩, -, rfl⟩ := Option.map_eq_some_iff.mp hs
      exact .inr ⟨line, .inr rfl⟩
    · cases hs
  | eof =>
    simp only [step] at hs
    split at hs
    · next r _ =>
      split at hs <;> cases hs
      by_cases he : r.buffer = []
      · exact .inl (if_pos he)
      · exact .inr ⟨r.buffer, .inl (if_neg he)⟩
    · next r _ =>
      split at hs <;> cases hs
      by_cases he : r.buffer = []
      · exact .inl (if_pos he)
      · exact .inr ⟨r.buffer, .inr (if_neg he)⟩
    · cases hs
  | tick => cases hs; exact .inl rfl

/-- However far it is loaded, the map can be written as a snapshot. -/
theorem allStorable_step (h : AllStorable s.hashMap.contents) {l : LoadStep} (hs : s.step l = some s') :
    AllStorable s'.hashMap.contents := by
  rcases hashMap_step hs with he | ⟨line, he | he⟩ <;> rw [he]
  · exact h
  · rw [contents_loadRdbLine]
    exact h.apply fun v hv => storable_rdbWrite (Prod.ext rfl hv)
  · rw [contents_loadAofLine]
    exact h.apply fun v hv => storable_aofWrite (Prod.ext rfl hv)

/-- **The last tick of a load** is harmless exactly when it is timely: else
the map or the files, at the end, are not what they were to be. -/
theorem last_tick_iff {d : Disk} {capacity : Nat} {pos : 0 < capacity}
    (hs : Runs.Reach step (fun _ _ => True) (start d capacity pos) s) (hpc : s.pc ≠ .done)
    (h : Runs.Reach step (fun _ l => l ≠ .tick) s.tick s') (hdone : s'.pc = .done) (m : Bytes → Option Bytes) :
    (s'.hashMap.contents = m ∧ s'.disk.Recovers m) ↔ s.Timely m .tick := by
  have hstorable : AllStorable s.hashMap.contents := by
    refine hs.invariant (fun s => AllStorable s.hashMap.contents) (fun k v hv => ?_) fun _ _ _ hi _ hs =>
      allStorable_step hi hs
    rw [StartingServer.start, HashMap.contents_empty] at hv
    cases hv
  obtain ⟨hdisk, hout⟩ : s'.disk = s.tick.disk ∧ s'.outcome = s.tick.outcome :=
    h.invariant (fun s' => s'.disk = s.tick.disk ∧ s'.outcome = s.tick.outcome) ⟨rfl, rfl⟩ fun _ _ _ hi hl hs =>
      ⟨(outcome_step hl hs).1.trans hi.1, (outcome_step hl hs).2.trans hi.2⟩
  have hmap : s'.hashMap.contents = s.tick.outcome := by
    rw [← hout, outcome, rest, hdone]
    rfl
  have hfiles : s.tick.disk.Recovers s.hashMap.contents := createSnapshot_recovers hstorable s.disk
  rw [hmap, hdisk]
  constructor
  · rintro ⟨ho, hr⟩ -
    obtain rfl : s.hashMap.contents = m := (Disk.recovers_iff.mp hfiles).symm.trans (Disk.recovers_iff.mp hr)
    exact ⟨rfl, outcome_tick_iff.mp ho⟩
  · intro ht
    obtain ⟨rfl, hleft⟩ := ht hpc
    exact ⟨outcome_tick_iff.mpr hleft, hfiles⟩

end StartingServer

end KvDatabase
