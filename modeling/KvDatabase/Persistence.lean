/-
The disk layer (`Storage/Persistence.h`, `Storage/Persistence.cpp`): the
snapshot file and the append-only log, what the server writes to them, and
what a start reads back.

A line of either file is read as one write to the map, whatever bytes it
holds, so loading is a replay (`contents_load`), and everything below is
said of the writes the two files hold (`Disk.writes`).
-/
import KvDatabase.HashMap

namespace KvDatabase

open WriteLog (replay)

def space : UInt8 := 32

def INSERT : Bytes := ascii "INSERT"
def GET : Bytes := ascii "GET"
def DELETE : Bytes := ascii "DELETE"

/-- The two files, `snapshot.log` and `appendonly.log`; `none` when a file
does not exist. -/
structure Disk where
  rdb : Option Bytes
  aof : Option Bytes
deriving DecidableEq, Repr

/-- `command + " " + key + " " + value`, the line both files hold. -/
def lineOf (command key value : Bytes) : Bytes := command ++ space :: key ++ space :: value

/-- A line as written, `std::endl` after it. -/
def record (command key value : Bytes) : Bytes := lineOf command key value ++ [newline]

namespace Disk

def rdbBytes (d : Disk) : Bytes := d.rdb.getD []
def aofBytes (d : Disk) : Bytes := d.aof.getD []

/-- `Persistence::Persistence`: opening the log in append mode creates it. -/
def openLog (d : Disk) : Disk := { d with aof := some d.aofBytes }

def appendToLog (d : Disk) (command key value : Bytes) : Disk :=
  { d with aof := some (d.aofBytes ++ record command key value) }

/-! The steps of `createSnapshot`. -/

/-- Opening the snapshot file with `trunc`. -/
def truncateRdb (d : Disk) : Disk := { d with rdb := some [] }

/-- The `forEach` callback. -/
def writeEntry (d : Disk) (key value : Bytes) : Disk :=
  { d with rdb := some (d.rdbBytes ++ record INSERT key value) }

/-- `resize_file(aof_path, 0)`, the log closed before and reopened after. -/
def resetLog (d : Disk) : Disk := { d with aof := some [] }

def createSnapshot (d : Disk) (hashmap : HashMap) : Disk :=
  (hashmap.forEach writeEntry d.truncateRdb).resetLog

@[simp] theorem rdbBytes_resetLog (d : Disk) : d.resetLog.rdbBytes = d.rdbBytes := rfl

@[simp] theorem aofBytes_resetLog (d : Disk) : d.resetLog.aofBytes = [] := rfl

end Disk

/-- One line of the snapshot: the command word is read and not looked at. -/
def loadRdbLine (hashmap : HashMap) (line : Bytes) : HashMap :=
  let (_, iss) := extract line
  let (key, iss) := extract iss
  let (value, _) := extract iss
  hashmap.insert key value

/-- One line of the log: what is not an INSERT is a removal. -/
def loadAofLine (hashmap : HashMap) (line : Bytes) : HashMap :=
  let (command, iss) := extract line
  if command = INSERT then
    let (key, iss) := extract iss
    let (value, _) := extract iss
    hashmap.insert key value
  else
    let (key, _) := extract iss
    hashmap.remove key

def loadDataOnStartup (d : Disk) (hashmap : HashMap) : HashMap :=
  let hashmap := match d.rdb with
    | some file => (getlines file).foldl loadRdbLine hashmap
    | none => hashmap
  match d.aof with
  | some file => (getlines file).foldl loadAofLine hashmap
  | none => hashmap

/-! ## Loading is a replay -/

/-- The write a snapshot line makes. -/
def rdbWrite (line : Bytes) : Bytes × Option Bytes :=
  let (_, iss) := extract line
  let (key, iss) := extract iss
  (key, some (extract iss).1)

/-- The write a log line makes. -/
def aofWrite (line : Bytes) : Bytes × Option Bytes :=
  let (command, iss) := extract line
  let (key, iss) := extract iss
  (key, if command = INSERT then some (extract iss).1 else none)

def rdbWrites (file : Bytes) : List (Bytes × Option Bytes) := (getlines file).map rdbWrite
def aofWrites (file : Bytes) : List (Bytes × Option Bytes) := (getlines file).map aofWrite

/-- The writes a load makes, in order. -/
def Disk.writes (d : Disk) : List (Bytes × Option Bytes) := rdbWrites d.rdbBytes ++ aofWrites d.aofBytes

theorem contents_loadRdbLine (h : HashMap) (line : Bytes) :
    (loadRdbLine h line).contents = WriteLog.apply h.contents (rdbWrite line) := by
  simp [loadRdbLine, rdbWrite]

theorem contents_loadAofLine (h : HashMap) (line : Bytes) :
    (loadAofLine h line).contents = WriteLog.apply h.contents (aofWrite line) := by
  simp only [loadAofLine, aofWrite]
  split <;> simp

/-- A loop whose every line makes one write replays the lines' writes. -/
theorem contents_foldl {load : HashMap → Bytes → HashMap} {write : Bytes → Bytes × Option Bytes}
    (hl : ∀ h line, (load h line).contents = WriteLog.apply h.contents (write line)) (lines : List Bytes)
    (h : HashMap) : (lines.foldl load h).contents = replay (lines.map write) h.contents := by
  induction lines generalizing h with
  | nil => rfl
  | cons line lines ih => rw [List.foldl_cons, ih, hl, List.map_cons, WriteLog.replay_cons]

theorem contents_load (d : Disk) (h : HashMap) :
    (loadDataOnStartup d h).contents = replay d.writes h.contents := by
  have hr : (match d.rdb with
      | some file => (getlines file).foldl loadRdbLine h
      | none => h).contents = replay (rdbWrites d.rdbBytes) h.contents := by
    cases hd : d.rdb with
    | none => simp [Disk.rdbBytes, hd, rdbWrites]
    | some file => simpa [Disk.rdbBytes, hd, rdbWrites] using contents_foldl contents_loadRdbLine (getlines file) h
  simp only [loadDataOnStartup, Disk.writes, WriteLog.replay_append, ← hr]
  cases hd : d.aof with
  | none => simp [Disk.aofBytes, hd, aofWrites]
  | some file => simpa [Disk.aofBytes, hd, aofWrites] using contents_foldl contents_loadAofLine (getlines file) _

/-- What the files recover to: `loadDataOnStartup` into an empty table, of
any capacity, gives the map `m`. -/
def Disk.Recovers (d : Disk) (m : Bytes → Option Bytes) : Prop :=
  ∀ capacity pos, (loadDataOnStartup d (.empty capacity pos)).contents = m

theorem Disk.recovers_iff {d : Disk} {m : Bytes → Option Bytes} :
    d.Recovers m ↔ replay d.writes (fun _ => none) = m := by
  constructor
  · intro h
    rw [← h 1 Nat.one_pos, contents_load, HashMap.contents_empty]
  · intro h capacity pos
    rw [contents_load, HashMap.contents_empty, h]

/-- The files recover to what a load of them gives. -/
theorem Disk.recovers_load (d : Disk) (capacity pos) :
    d.Recovers (loadDataOnStartup d (.empty capacity pos)).contents := by
  rw [Disk.recovers_iff, contents_load, HashMap.contents_empty]

/-! ## The lines the server writes -/

theorem isWord_INSERT : IsWord INSERT := by decide

theorem isWord_DELETE : IsWord DELETE := by decide

theorem stops_space (s : Bytes) : Text.Stops isSpace (space :: s) := .cons rfl s

theorem extract_space (s : Bytes) : extract (space :: s) = extract s := Text.extract_blank rfl s

/-- The command word of a line. -/
theorem extract_lineOf {command : Bytes} (hc : IsWord command) (key value : Bytes) :
    extract (lineOf command key value) = (command, space :: key ++ space :: value) := by
  rw [lineOf, List.append_assoc]
  exact Text.extract_word hc (stops_space _)

/-- A field of a line, another one after it. -/
theorem extract_field {key : Bytes} (hk : IsWord key) (value : Bytes) :
    extract (space :: key ++ space :: value) = (key, space :: value) := by
  rw [List.cons_append, extract_space]
  exact Text.extract_word hk (stops_space _)

/-- The last field of a line, or what is left of it. -/
theorem extract_last {value : Bytes} (hv : BlankFree value) : extract (space :: value) = (value, []) := by
  rw [extract_space]
  exact Text.extract_blankFree hv

/-- What a line can hold of an entry: no blank in it, and no value after a
key that is missing. -/
def Storable (key value : Bytes) : Prop := BlankFree key ∧ BlankFree value ∧ (key = [] → value = [])

theorem Storable.of_words {key value : Bytes} (hk : IsWord key) (hv : IsWord value) : Storable key value :=
  ⟨hk.2, hv.2, fun h => absurd h hk.1⟩

/-- The two fields of a line, read after its command word. -/
theorem extract_fields {key value : Bytes} (h : Storable key value) :
    (extract (space :: key ++ space :: value)).1 = key ∧
      (extract (extract (space :: key ++ space :: value)).2).1 = value := by
  obtain ⟨hk, hv, he⟩ := h
  by_cases hne : key = []
  · subst hne
    rw [he rfl]
    exact ⟨rfl, rfl⟩
  · simp only [extract_field ⟨hne, hk⟩, extract_last hv, and_self]

theorem rdbWrite_lineOf {command key value : Bytes} (hc : IsWord command) (h : Storable key value) :
    rdbWrite (lineOf command key value) = (key, some value) := by
  obtain ⟨h₁, h₂⟩ := extract_fields h
  simp only [rdbWrite, extract_lineOf hc]
  rw [h₁, h₂]

theorem aofWrite_insert {key value : Bytes} (h : Storable key value) :
    aofWrite (lineOf INSERT key value) = (key, some value) := by
  obtain ⟨h₁, h₂⟩ := extract_fields h
  simp only [aofWrite, extract_lineOf isWord_INSERT]
  rw [h₁, h₂, if_pos trivial]

theorem aofWrite_delete {key : Bytes} (hk : BlankFree key) : aofWrite (lineOf DELETE key []) = (key, none) := by
  have hs : Storable key [] := ⟨hk, by simp [Text.BlankFree], fun _ => rfl⟩
  obtain ⟨h₁, -⟩ := extract_fields hs
  simp only [aofWrite, extract_lineOf isWord_DELETE]
  rw [h₁, if_neg (by decide)]

theorem newline_not_mem_lineOf {command key value : Bytes} (hc : BlankFree command) (hk : BlankFree key)
    (hv : BlankFree value) : newline ∉ lineOf command key value := by
  have hs : newline ≠ space := by decide
  simp [lineOf, hc.newline_not_mem, hk.newline_not_mem, hv.newline_not_mem, hs]

/-- A file that goes on with a whole record. -/
theorem getlines_record {command key value : Bytes} (hc : BlankFree command) (hk : BlankFree key)
    (hv : BlankFree value) (file : Bytes) :
    getlines (record command key value ++ file) = lineOf command key value :: getlines file := by
  rw [record, List.append_assoc, List.singleton_append]
  exact Text.records_record (newline_not_mem_lineOf hc hk hv) file

/-! ## Snapshots -/

/-- Every entry of the map can be held by a line. -/
def AllStorable (m : Bytes → Option Bytes) : Prop := ∀ k v, m k = some v → Storable k v

/-- What a line gives is storable, whatever its bytes. -/
theorem storable_extract (iss : Bytes) : Storable (extract iss).1 (extract (extract iss).2).1 :=
  ⟨Text.extract_fst_blankFree _, Text.extract_fst_blankFree _, fun he => by
    rw [Text.extract_snd_of_fst_nil he]; rfl⟩

theorem storable_rdbWrite {line k v : Bytes} (h : rdbWrite line = (k, some v)) : Storable k v := by
  simp only [rdbWrite, Prod.mk.injEq, Option.some.injEq] at h
  obtain ⟨rfl, rfl⟩ := h
  exact storable_extract _

theorem storable_aofWrite {line k v : Bytes} (h : aofWrite line = (k, some v)) : Storable k v := by
  simp only [aofWrite, Prod.mk.injEq] at h
  obtain ⟨rfl, he⟩ := h
  split at he
  · simp only [Option.some.injEq] at he
    subst he
    exact storable_extract _
  · cases he

/-- Whatever the files hold, a load builds a map of storable entries. -/
theorem storable_of_mem_writes {d : Disk} {k v : Bytes} (h : (k, some v) ∈ d.writes) : Storable k v := by
  simp only [Disk.writes, rdbWrites, aofWrites, List.mem_append, List.mem_map] at h
  rcases h with ⟨line, -, he⟩ | ⟨line, -, he⟩
  · exact storable_rdbWrite he
  · exact storable_aofWrite he

/-- A storable write leaves a map of storable entries. -/
theorem AllStorable.apply {m : Bytes → Option Bytes} (hm : AllStorable m) {w : Bytes × Option Bytes}
    (hw : ∀ v, w.2 = some v → Storable w.1 v) : AllStorable (WriteLog.apply m w) := by
  intro k v hv
  by_cases hk : k = w.1
  · rw [hk, WriteLog.apply, Function.update_self] at hv
    exact hk ▸ hw v hv
  · rw [WriteLog.apply, Function.update_of_ne hk] at hv
    exact hm k v hv

theorem Disk.Recovers.allStorable {d : Disk} {m : Bytes → Option Bytes} (h : d.Recovers m) : AllStorable m := by
  intro k v hv
  rw [← Disk.recovers_iff.mp h] at hv
  cases hl : WriteLog.last k d.writes with
  | none => rw [WriteLog.replay_of_last_none hl] at hv; cases hv
  | some o =>
    rw [WriteLog.replay_of_last hl] at hv
    subst hv
    exact storable_of_mem_writes (WriteLog.mem_of_last hl)

/-- The bytes of a snapshot of these entries. -/
def snapshotBytes (nodes : List Node) : Bytes := nodes.flatMap fun n => record INSERT n.key n.value

theorem foldl_writeEntry (nodes : List Node) (d : Disk) :
    nodes.foldl (fun d n => d.writeEntry n.key n.value) d =
      if nodes = [] then d else { d with rdb := some (d.rdbBytes ++ snapshotBytes nodes) } := by
  induction nodes generalizing d with
  | nil => rfl
  | cons n nodes ih =>
    rw [List.foldl_cons, ih]
    by_cases hn : nodes = []
    · subst hn; simp [Disk.writeEntry, snapshotBytes]
    · simp [hn, Disk.writeEntry, Disk.rdbBytes, snapshotBytes, List.append_assoc]

/-- The snapshot file, written whole. -/
theorem forEach_writeEntry (h : HashMap) (d : Disk) :
    h.forEach Disk.writeEntry d.truncateRdb = { d with rdb := some (snapshotBytes h.nodes) } := by
  simp only [HashMap.forEach, foldl_writeEntry, Disk.truncateRdb]
  split
  · next hn => simp [hn, snapshotBytes]
  · simp [Disk.rdbBytes]

theorem createSnapshot_eq (d : Disk) (h : HashMap) :
    d.createSnapshot h = { rdb := some (snapshotBytes h.nodes), aof := some [] } := by
  rw [Disk.createSnapshot, forEach_writeEntry]
  rfl

theorem rdbWrites_snapshotBytes {nodes : List Node} (h : ∀ n ∈ nodes, Storable n.key n.value) :
    rdbWrites (snapshotBytes nodes) = nodes.map fun n => (n.key, some n.value) := by
  induction nodes with
  | nil => rfl
  | cons n nodes ih =>
    have hn := h n List.mem_cons_self
    have ih := ih fun n' hn' => h n' (List.mem_cons_of_mem _ hn')
    rw [snapshotBytes, List.flatMap_cons, rdbWrites, getlines_record isWord_INSERT.2 hn.1 hn.2.1, List.map_cons,
      rdbWrite_lineOf isWord_INSERT hn, List.map_cons]
    congr 1

theorem HashMap.storable_nodes {h : HashMap} (hs : AllStorable h.contents) : ∀ n ∈ h.nodes, Storable n.key n.value :=
  fun n hn => hs n.key n.value ((h.mem_nodes_iff _ _).mp hn)

/-- The nodes of a table list its map. -/
theorem HashMap.lists_nodes (h : HashMap) :
    WriteLog.Lists (h.nodes.map fun n => (n.key, some n.value)) h.contents := by
  refine ⟨fun w hw => ?_, fun k v => ?_⟩
  · obtain ⟨n, -, rfl⟩ := List.mem_map.mp hw
    simp
  · rw [← h.mem_nodes_iff, List.mem_map]
    constructor
    · intro hmem
      obtain ⟨n, hn, he⟩ := hmem
      simp only [Prod.mk.injEq, Option.some.injEq] at he
      obtain ⟨rfl, rfl⟩ := he
      exact hn
    · intro hn
      exact ⟨_, hn, rfl⟩

/-- The snapshot file of a table, loaded alone, is the map it was taken of. -/
theorem replay_snapshotBytes {h : HashMap} (hs : AllStorable h.contents) :
    replay (rdbWrites (snapshotBytes h.nodes)) (fun _ => none) = h.contents := by
  rw [rdbWrites_snapshotBytes (HashMap.storable_nodes hs)]
  exact h.lists_nodes.replay

/-- A snapshot recovers to the map it was taken of. -/
theorem createSnapshot_recovers {h : HashMap} (hs : AllStorable h.contents) (d : Disk) :
    (d.createSnapshot h).Recovers h.contents := by
  rw [Disk.recovers_iff, createSnapshot_eq]
  simpa [Disk.writes, Disk.rdbBytes, Disk.aofBytes, aofWrites] using replay_snapshotBytes hs

/-- **What a snapshot can hold.** The file written of a table, loaded into an
empty one, gives its map back exactly when no key and no value has a blank in
it and the empty key has no value but the empty one. -/
theorem snapshot_lossless_iff (h : HashMap) (d : Disk) (capacity : Nat) (pos : 0 < capacity) :
    (loadDataOnStartup (d.createSnapshot h) (.empty capacity pos)).contents = h.contents ↔
      (∀ k v, h.contents k = some v → BlankFree k ∧ BlankFree v) ∧ ∀ v, h.contents [] = some v → v = [] := by
  constructor
  · intro hload
    -- whatever the lines came to, a load makes storable entries only
    have hs : AllStorable h.contents := hload ▸ (Disk.recovers_load _ capacity pos).allStorable
    exact ⟨fun k v hv => ⟨(hs k v hv).1, (hs k v hv).2.1⟩, fun v hv => (hs [] v hv).2.2 rfl⟩
  · rintro ⟨hblank, hempty⟩
    have hs : AllStorable h.contents := fun k v hv =>
      ⟨(hblank k v hv).1, (hblank k v hv).2, fun hk => hempty v (hk ▸ hv)⟩
    exact createSnapshot_recovers hs d capacity pos

theorem snapshot_lossless_example :
    let h := (HashMap.empty 2 (by decide)).insert [97] [49]
    (loadDataOnStartup (Disk.createSnapshot ⟨none, none⟩ h) (.empty 1 Nat.one_pos)).contents = h.contents := by
  intro h
  have hentry : ∀ k v, h.contents k = some v → k = [97] ∧ v = [49] := by
    intro k v hk
    rw [HashMap.contents_insert, WriteLog.apply] at hk
    by_cases hk97 : k = [97]
    · rw [hk97, Function.update_self, Option.some.injEq] at hk
      exact ⟨hk97, hk.symm⟩
    · rw [Function.update_of_ne hk97, HashMap.contents_empty] at hk
      cases hk
  refine (snapshot_lossless_iff h _ 1 Nat.one_pos).mpr ⟨fun k v hk => ?_, fun v hk => ?_⟩
  · obtain ⟨rfl, rfl⟩ := hentry k v hk
    decide
  · cases (hentry _ _ hk).1

end KvDatabase
