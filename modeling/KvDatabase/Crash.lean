/-
What a crash leaves: a snapshot cut off while it is written, a log cut off
in its last record, and a log that is appended to after such a cut.

The header of `Storage/Persistence.h` guarantees recovery across crashes.
For none of these three does the guarantee hold as it stands, and the
theorem on each says exactly when it does. A line that is cut off is still
read as a write, of fields the cut has shortened or emptied (`fields_take`),
and nothing marks it; so what recovery gives depends on where the cut falls.
A crash between a whole snapshot and the reset of the log does no harm
(`crash_before_reset`).
-/
import KvDatabase.Writes
import Mathlib.Algebra.Order.BigOperators.Group.List
import Mathlib.Algebra.Order.Group.Nat

namespace KvDatabase

open WriteLog (replay last)

/-! ## Lines cut off -/

/-- The three fields a line is read as. -/
def fields (line : Bytes) : Bytes × Bytes × Bytes :=
  let (command, iss) := extract line
  let (key, iss) := extract iss
  (command, key, (extract iss).1)

/-- The fields left of a line cut after `i` bytes: the command word cut
short, or the key cut short and no value, or the value cut short. -/
def tornFields (command key value : Bytes) (i : Nat) : Bytes × Bytes × Bytes :=
  if i ≤ command.length then (command.take i, [], [])
  else if i ≤ command.length + 1 + key.length then (command, key.take (i - command.length - 1), [])
  else (command, key, value.take (i - command.length - key.length - 2))

theorem rdbWrite_eq (line : Bytes) : rdbWrite line = ((fields line).2.1, some (fields line).2.2) := rfl

theorem aofWrite_eq (line : Bytes) :
    aofWrite line = ((fields line).2.1, if (fields line).1 = INSERT then some (fields line).2.2 else none) := rfl

theorem take_lineOf (command key value : Bytes) (i : Nat) :
    (lineOf command key value).take i =
      if i ≤ command.length then command.take i
      else if i ≤ command.length + 1 + key.length then command ++ space :: key.take (i - command.length - 1)
      else lineOf command key (value.take (i - command.length - key.length - 2)) := by
  rw [lineOf, List.append_assoc, List.take_append, List.cons_append]
  split
  · next h => simp [Nat.sub_eq_zero_of_le h]
  · next h =>
    obtain ⟨j, rfl⟩ : ∃ j, i = command.length + 1 + j := ⟨i - command.length - 1, by omega⟩
    have h₁ : command.length + 1 + j - command.length = j + 1 := by omega
    rw [h₁, List.take_of_length_le (by omega), List.take_succ_cons, List.take_append]
    split
    · next hk => simp [show j - key.length = 0 by omega]
    · next hk =>
      obtain ⟨l, rfl⟩ : ∃ l, j = key.length + 1 + l := ⟨j - key.length - 1, by omega⟩
      have h₂ : key.length + 1 + l - key.length = l + 1 := by omega
      have h₃ : key.length + 1 + l + 1 - key.length - 2 = l := by omega
      rw [h₂, h₃, List.take_of_length_le (by omega), List.take_succ_cons, lineOf, List.append_assoc,
        List.cons_append]

theorem fields_lineOf {command key value : Bytes} (hc : IsWord command) (h : Storable key value) :
    fields (lineOf command key value) = (command, key, value) := by
  obtain ⟨h₁, h₂⟩ := extract_fields h
  simp only [fields, extract_lineOf hc]
  rw [h₁, h₂]

/-- A line that is cut off is read as the fields the cut left. -/
theorem fields_take {command key value : Bytes} (hc : IsWord command) (h : Storable key value) (i : Nat) :
    fields ((lineOf command key value).take i) = tornFields command key value i := by
  rw [take_lineOf, tornFields]
  split
  · simp only [fields, Text.extract_blankFree (hc.2.take i), Text.extract_nil]
  · split
    · have hw : extract (command ++ space :: key.take (i - command.length - 1)) =
          (command, space :: key.take (i - command.length - 1)) := Text.extract_word hc (stops_space _)
      simp only [fields, hw, extract_last (h.1.take _), Text.extract_nil]
    · exact fields_lineOf hc ⟨h.1, h.2.1.take _, fun hk => by simp [h.2.2 hk]⟩

theorem newline_not_mem_take {command key value : Bytes} (hc : IsWord command) (h : Storable key value) (i : Nat) :
    newline ∉ (lineOf command key value).take i :=
  fun hm => newline_not_mem_lineOf hc.2 h.1 h.2.1 (List.mem_of_mem_take hm)

/-- The lines of a record cut before its newline: none, or the cut line. -/
theorem getlines_take_record {command key value : Bytes} (hc : IsWord command) (h : Storable key value) {i : Nat}
    (hi : i < (record command key value).length) :
    getlines ((record command key value).take i) = if i = 0 then [] else [(lineOf command key value).take i] := by
  have hle : i ≤ (lineOf command key value).length := by simp [record] at hi; omega
  rw [record, List.take_append_of_le_length hle]
  split
  · next h0 => simp [h0]
  · next h0 =>
    refine Text.records_tail (newline_not_mem_take hc h i) ?_
    simp only [ne_eq, List.take_eq_nil_iff, h0, false_or]
    simp [lineOf]

/-! ## A crash during a snapshot -/

/-- A point of `createSnapshot` at which the process may die. -/
inductive CrashPoint
  /-- The file is truncated and `n` bytes of the snapshot have reached it;
  all of them, once it is closed. -/
  | writing (n : Nat)
  /-- The log has been resized to 0. -/
  | reset

/-- The files such a crash leaves. -/
def crashDisk (d : Disk) (h : HashMap) : CrashPoint → Disk
  | .writing n =>
    let written := h.forEach Disk.writeEntry d.truncateRdb
    { written with rdb := written.rdb.map (·.take n) }
  | .reset => d.createSnapshot h

/-- An entry as a snapshot line. -/
def entryRecord (n : Node) : Bytes := record INSERT n.key n.value

/-- The entry that a snapshot line cut after `i` bytes is read as. -/
def tornEntry (n : Node) (i : Nat) : Bytes × Option Bytes :=
  let (_, key, value) := tornFields INSERT n.key n.value i
  (key, some value)

/-- The entries in the first `n` bytes of a snapshot: the whole lines', then
the one the cut line is read as. -/
def cutEntries (nodes : List Node) (n : Nat) : List (Bytes × Option Bytes) :=
  let (j, i) := Text.cut entryRecord nodes n
  (nodes.take j).map (fun nd => (nd.key, some nd.value)) ++
    if i = 0 then [] else (nodes[j]?.map (tornEntry · i)).toList

theorem rdbWrites_record {n : Node} (h : Storable n.key n.value) (file : Bytes) :
    rdbWrites (entryRecord n ++ file) = (n.key, some n.value) :: rdbWrites file := by
  rw [rdbWrites, entryRecord, getlines_record isWord_INSERT.2 h.1 h.2.1, List.map_cons,
    rdbWrite_lineOf isWord_INSERT h]
  rfl

theorem rdbWrites_records {nodes : List Node} (h : ∀ n ∈ nodes, Storable n.key n.value) (file : Bytes) :
    rdbWrites (nodes.flatMap entryRecord ++ file) =
      nodes.map (fun n => (n.key, some n.value)) ++ rdbWrites file := by
  induction nodes with
  | nil => rfl
  | cons n nodes ih =>
    rw [List.flatMap_cons, List.append_assoc, rdbWrites_record (h n List.mem_cons_self),
      ih fun n' hn' => h n' (List.mem_cons_of_mem _ hn')]
    rfl

/-- What a start reads of a snapshot that was cut off. -/
theorem rdbWrites_take {nodes : List Node} (h : ∀ n ∈ nodes, Storable n.key n.value) (n : Nat) :
    rdbWrites ((snapshotBytes nodes).take n) = cutEntries nodes n := by
  have ht := Text.take_flatMap entryRecord nodes n
  rw [show snapshotBytes nodes = nodes.flatMap entryRecord from rfl, ht,
    rdbWrites_records fun n' hn' => h n' (List.mem_of_mem_take hn'), cutEntries]
  congr 1
  cases hx : nodes[(Text.cut entryRecord nodes n).1]? with
  | none => simp [Text.torn, hx, rdbWrites]
  | some nd =>
    have hs := h nd (List.mem_of_getElem? hx)
    have hl := Text.cut_lt hx
    rw [Text.torn, hx, rdbWrites]
    simp only [entryRecord] at hl ⊢
    rw [getlines_take_record isWord_INSERT hs hl]
    split
    · rfl
    · simp [rdbWrite_eq, fields_take isWord_INSERT hs, tornEntry]

theorem crashDisk_writing (d : Disk) (h : HashMap) (n : Nat) :
    (crashDisk d h (.writing n)).rdbBytes = (snapshotBytes h.nodes).take n ∧
      (crashDisk d h (.writing n)).aofBytes = d.aofBytes := by
  simp only [crashDisk, forEach_writeEntry]
  exact ⟨rfl, rfl⟩

/-- All but the last entry read of a cut snapshot are entries of the map. -/
theorem cutEntries_split (h : HashMap) (n : Nat) : ∃ xs t, cutEntries h.nodes n = xs ++ t ∧ t.length ≤ 1 ∧
    (∀ k v, (k, some v) ∈ xs → h.contents k = some v) := by
  refine ⟨_, _, rfl, ?_, fun k v hm => ?_⟩
  · split
    · simp
    · cases h.nodes[(Text.cut entryRecord h.nodes n).1]? <;> simp
  · obtain ⟨nd, hnd, he⟩ := List.mem_map.mp hm
    simp only [Prod.mk.injEq, Option.some.injEq] at he
    obtain ⟨rfl, rfl⟩ := he
    exact (h.mem_nodes_iff _ _).mp (List.mem_of_mem_take hnd)

theorem cutEntries_insert {nodes : List Node} {n : Nat} {w : Bytes × Option Bytes} (h : w ∈ cutEntries nodes n) :
    w.2 ≠ none := by
  simp only [cutEntries, List.mem_append, List.mem_map] at h
  rcases h with ⟨nd, -, rfl⟩ | h
  · simp
  · split at h
    · simp at h
    · simp only [Option.mem_toList, Option.map_eq_some_iff] at h
      obtain ⟨nd, -, rfl⟩ := h
      simp [tornEntry]

/-- A cut snapshot gives a key its value in the map exactly when the entries
read of it for that key are the map's. -/
theorem replay_cutEntries_iff (h : HashMap) (n : Nat) (k : Bytes) :
    replay (cutEntries h.nodes n) (fun _ => none) k = h.contents k ↔
      ∀ v, (k, some v) ∈ cutEntries h.nodes n ↔ h.contents k = some v := by
  constructor
  · intro he v
    constructor
    · intro hm
      obtain ⟨xs, t, hx, ht, hxs⟩ := cutEntries_split h n
      rw [hx, List.mem_append] at hm
      rcases hm with hm | hm
      · exact hxs k v hm
      · -- the torn line is the last one, so it decides
        obtain rfl : t = [(k, some v)] := by
          cases t with
          | nil => cases hm
          | cons w t =>
            have : t = [] := by simpa using ht
            subst this
            rw [List.mem_singleton.mp hm]
        have hl : last k (cutEntries h.nodes n) = some (some v) := by
          rw [hx, WriteLog.last_append]
          simp [WriteLog.last_cons]
        rw [← he, WriteLog.replay_of_last hl]
    · intro hc
      rw [hc] at he
      cases hl : last k (cutEntries h.nodes n) with
      | none => rw [WriteLog.replay_of_last_none hl] at he; cases he
      | some o =>
        rw [WriteLog.replay_of_last hl] at he
        subst he
        exact WriteLog.mem_of_last hl
  · intro hiff
    cases hl : last k (cutEntries h.nodes n) with
    | none =>
      rw [WriteLog.replay_of_last_none hl]
      cases hc : h.contents k with
      | none => rfl
      | some v => exact absurd rfl (WriteLog.last_eq_none_iff.mp hl _ ((hiff v).mpr hc))
    | some o =>
      rw [WriteLog.replay_of_last hl]
      have hm := WriteLog.mem_of_last hl
      cases o with
      | none => exact absurd rfl (cutEntries_insert hm)
      | some v => exact ((hiff v).mp hm).symm

/-- The keys the lines of a log name. -/
def loggedKeys (file : Bytes) : List Bytes := (aofWrites file).map Prod.fst

theorem last_aofWrites_eq_none_iff {file k : Bytes} : last k (aofWrites file) = none ↔ k ∉ loggedKeys file := by
  rw [WriteLog.last_eq_none_iff, loggedKeys, List.mem_map]
  exact ⟨fun h ⟨w, hw, he⟩ => h w hw he, fun h w hw he => h ⟨w, hw, he⟩⟩

/-- The crash loses nothing: the log was reset, or the keys the log does not
name have, in what was written of the snapshot, exactly their entries in the
map. -/
def CrashPoint.Harmless (d : Disk) (h : HashMap) : CrashPoint → Prop
  | .writing n => ∀ k, k ∉ loggedKeys d.aofBytes →
      ∀ v, (k, some v) ∈ cutEntries h.nodes n ↔ h.contents k = some v
  | .reset => True

/-- **A crash during a snapshot** leaves files that recover to the map
exactly when it is harmless. The old snapshot is gone from the moment the
file is opened, and until the new one is whole the log alone stands for the
map, so a key that is only in the snapshot is lost. -/
theorem crash_during_snapshot {d : Disk} {h : HashMap} (hd : d.Recovers h.contents) (c : CrashPoint) :
    (crashDisk d h c).Recovers h.contents ↔ c.Harmless d h := by
  cases c with
  | reset => exact iff_of_true (createSnapshot_recovers hd.allStorable d) trivial
  | writing n =>
    obtain ⟨hr, ha⟩ := crashDisk_writing d h n
    have hm := Disk.recovers_iff.mp hd
    rw [Disk.writes, WriteLog.replay_append] at hm
    rw [Disk.recovers_iff, Disk.writes, hr, ha, rdbWrites_take (HashMap.storable_nodes hd.allStorable),
      WriteLog.replay_append, ← hm, WriteLog.replay_eq_replay_iff, CrashPoint.Harmless]
    refine forall_congr' fun k => ?_
    rw [last_aofWrites_eq_none_iff]
    refine imp_congr_right fun hk => ?_
    rw [← replay_cutEntries_iff, ← congrFun hm k,
      WriteLog.replay_of_last_none (last_aofWrites_eq_none_iff.mpr hk)]

/-- The log still has the key when the file is truncated. -/
theorem crash_during_snapshot_example :
    let d : Disk := ⟨none, some (ascii "INSERT a 1\n")⟩
    let h := (HashMap.empty 2 (by decide)).insert (ascii "a") (ascii "1")
    (crashDisk d h (.writing 0)).Recovers h.contents := by
  intro d h
  have hcontents : h.contents = Function.update (fun _ => none) (ascii "a") (some (ascii "1")) :=
    HashMap.contents_insert _ _ _
  have hlogged : loggedKeys d.aofBytes = [ascii "a"] := by decide
  refine (crash_during_snapshot (Disk.recovers_iff.mpr (hcontents.symm ▸ rfl)) _).mpr fun k hk v => ?_
  rw [hlogged, List.mem_singleton] at hk
  rw [hcontents, Function.update_of_ne hk]
  have hcut : cutEntries h.nodes 0 = [] := by decide
  simp [hcut]

/-- The kill right after the file is truncated, when the log has been reset
by an earlier snapshot. -/
theorem crash_during_snapshot_loses :
    let d : Disk := ⟨some (ascii "INSERT a 1\n"), some []⟩
    let h := (HashMap.empty 100 (by decide)).insert (ascii "a") (ascii "1")
    d.Recovers h.contents ∧ ¬ (crashDisk d h (.writing 0)).Recovers h.contents := by
  refine ⟨Disk.recovers_iff.mpr ?_, fun hr => ?_⟩
  · rw [HashMap.contents_insert]
    rfl
  · exact absurd (congrFun (Disk.recovers_iff.mp hr) (ascii "a")) (by decide)

/-! ## A log replayed over a snapshot that has part of it -/

/-- **A crash between a snapshot and the reset of the log**: the snapshot has
the map after `p`, the log still has `p`, and the writes `s` logged since.
The load makes `p` over a map that `p` has already left, which changes
nothing, and ends where the server was. -/
theorem crash_before_reset {m : Bytes → Option Bytes} (hm : AllStorable m) (p s : List Write) {h : HashMap}
    (hh : h.contents = applyAll p m) (d : Disk) :
    Disk.Recovers { h.forEach Disk.writeEntry d.truncateRdb with aof := some (logOf (p ++ s)) }
      (applyAll s (applyAll p m)) := by
  have hs : AllStorable h.contents := hh ▸ hm.applyAll p
  have hidem : applyAll p (applyAll p m) = applyAll p m := WriteLog.replay_replay _ m
  rw [Disk.recovers_iff, forEach_writeEntry, Disk.writes, Disk.rdbBytes, Disk.aofBytes, Option.getD_some,
    Option.getD_some, aofWrites_logOf, WriteLog.replay_append, replay_snapshotBytes hs, hh]
  calc replay ((p ++ s).map Write.effect) (applyAll p m)
      = applyAll s (applyAll p (applyAll p m)) := applyAll_append p s _
    _ = applyAll s (applyAll p m) := by rw [hidem]

/-- A key overwritten and a key deleted before the snapshot, one written
after it. -/
theorem crash_before_reset_example :
    let h₀ := (HashMap.empty 2 (by decide)).insert (ascii "a") (ascii "0")
    let p : List Write := [.insert (ascii "a") (ascii "1") (by decide) (by decide),
      .insert (ascii "b") (ascii "2") (by decide) (by decide), .delete (ascii "a") (by decide)]
    let s : List Write := [.insert (ascii "a") (ascii "3") (by decide) (by decide)]
    Disk.Recovers { (p.foldl (fun h w => w.update h) h₀).forEach Disk.writeEntry (Disk.truncateRdb ⟨none, none⟩) with
      aof := some (logOf (p ++ s)) } (applyAll s (applyAll p h₀.contents)) := by
  intro h₀ p s
  refine crash_before_reset ?_ p s ?_ ⟨none, none⟩
  · intro k v hv
    have hm : AllStorable (WriteLog.apply (fun _ => none) (Write.effect
        (.insert (ascii "a") (ascii "0") (by decide) (by decide)))) :=
      Write.allStorable_apply _ (fun _ _ he => by cases he)
    rw [HashMap.contents_insert] at hv
    exact hm k v hv
  · simp only [p, List.foldl_cons, List.foldl_nil, Write.contents_update]
    rfl

/-! ## A log cut off in its last record -/

/-- The write that a record cut after `i` bytes is read as. -/
def Write.torn (w : Write) (i : Nat) : Bytes × Option Bytes :=
  let (command, key, value) := tornFields w.command w.key w.value i
  (key, if command = INSERT then some value else none)

/-- The writes whose records are whole in the first `n` bytes of their log. -/
def completeWrites (ws : List Write) (n : Nat) : List Write := ws.take (Text.cut Write.record ws n).1

/-- The write that what is left of the next record is read as; `none` when
the cut falls between records. -/
def tornWrite (ws : List Write) (n : Nat) : Option (Bytes × Option Bytes) :=
  let (j, i) := Text.cut Write.record ws n
  if i = 0 then none else ws[j]?.map (·.torn i)

theorem aofWrite_take_line (w : Write) (i : Nat) : aofWrite (w.line.take i) = w.torn i := by
  rw [aofWrite_eq, Write.line, fields_take w.isWord_command w.storable]; rfl

/-- What a start reads of a log that was cut off. -/
theorem aofWrites_take (ws : List Write) (n : Nat) :
    aofWrites ((logOf ws).take n) = (completeWrites ws n).map Write.effect ++ (tornWrite ws n).toList := by
  rw [logOf, Text.take_flatMap, ← logOf, aofWrites_append (terminated_logOf _), aofWrites_logOf, completeWrites,
    tornWrite]
  congr 1
  cases hx : ws[(Text.cut Write.record ws n).1]? with
  | none => simp [Text.torn, hx, aofWrites]
  | some w =>
    have hl := Text.cut_lt hx
    rw [Text.torn, hx, aofWrites]
    simp only [Write.record] at hl ⊢
    rw [getlines_take_record w.isWord_command w.storable hl]
    split
    · rfl
    · simp [hx, ← aofWrite_take_line, Write.line]

/-- The record that the cut falls in, and how many of its bytes are left. -/
def cutRecord (ws : List Write) (n : Nat) : Option (Write × Nat) :=
  let (j, i) := Text.cut Write.record ws n
  ws[j]?.map (·, i)

/-- A cut that does no harm to a map `m` that was logged over, whatever was
logged besides: nothing is left of the record, or all of its line, or of a
DELETE's line all but the blank at its end; or the cut is in the command word
or right behind it, and `m` has at the empty key what such a rest writes
there. -/
def HarmlessCut (m : Bytes → Option Bytes) (w : Write) (i : Nat) : Prop :=
  i = 0 ∨ w.line.length ≤ i ∨ (w.command = DELETE ∧ w.command.length + 1 + w.key.length ≤ i) ∨
    (i ≤ w.command.length + 1 ∧ m [] = if w.command.take i = INSERT then some [] else none)

/-- In the command word, or right behind it: a write of the empty key. -/
theorem Write.torn_of_le {w : Write} {i : Nat} (hi : i ≤ w.command.length + 1) :
    w.torn i = ([], if w.command.take i = INSERT then some [] else none) := by
  by_cases h : i ≤ w.command.length
  · simp only [Write.torn, tornFields, h, if_true]
  · obtain rfl : i = w.command.length + 1 := by omega
    simp [Write.torn, tornFields, List.take_of_length_le]

/-- Behind it: a write of what is left of the key. -/
theorem Write.torn_fst {w : Write} {i : Nat} (hi : w.command.length < i) :
    (w.torn i).1 = w.key.take (i - w.command.length - 1) := by
  have hcommand : ¬ i ≤ w.command.length := by omega
  by_cases h : i ≤ w.command.length + 1 + w.key.length
  · simp only [Write.torn, tornFields, hcommand, h, if_true, if_false]
  · simp only [Write.torn, tornFields, hcommand, h, if_false]
    rw [List.take_of_length_le (by omega)]

theorem Write.torn_snd {w : Write} {i : Nat} (hi : w.command.length < i) :
    (w.torn i).2 =
      if w.command = INSERT then some (w.value.take (i - w.command.length - w.key.length - 2)) else none := by
  have hcommand : ¬ i ≤ w.command.length := by omega
  by_cases h : i ≤ w.command.length + 1 + w.key.length
  · have hnone : i - w.command.length - w.key.length - 2 = 0 := by omega
    simp only [Write.torn, tornFields, hcommand, h, hnone, if_true, if_false, List.take_zero]
  · simp only [Write.torn, tornFields, hcommand, h, if_false]

/-- A line that lost only its newline is read as the write that logged it, -/
theorem Write.torn_line {w : Write} {i : Nat} (hi : w.line.length ≤ i) : w.torn i = w.effect := by
  rw [← aofWrite_take_line, List.take_of_length_le hi, w.aofWrite_line]

/-- and so is a DELETE that lost the blank before it. -/
theorem Write.torn_delete {w : Write} {i : Nat} (hw : w.command = DELETE)
    (hi : w.command.length + 1 + w.key.length ≤ i) : w.torn i = w.effect := by
  cases w with
  | insert => cases hw
  | delete key hk =>
    simp only [Write.key, Write.command] at hi
    refine Prod.ext ?_ ?_
    · rw [Write.torn_fst (by simp only [Write.command]; omega)]
      exact List.take_of_length_le (by simp only [Write.key, Write.command]; omega)
    · rw [Write.torn_snd (by simp only [Write.command]; omega)]
      rfl

/-- No command has the empty key, so what is there stays. -/
theorem applyAll_nil_key {ws : List Write} (hws : ∀ w ∈ ws, w.key ≠ []) (m : Bytes → Option Bytes) :
    applyAll ws m [] = m [] := by
  have hlast : last [] (ws.map Write.effect) = none := by
    refine WriteLog.last_eq_none_iff.mpr fun e he hkey => ?_
    obtain ⟨w, hw, rfl⟩ := List.mem_map.mp he
    exact hws w hw (w.effect_fst.symm.trans hkey)
  exact WriteLog.replay_of_last_none hlast m

/-- What a start makes of a snapshot and a log that was cut off. -/
theorem recovers_take {rdb : Option Bytes} {m m' : Bytes → Option Bytes} (hm : (⟨rdb, none⟩ : Disk).Recovers m)
    (ws : List Write) (n : Nat) : (⟨rdb, some ((logOf ws).take n)⟩ : Disk).Recovers m' ↔
      replay (tornWrite ws n).toList (applyAll (completeWrites ws n) m) = m' := by
  have hm : replay (rdbWrites (rdb.getD [])) (fun _ => none) = m := by
    have := Disk.recovers_iff.mp hm
    simpa [Disk.writes, Disk.rdbBytes, Disk.aofBytes, aofWrites] using this
  rw [Disk.recovers_iff, Disk.writes, WriteLog.replay_append, Disk.rdbBytes, hm, Disk.aofBytes, Option.getD_some,
    aofWrites_take, WriteLog.replay_append]
  rfl

/-- A harmless cut leaves the map after a prefix of the commands. -/
theorem HarmlessCut.recovers {rdb : Option Bytes} {m : Bytes → Option Bytes}
    (hm : (⟨rdb, none⟩ : Disk).Recovers m) {ws : List Write} (hws : ∀ w ∈ ws, w.key ≠ []) {n : Nat} {w : Write}
    {i : Nat} (hcut : cutRecord ws n = some (w, i)) (h : HarmlessCut m w i) :
    ∃ p, (⟨rdb, some ((logOf ws).take n)⟩ : Disk).Recovers (applyAll (ws.take p) m) := by
  obtain ⟨w', hw, hcut⟩ := Option.map_eq_some_iff.mp hcut
  obtain ⟨rfl, hi⟩ := Prod.mk.inj hcut
  simp only [recovers_take hm]
  have htorn : i ≠ 0 → tornWrite ws n = some (w'.torn i) := fun h0 => by simp [tornWrite, hi, h0, hw]
  have whole : i ≠ 0 → w'.torn i = w'.effect →
      ∃ p, replay (tornWrite ws n).toList (applyAll (completeWrites ws n) m) = applyAll (ws.take p) m := by
    intro h0 heffect
    refine ⟨(Text.cut Write.record ws n).1 + 1, ?_⟩
    rw [htorn h0, heffect, List.take_add_one, hw, applyAll_append]
    rfl
  by_cases h0 : i = 0
  · exact ⟨(Text.cut Write.record ws n).1, by simp [tornWrite, hi, h0, completeWrites]⟩
  rcases h with h | hline | ⟨hdelete, hkey⟩ | ⟨hle, hempty⟩
  · exact absurd h h0
  · exact whole h0 (Write.torn_line hline)
  · exact whole h0 (Write.torn_delete hdelete hkey)
  · refine ⟨(Text.cut Write.record ws n).1, ?_⟩
    have hsame := applyAll_nil_key (fun w hw => hws w (List.mem_of_mem_take hw) : ∀ w ∈ completeWrites ws n, _) m
    rw [htorn h0, Write.torn_of_le hle, ← hempty, ← hsame]
    exact Function.update_eq_self _ _

/-- A word that is none of the given keys, and does not end in INSERT. -/
theorem exists_fresh_key (keys : List Bytes) :
    ∃ key, IsWord key ∧ key ∉ keys ∧ ∀ p, key ≠ p ++ INSERT := by
  refine ⟨List.replicate ((keys.map List.length).sum + 1) 120, ⟨by simp, ?_⟩, fun hm => ?_, fun p he => ?_⟩
  · intro c hc
    rw [List.eq_of_mem_replicate hc]
    decide
  · have := List.le_sum_of_mem (List.mem_map_of_mem (f := List.length) hm)
    simp at this
  · have hm : (84 : UInt8) ∈ p ++ INSERT := List.mem_append_right p (by decide)
    rw [← he] at hm
    exact absurd (List.eq_of_mem_replicate hm) (by decide)

theorem exists_other (o : Option Bytes) : ∃ v, IsWord v ∧ o ≠ some v := by
  by_cases ho : o = some (ascii "0")
  · exact ⟨ascii "1", by decide, by rw [ho]; decide⟩
  · exact ⟨ascii "0", by decide, ho⟩

/-- What is left of a key is a word. -/
theorem Write.isWord_torn {w : Write} (hw : w.key ≠ []) {i : Nat} (hi : w.command.length + 1 < i) :
    IsWord (w.torn i).1 := by
  rw [Write.torn_fst (by omega)]
  refine ⟨fun hnil => ?_, w.storable.1.take _⟩
  rcases List.take_eq_nil_iff.mp hnil with h | h
  · omega
  · exact hw h

/-- Behind the command word, a cut that leaves the whole key leaves the write
of another value, unless it is harmless. -/
theorem Write.torn_snd_ne {m : Bytes → Option Bytes} {w : Write} {i : Nat} (hi : w.command.length < i)
    (h : ¬ HarmlessCut m w i) (hkey : (w.torn i).1 = w.key) : (w.torn i).2 ≠ w.effect.2 := by
  simp only [HarmlessCut, not_or, not_and] at h
  obtain ⟨-, hline, hdelete, -⟩ := h
  rw [Write.torn_fst hi] at hkey
  rw [Write.torn_snd hi]
  intro hvalue
  cases w with
  | insert k v hk hv =>
    rw [if_pos (show (Write.insert k v hk hv).command = INSERT from rfl)] at hvalue
    have hlen := congrArg List.length (Option.some.inj hvalue)
    have hpos : 0 < v.length := List.length_pos_iff.mpr hv.1
    simp only [Write.line, lineOf, List.length_append, List.length_cons, Write.command, Write.key, Write.value,
      List.length_take] at hline hlen
    omega
  | delete k hk =>
    have hnot := hdelete rfl
    have hlen := congrArg List.length hkey
    rw [List.length_take] at hlen
    omega

/-- A write that the command does not make, behind two commands: one gives the
key another value, one a key of its own. -/
theorem exists_harmed_key (m : Bytes → Option Bytes) {w : Write} {e : Bytes × Option Bytes} (hkey : IsWord e.1)
    (he : e.1 = w.key → e.2 ≠ w.effect.2) : ∃ before : List Write, (∀ w' ∈ before, w'.key ≠ []) ∧
      ∀ p, applyAll ((before ++ [w]).take p) m ≠ WriteLog.apply (applyAll before m) e := by
  obtain ⟨key, value⟩ := e
  obtain ⟨z, hz, hfresh, -⟩ := exists_fresh_key [key, w.key]
  obtain ⟨v₁, hv₁, hne₁⟩ := exists_other value
  obtain ⟨v₂, hv₂, hne₂⟩ := exists_other (m z)
  simp only [List.mem_cons, List.not_mem_nil, or_false, not_or] at hfresh
  let before : List Write := [.insert key v₁ hkey hv₁, .insert z v₂ hz hv₂]
  refine ⟨before, ?_, fun p hp => ?_⟩
  · intro w' hw'
    rcases List.mem_cons.mp hw' with rfl | hw'
    · exact hkey.1
    · exact List.mem_singleton.mp hw' ▸ hz.1
  have hatz := congrFun hp z
  have hatkey := congrFun hp key
  rw [WriteLog.apply, Function.update_of_ne hfresh.1] at hatz
  rw [WriteLog.apply, Function.update_self] at hatkey
  have hleft : applyAll before m z = some v₂ := Function.update_self ..
  have hset : applyAll before m key = some v₁ :=
    (Function.update_of_ne (Ne.symm hfresh.1) _ _).trans (Function.update_self ..)
  rw [hleft] at hatz
  -- the prefix has the second command, and then the key has the first one's value or the whole command's
  obtain rfl | rfl | rfl | hp : p = 0 ∨ p = 1 ∨ p = 2 ∨ 2 < p := by omega
  · exact hne₂ hatz
  · exact hne₂ ((Function.update_of_ne hfresh.1 _ _).symm.trans hatz)
  · exact hne₁ (hatkey.symm.trans hset)
  · rw [List.take_of_length_le (show (before ++ [w]).length ≤ p from hp), applyAll_append] at hatkey
    change WriteLog.apply (applyAll before m) w.effect key = value at hatkey
    by_cases hk : key = w.key
    · rw [WriteLog.apply, w.effect_fst, hk, Function.update_self] at hatkey
      exact he hk hatkey.symm
    · rw [WriteLog.apply, w.effect_fst, Function.update_of_ne hk, hset] at hatkey
      exact hne₁ hatkey.symm

/-- Behind some commands, a cut that is not harmless leaves the map after no
prefix of them all. -/
theorem exists_harmed {m : Bytes → Option Bytes} {w : Write} (hw : w.key ≠ []) {i : Nat}
    (h : ¬ HarmlessCut m w i) : ∃ before : List Write, (∀ w' ∈ before, w'.key ≠ []) ∧
      ∀ p, applyAll ((before ++ [w]).take p) m ≠ WriteLog.apply (applyAll before m) (w.torn i) := by
  by_cases hle : i ≤ w.command.length + 1
  · -- the empty key, which no command writes
    refine ⟨[], by simp, fun p he => h (.inr (.inr (.inr ⟨hle, ?_⟩)))⟩
    have hall : ∀ w' ∈ ([] ++ [w]).take p, w'.key ≠ [] := fun w' hw' =>
      List.mem_singleton.mp (List.mem_of_mem_take hw') ▸ hw
    have hat := congrFun he []
    rw [applyAll_nil_key hall, Write.torn_of_le hle, WriteLog.apply, Function.update_self] at hat
    exact hat
  · exact exists_harmed_key m (Write.isWord_torn hw (by omega)) (Write.torn_snd_ne (by omega) h)

/-- **Recovery from a torn log**: over a snapshot, a command whose record was
cut after `i` bytes leaves the map after a prefix of the commands, whatever
was logged besides, exactly when that cut is harmless. A log that was cut in
no record is whole. -/
theorem torn_log_recovery {rdb : Option Bytes} {m : Bytes → Option Bytes} (hm : (⟨rdb, none⟩ : Disk).Recovers m)
    (cut : Option (Write × Nat)) (hcut : ∀ c ∈ cut, c.1.key ≠ []) :
    (∀ ws n, (∀ w ∈ ws, w.key ≠ []) → cutRecord ws n = cut →
        ∃ p, (⟨rdb, some ((logOf ws).take n)⟩ : Disk).Recovers (applyAll (ws.take p) m)) ↔
      ∀ c ∈ cut, HarmlessCut m c.1 c.2 := by
  constructor
  · rintro h ⟨w, i⟩ hc
    obtain rfl : cut = some (w, i) := hc
    by_contra hharm
    obtain ⟨before, hbefore, hne⟩ := exists_harmed (hcut _ rfl) hharm
    have hi : i < w.record.length := by
      have hlen : w.record.length = w.line.length + 1 := List.length_append
      have : ¬ w.line.length ≤ i := fun hle => hharm (.inr (.inl hle))
      omega
    have h0 : i ≠ 0 := fun h0 => hharm (.inl h0)
    have hat := Text.cut_append hi before []
    obtain ⟨p, hp⟩ := h (before ++ [w]) ((logOf before).length + i)
      (fun w' hw' => (List.mem_append.mp hw').elim (hbefore w') fun hw' => List.mem_singleton.mp hw' ▸ hcut _ rfl)
      (by rw [cutRecord, logOf, hat]; simp)
    rw [recovers_take hm, tornWrite, completeWrites, logOf, hat] at hp
    simp only [h0, if_false, List.getElem?_append_right (Nat.le_refl _), Nat.sub_self, List.getElem?_cons_zero,
      Option.map_some, Option.toList_some, List.take_left, WriteLog.replay_cons, WriteLog.replay_nil] at hp
    exact hne p hp.symm
  · intro h ws n hws hc
    cases cut with
    | some c => exact (h c rfl).recovers hm hws hc
    | none =>
      refine ⟨(Text.cut Write.record ws n).1, (recovers_take hm ws n).mpr ?_⟩
      rw [cutRecord, Option.map_eq_none_iff] at hc
      simp [tornWrite, hc, completeWrites]

/-- The record of a DELETE cut in its command word. -/
theorem torn_log_recovery_in_command :
    let ws := [Write.insert (ascii "a") (ascii "12") (by decide) (by decide), .delete (ascii "a") (by decide)]
    ∃ p, (⟨none, some ((logOf ws).take 15)⟩ : Disk).Recovers (applyAll (ws.take p) fun _ => none) := by
  intro ws
  have hm : (⟨none, none⟩ : Disk).Recovers fun _ => none := Disk.recovers_iff.mpr rfl
  refine (torn_log_recovery hm (some (.delete (ascii "a") (by decide), 3)) ?_).mpr ?_ ws 15 ?_ rfl
  · rintro c ⟨⟩
    decide
  · rintro c ⟨⟩
    exact .inr (.inr (.inr ⟨by decide, rfl⟩))
  · simp [ws, Write.key, ascii]

/-- A cut inside a value: the key gets a value that no command asked for. -/
theorem torn_log_shortens_value :
    ¬ ∃ i, (⟨none, some ((logOf [.insert (ascii "a") (ascii "12") (by decide) (by decide)]).take 10)⟩ : Disk).Recovers
      (applyAll ([Write.insert (ascii "a") (ascii "12") (by decide) (by decide)].take i) fun _ => none) := by
  intro hrec
  obtain ⟨i, h⟩ := hrec
  have ha := congrFun (Disk.recovers_iff.mp h) (ascii "a")
  cases i with
  | zero => exact absurd ha (by decide)
  | succ i =>
    rw [List.take_succ_cons, List.take_nil] at ha
    exact absurd ha (by decide)

/-! ## A log appended to after a crash -/

theorem aofWrite_lineOf_fst {command key : Bytes} (hc : IsWord command) (hk : IsWord key) (rest : Bytes) :
    (aofWrite (lineOf command key rest)).1 = key := by
  simp only [aofWrite_eq, fields, extract_lineOf hc, extract_field hk]

theorem aofWrite_lineOf_snd {command : Bytes} (hc : IsWord command) (hne : command ≠ INSERT) (key rest : Bytes) :
    (aofWrite (lineOf command key rest)).2 = none := by
  simp only [aofWrite_eq, fields, extract_lineOf hc, if_neg hne]

theorem IsWord.append {v w : Bytes} (hv : BlankFree v) (hw : IsWord w) : IsWord (v ++ w) := by
  refine ⟨by simp [hw.1], fun c hc => ?_⟩
  rcases List.mem_append.mp hc with hc | hc
  · exact hv c hc
  · exact hw.2 c hc

/-- The line that a torn record and the INSERT appended after it make
together: a removal, or an INSERT at the torn record's key, or at a key the
word INSERT has run into. -/
theorem aofWrite_fused (w : Write) {i : Nat} (hi : i ≠ 0) (key value : Bytes) :
    (aofWrite (w.line.take i ++ lineOf INSERT key value)).2 = none ∨
      (aofWrite (w.line.take i ++ lineOf INSERT key value)).1 = w.key ∨
      ∃ p, (aofWrite (w.line.take i ++ lineOf INSERT key value)).1 = p ++ INSERT := by
  rw [Write.line, take_lineOf]
  split
  · -- the command words run together
    have hl : w.command.take i ++ lineOf INSERT key value = lineOf (w.command.take i ++ INSERT) key value := by
      simp [lineOf]
    rw [hl]
    refine .inl (aofWrite_lineOf_snd (IsWord.append (w.isWord_command.2.take i) isWord_INSERT) (fun he => ?_) _ _)
    have hne : w.command ≠ [] := w.isWord_command.1
    have : (w.command.take i).length = 0 := by simpa using congrArg List.length he
    simp [List.length_eq_zero_iff, hi, hne] at this
  · split
    · -- the key runs into the command word
      have hl : w.command ++ space :: w.key.take (i - w.command.length - 1) ++ lineOf INSERT key value =
          lineOf w.command (w.key.take (i - w.command.length - 1) ++ INSERT) (key ++ space :: value) := by
        simp [lineOf]
      rw [hl]
      exact .inr (.inr ⟨_, aofWrite_lineOf_fst w.isWord_command
        (IsWord.append (w.storable.1.take _) isWord_INSERT) _⟩)
    · -- the new record is lost in the value
      have hl : lineOf w.command w.key (w.value.take (i - w.command.length - w.key.length - 2)) ++
            lineOf INSERT key value =
          lineOf w.command w.key (w.value.take (i - w.command.length - w.key.length - 2) ++ lineOf INSERT key value) := by
        simp [lineOf]
      rw [hl]
      cases w with
      | insert k v hk hv => exact .inr (.inl (aofWrite_lineOf_fst isWord_INSERT hk _))
      | delete k hk => exact .inl (aofWrite_lineOf_snd isWord_DELETE (by decide) _ _)

/-- A file that is not ended: whole records, then a record's line cut short. -/
theorem take_logOf_of_not_terminated {ws : List Write} {n : Nat} (h : ¬ Terminated ((logOf ws).take n)) :
    ∃ (w : Write) (i : Nat), i ≠ 0 ∧ (logOf ws).take n = logOf (completeWrites ws n) ++ w.line.take i := by
  have ht : (logOf ws).take n = logOf (completeWrites ws n) ++ Text.torn Write.record ws n :=
    Text.take_flatMap Write.record ws n
  rw [ht] at h ⊢
  cases hx : ws[(Text.cut Write.record ws n).1]? with
  | none => simp [Text.torn, hx, terminated_logOf] at h
  | some w =>
    have hl := Text.cut_lt hx
    simp only [Text.torn, hx] at h ⊢
    refine ⟨w, (Text.cut Write.record ws n).2, fun h0 => h ?_, ?_⟩
    · simpa [h0] using terminated_logOf _
    · have hlen : w.record.length = w.line.length + 1 := List.length_append
      have hle : (Text.cut Write.record ws n).2 ≤ w.line.length := by omega
      rw [show w.record = w.line ++ [newline] from rfl, List.take_append_of_le_length hle]

/-- **Writes after a recovery** all survive the next one exactly when the
log that the crash left ends where a line ends. It is appended to as it is,
so otherwise the first new record is read as part of the torn one. -/
theorem append_after_crash (rdb : Option Bytes) (ws : List Write) (n : Nat) :
    (∀ (more : List Write) m, (⟨rdb, some ((logOf ws).take n)⟩ : Disk).Recovers m →
        (logAll more ⟨rdb, some ((logOf ws).take n)⟩).Recovers (applyAll more m)) ↔
      Terminated ((logOf ws).take n) := by
  constructor
  · intro h
    by_contra hnt
    obtain ⟨w, i, hi, hA⟩ := take_logOf_of_not_terminated hnt
    rw [hA] at h
    -- one INSERT of a key that nothing else names
    let d : Disk := ⟨rdb, some (logOf (completeWrites ws n))⟩
    obtain ⟨key, hkey, hfresh, hend⟩ := exists_fresh_key (w.key :: d.writes.map Prod.fst)
    simp only [List.mem_cons, not_or] at hfresh
    have hrec := Disk.recovers_iff.mp (h [.insert key key hkey hkey] _ (Disk.recovers_iff.mpr rfl))
    have hnl : newline ∉ w.line.take i ++ lineOf INSERT key key := by
      simp only [List.mem_append, not_or]
      exact ⟨fun hm => w.newline_not_mem_line (List.mem_of_mem_take hm),
        newline_not_mem_lineOf isWord_INSERT.2 hkey.2 hkey.2⟩
    have hwrites : (⟨rdb, some (logOf (completeWrites ws n) ++ w.line.take i ++ record INSERT key key)⟩ : Disk).writes =
        d.writes ++ [aofWrite (w.line.take i ++ lineOf INSERT key key)] := by
      have hone := Text.records_record hnl []
      rw [Disk.writes, Disk.aofBytes, Option.getD_some, List.append_assoc, aofWrites_append (terminated_logOf _),
        ← List.append_assoc, record, ← List.append_assoc]
      congr 1
      rw [List.append_assoc] at hone
      rw [aofWrites, getlines, hone]
      rfl
    have hat := congrFun hrec key
    change replay (Disk.writes ⟨rdb, some (logOf (completeWrites ws n) ++ w.line.take i ++ record INSERT key key)⟩) _ _ =
      WriteLog.apply _ (key, some key) key at hat
    rw [hwrites, WriteLog.replay_append, WriteLog.apply, Function.update_self, WriteLog.replay_cons,
      WriteLog.replay_nil, WriteLog.apply] at hat
    by_cases hk : key = (aofWrite (w.line.take i ++ lineOf INSERT key key)).1
    · rcases aofWrite_fused w hi key key with hn | hw | ⟨p, hp⟩
      · rw [← hk, Function.update_self, hn] at hat
        cases hat
      · exact hfresh.1 (hk.trans hw)
      · exact hend p (hk.trans hp)
    · rw [Function.update_of_ne hk, WriteLog.replay_of_last_none] at hat
      · cases hat
      · refine WriteLog.last_eq_none_iff.mpr fun w' hw' he => hfresh.2 ?_
        exact List.mem_map.mpr ⟨w', hw', he⟩
  · intro ht more m hm
    rw [Disk.recovers_iff] at hm ⊢
    rw [writes_logAll (d := ⟨rdb, some ((logOf ws).take n)⟩) ht, WriteLog.replay_append, hm]
    rfl

/-- An INSERT appended to a log whose last value was cut short: the two
records are read as one, and the acknowledged write is gone. -/
theorem append_after_crash_fuses :
    let ws := [Write.insert (ascii "a") (ascii "12") (by decide) (by decide)]
    let d : Disk := ⟨none, some ((logOf ws).take 10)⟩
    let more := [Write.insert (ascii "b") (ascii "2") (by decide) (by decide)]
    ∃ m, d.Recovers m ∧ ¬ (logAll more d).Recovers (applyAll more m) := by
  refine ⟨_, Disk.recovers_iff.mpr rfl, fun h => ?_⟩
  exact absurd (congrFun (Disk.recovers_iff.mp h) (ascii "b")) (by decide)

end KvDatabase
