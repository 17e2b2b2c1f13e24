/-
The store over the server's whole life: handlers on any number of workers,
snapshots, kills between their steps and the starts after them.

A write is in the map, then in the log, then acknowledged, and a kill may come
after any of the three. What is kept is told in the clients' terms: at every
key the map and the files hold what the last acknowledged write left, or what
a write taken up since would (`acknowledged_kept`).

Three things the server does not see to are taken for granted. Writes that are
under way together are to different keys (as when each key has one client, who
waits for each reply). No snapshot is taken while a write is in the map only,
and no write is made or logged while one is taken, so that a snapshot is one
step. And a line of the log is one step too: no kill falls inside it, or inside
a snapshot. A kill that does is in `Crash`, and a write that comes into the
middle of a snapshot in `Interleaving`.
-/
import KvDatabase.Interleaving

namespace KvDatabase

open WriteLog (replay)

/-- The server's store and workers, over its kills and starts. -/
structure Life (T : Type) where
  threads : Threads T
  /-- By key: what the last acknowledged write left there, and what each write
  taken up since would. -/
  told : Bytes → List (Option Bytes)

inductive LifeStep (T : Type)
  /-- The three steps of a write. The line is logged whole. -/
  | update (t : T) (w : Write)
  | log (t : T) (w : Write)
  | reply (t : T) (w : Write)
  /-- `createSnapshot`, from its first step to its last, with nothing between. -/
  | snapshot
  /-- The process ends where it is, and another is started on its files. -/
  | kill (capacity : Nat) (pos : 0 < capacity)

namespace Life

variable {T : Type}

def start (st : Store) : Life T := ⟨.start st, fun k => [st.hashMap.contents k]⟩

variable [DecidableEq T]

def step (s : Life T) : LifeStep T → Option (Life T)
  | .update t w => (s.threads.step (.update t w)).map fun threads =>
      { threads, told := Function.update s.told w.key (s.told w.key ++ [w.effect.2]) }
  | .log t w => (s.threads.step (.log t w)).map fun threads => { s with threads }
  | .reply t w => (s.threads.step (.reply t w)).map fun threads =>
      { threads, told := Function.update s.told w.key [w.effect.2] }
  | .snapshot => some { s with threads := { s.threads with disk := s.threads.disk.createSnapshot s.threads.hashMap } }
  | .kill capacity pos =>
    some { s with threads := .start (Store.operate ⟨s.threads.hashMap, s.threads.disk⟩ (.restart capacity pos)) }

/-- A worker has a write to `k`, not acknowledged yet. -/
def At (s : Life T) (t : T) (k : Bytes) : Prop :=
  ∃ w : Write, w.key = k ∧ (s.threads.handlers t = .updated w ∨ s.threads.handlers t = .logged w)

omit [DecidableEq T] in
theorem not_at_start {st : Store} {told : Bytes → List (Option Bytes)} {t : T} {k : Bytes} :
    ¬ At ⟨.start st, told⟩ t k := by
  rintro ⟨w, -, hw⟩
  rcases hw with hw | hw <;> cases hw

omit [DecidableEq T] in
/-- Where a worker has a write, it was if it had the write there. -/
theorem At.of_write {s s' : Life T} {u : T} {k : Bytes} (h : s'.At u k)
    (hw : ∀ {w}, s'.threads.handlers u = .updated w ∨ s'.threads.handlers u = .logged w →
      s.threads.handlers u = .updated w ∨ s.threads.handlers u = .logged w) : s.At u k := by
  obtain ⟨w, hk, hat⟩ := h
  exact ⟨w, hk, hw hat⟩

/-- A write is taken up when no other to its key is under way, and a snapshot
begun when each write in the map is in the log. -/
def Orderly (s : Life T) : LifeStep T → Prop
  | .update _ w => ∀ u, ¬ s.At u w.key
  | .snapshot => s.threads.Quiet
  | .log _ _ | .reply _ _ | .kill _ _ => True

/-- What the files recover to. -/
def recovered (s : Life T) : Bytes → Option Bytes := replay s.threads.disk.writes fun _ => none

omit [DecidableEq T] in
theorem recovers (s : Life T) : s.threads.disk.Recovers s.recovered := Disk.recovers_iff.mpr rfl

/-- What every state keeps. -/
structure Kept (s : Life T) : Prop where
  terminated : Terminated s.threads.disk.aofBytes
  /-- Two workers are at different keys. -/
  apart : ∀ {t u k}, s.At t k → s.At u k → t = u
  /-- A write under way is the last to its key. -/
  last : ∀ {t w}, s.threads.handlers t = .updated w ∨ s.threads.handlers t = .logged w →
    s.threads.hashMap.contents w.key = w.effect.2
  /-- The files lag behind at the keys of writes not logged yet, and nowhere
  else. -/
  settled : ∀ k, (∀ t w, s.threads.handlers t = .updated w → w.key ≠ k) →
    s.recovered k = s.threads.hashMap.contents k
  map : ∀ k, s.threads.hashMap.contents k ∈ s.told k
  files : ∀ k, s.recovered k ∈ s.told k

omit [DecidableEq T] in
theorem Kept.start {st : Store} (hst : st.Durable) : (start st : Life T).Kept := by
  have hr : (Life.start st : Life T).recovered = st.hashMap.contents := Disk.recovers_iff.mp hst.recovers
  refine ⟨hst.terminated, fun hu _ => absurd hu not_at_start, fun hw => ?_, fun k _ => ?_, fun k => ?_, fun k => ?_⟩
  · rcases hw with hw | hw <;> cases hw
  · exact congrFun hr k
  · exact List.mem_singleton_self _
  · rw [hr]
    exact List.mem_singleton_self _

variable {s : Life T}

/-- A write is made in the map. -/
theorem Kept.update (h : s.Kept) {t : T} {w : Write} (hi : s.threads.handlers t = .idle)
    (hfree : ∀ u, ¬ s.At u w.key) :
    Kept { threads := { s.threads with
             hashMap := w.update s.threads.hashMap, handlers := Function.update s.threads.handlers t (.updated w) }
           told := Function.update s.told w.key (s.told w.key ++ [w.effect.2]) } := by
  let s' : Life T :=
    { threads := { s.threads with
        hashMap := w.update s.threads.hashMap, handlers := Function.update s.threads.handlers t (.updated w) }
      told := Function.update s.told w.key (s.told w.key ++ [w.effect.2]) }
  have hself : s'.threads.handlers t = .updated w := Function.update_self ..
  have hother : ∀ {u}, u ≠ t → s'.threads.handlers u = s.threads.handlers u := fun hu => Function.update_of_ne hu ..
  -- a worker other than this one is where it was, and at another key
  have hat : ∀ {u k}, u ≠ t → s'.At u k → s.At u k ∧ k ≠ w.key := fun {u k} hu hat => by
    obtain ⟨w', hk, hw'⟩ := hat
    rw [hother hu] at hw'
    exact ⟨⟨w', hk, hw'⟩, fun he => hfree u ⟨w', hk.trans he, hw'⟩⟩
  have hkey : ∀ {k}, s'.At t k → k = w.key := fun hat => by
    obtain ⟨w', hk, hw'⟩ := hat
    rw [hself] at hw'
    rcases hw' with hw' | hw'
    · rw [← hk, HandlerPc.updated.inj hw']
    · cases hw'
  refine ⟨h.terminated, fun {u v k} hu hv => ?_, fun {u w'} hw' => ?_, fun k hk => ?_, fun k => ?_, fun k => ?_⟩
  · by_cases hut : u = t
    · by_cases hvt : v = t
      · rw [hut, hvt]
      · exact absurd (hkey (hut ▸ hu)) (hat hvt hv).2
    · by_cases hvt : v = t
      · exact absurd (hkey (hvt ▸ hv)) (hat hut hu).2
      · exact h.apart (hat hut hu).1 (hat hvt hv).1
  · by_cases hut : u = t
    · have hw : w' = w := by
        rw [hut, hself] at hw'
        rcases hw' with hw' | hw'
        · exact (HandlerPc.updated.inj hw').symm
        · cases hw'
      rw [hw]
      exact w.contents_update_self _
    · have hne := (hat hut ⟨w', rfl, hw'⟩).2
      rw [hother hut] at hw'
      exact (Write.contents_update_of_ne hne _).trans (h.last hw')
  · have hne : k ≠ w.key := fun he => hk t w hself he.symm
    refine (h.settled k fun u w' hw' => ?_).trans (Write.contents_update_of_ne hne _).symm
    have hut : u ≠ t := by
      rintro rfl
      rw [hi] at hw'
      cases hw'
    exact hk u w' ((hother hut).trans hw')
  · by_cases hk : k = w.key
    · subst hk
      simp only [Write.contents_update_self, Function.update_self]
      exact List.mem_append_right _ (List.mem_singleton_self _)
    · simp only [Write.contents_update_of_ne hk, Function.update_of_ne hk]
      exact h.map k
  · by_cases hk : k = w.key
    · subst hk
      simp only [Function.update_self]
      exact List.mem_append_left _ (h.files _)
    · simp only [Function.update_of_ne hk]
      exact h.files k

/-- A write made in the map is logged. -/
theorem Kept.log (h : s.Kept) {t : T} {w : Write} (hu : s.threads.handlers t = .updated w) :
    Kept { s with threads := { s.threads with
      disk := w.log s.threads.disk, handlers := Function.update s.threads.handlers t (.logged w) } } := by
  let s' : Life T := { s with threads := { s.threads with
    disk := w.log s.threads.disk, handlers := Function.update s.threads.handlers t (.logged w) } }
  have hself : s'.threads.handlers t = .logged w := Function.update_self ..
  have hother : ∀ {u}, u ≠ t → s'.threads.handlers u = s.threads.handlers u := fun hu => Function.update_of_ne hu ..
  -- every worker has the write it had
  have hwrite : ∀ {u w'}, s'.threads.handlers u = .updated w' ∨ s'.threads.handlers u = .logged w' →
      s.threads.handlers u = .updated w' ∨ s.threads.handlers u = .logged w' := fun {u w'} hw' => by
    by_cases hut : u = t
    · rw [hut, hself] at hw'
      rcases hw' with hw' | hw'
      · cases hw'
      · rw [hut, ← HandlerPc.logged.inj hw']
        exact .inl hu
    · rwa [hother hut] at hw'
  have hfiles : s'.recovered = Function.update s.recovered w.key w.effect.2 := by
    have hwrites : (w.log s.threads.disk).writes = s.threads.disk.writes ++ [w.effect] := writes_logAll h.terminated [w]
    rw [recovered, recovered, hwrites, WriteLog.replay_append, WriteLog.replay_cons, WriteLog.replay_nil,
      WriteLog.apply, Write.effect_fst]
  have hself' : s'.recovered w.key = s.threads.hashMap.contents w.key := by
    rw [hfiles, Function.update_self]
    exact (h.last (.inl hu)).symm
  refine ⟨?_, fun hu hv => h.apart (hu.of_write hwrite) (hv.of_write hwrite),
    fun hw' => h.last (hwrite hw'), fun k hk => ?_, h.map, fun k => ?_⟩
  · simpa using h.terminated.append w.terminated_record
  · by_cases hkw : k = w.key
    · rw [hkw]
      exact hself'
    · rw [hfiles, Function.update_of_ne hkw]
      refine h.settled k fun u w' hw' => ?_
      by_cases hut : u = t
      · rw [hut, hu] at hw'
        exact HandlerPc.updated.inj hw' ▸ Ne.symm hkw
      · exact hk u w' ((hother hut).trans hw')
  · by_cases hkw : k = w.key
    · rw [hkw, hself']
      exact h.map w.key
    · rw [hfiles, Function.update_of_ne hkw]
      exact h.files k

/-- A logged write is acknowledged. -/
theorem Kept.reply (h : s.Kept) {t : T} {w : Write} (hl : s.threads.handlers t = .logged w) :
    Kept { threads := { s.threads with handlers := Function.update s.threads.handlers t .idle }
           told := Function.update s.told w.key [w.effect.2] } := by
  let s' : Life T :=
    { threads := { s.threads with handlers := Function.update s.threads.handlers t .idle }
      told := Function.update s.told w.key [w.effect.2] }
  have hself : s'.threads.handlers t = .idle := Function.update_self ..
  have hother : ∀ {u}, u ≠ t → s'.threads.handlers u = s.threads.handlers u := fun hu => Function.update_of_ne hu ..
  have hwrite : ∀ {u w'}, s'.threads.handlers u = .updated w' ∨ s'.threads.handlers u = .logged w' →
      s.threads.handlers u = .updated w' ∨ s.threads.handlers u = .logged w' := fun {u w'} hw' => by
    by_cases hut : u = t
    · rw [hut, hself] at hw'
      rcases hw' with hw' | hw' <;> cases hw'
    · rwa [hother hut] at hw'
  have hmap : s.threads.hashMap.contents w.key = w.effect.2 := h.last (.inr hl)
  -- no other write to this key is under way, so the files have it too
  have hfiles : s.recovered w.key = w.effect.2 := by
    refine (h.settled w.key fun u w' hu hk => ?_).trans hmap
    have hut := h.apart ⟨w', hk, .inl hu⟩ ⟨w, rfl, .inr hl⟩
    rw [hut, hl] at hu
    cases hu
  refine ⟨h.terminated, fun hu hv => h.apart (hu.of_write hwrite) (hv.of_write hwrite),
    fun hw' => h.last (hwrite hw'), fun k hk => h.settled k fun u w' hu => ?_, fun k => ?_, fun k => ?_⟩
  · by_cases hut : u = t
    · rw [hut, hl] at hu
      cases hu
    · exact hk u w' ((hother hut).trans hu)
  · by_cases hkw : k = w.key
    · subst hkw
      simp only [Function.update_self, hmap]
      exact List.mem_singleton_self _
    · simp only [Function.update_of_ne hkw]
      exact h.map k
  · by_cases hkw : k = w.key
    · subst hkw
      simp only [Function.update_self]
      exact List.mem_singleton.mpr hfiles
    · simp only [Function.update_of_ne hkw]
      exact h.files k

omit [DecidableEq T] in
/-- A snapshot of a map whose every write is logged. -/
theorem Kept.snapshot (h : s.Kept) (hq : s.threads.Quiet) :
    Kept { s with threads := { s.threads with disk := s.threads.disk.createSnapshot s.threads.hashMap } } := by
  have hsame : s.recovered = s.threads.hashMap.contents :=
    funext fun k => h.settled k fun t w hw => absurd hw (hq t w)
  have hrecovers := createSnapshot_recovers (hsame ▸ s.recovers).allStorable s.threads.disk
  have hafter : recovered { s with
      threads := { s.threads with disk := s.threads.disk.createSnapshot s.threads.hashMap } } =
        s.threads.hashMap.contents := Disk.recovers_iff.mp hrecovers
  refine ⟨?_, h.apart, h.last, fun k _ => congrFun hafter k, h.map, fun k => ?_⟩
  · simp [createSnapshot_eq, Disk.aofBytes, Text.Terminated]
  · rw [hafter]
    exact h.map k

omit [DecidableEq T] in
/-- A start on the files that a kill left. -/
theorem Kept.kill (h : s.Kept) (capacity : Nat) (pos : 0 < capacity) :
    ({ s with
        threads := .start (Store.operate ⟨s.threads.hashMap, s.threads.disk⟩ (.restart capacity pos)) } :
      Life T).Kept := by
  let s' : Life T :=
    { s with threads := .start (Store.operate ⟨s.threads.hashMap, s.threads.disk⟩ (.restart capacity pos)) }
  have hfiles : s'.recovered = s.recovered := rfl
  have hmap : s'.threads.hashMap.contents = s.recovered := s.recovers.openLog capacity pos
  refine ⟨h.terminated, fun hu _ => absurd hu not_at_start, fun hw => ?_, fun k _ => ?_, fun k => ?_, h.files⟩
  · rcases hw with hw | hw <;> cases hw
  · exact (congrFun hfiles k).trans (congrFun hmap k).symm
  · exact congrFun hmap k ▸ h.files k

/-- Every orderly step keeps it. -/
theorem Kept.step (h : s.Kept) {l : LifeStep T} {s' : Life T} (ho : s.Orderly l) (hs : s.step l = some s') :
    s'.Kept := by
  cases l with
  | update t w =>
    obtain ⟨threads, ht, rfl⟩ := Option.map_eq_some_iff.mp hs
    obtain ⟨⟨hi, -⟩, rfl⟩ := Threads.step_update.mp ht
    exact h.update hi ho
  | log t w =>
    obtain ⟨threads, ht, rfl⟩ := Option.map_eq_some_iff.mp hs
    obtain ⟨hu, rfl⟩ := Threads.step_log.mp ht
    exact h.log hu
  | reply t w =>
    obtain ⟨threads, ht, rfl⟩ := Option.map_eq_some_iff.mp hs
    obtain ⟨hl, rfl⟩ := Threads.step_reply.mp ht
    exact h.reply hl
  | snapshot =>
    cases hs
    exact h.snapshot ho
  | kill capacity pos =>
    cases hs
    exact h.kill capacity pos

end Life

end KvDatabase
