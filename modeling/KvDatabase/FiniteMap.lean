/-
The table as a finite map: after any calls of `insert` and `remove` on a new
table, of any capacity, what `get` answers and what `forEach` visits is told
by the calls alone (`Live`).

Chains hold what the calls left (`contents_run`); that they hold it once,
and where `get` looks for it, is `HashMap`'s own two fields.
-/
import KvDatabase.HashMap
import Mathlib.Data.List.Nodup
import Mathlib.Data.List.FinRange

namespace KvDatabase

open WriteLog (replay)

/-- A call that changes the table. -/
inductive MapCall
  | insert (key value : Bytes)
  | remove (key : Bytes)
deriving DecidableEq, Repr

namespace MapCall

def run (h : HashMap) : MapCall → HashMap
  | insert key value => h.insert key value
  | remove key => h.remove key

def key : MapCall → Bytes
  | insert key _ => key
  | remove key => key

/-- What the call leaves at its key. -/
def effect : MapCall → Bytes × Option Bytes
  | insert key value => (key, some value)
  | remove key => (key, none)

@[simp] theorem effect_fst (c : MapCall) : c.effect.1 = c.key := by cases c <;> rfl

theorem effect_eq_some {c : MapCall} {k v : Bytes} : c.effect = (k, some v) ↔ c = .insert k v := by
  cases c <;> simp [effect]

theorem contents_run (h : HashMap) (c : MapCall) : (c.run h).contents = WriteLog.apply h.contents c.effect := by
  cases c <;> simp [run, effect]

theorem capacity_run (h : HashMap) (c : MapCall) : (c.run h).capacity = h.capacity := by cases c <;> rfl

end MapCall

/-- The table the calls leave. -/
def HashMap.calls (h : HashMap) (cs : List MapCall) : HashMap := cs.foldl (fun h c => c.run h) h

/-- `v` was the last value inserted for `k`, and `k` was not removed since. -/
def Live (cs : List MapCall) (k v : Bytes) : Prop :=
  ∃ before after, cs = before ++ .insert k v :: after ∧ ∀ c ∈ after, c.key ≠ k

theorem live_iff {cs : List MapCall} {k v : Bytes} :
    Live cs k v ↔ WriteLog.last k (cs.map MapCall.effect) = some (some v) := by
  rw [WriteLog.last_eq_some_iff]
  constructor
  · intro hlive
    obtain ⟨before, after, rfl, ha⟩ := hlive
    refine ⟨before.map MapCall.effect, after.map MapCall.effect, by simp [MapCall.effect], ?_⟩
    intro w hw
    obtain ⟨c, hc, rfl⟩ := List.mem_map.mp hw
    rw [MapCall.effect_fst]
    exact ha c hc
  · intro hlast
    obtain ⟨before, after, he, ha⟩ := hlast
    obtain ⟨before, rest, rfl, rfl, hrest⟩ := List.map_eq_append_iff.mp he
    obtain ⟨c, after, rfl, hc, rfl⟩ := List.map_eq_cons_iff.mp hrest
    rw [MapCall.effect_eq_some.mp hc]
    refine ⟨before, after, rfl, fun c hc => ?_⟩
    rw [← MapCall.effect_fst]
    exact ha _ (List.mem_map_of_mem hc)

namespace HashMap

theorem contents_calls (h : HashMap) (cs : List MapCall) :
    (h.calls cs).contents = replay (cs.map MapCall.effect) h.contents := by
  induction cs generalizing h with
  | nil => rfl
  | cons c cs ih =>
    rw [calls, List.foldl_cons, ← calls, ih, MapCall.contents_run]
    rfl

theorem capacity_calls (h : HashMap) (cs : List MapCall) : (h.calls cs).capacity = h.capacity := by
  induction cs generalizing h with
  | nil => rfl
  | cons c cs ih => rw [calls, List.foldl_cons, ← calls, ih, MapCall.capacity_run]

/-- The map that calls on a new table leave: the live values. -/
theorem contents_calls_empty (size : Nat) (pos : 0 < size) (cs : List MapCall) (k v : Bytes) :
    ((empty size pos).calls cs).contents k = some v ↔ Live cs k v := by
  rw [contents_calls, live_iff, WriteLog.replay_eq, contents_empty]
  cases WriteLog.last k (cs.map MapCall.effect) with
  | none => simp
  | some o => simp

/-- No key is in the table twice: not in one chain, and not in two, its hash
being one. -/
theorem nodup_keys (h : HashMap) : (h.nodes.map Node.key).Nodup := by
  rw [nodes, List.map_flatMap, List.nodup_flatMap]
  refine ⟨fun i _ => h.unique i, ?_⟩
  refine (List.nodup_finRange h.capacity).imp fun {i j} hij => ?_
  intro key hi hj
  obtain ⟨n, hn, rfl⟩ := List.mem_map.mp hi
  obtain ⟨n', hn', he⟩ := List.mem_map.mp hj
  exact hij ((h.placed i n hn).symm.trans (he ▸ h.placed j n' hn'))

/-- What `forEach` hands to its callback, in order. -/
def visits (h : HashMap) : List (Bytes × Bytes) := h.forEach (fun out key value => out ++ [(key, value)]) []

theorem visits_eq (h : HashMap) : h.visits = h.nodes.map fun n => (n.key, n.value) := by
  have key : ∀ (ns : List Node) (out : List (Bytes × Bytes)),
      ns.foldl (fun out n => out ++ [(n.key, n.value)]) out = out ++ ns.map fun n => (n.key, n.value) := by
    intro ns
    induction ns with
    | nil => simp
    | cons n ns ih =>
      intro out
      rw [List.foldl_cons, ih, List.map_cons, List.append_assoc, List.singleton_append]
  rw [visits, forEach, key, List.nil_append]

theorem mem_visits_iff (h : HashMap) (k v : Bytes) : (k, v) ∈ h.visits ↔ h.contents k = some v := by
  rw [← h.mem_nodes_iff, visits_eq, List.mem_map]
  constructor
  · intro hmem
    obtain ⟨n, hn, he⟩ := hmem
    obtain ⟨rfl, rfl⟩ := Prod.mk.inj he
    exact hn
  · intro hn
    exact ⟨_, hn, rfl⟩

/-- The table holds the finite map that the calls describe. -/
structure Represents (h : HashMap) (size : Nat) (cs : List MapCall) : Prop where
  /-- The table has the buckets it was made with. -/
  capacity : h.capacity = size
  /-- An entry is in its key's bucket, one of these. -/
  placed : ∀ i, ∀ n ∈ h.table i, hashFunction h.pos n.key = i ∧ (hashFunction h.pos n.key : Nat) < size
  unique : (h.nodes.map Node.key).Nodup
  get_live : ∀ k v, Live cs k v → h.get k = v
  get_absent : ∀ k, (¬∃ v, Live cs k v) → h.get k = []
  /-- `forEach` visits the live entries and nothing else, -/
  listed : ∀ k v, (k, v) ∈ h.visits ↔ Live cs k v
  /-- and each of their keys once. -/
  once : (h.visits.map Prod.fst).Nodup

/-- **The table refines a finite map**: after any calls of `insert` and
`remove`, with any byte strings, each entry is in its bucket, no key is in
the table twice, `get` answers the live value, or the empty string, and
`forEach` visits the live entries, each once. -/
theorem represents_calls (size : Nat) (pos : 0 < size) (cs : List MapCall) :
    ((empty size pos).calls cs).Represents size cs where
  capacity := capacity_calls _ cs
  placed := by
    intro i n hn
    refine ⟨HashMap.placed _ i n hn, ?_⟩
    exact Nat.lt_of_lt_of_eq (Fin.is_lt _) (capacity_calls (empty size pos) cs)
  unique := nodup_keys _
  get_live := by
    intro k v hl
    rw [get_eq, (contents_calls_empty size pos cs k v).mpr hl]
    rfl
  get_absent := by
    intro k hn
    have hk : ((empty size pos).calls cs).contents k = none := by
      cases hc : ((empty size pos).calls cs).contents k with
      | none => rfl
      | some v => exact absurd ⟨v, (contents_calls_empty size pos cs k v).mp hc⟩ hn
    rw [get_eq, hk]
    rfl
  listed := by
    intro k v
    rw [mem_visits_iff]
    exact contents_calls_empty size pos cs k v
  once := by
    have hu := nodup_keys ((empty size pos).calls cs)
    rw [visits_eq, List.map_map]
    exact hu

/-- A table of one bucket, where keys collide, one of them with a byte above
127, and each is inserted, overwritten or removed. -/
theorem represents_calls_example :
    ((empty 1 Nat.one_pos).calls
      [.insert [200] [1], .insert [97] [2], .insert [200] [3], .remove [97]]).Represents 1
      [.insert [200] [1], .insert [97] [2], .insert [200] [3], .remove [97]] ∧
    ((empty 1 Nat.one_pos).calls
      [.insert [200] [1], .insert [97] [2], .insert [200] [3], .remove [97]]).visits = [([200], [3])] :=
  ⟨represents_calls 1 Nat.one_pos _, by decide⟩

end HashMap

end KvDatabase
