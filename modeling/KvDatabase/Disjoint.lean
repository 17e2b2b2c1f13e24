/-
Threads on one table, each with keys of its own. Keys of different threads
may share a chain, so what the table is built of does depend on who came
first; what `get` answers and what `forEach` visits does not.
-/
import KvDatabase.FiniteMap
import KvDatabase.Lib.Interleave

namespace KvDatabase

open Interleave

/-- A call on the table, under its lock. -/
inductive TableCall
  | insert (key value : Bytes)
  | remove (key : Bytes)
  | get (key : Bytes)
deriving DecidableEq, Repr

namespace TableCall

def key : TableCall → Bytes
  | insert key _ => key
  | remove key => key
  | get key => key

/-- What the call does to the table, and what a `get` returns. -/
def perform (h : HashMap) : TableCall → HashMap × Option Bytes
  | insert key value => (h.insert key value, none)
  | remove key => (h.remove key, none)
  | get key => (h, some (h.get key))

/-- A call sees and changes its own key only, whatever else is in the chain. -/
theorem perform_local : Local perform HashMap.contents key where
  frame := by
    intro h c k hk
    cases c with
    | insert key value => simp [perform, WriteLog.apply, Function.update_of_ne (show k ≠ key from hk)]
    | remove key => simp [perform, WriteLog.apply, Function.update_of_ne (show k ≠ key from hk)]
    | get key => rfl
  result := by
    intro h h' c he
    cases c with
    | insert key value => rfl
    | remove key => rfl
    | get key =>
      simp only [TableCall.key] at he
      simp only [perform, HashMap.get_eq, he]
  change := by
    intro h h' c he
    cases c with
    | insert key value => simp [perform, TableCall.key, WriteLog.apply]
    | remove key => simp [perform, TableCall.key, WriteLog.apply]
    | get key => exact he

end TableCall

/-- Tables of one map are visited alike, up to order. -/
theorem HashMap.visits_perm {h h' : HashMap} (he : h.contents = h'.contents) : h.visits.Perm h'.visits := by
  have hnodup : ∀ h : HashMap, h.visits.Nodup := fun h => by
    have hkeys := h.nodup_keys
    rw [visits_eq]
    exact List.Nodup.of_map Prod.fst (by rwa [List.map_map])
  refine (List.perm_ext_iff_of_nodup (hnodup h) (hnodup h')).mpr fun ⟨k, v⟩ => ?_
  rw [mem_visits_iff, mem_visits_iff, he]

/-- **Threads on disjoint keys.** For any two interleavings of the threads'
calls on one table, of any capacity: in both, each thread's calls return what
they return alone, and the entries `forEach` visits in the end are the
same. -/
theorem disjoint_threads {T : Type} [DecidableEq T] (h : HashMap) {programs : T → List TableCall}
    (ha : Apart TableCall.key programs) {calls calls' : List (T × TableCall)} (hi : Interleaves programs calls)
    (hi' : Interleaves programs calls') :
    (∀ t, part t (run TableCall.perform h calls).2 = (alone TableCall.perform h (programs t)).2 ∧
      part t (run TableCall.perform h calls').2 = (alone TableCall.perform h (programs t)).2) ∧
    (run TableCall.perform h calls).1.visits.Perm (run TableCall.perform h calls').1.visits := by
  constructor
  · intro t
    exact ⟨results_alone TableCall.perform_local ha hi h t, results_alone TableCall.perform_local ha hi' h t⟩
  · exact HashMap.visits_perm (view_run_congr TableCall.perform_local ha hi hi' h)

/-- Two threads on the one chain of a table, and the two orders of their
first calls: the chain tells them apart. -/
theorem disjoint_threads_example :
    let h := HashMap.empty 1 Nat.one_pos
    let programs : Bool → List TableCall := fun t =>
      if t then [.insert [97] [1], .get [97]] else [.insert [98] [2], .remove [97, 98]]
    let calls := [(true, .insert [97] [1]), (false, .insert [98] [2]), (true, .get [97]), (false, .remove [97, 98])]
    let calls' := [(false, .insert [98] [2]), (true, .insert [97] [1]), (false, .remove [97, 98]), (true, .get [97])]
    ((∀ t, part t (run TableCall.perform h calls).2 = (alone TableCall.perform h (programs t)).2 ∧
      part t (run TableCall.perform h calls').2 = (alone TableCall.perform h (programs t)).2) ∧
    (run TableCall.perform h calls).1.visits.Perm (run TableCall.perform h calls').1.visits) ∧
    (run TableCall.perform h calls).1.visits ≠ (run TableCall.perform h calls').1.visits := by
  intro h programs calls calls'
  refine ⟨disjoint_threads h ?_ ?_ ?_, by decide⟩
  · unfold Apart; decide
  · intro t; cases t <;> rfl
  · intro t; cases t <;> rfl

end KvDatabase
