/-
A table in memory from its constructor to its destructor: any number of
threads call it under its lock, and then it is destroyed.

That the chains are in order is `Implements`, one call at a time; here is what
it comes to over whole runs. No call faults, the results are those of a finite
map, no node is leaked, no call stays in a loop or waits for ever, and the
destructor frees each node once.
-/
import KvDatabase.Nodes
import Mathlib.Data.Set.Card

namespace KvDatabase

namespace Nodes

open Linearize (Event Entry Linearizes Locked LockedStep Phase)
open Cells (Cell Heap Segment Holds addresses)

variable {T Address : Type} [DecidableEq T] [DecidableEq Address]

/-- Threads `T` on a new table, in memory with `garbage` in it. -/
abbrev Reachable (size : Nat) (garbage : Nat → Option Address)
    (s : Locked T (Memory Address) Call (Pc Address) Result) : Prop :=
  Locked.Reachable code (Memory.construct size garbage) s

/-! ## The constructor -/

omit [DecidableEq T] [DecidableEq Address] in
/-- The loop of the constructor nulls the array, whatever was in it. -/
theorem table_construct (size : Nat) (garbage : Nat → Option Address) (i : Nat) :
    (Memory.construct size garbage).table i = if i < size then none else garbage i := by
  simp only [Memory.construct]
  induction size with
  | zero => rfl
  | succ n ih =>
    rw [List.range_succ, List.foldl_append, List.foldl_cons, List.foldl_nil]
    by_cases hi : i = n
    · subst hi
      rw [Function.update_self, if_pos (Nat.lt_succ_self i)]
    · rw [Function.update_of_ne hi, ih]
      exact if_congr (by omega) rfl rfl

omit [DecidableEq T] [DecidableEq Address] in
theorem represents_construct (size : Nat) (pos : 0 < size) (garbage : Nat → Option Address) :
    Represents (.empty size pos) (Memory.construct size garbage) := by
  refine ⟨fun _ => [], rfl, fun _ => rfl, ?_, ?_, ?_, ?_⟩
  · intro i
    show (Memory.construct size garbage).table i = none
    rw [table_construct]
    exact if_pos i.isLt
  · intro i j a ha; cases ha
  · intro i a ha; cases ha
  · simp [Memory.construct]

/-! ## A run -/

/-- An `insert`, and a `forEach` of another thread called while it runs: on a
table of one bucket, with garbage in the array. -/
theorem run_reachable : ∃ s : Locked Bool (Memory Nat) Call (Pc Nat) Result, Reachable 1 (fun _ => some 7) s ∧
    s.history = [.call 0 (.insert [97] [1]), .call 1 .forEach, .ret 0 .done, .ret 1 (.visited [([97], [1])])] ∧
    s.mutex.writer = none ∧ s.shared.heap 5 = some ⟨⟨[97], [1]⟩, none⟩ := by
  let ls : List (LockedStep Bool Call Nat) := [.call true (.insert [97] [1]), .acquire true, .step true 0,
    .call false .forEach, .step true 0, .step true 5, .step true 0, .step true 0, .release true, .acquire false,
    .ret true, .step false 0, .step false 0, .step false 0, .step false 0, .step false 0, .release false, .ret false]
  have h : Reachable 1 (fun _ => some 7) _ := Runs.Reach.start.exec (C := fun _ _ => True) ls rfl (by simp)
  exact ⟨_, h, rfl, rfl, rfl⟩

/-! ## What is allocated -/

section

variable {h : HashMap} {m : Memory Address}

omit [DecidableEq T] [DecidableEq Address] in
/-- The addresses in the chains, bucket by bucket. -/
theorem nodup_addresses {n : Nat} {head : Fin n → Option Address} {heap : Heap Address Node}
    {cells : Fin n → List (Address × Node)} {loose : List Address} (hh : Holds heap head cells loose) :
    ((List.finRange n).flatMap fun i => addresses (cells i)).Nodup := by
  rw [List.nodup_flatMap]
  refine ⟨fun i _ => (hh.chain i).nodup, (List.nodup_finRange n).imp fun {i j} hij => ?_⟩
  intro a hi hj
  exact hij (hh.disjoint i j a hi hj)

omit [DecidableEq T] in
/-- A table at rest has as many nodes allocated as there are in its chains. -/
theorem Represents.ncard (hr : Represents h m) : {a | m.heap a ≠ none}.ncard = h.nodes.length := by
  obtain ⟨cells, hs⟩ := hr
  have hset : {a | m.heap a ≠ none} =
      ((List.finRange h.capacity).flatMap fun i => addresses (cells i)).toFinset := by
    ext a
    rw [Set.mem_ofPred_eq, hs.holds.allocated]
    simp
  rw [hset, Set.ncard_coe_finset, List.toFinset_card_of_nodup (nodup_addresses hs.holds), HashMap.nodes,
    List.length_flatMap, List.length_flatMap]
  simp only [hs.length_table, List.length_map]

end

/-- The keys that a table holds are as many as its nodes. -/
theorem ncard_keys (h : HashMap) : {k | h.contents k ≠ none}.ncard = h.nodes.length := by
  have hset : {k | h.contents k ≠ none} = (h.nodes.map Node.key).toFinset := by
    ext k
    rw [Set.mem_ofPred_eq, List.coe_toFinset, Set.mem_ofPred_eq, List.mem_map]
    constructor
    · intro hk
      obtain ⟨v, hv⟩ := Option.ne_none_iff_exists'.mp hk
      exact ⟨⟨k, v⟩, (h.mem_nodes_iff k v).mpr hv, rfl⟩
    · rintro ⟨⟨k, v⟩, hn, rfl⟩
      rw [(h.mem_nodes_iff k v).mp hn]
      exact Option.some_ne_none v
  rw [hset, Set.ncard_coe_finset, List.toFinset_card_of_nodup h.nodup_keys, List.length_map]

/-! ## Runs -/

section Runs

variable {size : Nat} {garbage : Nat → Option Address} {s : Locked T (Memory Address) Call (Pc Address) Result}

/-- What every run of the threads has: an order of the calls, and the memory
as the table that they leave. -/
theorem Reachable.represents (h : Reachable size garbage s) (pos : 0 < size) :
    ∃ order table, Linearizes perform (.empty size pos) s.history order table ∧
      Locked.Guarded code Represents (fun call h m pc => ∃ n, During h m n call pc) s table := by
  obtain ⟨o, ⟨hcalls, hguarded⟩, hsound⟩ := h.simulates implements (represents_construct size pos garbage)
  exact ⟨o.order, o.st, hcalls.history ▸ hsound.linearizes, hguarded⟩

/-- **No call ever faults**, however the threads' steps interleave and
whatever addresses the allocations return. -/
theorem no_fault (h : Reachable size garbage s) (pos : 0 < size) (t : T) (id : Nat) (call : Call) :
    s.threads t ≠ .inside id call .fault := by
  obtain ⟨order, table, -, hguarded⟩ := h.represents pos
  intro ht
  obtain ⟨n, hd⟩ := hguarded.run t call .fault (by rw [ht]; rfl)
  cases hd

theorem no_fault_example : ∃ s : Locked Bool (Memory Nat) Call (Pc Nat) Result,
    s.history = [.call 0 (.insert [97] [1]), .call 1 .forEach, .ret 0 .done, .ret 1 (.visited [([97], [1])])] ∧
    ∀ t id call, s.threads t ≠ .inside id call .fault := by
  obtain ⟨s, h, hh, -⟩ := run_reachable
  exact ⟨s, hh, no_fault h Nat.one_pos⟩

/-- The calls that change the table. -/
def writes (order : List (Entry Call Result)) : List MapCall :=
  order.filterMap fun e =>
    match e.op with
    | .insert key value => some (.insert key value)
    | .remove key => some (.remove key)
    | .get _ | .forEach => none

/-- What a call returns after others: `get` the live value, or the empty
string, and `forEach` the live entries, each once. -/
def Answers (before : List (Entry Call Result)) : Call → Result → Prop
  | .insert .., result | .remove _, result => result = .done
  | .get key, result => ∃ value, result = .value value ∧ (∀ v, Live (writes before) key v → value = v) ∧
      ((¬∃ v, Live (writes before) key v) → value = [])
  | .forEach, result => ∃ entries, result = .visited entries ∧ (entries.map Prod.fst).Nodup ∧
      ∀ k v, (k, v) ∈ entries ↔ Live (writes before) k v

theorem perform_fst (h : HashMap) (e : Entry Call Result) : (perform h e.op).1 = h.calls (writes [e]) := by
  obtain ⟨id, op, res⟩ := e
  cases op <;> rfl

/-- A legal order leaves the table that its writes do. -/
theorem table_of_legal {h h' : HashMap} {order : List (Entry Call Result)} (hl : Linearize.Legal perform h order h') :
    h' = h.calls (writes order) := by
  induction order generalizing h with
  | nil => exact hl
  | cons e es ih =>
    have hsplit : writes (e :: es) = writes [e] ++ writes es := List.filterMap_append (l := [e])
    rw [ih hl.2, perform_fst, hsplit, HashMap.calls, HashMap.calls, HashMap.calls, List.foldl_append]

/-- In a legal order on a new table, each call returns what the finite map
that the calls before it describe has. -/
theorem answers_of_legal {size : Nat} {pos : 0 < size} {table : HashMap} {before after : List (Entry Call Result)}
    {e : Entry Call Result} (hl : Linearize.Legal perform (.empty size pos) (before ++ e :: after) table) :
    Answers before e.op e.res := by
  obtain ⟨mid, hbefore, hres, -⟩ := Linearize.legal_append.mp hl
  obtain rfl := table_of_legal hbefore
  have hmap := HashMap.represents_calls size pos (writes before)
  rw [hres]
  cases e.op with
  | insert key value => rfl
  | remove key => rfl
  | get key => exact ⟨_, rfl, hmap.get_live key, hmap.get_absent key⟩
  | forEach => exact ⟨_, rfl, hmap.once, hmap.listed⟩

/-- **The table is a linearizable finite map**: in every run there is an order
of the calls that respects real time, in which each returns what the calls
before it say; so a `forEach` sees one moment of the table, every entry of it
once. -/
theorem threads_linearizable (h : Reachable size garbage s) (pos : 0 < size) :
    ∃ order table, Linearizes perform (.empty size pos) s.history order table ∧
      ∀ before e after, order = before ++ e :: after → Answers before e.op e.res := by
  obtain ⟨order, table, hlin, -⟩ := h.represents pos
  refine ⟨order, table, hlin, fun before e after he => ?_⟩
  have hlegal := hlin.legal
  rw [he] at hlegal
  exact answers_of_legal hlegal

theorem threads_linearizable_example : ∃ s : Locked Bool (Memory Nat) Call (Pc Nat) Result,
    s.history = [.call 0 (.insert [97] [1]), .call 1 .forEach, .ret 0 .done, .ret 1 (.visited [([97], [1])])] ∧
    ∃ order table, Linearizes perform (.empty 1 Nat.one_pos) s.history order table ∧
      ∀ before e after, order = before ++ e :: after → Answers before e.op e.res := by
  obtain ⟨s, h, hh, -⟩ := run_reachable
  exact ⟨s, hh, threads_linearizable h Nat.one_pos⟩

/-- **No node is leaked**: when no thread has the lock for itself, there are as
many nodes allocated as the calls so far left keys. -/
theorem no_leak (h : Reachable size garbage s) (pos : 0 < size) (hw : s.mutex.writer = none) :
    ∃ order table, Linearizes perform (.empty size pos) s.history order table ∧
      {a | s.shared.heap a ≠ none}.ncard = {k | ∃ v, Live (writes order) k v}.ncard := by
  obtain ⟨order, table, hlin, hguarded⟩ := h.represents pos
  refine ⟨order, table, hlin, ?_⟩
  have hkeys : {k | ∃ v, Live (writes order) k v} = {k | table.contents k ≠ none} := by
    ext k
    rw [table_of_legal hlin.legal, Set.mem_ofPred_eq, Set.mem_ofPred_eq, Option.ne_none_iff_exists']
    exact exists_congr fun v => (HashMap.contents_calls_empty size pos (writes order) k v).symm
  rw [(hguarded.rest hw).ncard, hkeys, ncard_keys]

theorem no_leak_example : ∃ s : Locked Bool (Memory Nat) Call (Pc Nat) Result, s.mutex.writer = none ∧
    s.shared.heap 5 = some ⟨⟨[97], [1]⟩, none⟩ ∧
    ∃ order table, Linearizes perform (.empty 1 Nat.one_pos) s.history order table ∧
      {a | s.shared.heap a ≠ none}.ncard = {k | ∃ v, Live (writes order) k v}.ncard := by
  obtain ⟨s, h, -, hw, hheap⟩ := run_reachable
  exact ⟨s, hw, hheap, no_leak h Nat.one_pos hw⟩

/-! ## Calls end -/

omit [DecidableEq T] in
theorem Represents.exists_free [Infinite Address] {h : HashMap} {m : Memory Address} (hr : Represents h m) :
    ∃ a, m.heap a = none := by
  obtain ⟨cells, hs⟩ := hr
  obtain ⟨a, ha⟩ := Infinite.exists_notMem_finset
    ((List.finRange h.capacity).flatMap fun i => addresses (cells i)).toFinset
  refine ⟨a, by_contra fun hne => ha ?_⟩
  rcases (hs.holds.allocated a).mp hne with hl | hi
  · cases hl
  · simpa using hi

omit [DecidableEq T] in
/-- A call that is not over can go on, if there is memory. -/
theorem During.goes [Infinite Address] {h : HashMap} {m : Memory Address} {n : Nat} {call : Call} {pc : Pc Address}
    (hd : During h m n call pc) (hr : code.result pc = none) : ∃ address, (Nodes.step m pc address).isSome := by
  by_cases hn : ∃ key value i, pc = .new key value i
  · obtain ⟨key, value, i, rfl⟩ := hn
    cases hd with
    | new hrep =>
      obtain ⟨a, ha⟩ := hrep.exists_free
      exact ⟨a, by simp [Nodes.step, ha]⟩
  · have hret : ∀ result, pc ≠ .returned result := by rintro result rfl; cases hr
    obtain ⟨r, k, hturn, -⟩ := hd.turn (fun key value i he => hn ⟨key, value, i, he⟩) hret
    obtain ⟨a, -⟩ : ∃ a : Address, a ∉ (∅ : Finset Address) := Infinite.exists_notMem_finset ∅
    exact ⟨a, by rw [step_of_turn hturn]; rfl⟩

theorem stepsFrom_le (h : HashMap) (i : Nat) : stepsFrom h i ≤ stepsFrom h 0 := by
  refine antitone_nat_of_succ_le (fun j => ?_) (Nat.zero_le i)
  by_cases hj : j < h.capacity
  · rw [stepsFrom_eq h ⟨j, hj⟩]
    exact Nat.le_add_left _ _
  · rw [stepsFrom_of_le h (by omega), stepsFrom_of_le h (by omega)]

omit [DecidableEq T] [DecidableEq Address] in
theorem During.le_steps {h : HashMap} {m : Memory Address} {n : Nat} {call : Call} {pc : Pc Address}
    (hd : During h m n call pc) : n ≤ steps h call := by
  cases hd with
  | start => exact Nat.le_refl _
  | insert hs hc =>
    rw [steps, hs.table_eq hc, List.length_append, List.length_map, List.length_map]
    omega
  | new => rw [steps]; omega
  | link => rw [steps]; omega
  | head => rw [steps]; omega
  | get hs hc =>
    rw [steps, hs.table_eq hc, List.length_append, List.length_map, List.length_map]
    omega
  | remove hs hc =>
    rw [steps, hs.table_eq hc, List.length_append, List.length_map, List.length_map]
    omega
  | delete => rw [steps]; omega
  | forEach => exact Nat.le_succ_of_le (stepsFrom_le h _)
  | visit hs hc =>
    rename_i i _ _ xs ys _
    have heq := stepsFrom_eq h i
    have hle := stepsFrom_le h i
    rw [hs.table_eq hc, List.length_append, List.length_map, List.length_map] at heq
    rw [steps]
    omega
  | returned => exact Nat.zero_le _

/-- **Every call ends**: as long as a thread is in a call, one of them can go
on, and once a call has the lock it is over after as many steps of its own as
its chain, or for `forEach` the table, is long. -/
theorem calls_end [Infinite Address] (h : Reachable size garbage s) (pos : 0 < size) :
    (∀ t, s.threads t ≠ .idle → ∃ u, s.threads u ≠ .idle ∧ Locked.Enabled code s u) ∧
      ∃ order table, Linearizes perform (.empty size pos) s.history order table ∧
        ∀ t id call pc, s.threads t = .inside id call pc → ∀ ls s', Runs.exec (Locked.step code) s ls = some s' →
          .release t ∉ ls → ls.countP (·.inside t) ≤ steps table call := by
  obtain ⟨order, table, hlin, hguarded⟩ := h.represents pos
  refine ⟨fun t ht => hguarded.progress ?_ ht, order, table, hlin, fun t id call pc ht ls s' hs hr => ?_⟩
  · rintro call h m pc ⟨n, hd⟩ hres
    exact hd.goes hres
  · obtain ⟨n, hd⟩ := hguarded.run t call pc (by rw [ht]; rfl)
    exact Nat.le_trans (hguarded.steps_le (fun n call h m pc => During h m n call pc) implements During.step ht hd
      hs hr) hd.le_steps

/-- A thread in the loop of `forEach`, and one that waits for it. -/
theorem calls_end_example : ∃ s : Locked Bool (Memory Nat) Call (Pc Nat) Result,
    s.threads false = .inside 1 .forEach (.visit 0 (some 5) []) ∧ s.threads true = .called 2 (.remove [97]) ∧
    (∀ t, s.threads t ≠ .idle → ∃ u, s.threads u ≠ .idle ∧ Locked.Enabled code s u) ∧
      ∃ order table, Linearizes perform (.empty 1 Nat.one_pos) s.history order table ∧
        ∀ t id call pc, s.threads t = .inside id call pc → ∀ ls s', Runs.exec (Locked.step code) s ls = some s' →
          .release t ∉ ls → ls.countP (·.inside t) ≤ steps table call := by
  let ls : List (LockedStep Bool Call Nat) := [.call true (.insert [97] [1]), .acquire true, .step true 0,
    .call false .forEach, .step true 0, .step true 5, .step true 0, .step true 0, .release true, .acquire false,
    .ret true, .step false 0, .step false 0, .call true (.remove [97])]
  have h : Reachable 1 (fun _ => some 7) _ := Runs.Reach.start.exec (C := fun _ _ => True) ls rfl (by simp)
  exact ⟨_, rfl, rfl, calls_end h Nat.one_pos⟩

end Runs

/-! ## The destructor -/

section Destructor

open Runs (exec)

/-- The turns of `~HashMap`. -/
abbrev destroys (n : Nat) (s : Memory Address × Destroy Address × List Address) :
    Option (Memory Address × Destroy Address × List Address) :=
  exec (fun s (_ : Unit) => destroy s) s (List.replicate n ())

omit [DecidableEq T] in
theorem destroys_add {k n : Nat} {s s' s'' : Memory Address × Destroy Address × List Address}
    (h : destroys k s = some s') (h' : destroys n s' = some s'') : destroys (k + n) s = some s'' := by
  rw [destroys, List.replicate_add]
  exact Runs.exec_append.mpr ⟨s', h, h'⟩

omit [DecidableEq T] in
/-- The inner loop frees a chain, its head first. -/
theorem destroys_chain {n : Nat} (i : Fin n) {ys : List (Address × Node)} {m : Memory Address}
    {head : Fin n → Option Address} {cells : Fin n → List (Address × Node)} (hh : Holds m.heap head cells [])
    (hc : cells i = ys) (freed : List Address) :
    ∃ heap, destroys (ys.length + 1) (m, .node i (head i), freed) =
        some ({ m with heap }, .bucket (i + 1), freed ++ addresses ys) ∧
      Holds heap (Function.update head i none) (Function.update cells i []) [] := by
  induction ys generalizing m head cells freed with
  | nil =>
    have hnull : head i = none := by
      have hchain := hh.chain i
      rwa [hc] at hchain
    refine ⟨m.heap, ?_, ?_⟩
    · rw [hnull]
      simp [destroys, destroy]
    · rwa [← hnull, ← hc, Function.update_eq_self, Function.update_eq_self]
  | cons y ys ih =>
    obtain ⟨a, node⟩ := y
    have hchain := hh.chain i
    rw [hc] at hchain
    obtain ⟨ha, next, hheap, -⟩ := hchain
    have hfreed := (hh.unlinkHead hc hheap).free List.not_mem_nil
    have hrest :=
      ih (m := { m with heap := Function.update m.heap a none }) hfreed (Function.update_self ..) (freed ++ [a])
    rw [Function.update_self, Function.update_idem, Function.update_idem] at hrest
    obtain ⟨heap, hrun, hholds⟩ := hrest
    refine ⟨heap, ?_, hholds⟩
    rw [ha, List.length_cons, Nat.add_comm (ys.length + 1) 1]
    refine destroys_add (k := 1) ?_ (hrun.trans ?_)
    · simp only [destroys, List.replicate_one, Runs.exec_cons, destroy, hheap, Runs.exec_nil, Option.bind_some]
    · simp

omit [DecidableEq T] in
/-- The outer loop, from bucket `i` on: the buckets before it are empty. -/
theorem destroys_buckets {n d i : Nat} (hd : i + d = n) {m : Memory Address} (hn : m.capacity = n)
    {head : Fin n → Option Address} {cells : Fin n → List (Address × Node)} (hh : Holds m.heap head cells [])
    (hhead : ∀ j : Fin n, i ≤ j → head j = m.table j) (hcells : ∀ j : Fin n, j < i → cells j = [])
    (freed : List Address) :
    ∃ k m', destroys k (m, .bucket i, freed) =
        some (m', .deleted, freed ++ ((List.finRange n).drop i).flatMap fun j => addresses (cells j)) ∧
      m'.heap = fun _ => none := by
  induction d generalizing i m head cells freed with
  | zero =>
    obtain rfl : i = n := by omega
    refine ⟨1, m, ?_, ?_⟩
    · simp [destroys, destroy, hn, List.drop_of_length_le]
    · funext a
      refine by_contra fun hne => ?_
      rcases (hh.allocated a).mp hne with hl | ⟨j, hj⟩
      · cases hl
      · rw [hcells j j.isLt] at hj
        cases hj
  | succ d ih =>
    have hi : i < n := by omega
    obtain ⟨heap, hrun, hh'⟩ := destroys_chain ⟨i, hi⟩ hh rfl freed
    have hlater : ∀ j : Fin n, j ≠ ⟨i, hi⟩ → ∀ c : List (Address × Node), Function.update cells ⟨i, hi⟩ c j = cells j :=
      fun j hj c => Function.update_of_ne hj c cells
    obtain ⟨k, m', hrest, hheap⟩ := ih (i := i + 1) (m := { m with heap }) (by omega) hn hh'
      (fun j hj => by
        rw [Function.update_of_ne (by rintro rfl; exact Nat.not_succ_le_self i hj)]
        exact hhead j (Nat.le_of_succ_le hj))
      (fun j hj => by
        by_cases hji : j = ⟨i, hi⟩
        · rw [hji, Function.update_self]
        · rw [hlater j hji]
          exact hcells j (Nat.lt_of_le_of_ne (Nat.le_of_lt_succ hj) fun he => hji (Fin.ext he)))
      (freed ++ addresses (cells ⟨i, hi⟩))
    have hfirst : destroys 1 (m, .bucket i, freed) = some (m, .node i (head ⟨i, hi⟩), freed) := by
      simp [destroys, destroy, hn, hi, Memory.bucket, hhead ⟨i, hi⟩ (Nat.le_refl i)]
    refine ⟨1 + ((cells ⟨i, hi⟩).length + 1 + k), m', destroys_add hfirst (destroys_add hrun (hrest.trans ?_)), hheap⟩
    have hlen : i < (List.finRange n).length := by rwa [List.length_finRange]
    have hsame : ((List.finRange n).drop (i + 1)).flatMap (fun j => addresses (Function.update cells ⟨i, hi⟩ [] j)) =
        ((List.finRange n).drop (i + 1)).flatMap fun j => addresses (cells j) := by
      refine List.flatMap_congr fun j hj => ?_
      have hij : (i : Nat) + 1 ≤ j := by
        obtain ⟨l, hl, rfl⟩ := List.mem_iff_getElem.mp hj
        simp
      rw [hlater j (by rintro rfl; exact Nat.not_succ_le_self i hij)]
    rw [hsame, List.append_assoc, List.drop_eq_getElem_cons hlen, List.flatMap_cons, List.getElem_finRange]
    rfl

omit [DecidableEq T] in
/-- On a table at rest the destructor frees each node once, and nothing else. -/
theorem Represents.destroyed {h : HashMap} {m : Memory Address} (hr : Represents h m) :
    ∃ k m' freed, destroys k (m, .bucket 0, []) = some (m', .deleted, freed) ∧ (m'.heap = fun _ => none) ∧
      freed.Nodup ∧ ∀ a, a ∈ freed ↔ m.heap a ≠ none := by
  obtain ⟨cells, hs⟩ := hr
  obtain ⟨k, m', hrun, hheap⟩ := destroys_buckets (i := 0) (Nat.zero_add _) hs.capacity hs.holds (fun _ _ => rfl)
    (fun _ hj => absurd hj (Nat.not_lt_zero _)) []
  rw [List.drop_zero, List.nil_append] at hrun
  refine ⟨k, m', _, hrun, hheap, nodup_addresses hs.holds, fun a => ?_⟩
  rw [hs.holds.allocated]
  simp

/-- **The destructor frees every node once**, whatever the threads did to the
table before: it ends without a fault, and nothing is left allocated. -/
theorem destructor_frees_all {size : Nat} {garbage : Nat → Option Address}
    {s : Locked T (Memory Address) Call (Pc Address) Result} (h : Reachable size garbage s) (pos : 0 < size)
    (hw : s.mutex.writer = none) :
    ∃ k m' freed, destroys k (s.shared, .bucket 0, []) = some (m', .deleted, freed) ∧ (m'.heap = fun _ => none) ∧
      freed.Nodup ∧ ∀ a, a ∈ freed ↔ s.shared.heap a ≠ none := by
  obtain ⟨order, table, -, hguarded⟩ := h.represents pos
  exact (hguarded.rest hw).destroyed

theorem destructor_frees_all_example : ∃ s : Locked Bool (Memory Nat) Call (Pc Nat) Result,
    s.shared.heap 5 = some ⟨⟨[97], [1]⟩, none⟩ ∧
    ∃ k m' freed, destroys k (s.shared, .bucket 0, []) = some (m', .deleted, freed) ∧ (m'.heap = fun _ => none) ∧
      freed.Nodup ∧ ∀ a, a ∈ freed ↔ s.shared.heap a ≠ none := by
  obtain ⟨s, h, -, hw, hheap⟩ := run_reachable
  exact ⟨s, hheap, destructor_frees_all h Nat.one_pos hw⟩

end Destructor

end Nodes

end KvDatabase
