/-
The table as it is in memory (`RAM/HashMap.h`, `RAM/HashMap.cpp`): an array of
heads, and nodes that are allocated, linked, read and freed one pointer at a
time, by threads that take the `shared_mutex` for each call.

A step that reads through a null or dangling pointer, or outside the array,
faults. Every place of a call has its own facts about the chains (`During`);
that each step leads from the facts of one place to those of the next is the
whole argument (`During.step`), and the lock carries it to any interleaving.
-/
import KvDatabase.FiniteMap
import KvDatabase.Lib.Cells
import KvDatabase.Lib.SharedMutex

namespace KvDatabase

namespace Nodes

open Cells (Cell Heap Segment Holds addresses)

variable {Address : Type}

/-- The members of `HashMap`, and the nodes in the heap. The array has
`capacity` elements. -/
structure Memory (Address : Type) where
  capacity : Nat
  table : Nat → Option Address
  heap : Heap Address Node

/-- A call, made under the lock. -/
inductive Call
  | insert (key value : Bytes)
  | get (key : Bytes)
  | remove (key : Bytes)
  | forEach
deriving DecidableEq, Repr

inductive Result
  | done
  | value (value : Bytes)
  /-- What the callback was handed, in order. -/
  | visited (entries : List (Bytes × Bytes))
deriving DecidableEq, Repr

/-- Where a call is, with its local variables. -/
inductive Pc (Address : Type)
  | start (call : Call)
  /-- In the loop of `insert`, at `curr`. -/
  | insert (key value : Bytes) (hashValue : Nat) (curr : Option Address)
  /-- The key is in no node: to allocate one, -/
  | new (key value : Bytes) (hashValue : Nat)
  /-- to point it at the head, -/
  | link (hashValue : Nat) (newNode : Address)
  /-- to make it the head. -/
  | head (hashValue : Nat) (newNode : Address)
  | get (key : Bytes) (curr : Option Address)
  | remove (key : Bytes) (hashValue : Nat) (prev curr : Option Address)
  /-- The node is unlinked. -/
  | delete (curr : Address)
  /-- At the head of the loop over the buckets. -/
  | forEach (i : Nat) (entries : List (Bytes × Bytes))
  | visit (i : Nat) (current : Option Address) (entries : List (Bytes × Bytes))
  | returned (result : Result)
  | fault

namespace Memory

def hashFunction (m : Memory Address) (key : Bytes) : Nat := (hashValue key).toNat % m.capacity

/-- `table[i]`. -/
def bucket (m : Memory Address) (i : Nat) : Option (Option Address) :=
  if i < m.capacity then some (m.table i) else none

def setBucket (m : Memory Address) (i : Nat) (p : Option Address) : Option (Memory Address) :=
  if i < m.capacity then some { m with table := Function.update m.table i p } else none

/-- `HashMap(size)`, on an array with anything in it: the loop nulls it. -/
def construct (size : Nat) (garbage : Nat → Option Address) : Memory Address where
  capacity := size
  table := (List.range size).foldl (fun table i => Function.update table i none) garbage
  heap := fun _ => none

end Memory

variable [DecidableEq Address]

def Memory.store (m : Memory Address) (a : Address) (c : Cell Address Node) : Memory Address :=
  { m with heap := Function.update m.heap a (some c) }

/-- A step that is not an allocation; `none` is undefined behaviour. -/
def turn (m : Memory Address) : Pc Address → Option (Memory Address × Pc Address)
  | .start (.insert key value) =>
    (m.bucket (m.hashFunction key)).map fun curr => (m, .insert key value (m.hashFunction key) curr)
  | .start (.get key) => (m.bucket (m.hashFunction key)).map fun curr => (m, .get key curr)
  | .start (.remove key) =>
    (m.bucket (m.hashFunction key)).map fun curr => (m, .remove key (m.hashFunction key) none curr)
  | .start .forEach => some (m, .forEach 0 [])
  | .insert key value hashValue none => some (m, .new key value hashValue)
  | .insert key value hashValue (some curr) =>
    (m.heap curr).map fun node =>
      if node.data.key = key then (m.store curr ⟨{ node.data with value }, node.next⟩, .returned .done)
      else (m, .insert key value hashValue node.next)
  | .link hashValue newNode =>
    (m.bucket hashValue).bind fun head =>
      (m.heap newNode).map fun node => (m.store newNode ⟨node.data, head⟩, .head hashValue newNode)
  | .head hashValue newNode => (m.setBucket hashValue (some newNode)).map fun m => (m, .returned .done)
  | .get _ none => some (m, .returned (.value []))
  | .get key (some curr) =>
    (m.heap curr).map fun node =>
      (m, if node.data.key = key then .returned (.value node.data.value) else .get key node.next)
  | .remove _ _ _ none => some (m, .returned .done)
  | .remove key hashValue prev (some curr) =>
    (m.heap curr).bind fun node =>
      if node.data.key = key then
        match prev with
        | none => (m.setBucket hashValue node.next).map fun m => (m, .delete curr)
        | some prev => (m.heap prev).map fun before => (m.store prev ⟨before.data, node.next⟩, .delete curr)
      else some (m, .remove key hashValue (some curr) node.next)
  | .delete curr =>
    (m.heap curr).map fun _ => ({ m with heap := Function.update m.heap curr none }, .returned .done)
  | .forEach i entries =>
    if i < m.capacity then (m.bucket i).map fun current => (m, .visit i current entries)
    else some (m, .returned (.visited entries))
  | .visit i none entries => some (m, .forEach (i + 1) entries)
  | .visit i (some current) entries =>
    (m.heap current).map fun node => (m, .visit i node.next (entries ++ [(node.data.key, node.data.value)]))
  | .new .. | .returned _ | .fault => none

/-- A step, `address` being what an allocation returns: one that is not in
use. -/
def step (m : Memory Address) (pc : Pc Address) (address : Address) : Option (Memory Address × Pc Address) :=
  match pc with
  | .new key value hashValue =>
    if m.heap address = none then some (m.store address ⟨⟨key, value⟩, none⟩, .link hashValue address) else none
  | .returned _ | .fault => none
  | pc => some ((turn m pc).getD (m, .fault))

/-- The calls as code under the lock: `get` and `forEach` share it. -/
def code : Linearize.Code (Memory Address) Call (Pc Address) Address Result where
  start := .start
  exclusive
    | .insert .. | .remove _ => true
    | .get _ | .forEach => false
  step := step
  result
    | .returned result => some result
    | _ => none

/-- What a call is to do. -/
def perform (h : HashMap) : Call → HashMap × Result
  | .insert key value => (h.insert key value, .done)
  | .get key => (h, .value (h.get key))
  | .remove key => (h.remove key, .done)
  | .forEach => (h, .visited h.visits)

/-- Where `~HashMap` is in its loops. -/
inductive Destroy (Address : Type)
  | bucket (i : Nat)
  | node (i : Nat) (curr : Option Address)
  /-- The array is deleted too. -/
  | deleted
  | fault

/-- A turn of a loop of `~HashMap`, and the nodes deleted so far. -/
def destroy : Memory Address × Destroy Address × List Address → Option (Memory Address × Destroy Address × List Address)
  | (m, .bucket i, freed) =>
    if i < m.capacity then
      match m.bucket i with
      | some curr => some (m, .node i curr, freed)
      | none => some (m, .fault, freed)
    else some (m, .deleted, freed)
  | (m, .node i none, freed) => some (m, .bucket (i + 1), freed)
  | (m, .node i (some curr), freed) =>
    match m.heap curr with
    | some node => some ({ m with heap := Function.update m.heap curr none }, .node i node.next, freed ++ [curr])
    | none => some (m, .fault, freed)
  | (_, .deleted, _) | (_, .fault, _) => none

/-! ## Chains, split where a loop is -/

theorem chainUpdate_append {key value : Bytes} {xs ys : List Node} (hx : key ∉ xs.map Node.key) :
    chainUpdate key value (xs ++ ys) = (chainUpdate key value ys).map (xs ++ ·) := by
  induction xs with
  | nil => simp
  | cons x xs ih =>
    simp only [List.map_cons, List.mem_cons, not_or] at hx
    rw [List.cons_append, chainUpdate, if_neg (Ne.symm hx.1), ih hx.2, Option.map_map]
    rfl

theorem chainInsert_found {key value : Bytes} {xs ys : List Node} {n : Node} (hx : key ∉ xs.map Node.key)
    (hn : n.key = key) : chainInsert key value (xs ++ n :: ys) = xs ++ { n with value } :: ys := by
  rw [chainInsert, chainUpdate_append hx, chainUpdate, if_pos hn]
  rfl

theorem chainInsert_new {key value : Bytes} {chain : List Node} (hc : key ∉ chain.map Node.key) :
    chainInsert key value chain = ⟨key, value⟩ :: chain := by
  rw [chainInsert, chainUpdate_eq_none_iff.mpr hc]
  rfl

theorem chainGet_append {key : Bytes} {xs ys : List Node} (hx : key ∉ xs.map Node.key) :
    chainGet key (xs ++ ys) = chainGet key ys := by
  induction xs with
  | nil => rfl
  | cons x xs ih =>
    simp only [List.map_cons, List.mem_cons, not_or] at hx
    rw [List.cons_append, chainGet, if_neg (Ne.symm hx.1), ih hx.2]

theorem chainRemove_append {key : Bytes} {xs ys : List Node} (hx : key ∉ xs.map Node.key) :
    chainRemove key (xs ++ ys) = xs ++ chainRemove key ys := by
  induction xs with
  | nil => rfl
  | cons x xs ih =>
    simp only [List.map_cons, List.mem_cons, not_or] at hx
    rw [List.cons_append, chainRemove, if_neg (Ne.symm hx.1), ih hx.2, List.cons_append]

/-! ## What the memory stands for -/

/-- The nodes in the heap are the chains of `h`, and `loose` ones besides. -/
structure Stands (h : HashMap) (m : Memory Address) (cells : Fin h.capacity → List (Address × Node))
    (loose : List Address) : Prop where
  capacity : m.capacity = h.capacity
  nodes : ∀ i, (cells i).map Prod.snd = h.table i
  holds : Holds m.heap (fun i : Fin h.capacity => m.table i) cells loose

def Represents (h : HashMap) (m : Memory Address) : Prop := ∃ cells, Stands h m cells []

/-- What `forEach` has handed out before bucket `i`. -/
def visitsBefore (h : HashMap) (i : Nat) : List (Bytes × Bytes) :=
  (((List.finRange h.capacity).take i).flatMap h.table).map fun n => (n.key, n.value)

/-- The steps `forEach` has before it at bucket `i`. -/
def stepsFrom (h : HashMap) (i : Nat) : Nat :=
  ((List.finRange h.capacity).drop i).foldr (fun j n => (h.table j).length + 2 + n) 1

/-- The steps of a call under the lock, at most. -/
def steps (h : HashMap) : Call → Nat
  | .insert key _ => (h.table (hashFunction h.pos key)).length + 5
  | .get key | .remove key => (h.table (hashFunction h.pos key)).length + 2
  | .forEach => stepsFrom h 0 + 1

/-- The facts at each place of a call that began on `h`, with at most this many
steps to its end. -/
inductive During (h : HashMap) (m : Memory Address) : Nat → Call → Pc Address → Prop
  | start {call} : Represents h m → During h m (steps h call) call (.start call)
  | insert {key value curr cells xs ys} : Stands h m cells [] → cells (hashFunction h.pos key) = xs ++ ys →
      Segment m.heap curr ys none → key ∉ (xs.map Prod.snd).map Node.key →
      During h m (ys.length + 4) (.insert key value) (.insert key value (hashFunction h.pos key) curr)
  | new {key value} : Represents h m → key ∉ (h.table (hashFunction h.pos key)).map Node.key →
      During h m 3 (.insert key value) (.new key value (hashFunction h.pos key))
  | link {key value newNode cells} : Stands h m cells [newNode] → m.heap newNode = some ⟨⟨key, value⟩, none⟩ →
      key ∉ (h.table (hashFunction h.pos key)).map Node.key →
      During h m 2 (.insert key value) (.link (hashFunction h.pos key) newNode)
  | head {key value newNode cells} : Stands h m cells [newNode] →
      m.heap newNode = some ⟨⟨key, value⟩, m.table (hashFunction h.pos key)⟩ →
      key ∉ (h.table (hashFunction h.pos key)).map Node.key →
      During h m 1 (.insert key value) (.head (hashFunction h.pos key) newNode)
  | get {key curr cells xs ys} : Stands h m cells [] → cells (hashFunction h.pos key) = xs ++ ys →
      Segment m.heap curr ys none → key ∉ (xs.map Prod.snd).map Node.key →
      During h m (ys.length + 1) (.get key) (.get key curr)
  | remove {key curr cells xs ys} : Stands h m cells [] → cells (hashFunction h.pos key) = xs ++ ys →
      Segment m.heap curr ys none → key ∉ (xs.map Prod.snd).map Node.key →
      During h m (ys.length + 1) (.remove key)
        (.remove key (hashFunction h.pos key) (xs.getLast?.map Prod.fst) curr)
  | delete {key curr cells} : Stands (h.remove key) m cells [curr] → During h m 1 (.remove key) (.delete curr)
  | forEach {i} : Represents h m → i ≤ h.capacity →
      During h m (stepsFrom h i) .forEach (.forEach i (visitsBefore h i))
  | visit {i current cells xs ys} : Stands h m cells [] → cells i = xs ++ ys → Segment m.heap current ys none →
      During h m (ys.length + 1 + stepsFrom h (i + 1)) .forEach
        (.visit i current (visitsBefore h i ++ (xs.map Prod.snd).map fun n => (n.key, n.value)))
  | returned {call} : Represents (perform h call).1 m → During h m 0 call (.returned (perform h call).2)

/-- A turn from here, and fewer steps than `n` from there. -/
def Goes (h : HashMap) (m : Memory Address) (n : Nat) (call : Call) (pc : Pc Address) : Prop :=
  ∃ r k, turn m pc = some r ∧ k < n ∧ During h r.1 k call r.2

/-! ## A step keeps the facts -/

section

variable {h : HashMap} {m : Memory Address} {cells : Fin h.capacity → List (Address × Node)} {loose : List Address}

omit [DecidableEq Address] in
theorem Stands.hashFunction_eq (hs : Stands h m cells loose) (key : Bytes) :
    m.hashFunction key = (hashFunction h.pos key : Nat) := by
  rw [Memory.hashFunction, hs.capacity]
  rfl

omit [DecidableEq Address] in
theorem Stands.bucket_eq (hs : Stands h m cells loose) (i : Fin h.capacity) : m.bucket i = some (m.table i) := by
  rw [Memory.bucket, hs.capacity, if_pos i.isLt]

omit [DecidableEq Address] in
theorem Stands.setBucket_eq (hs : Stands h m cells loose) (i : Fin h.capacity) (p : Option Address) :
    m.setBucket i p = some { m with table := Function.update m.table i p } := by
  rw [Memory.setBucket, hs.capacity, if_pos i.isLt]

omit [DecidableEq Address] in
/-- The heads after a write to the array. -/
theorem heads_update {n : Nat} (table : Nat → Option Address) (i : Fin n) (p : Option Address) :
    (fun j : Fin n => Function.update table (i : Nat) p j) = Function.update (fun j : Fin n => table j) i p :=
  Function.update_comp_eq_of_injective table Fin.val_injective i p

omit [DecidableEq Address] in
/-- The nodes after a change of one chain. -/
theorem nodes_update {n : Nat} {cells : Fin n → List (Address × Node)} {table : Fin n → List Node}
    (h : ∀ i, (cells i).map Prod.snd = table i) {i : Fin n} {c : List (Address × Node)} {chain : List Node}
    (hc : c.map Prod.snd = chain) (j : Fin n) :
    (Function.update cells i c j).map Prod.snd = Function.update table i chain j := by
  by_cases hj : j = i
  · subst hj
    rw [Function.update_self, Function.update_self, hc]
  · rw [Function.update_of_ne hj, Function.update_of_ne hj, h]

omit [DecidableEq Address] in
/-- The chain of a bucket, at its head. -/
theorem Stands.segment (hs : Stands h m cells loose) (i : Fin h.capacity) :
    Segment m.heap (m.table i) (cells i) none := hs.holds.chain i

omit [DecidableEq Address] in
theorem Stands.table_eq (hs : Stands h m cells loose) {i : Fin h.capacity} {xs ys : List (Address × Node)}
    (hc : cells i = xs ++ ys) : h.table i = xs.map Prod.snd ++ ys.map Prod.snd := by
  rw [← hs.nodes, hc, List.map_append]

theorem step_of_turn {pc : Pc Address} {r : Memory Address × Pc Address} (h : turn m pc = some r) (a : Address) :
    step m pc a = some r := by
  cases pc with
  | new => cases h
  | returned => cases h
  | fault => cases h
  | _ => rw [step, h, Option.getD_some] <;> simp

omit [DecidableEq Address] in
theorem Stands.length_table (hs : Stands h m cells loose) (i : Fin h.capacity) :
    (h.table i).length = (cells i).length := by rw [← hs.nodes, List.length_map]

theorem Represents.start_turn (hr : Represents h m) (call : Call) : Goes h m (steps h call) call (.start call) := by
  obtain ⟨cells, hs⟩ := hr
  cases call with
  | insert key value =>
    refine ⟨(m, .insert key value (hashFunction h.pos key) (m.table (hashFunction h.pos key))), _, ?_, ?_,
      .insert hs (List.nil_append _).symm (hs.segment _) (by simp)⟩
    · simp only [turn, hs.hashFunction_eq, hs.bucket_eq, Option.map_some]
    · rw [steps, hs.length_table]; omega
  | get key =>
    refine ⟨(m, .get key (m.table (hashFunction h.pos key))), _, ?_, ?_,
      .get hs (List.nil_append _).symm (hs.segment _) (by simp)⟩
    · simp only [turn, hs.hashFunction_eq, hs.bucket_eq, Option.map_some]
    · rw [steps, hs.length_table]; omega
  | remove key =>
    refine ⟨(m, .remove key (hashFunction h.pos key) none (m.table (hashFunction h.pos key))), _, ?_, ?_,
      .remove hs (List.nil_append _).symm (hs.segment _) (by simp)⟩
    · simp only [turn, hs.hashFunction_eq, hs.bucket_eq, Option.map_some]
    · rw [steps, hs.length_table]; omega
  | forEach => exact ⟨(m, .forEach 0 []), _, rfl, Nat.lt_succ_self _, .forEach ⟨cells, hs⟩ (Nat.zero_le _)⟩

/-- A turn of the loop of `insert`: the nodes passed have other keys. -/
theorem Stands.insert_turn (hs : Stands h m cells []) {key value : Bytes} {curr : Option Address}
    {xs ys : List (Address × Node)} (hc : cells (hashFunction h.pos key) = xs ++ ys)
    (hseg : Segment m.heap curr ys none) (hx : key ∉ (xs.map Prod.snd).map Node.key) :
    Goes h m (ys.length + 4) (.insert key value) (.insert key value (hashFunction h.pos key) curr) := by
  cases ys with
  | nil =>
    obtain rfl : curr = none := hseg
    refine ⟨_, _, rfl, Nat.lt_succ_self _, .new ⟨cells, hs⟩ ?_⟩
    rwa [hs.table_eq hc, List.map_nil, List.append_nil]
  | cons y ys =>
    obtain ⟨a, node⟩ := y
    obtain ⟨rfl, next, hheap, hnext⟩ := hseg
    by_cases hk : node.key = key
    · refine ⟨(m.store a ⟨{ node with value }, next⟩, .returned .done), 0,
        by simp only [turn, hheap, Option.map_some, if_pos hk], Nat.succ_pos _,
        .returned ⟨_, hs.capacity, nodes_update hs.nodes ?_, hs.holds.write hc hheap _⟩⟩
      rw [hs.table_eq hc, List.map_cons, chainInsert_found hx hk, List.map_append, List.map_cons]
    · exact ⟨(m, .insert key value (hashFunction h.pos key) next), ys.length + 4,
        by simp only [turn, hheap, Option.map_some, if_neg hk], by simp,
        .insert hs (hc.trans (List.append_cons xs (a, node) ys)) hnext (by simpa [Ne.symm hk] using hx)⟩

/-- The allocation. -/
theorem Represents.new_step (hr : Represents h m) {key value : Bytes}
    (hk : key ∉ (h.table (hashFunction h.pos key)).map Node.key) {newNode : Address} (hn : m.heap newNode = none) :
    During h (m.store newNode ⟨⟨key, value⟩, none⟩) 2 (.insert key value)
      (.link (hashFunction h.pos key) newNode) := by
  obtain ⟨cells, hs⟩ := hr
  exact .link ⟨hs.capacity, hs.nodes, hs.holds.alloc hn _⟩ (Function.update_self ..) hk

theorem Stands.link_turn {newNode : Address} (hs : Stands h m cells [newNode]) {key value : Bytes}
    (hn : m.heap newNode = some ⟨⟨key, value⟩, none⟩)
    (hk : key ∉ (h.table (hashFunction h.pos key)).map Node.key) :
    Goes h m 2 (.insert key value) (.link (hashFunction h.pos key) newNode) := by
  refine ⟨(m.store newNode ⟨⟨key, value⟩, m.table (hashFunction h.pos key)⟩, .head (hashFunction h.pos key) newNode),
    1, by simp only [turn, hs.bucket_eq, Option.bind_some, hn, Option.map_some], Nat.lt_succ_self _, ?_⟩
  have hholds := hs.holds.writeLoose List.mem_cons_self ⟨⟨key, value⟩, m.table (hashFunction h.pos key)⟩
  exact .head ⟨hs.capacity, hs.nodes, hholds⟩ (Function.update_self ..) hk

theorem Stands.head_turn {newNode : Address} (hs : Stands h m cells [newNode]) {key value : Bytes}
    (hn : m.heap newNode = some ⟨⟨key, value⟩, m.table (hashFunction h.pos key)⟩)
    (hk : key ∉ (h.table (hashFunction h.pos key)).map Node.key) :
    Goes h m 1 (.insert key value) (.head (hashFunction h.pos key) newNode) := by
  have hholds :
      Holds m.heap (fun i : Fin h.capacity => Function.update m.table (hashFunction h.pos key) (some newNode) i)
        (Function.update cells (hashFunction h.pos key) ((newNode, ⟨key, value⟩) :: cells (hashFunction h.pos key)))
        [] := by
    rw [heads_update]
    exact hs.holds.push List.not_mem_nil hn
  refine ⟨({ m with table := Function.update m.table (hashFunction h.pos key) (some newNode) }, .returned .done), 0,
    by simp only [turn, hs.setBucket_eq, Option.map_some], Nat.one_pos,
    .returned ⟨_, hs.capacity, nodes_update hs.nodes ?_, hholds⟩⟩
  rw [List.map_cons, hs.nodes, chainInsert_new hk]

theorem Stands.get_turn (hs : Stands h m cells []) {key : Bytes} {curr : Option Address}
    {xs ys : List (Address × Node)} (hc : cells (hashFunction h.pos key) = xs ++ ys)
    (hseg : Segment m.heap curr ys none) (hx : key ∉ (xs.map Prod.snd).map Node.key) :
    Goes h m (ys.length + 1) (.get key) (.get key curr) := by
  have hdone : During h m 0 (.get key) (.returned (perform h (.get key)).2) := .returned ⟨cells, hs⟩
  have hget : h.get key = (chainGet key (ys.map Prod.snd)).getD [] := by
    rw [HashMap.get, hs.table_eq hc, chainGet_append hx]
  rw [perform, hget] at hdone
  cases ys with
  | nil =>
    obtain rfl : curr = none := hseg
    exact ⟨_, 0, rfl, Nat.one_pos, hdone⟩
  | cons y ys =>
    obtain ⟨a, node⟩ := y
    obtain ⟨rfl, next, hheap, hnext⟩ := hseg
    by_cases hk : node.key = key
    · rw [List.map_cons, chainGet, if_pos hk] at hdone
      exact ⟨(m, .returned (.value node.value)), 0, by simp only [turn, hheap, Option.map_some, if_pos hk],
        Nat.succ_pos _, hdone⟩
    · exact ⟨(m, .get key next), _, by simp only [turn, hheap, Option.map_some, if_neg hk], Nat.lt_succ_self _,
        .get hs (hc.trans (List.append_cons xs (a, node) ys)) hnext (by simpa [Ne.symm hk] using hx)⟩

/-- A turn of the loop of `remove`: `prev` is the last node passed, and the
node found is unlinked from it, or from the array. -/
theorem Stands.remove_turn (hs : Stands h m cells []) {key : Bytes} {curr : Option Address}
    {xs ys : List (Address × Node)} (hc : cells (hashFunction h.pos key) = xs ++ ys)
    (hseg : Segment m.heap curr ys none) (hx : key ∉ (xs.map Prod.snd).map Node.key) :
    Goes h m (ys.length + 1) (.remove key)
      (.remove key (hashFunction h.pos key) (xs.getLast?.map Prod.fst) curr) := by
  have hremove : chainRemove key (h.table (hashFunction h.pos key)) =
      xs.map Prod.snd ++ chainRemove key (ys.map Prod.snd) := by
    rw [hs.table_eq hc, chainRemove_append hx]
  cases ys with
  | nil =>
    obtain rfl : curr = none := hseg
    refine ⟨_, 0, rfl, Nat.one_pos, .returned ⟨cells, hs.capacity, ?_, hs.holds⟩⟩
    intro i
    have hsame : Function.update h.table (hashFunction h.pos key)
        (chainRemove key (h.table (hashFunction h.pos key))) = h.table := by
      rw [hremove, List.map_nil, chainRemove, List.append_nil, ← List.append_nil xs, ← hc, hs.nodes,
        Function.update_eq_self]
    exact (hs.nodes i).trans (congrFun hsame i).symm
  | cons y ys =>
    obtain ⟨a, node⟩ := y
    obtain ⟨rfl, next, hheap, hnext⟩ := hseg
    by_cases hk : node.key = key
    · rw [List.map_cons, chainRemove, if_pos hk] at hremove
      rcases List.eq_nil_or_concat xs with rfl | ⟨xs, ⟨b, before⟩, rfl⟩
      · -- the head
        have hholds : Holds m.heap (fun i : Fin h.capacity => Function.update m.table (hashFunction h.pos key) next i)
            (Function.update cells (hashFunction h.pos key) ys) [a] := by
          rw [heads_update]
          exact hs.holds.unlinkHead hc hheap
        refine ⟨({ m with table := Function.update m.table (hashFunction h.pos key) next }, .delete a), 1, ?_,
          by simp, .delete ⟨hs.capacity, nodes_update hs.nodes hremove.symm, hholds⟩⟩
        simp only [turn, hheap, Option.bind_some, if_pos hk, List.getLast?_nil, Option.map_none, hs.setBucket_eq,
          Option.map_some]
      · rw [List.concat_eq_append] at hc hremove ⊢
        obtain ⟨after, hb⟩ : ∃ after, m.heap b = some ⟨before, after⟩ :=
          (hs.segment (hashFunction h.pos key)).heap_mem (by rw [hc]; simp)
        refine ⟨(m.store b ⟨before, next⟩, .delete a), 1, ?_, by simp,
          .delete ⟨hs.capacity, nodes_update hs.nodes ?_, hs.holds.unlink (by rw [hc, List.append_assoc]; rfl) hheap⟩⟩
        · simp only [turn, hheap, Option.bind_some, if_pos hk, List.getLast?_concat, Option.map_some, hb]
        · rw [hremove]
          simp
    · refine ⟨(m, .remove key (hashFunction h.pos key) (some a) next), _,
        by simp only [turn, hheap, Option.bind_some, if_neg hk], Nat.lt_succ_self _, ?_⟩
      have hgo := During.remove hs (hc.trans (List.append_cons xs (a, node) ys)) hnext
        (by simpa [Ne.symm hk] using hx)
      rwa [List.getLast?_concat] at hgo

theorem Stands.delete_turn {key : Bytes} {curr : Address} {cells : Fin h.capacity → List (Address × Node)}
    (hs : Stands (h.remove key) m cells [curr]) : Goes h m 1 (.remove key) (.delete curr) := by
  have hcurr : m.heap curr ≠ none := (hs.holds.allocated curr).mpr (.inl List.mem_cons_self)
  obtain ⟨node, hn⟩ := Option.ne_none_iff_exists'.mp hcurr
  have hfreed : Stands (h.remove key) { m with heap := Function.update m.heap curr none } cells [] :=
    ⟨hs.capacity, hs.nodes, hs.holds.free List.not_mem_nil⟩
  exact ⟨({ m with heap := Function.update m.heap curr none }, .returned .done), 0,
    by simp only [turn, hn, Option.map_some], Nat.one_pos, .returned ⟨cells, hfreed⟩⟩

theorem visitsBefore_succ (h : HashMap) (i : Fin h.capacity) :
    visitsBefore h (i + 1) = visitsBefore h i ++ (h.table i).map fun n => (n.key, n.value) := by
  have hi : (i : Nat) < (List.finRange h.capacity).length := by rw [List.length_finRange]; exact i.isLt
  rw [visitsBefore, List.take_add_one, List.getElem?_eq_getElem hi, List.getElem_finRange, visitsBefore]
  simp

theorem visitsBefore_capacity (h : HashMap) : visitsBefore h h.capacity = h.visits := by
  have hall : (List.finRange h.capacity).take h.capacity = List.finRange h.capacity := by
    rw [List.take_of_length_le (by rw [List.length_finRange])]
  rw [HashMap.visits_eq, HashMap.nodes, visitsBefore, hall]

theorem stepsFrom_eq (h : HashMap) (i : Fin h.capacity) :
    stepsFrom h i = (h.table i).length + 2 + stepsFrom h (i + 1) := by
  have hi : (i : Nat) < (List.finRange h.capacity).length := by rw [List.length_finRange]; exact i.isLt
  rw [stepsFrom, List.drop_eq_getElem_cons hi, List.getElem_finRange, stepsFrom]
  rfl

theorem stepsFrom_of_le (h : HashMap) {i : Nat} (hi : h.capacity ≤ i) : stepsFrom h i = 1 := by
  rw [stepsFrom, List.drop_eq_nil_of_le (by rwa [List.length_finRange])]
  rfl

/-- The loop of `forEach` over the buckets. -/
theorem Represents.forEach_turn (hr : Represents h m) {i : Nat} (hi : i ≤ h.capacity) :
    Goes h m (stepsFrom h i) .forEach (.forEach i (visitsBefore h i)) := by
  obtain ⟨cells, hs⟩ := hr
  by_cases hlt : i < h.capacity
  · refine ⟨(m, .visit i (m.table i) (visitsBefore h i)), (cells ⟨i, hlt⟩).length + 1 + stepsFrom h (i + 1), ?_, ?_, ?_⟩
    · rw [turn, hs.capacity, if_pos hlt, hs.bucket_eq ⟨i, hlt⟩]
      rfl
    · have heq := stepsFrom_eq h ⟨i, hlt⟩
      rw [hs.length_table] at heq
      simp only at heq
      omega
    · have hgo := During.visit hs (List.nil_append (cells ⟨i, hlt⟩)).symm (hs.segment _)
      rwa [List.map_nil, List.map_nil, List.append_nil] at hgo
  · obtain rfl : i = h.capacity := by omega
    refine ⟨(m, .returned (.visited h.visits)), 0, ?_, ?_, .returned ⟨cells, hs⟩⟩
    · rw [turn, hs.capacity, if_neg hlt, visitsBefore_capacity]
    · rw [stepsFrom_of_le h (Nat.le_refl _)]
      exact Nat.one_pos

/-- And down a chain. -/
theorem Stands.visit_turn (hs : Stands h m cells []) {i : Fin h.capacity} {current : Option Address}
    {xs ys : List (Address × Node)} (hc : cells i = xs ++ ys) (hseg : Segment m.heap current ys none) :
    Goes h m (ys.length + 1 + stepsFrom h (i + 1)) .forEach
      (.visit i current (visitsBefore h i ++ (xs.map Prod.snd).map fun n => (n.key, n.value))) := by
  cases ys with
  | nil =>
    obtain rfl : current = none := hseg
    refine ⟨_, stepsFrom h (i + 1), rfl, by simp, ?_⟩
    have hgo : During h m _ .forEach (.forEach (i + 1) (visitsBefore h (i + 1))) := .forEach ⟨cells, hs⟩ i.isLt
    rwa [visitsBefore_succ, hs.table_eq hc, List.map_nil, List.append_nil] at hgo
  | cons y ys =>
    obtain ⟨a, node⟩ := y
    obtain ⟨rfl, next, hheap, hnext⟩ := hseg
    refine ⟨_, ys.length + 1 + stepsFrom h (i + 1), by simp only [turn, hheap, Option.map_some]; rfl, by simp, ?_⟩
    have hgo := During.visit hs (hc.trans (List.append_cons xs (a, node) ys)) hnext
    rwa [List.map_append, List.map_append, ← List.append_assoc] at hgo

/-- What is not an allocation, and not over, goes on. -/
theorem During.turn {n : Nat} {call : Call} {pc : Pc Address} (hd : During h m n call pc)
    (hn : ∀ key value i, pc ≠ .new key value i) (hr : ∀ result, pc ≠ .returned result) : Goes h m n call pc := by
  cases hd with
  | start hrep => exact hrep.start_turn call
  | insert hs hc hseg hx => exact hs.insert_turn hc hseg hx
  | new => exact absurd rfl (hn _ _ _)
  | link hs hheap hk => exact hs.link_turn hheap hk
  | head hs hheap hk => exact hs.head_turn hheap hk
  | get hs hc hseg hx => exact hs.get_turn hc hseg hx
  | remove hs hc hseg hx => exact hs.remove_turn hc hseg hx
  | delete hs => exact hs.delete_turn
  | forEach hrep hi => exact hrep.forEach_turn hi
  | visit hs hc hseg => exact hs.visit_turn hc hseg
  | returned => exact absurd rfl (hr _)

theorem During.step {n : Nat} {call : Call} {pc pc' : Pc Address} {m' : Memory Address} {address : Address}
    (hd : During h m n call pc) (hs : Nodes.step m pc address = some (m', pc')) :
    ∃ k < n, During h m' k call pc' := by
  by_cases hn : ∃ key value i, pc = .new key value i
  · obtain ⟨key, value, i, rfl⟩ := hn
    cases hd with
    | new hrep hk =>
      rw [Nodes.step] at hs
      split at hs
      · next hfree =>
        cases hs
        exact ⟨2, Nat.lt_succ_self 2, hrep.new_step hk hfree⟩
      · cases hs
  · by_cases hr : ∃ result, pc = .returned result
    · obtain ⟨result, rfl⟩ := hr
      cases hs
    · obtain ⟨r, k, hturn, hk, hd'⟩ := hd.turn (fun key value i he => hn ⟨key, value, i, he⟩) fun result he =>
        hr ⟨result, he⟩
      rw [step_of_turn hturn] at hs
      cases hs
      exact ⟨k, hk, hd'⟩

/-- A place of `get` or `forEach`. -/
def Pc.reads : Pc Address → Bool
  | .start (.get _) | .start .forEach | .get .. | .forEach .. | .visit .. => true
  | _ => false

/-- There nothing is written, a fault apart. -/
theorem step_reads {pc pc' : Pc Address} {m' : Memory Address} {address : Address} (hr : pc.reads = true)
    (hs : step m pc address = some (m', pc')) : m' = m := by
  have hturn : ∀ r, turn m pc = some r → r.1 = m := by
    intro r hr'
    cases pc with
    | start call =>
      cases call with
      | get key => obtain ⟨_, -, rfl⟩ := Option.map_eq_some_iff.mp hr'; rfl
      | forEach => cases hr'; rfl
      | insert => cases hr
      | remove => cases hr
    | get key curr =>
      cases curr with
      | none => cases hr'; rfl
      | some curr => obtain ⟨_, -, rfl⟩ := Option.map_eq_some_iff.mp hr'; rfl
    | forEach i entries =>
      rw [turn] at hr'
      split at hr'
      · obtain ⟨_, -, rfl⟩ := Option.map_eq_some_iff.mp hr'; rfl
      · cases hr'; rfl
    | visit i current entries =>
      cases current with
      | none => cases hr'; rfl
      | some current => obtain ⟨_, -, rfl⟩ := Option.map_eq_some_iff.mp hr'; rfl
    | _ => cases hr
  have hstep : some ((turn m pc).getD (m, .fault)) = some (m', pc') := by
    cases pc with
    | new => cases hr
    | returned => cases hr
    | fault => cases hr
    | _ => exact hs
  cases ht : turn m pc with
  | none => rw [ht] at hstep; cases hstep; rfl
  | some r =>
    rw [ht] at hstep
    cases hstep
    exact hturn _ ht

/-- **The code of the table does what the functions on chains say.** -/
theorem implements : Linearize.Implements (@code Address _) perform Represents
    (fun call h m pc => ∃ n, During h m n call pc) where
  begins := fun hr => ⟨_, .start hr⟩
  steps := by
    intro call h m pc i m' pc' hd hs
    obtain ⟨n, hd⟩ := hd
    obtain ⟨k, -, hd'⟩ := hd.step hs
    exact ⟨k, hd'⟩
  ends := by
    intro call h m pc r hd hr
    obtain ⟨n, hd⟩ := hd
    cases hd with
    | returned hrep => cases hr; exact ⟨hrep, rfl⟩
    | _ => cases hr
  reads := by
    intro call h m pc i m' pc' hx hd hs
    change step m pc i = some (m', pc') at hs
    obtain ⟨n, hd⟩ := hd
    cases hd with
    | start =>
      refine step_reads ?_ hs
      cases call with
      | insert => cases hx
      | remove => cases hx
      | _ => rfl
    | get => exact step_reads rfl hs
    | forEach => exact step_reads rfl hs
    | visit => exact step_reads rfl hs
    | returned => cases hs
    | _ => cases hx
  leaves := by
    intro call h hx
    cases call with
    | insert => cases hx
    | remove => cases hx
    | _ => rfl

end

end Nodes

end KvDatabase
