/-
The in-memory store (`RAM/HashMap.h`, `RAM/HashMap.cpp`): a table of
`capacity` chains, a key living in the chain its hash picks.

`HashMap` carries the two facts `remove`, which stops at the first match,
and `forEach`, which visits every node, rely on: each node is in its key's
chain, and no chain has a key twice. Everything above this file reads a
table through `contents`, the partial map from keys to values it stands for.
-/
import KvDatabase.Bytes
import KvDatabase.Lib.WriteLog

namespace KvDatabase

/-- `HashMap::Node`; `next` is the rest of the chain. -/
structure Node where
  key : Bytes
  value : Bytes
deriving DecidableEq, Repr

/-- The 64-bit accumulator of `hashFunction`, before the reduction modulo
`capacity`. A `char` is signed on the platforms the build targets, so a byte
above 127 is sign-extended. -/
def hashValue (key : Bytes) : UInt64 :=
  key.foldl (fun hashValue c => hashValue + (31 * hashValue + c.toInt8.toInt64.toUInt64)) 0

def hashFunction {capacity : Nat} (pos : 0 < capacity) (key : Bytes) : Fin capacity :=
  ⟨(hashValue key).toNat % capacity, Nat.mod_lt _ pos⟩

/-! ## Chains -/

/-- The loop of `insert`: update the first node of the key, if there is one. -/
def chainUpdate (key value : Bytes) : List Node → Option (List Node)
  | [] => none
  | curr :: next =>
    if curr.key = key then some ({ curr with value } :: next) else (chainUpdate key value next).map (curr :: ·)

/-- `insert` in its chain: in place, or at the head. -/
def chainInsert (key value : Bytes) (chain : List Node) : List Node :=
  (chainUpdate key value chain).getD (⟨key, value⟩ :: chain)

/-- The loop of `get`. -/
def chainGet (key : Bytes) : List Node → Option Bytes
  | [] => none
  | curr :: next => if curr.key = key then some curr.value else chainGet key next

/-- The loop of `remove`: unlink the first node of the key. -/
def chainRemove (key : Bytes) : List Node → List Node
  | [] => []
  | curr :: next => if curr.key = key then next else curr :: chainRemove key next

theorem chainUpdate_eq_none_iff {key value : Bytes} {chain : List Node} :
    chainUpdate key value chain = none ↔ key ∉ chain.map Node.key := by
  induction chain with
  | nil => simp [chainUpdate]
  | cons n ns ih =>
    by_cases h : n.key = key
    · simp [chainUpdate, h]
    · simp [chainUpdate, h, ih, Ne.symm h]

theorem chainUpdate_keys {key value : Bytes} {chain chain' : List Node}
    (h : chainUpdate key value chain = some chain') : chain'.map Node.key = chain.map Node.key := by
  induction chain generalizing chain' with
  | nil => cases h
  | cons n ns ih =>
    rw [chainUpdate] at h
    split at h
    · cases h; rfl
    · obtain ⟨ns', hns, rfl⟩ := Option.map_eq_some_iff.mp h
      simp [ih hns]

theorem chainInsert_nodup {key value : Bytes} {chain : List Node} (h : (chain.map Node.key).Nodup) :
    ((chainInsert key value chain).map Node.key).Nodup := by
  unfold chainInsert
  cases hu : chainUpdate key value chain with
  | none => simpa [h] using chainUpdate_eq_none_iff.mp hu
  | some chain' => rwa [Option.getD_some, chainUpdate_keys hu]

/-- The keys of a chain after `insert`. -/
theorem mem_chainInsert_key {key value : Bytes} {chain : List Node} {n : Node}
    (h : n ∈ chainInsert key value chain) : n.key = key ∨ ∃ n' ∈ chain, n'.key = n.key := by
  unfold chainInsert at h
  cases hu : chainUpdate key value chain with
  | none =>
    rw [hu, Option.getD_none, List.mem_cons] at h
    rcases h with rfl | h
    · exact .inl rfl
    · exact .inr ⟨n, h, rfl⟩
  | some chain' =>
    rw [hu, Option.getD_some] at h
    have hk : n.key ∈ chain.map Node.key := chainUpdate_keys hu ▸ List.mem_map_of_mem h
    obtain ⟨n', hn', he⟩ := List.mem_map.mp hk
    exact .inr ⟨n', hn', he⟩

theorem chainRemove_sublist (key : Bytes) (chain : List Node) : (chainRemove key chain).Sublist chain := by
  induction chain with
  | nil => exact .slnil
  | cons n ns ih =>
    rw [chainRemove]
    split
    · exact List.sublist_cons_self n ns
    · exact ih.cons_cons n

theorem chainGet_eq_none_iff {key : Bytes} {chain : List Node} :
    chainGet key chain = none ↔ key ∉ chain.map Node.key := by
  induction chain with
  | nil => simp [chainGet]
  | cons n ns ih =>
    by_cases h : n.key = key
    · simp [chainGet, h]
    · simp [chainGet, h, ih, Ne.symm h]

theorem chainGet_update {key value k : Bytes} {chain chain' : List Node}
    (h : chainUpdate key value chain = some chain') :
    chainGet k chain' = if k = key then some value else chainGet k chain := by
  induction chain generalizing chain' with
  | nil => cases h
  | cons n ns ih =>
    rw [chainUpdate] at h
    split at h
    · next hn =>
      cases h
      by_cases hk : k = key
      · subst hk; simp [chainGet, hn]
      · simp [chainGet, hn, hk, Ne.symm hk]
    · next hn =>
      obtain ⟨ns', hns, rfl⟩ := Option.map_eq_some_iff.mp h
      simp only [chainGet, ih hns]
      by_cases hk : k = key
      · subst hk; simp [hn]
      · simp [hk]

theorem chainGet_insert (key value k : Bytes) (chain : List Node) :
    chainGet k (chainInsert key value chain) = if k = key then some value else chainGet k chain := by
  unfold chainInsert
  cases hu : chainUpdate key value chain with
  | none => simp [chainGet, eq_comm]
  | some chain' => rw [Option.getD_some, chainGet_update hu]

theorem chainGet_remove {chain : List Node} (h : (chain.map Node.key).Nodup) (key k : Bytes) :
    chainGet k (chainRemove key chain) = if k = key then none else chainGet k chain := by
  induction chain with
  | nil => simp [chainRemove, chainGet]
  | cons n ns ih =>
    simp only [List.map_cons, List.nodup_cons] at h
    rw [chainRemove]
    split
    · next hn =>
      by_cases hk : k = key
      · rw [if_pos hk, chainGet_eq_none_iff, hk, ← hn]
        exact h.1
      · rw [if_neg hk, chainGet, if_neg (by rw [hn]; exact Ne.symm hk)]
    · next hn =>
      rw [chainGet, ih h.2, chainGet]
      by_cases hk : k = key
      · subst hk; simp [hn]
      · simp [hk]

theorem mem_chain_iff {chain : List Node} (h : (chain.map Node.key).Nodup) (k v : Bytes) :
    ⟨k, v⟩ ∈ chain ↔ chainGet k chain = some v := by
  induction chain with
  | nil => simp [chainGet]
  | cons n ns ih =>
    simp only [List.map_cons, List.nodup_cons] at h
    rw [List.mem_cons, ih h.2, chainGet]
    split
    · next hk =>
      have hn : chainGet k ns = none := chainGet_eq_none_iff.mpr (hk ▸ h.1)
      rw [hn]
      obtain ⟨nk, nv⟩ := n
      simp only at hk
      simp [hk, eq_comm]
    · next hk =>
      have hne : (⟨k, v⟩ : Node) ≠ n := fun he => hk (by rw [← he])
      simp [hne]

/-! ## The table -/

/-- `HashMap`: `capacity` chains, and what every operation keeps of them. -/
structure HashMap where
  capacity : Nat
  pos : 0 < capacity
  table : Fin capacity → List Node
  placed : ∀ i, ∀ n ∈ table i, hashFunction pos n.key = i
  unique : ∀ i, ((table i).map Node.key).Nodup

namespace HashMap

/-- `HashMap(size)`: every bucket empty. -/
def empty (size : Nat) (pos : 0 < size) : HashMap where
  capacity := size
  pos := pos
  table := fun _ => []
  placed := by simp
  unique := by simp

def insert (h : HashMap) (key value : Bytes) : HashMap where
  capacity := h.capacity
  pos := h.pos
  table := Function.update h.table (hashFunction h.pos key)
    (chainInsert key value (h.table (hashFunction h.pos key)))
  placed := by
    intro i n hn
    by_cases hi : i = hashFunction h.pos key
    · subst hi
      rw [Function.update_self] at hn
      rcases mem_chainInsert_key hn with hk | ⟨n', hn', hk⟩
      · rw [hk]
      · rw [← hk]; exact h.placed _ n' hn'
    · rw [Function.update_of_ne hi] at hn
      exact h.placed i n hn
  unique := by
    intro i
    by_cases hi : i = hashFunction h.pos key
    · subst hi
      rw [Function.update_self]
      exact chainInsert_nodup (h.unique _)
    · rw [Function.update_of_ne hi]
      exact h.unique i

/-- `get`, which answers the empty string for a key that is absent. -/
def get (h : HashMap) (key : Bytes) : Bytes := (chainGet key (h.table (hashFunction h.pos key))).getD []

def remove (h : HashMap) (key : Bytes) : HashMap where
  capacity := h.capacity
  pos := h.pos
  table := Function.update h.table (hashFunction h.pos key) (chainRemove key (h.table (hashFunction h.pos key)))
  placed := by
    intro i n hn
    by_cases hi : i = hashFunction h.pos key
    · subst hi
      rw [Function.update_self] at hn
      exact h.placed _ n ((chainRemove_sublist key _).subset hn)
    · rw [Function.update_of_ne hi] at hn
      exact h.placed i n hn
  unique := by
    intro i
    by_cases hi : i = hashFunction h.pos key
    · subst hi
      rw [Function.update_self]
      exact (h.unique _).sublist ((chainRemove_sublist key _).map _)
    · rw [Function.update_of_ne hi]
      exact h.unique i

/-- The nodes in the order `forEach` visits them. -/
def nodes (h : HashMap) : List Node := (List.finRange h.capacity).flatMap h.table

/-- `forEach`, the callback folding over what it has produced so far. -/
def forEach {β : Type*} (h : HashMap) (callback : β → Bytes → Bytes → β) (out : β) : β :=
  h.nodes.foldl (fun out n => callback out n.key n.value) out

/-- The map a table stands for. -/
def contents (h : HashMap) (key : Bytes) : Option Bytes := chainGet key (h.table (hashFunction h.pos key))

theorem get_eq (h : HashMap) (key : Bytes) : h.get key = (h.contents key).getD [] := rfl

@[simp] theorem contents_empty (size : Nat) (pos : 0 < size) : (empty size pos).contents = fun _ => none := rfl

@[simp] theorem contents_insert (h : HashMap) (key value : Bytes) :
    (h.insert key value).contents = WriteLog.apply h.contents (key, some value) := by
  funext k
  simp only [contents, insert, WriteLog.apply]
  by_cases hi : hashFunction h.pos k = hashFunction h.pos key
  · rw [hi, Function.update_self, chainGet_insert]
    by_cases hk : k = key
    · subst hk; simp
    · simp [hk, ← hi, contents]
  · have hk : k ≠ key := fun he => hi (he ▸ rfl)
    rw [Function.update_of_ne hi, Function.update_of_ne hk]
    rfl

@[simp] theorem contents_remove (h : HashMap) (key : Bytes) :
    (h.remove key).contents = WriteLog.apply h.contents (key, none) := by
  funext k
  simp only [contents, remove, WriteLog.apply]
  by_cases hi : hashFunction h.pos k = hashFunction h.pos key
  · rw [hi, Function.update_self, chainGet_remove (h.unique _)]
    by_cases hk : k = key
    · subst hk; simp
    · simp [hk, ← hi, contents]
  · have hk : k ≠ key := fun he => hi (he ▸ rfl)
    rw [Function.update_of_ne hi, Function.update_of_ne hk]
    rfl

/-- `forEach` visits exactly the entries of the map. -/
theorem mem_nodes_iff (h : HashMap) (k v : Bytes) : ⟨k, v⟩ ∈ h.nodes ↔ h.contents k = some v := by
  simp only [nodes, List.mem_flatMap, List.mem_finRange, true_and]
  constructor
  · intro hmem
    obtain ⟨i, hn⟩ := hmem
    have hi : hashFunction h.pos k = i := h.placed i _ hn
    subst hi
    exact (mem_chain_iff (h.unique _) k v).mp hn
  · intro hc
    exact ⟨_, (mem_chain_iff (h.unique _) k v).mpr hc⟩

end HashMap

end KvDatabase
