/-
A snapshot, and a start on it, node by node: not the map alone comes back but
a table, and the file written of that one in turn.

`forEach` goes down each chain and `insert` puts a new node at the head, so a
start reverses every chain (`load_snapshot`). Two starts give the first table
back, and of the snapshots taken in between every second one is the same file,
byte for byte (`snapshots_alternate`).
-/
import KvDatabase.Durability
import KvDatabase.FiniteMap

namespace KvDatabase

namespace HashMap

/-- The table with each chain the other way round. -/
def reversed (h : HashMap) : HashMap where
  capacity := h.capacity
  pos := h.pos
  table := fun i => (h.table i).reverse
  placed := fun i n hn => h.placed i n (List.mem_reverse.mp hn)
  unique := fun i => by rw [List.map_reverse]; exact List.nodup_reverse.mpr (h.unique i)

theorem reversed_reversed (h : HashMap) : h.reversed.reversed = h := by
  obtain ⟨capacity, pos, table, placed, unique⟩ := h
  simp only [reversed, List.reverse_reverse]

/-- A table is its chains. -/
theorem ext_table {h h' : HashMap} (hc : h'.capacity = h.capacity) (ht : ∀ i, h'.table (i.cast hc.symm) = h.table i) :
    h' = h := by
  obtain ⟨capacity, pos, table, placed, unique⟩ := h
  obtain ⟨capacity', pos', table', placed', unique'⟩ := h'
  obtain rfl : capacity' = capacity := hc
  obtain rfl : table' = table := funext ht
  rfl

/-- The chain of a new key. -/
theorem table_insert_new {h : HashMap} {n : Node} (hn : n.key ∉ (h.table (hashFunction h.pos n.key)).map Node.key)
    (i : Fin h.capacity) :
    (h.insert n.key n.value).table i = if hashFunction h.pos n.key = i then n :: h.table i else h.table i := by
  simp only [insert]
  by_cases hi : hashFunction h.pos n.key = i
  · subst hi
    rw [Function.update_self, if_pos rfl, chainInsert, chainUpdate_eq_none_iff.mpr hn, Option.getD_none]
  · rw [Function.update_of_ne (Ne.symm hi), if_neg hi]

/-- New keys inserted one after the other are each put at the head of their
chain. -/
theorem foldl_insert (ns : List Node) (h : HashMap) (hn : (ns.map Node.key).Nodup)
    (hnew : ∀ n ∈ ns, n.key ∉ (h.table (hashFunction h.pos n.key)).map Node.key) :
    ∃ hc : (ns.foldl (fun h n => h.insert n.key n.value) h).capacity = h.capacity,
      ∀ i, (ns.foldl (fun h n => h.insert n.key n.value) h).table (i.cast hc.symm) =
        (ns.filter fun n => hashFunction h.pos n.key = i).reverse ++ h.table i := by
  induction ns generalizing h with
  | nil => exact ⟨rfl, fun i => rfl⟩
  | cons n ns ih =>
    simp only [List.map_cons, List.nodup_cons] at hn
    have hhead := table_insert_new (hnew n List.mem_cons_self)
    -- the keys still to come are new beside this one too
    have hrest : ∀ n' ∈ ns, n'.key ∉
        ((h.insert n.key n.value).table (hashFunction (h.insert n.key n.value).pos n'.key)).map Node.key := by
      intro n' hn'
      have hold := hnew n' (List.mem_cons_of_mem _ hn')
      rw [show (h.insert n.key n.value).table (hashFunction (h.insert n.key n.value).pos n'.key) = _ from hhead _]
      split
      · rw [List.map_cons, List.mem_cons, not_or]
        exact ⟨fun he => hn.1 (he ▸ List.mem_map_of_mem hn'), hold⟩
      · exact hold
    obtain ⟨hc, ht⟩ := ih (h.insert n.key n.value) hn.2 hrest
    refine ⟨hc, fun i => (ht i).trans ?_⟩
    rw [show (h.insert n.key n.value).table i = _ from hhead i, List.filter_cons]
    by_cases hi : hashFunction h.pos n.key = i
    · simp only [hi, decide_true, if_true, List.reverse_cons, List.append_assoc, List.singleton_append]
      rfl
    · simp only [hi, decide_false, if_false, Bool.false_eq_true]
      rfl

/-- The nodes of a bucket are those whose keys hash there. -/
theorem filter_nodes (h : HashMap) (i : Fin h.capacity) :
    (h.nodes.filter fun n => hashFunction h.pos n.key = i) = h.table i := by
  have hother : ∀ j, j ≠ i → ((h.table j).filter fun n => hashFunction h.pos n.key = i) = [] := fun j hj =>
    List.filter_eq_nil_iff.mpr fun n hn he => hj ((h.placed j n hn).symm.trans (of_decide_eq_true he))
  obtain ⟨before, after, hrange⟩ := List.append_of_mem (List.mem_finRange i)
  have hnodup := hrange ▸ List.nodup_finRange h.capacity
  simp only [List.nodup_append, List.nodup_cons] at hnodup
  obtain ⟨-, ⟨hafter, -⟩, hbefore⟩ := hnodup
  rw [nodes, List.filter_flatMap, hrange, List.flatMap_append, List.flatMap_cons,
    List.flatMap_eq_nil_iff.mpr fun j hj => hother j (hbefore j hj i List.mem_cons_self),
    List.flatMap_eq_nil_iff.mpr fun j hj => hother j fun he => hafter (he ▸ hj), List.nil_append, List.append_nil]
  exact List.filter_eq_self.mpr fun n hn => decide_eq_true (h.placed i n hn)

/-- A table built of another's nodes, in the order `forEach` visits them. -/
theorem foldl_insert_nodes (h : HashMap) :
    h.nodes.foldl (fun h n => h.insert n.key n.value) (empty h.capacity h.pos) = h.reversed := by
  obtain ⟨hc, ht⟩ := foldl_insert h.nodes (empty h.capacity h.pos) h.nodup_keys fun n _ => by simp [empty]
  refine ext_table hc fun i => (ht i).trans ?_
  rw [show ((empty h.capacity h.pos).table i) = [] from rfl, List.append_nil]
  exact congrArg List.reverse (h.filter_nodes i)

@[simp] theorem contents_reversed (h : HashMap) : h.reversed.contents = h.contents := by
  funext k
  refine Option.ext fun v => ?_
  rw [← mem_nodes_iff, ← mem_nodes_iff]
  simp only [nodes, reversed, List.mem_flatMap, List.mem_reverse]

end HashMap

/-! ## Snapshots and starts -/

/-- A snapshot's lines, loaded, insert its entries. -/
theorem foldl_loadRdbLine {nodes : List Node} (hs : ∀ n ∈ nodes, Storable n.key n.value) (h : HashMap) :
    (getlines (snapshotBytes nodes)).foldl loadRdbLine h = nodes.foldl (fun h n => h.insert n.key n.value) h := by
  induction nodes generalizing h with
  | nil => rfl
  | cons n nodes ih =>
    have hn := hs n List.mem_cons_self
    have hline : loadRdbLine h (lineOf INSERT n.key n.value) = h.insert n.key n.value := by
      obtain ⟨hkey, hvalue⟩ := extract_fields hn
      simp only [loadRdbLine, extract_lineOf isWord_INSERT]
      rw [hkey, hvalue]
    rw [snapshotBytes, List.flatMap_cons, getlines_record isWord_INSERT.2 hn.1 hn.2.1, List.foldl_cons, hline,
      List.foldl_cons]
    exact ih (fun n' hn' => hs n' (List.mem_cons_of_mem _ hn')) _

/-- **A start on a snapshot** builds the table it was taken of, each chain the
other way round. -/
theorem load_snapshot {h : HashMap} (hs : AllStorable h.contents) (d : Disk) :
    loadDataOnStartup (d.createSnapshot h) (.empty h.capacity h.pos) = h.reversed := by
  rw [createSnapshot_eq]
  show (getlines (snapshotBytes h.nodes)).foldl loadRdbLine (.empty h.capacity h.pos) = _
  rw [foldl_loadRdbLine (HashMap.storable_nodes hs), h.foldl_insert_nodes]

namespace Store

/-- A snapshot is taken, and the server stopped and started on it with a table
as large. -/
def reload (st : Store) : Store := (st.operate .snapshot).operate (.restart st.hashMap.capacity st.hashMap.pos)

theorem disk_reload (st : Store) :
    st.reload.disk = { rdb := some (snapshotBytes st.hashMap.nodes), aof := some [] } := by
  show (st.disk.createSnapshot st.hashMap).openLog = _
  rw [createSnapshot_eq]
  rfl

theorem hashMap_reload {st : Store} (hs : AllStorable st.hashMap.contents) :
    st.reload.hashMap = st.hashMap.reversed := by
  show loadDataOnStartup (st.disk.createSnapshot st.hashMap).openLog (.empty st.hashMap.capacity st.hashMap.pos) = _
  rw [createSnapshot_eq, ← load_snapshot hs st.disk, createSnapshot_eq]
  rfl

theorem allStorable_reload {st : Store} (hs : AllStorable st.hashMap.contents) (n : Nat) :
    AllStorable (reload^[n] st).hashMap.contents := by
  induction n with
  | zero => exact hs
  | succ n ih => rwa [Function.iterate_succ_apply', hashMap_reload ih, HashMap.contents_reversed]

/-- **Each start reverses every chain, and every second one has the same
table**, node for node, when the entries are ones the file can hold; every
second snapshot is the same file, byte for byte. -/
theorem snapshots_alternate {st : Store} (hs : AllStorable st.hashMap.contents) (n : Nat) :
    (reload^[n + 1] st).hashMap = (reload^[n] st).hashMap.reversed ∧
      (reload^[n + 2] st).hashMap = (reload^[n] st).hashMap ∧
      (reload^[n + 3] st).disk = (reload^[n + 1] st).disk := by
  have honce : ∀ m, (reload^[m + 1] st).hashMap = (reload^[m] st).hashMap.reversed := fun m => by
    rw [Function.iterate_succ_apply', hashMap_reload (allStorable_reload hs m)]
  have htwice : (reload^[n + 2] st).hashMap = (reload^[n] st).hashMap := by
    rw [honce, honce, HashMap.reversed_reversed]
  have hdisk : ∀ m, (reload^[m + 1] st).disk =
      { rdb := some (snapshotBytes (reload^[m] st).hashMap.nodes), aof := some [] } := fun m => by
    rw [Function.iterate_succ_apply', disk_reload]
  exact ⟨honce n, htwice, by rw [hdisk, hdisk, htwice]⟩

/-- Three keys in one chain. -/
theorem snapshots_alternate_example :
    let ops : List Operation := [.message (ascii "INSERT a 1\n"), .message (ascii "INSERT b 2\n"),
      .message (ascii "INSERT c 3\n")]
    let st := (Store.onDisk ⟨none, none⟩ 1 (by decide)).run ops
    (reload^[1] st).hashMap = st.hashMap.reversed ∧ (reload^[2] st).hashMap = st.hashMap ∧
      (reload^[3] st).disk = (reload^[1] st).disk :=
  snapshots_alternate ((Store.durable_onDisk rfl rfl 1 (by decide)).run _).recovers.allStorable 0

end Store

end KvDatabase
