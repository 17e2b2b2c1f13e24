/-
Linearizability. A history of calls and returns is linearizable when the
operations that took effect can be put in one order in which a sequential
specification gives the results returned, and which no two operations
contradict of which one returned before the other was called.

`Object` is the most general linearizable object: each operation takes effect
at one moment between its call and its return. Whatever it simulates, its
histories are linearizable (`Object.linearizes`), so a program is shown to be
by showing where its operations take effect.
-/
import KvDatabase.Lib.Runs
import Mathlib.Data.List.Nodup
import Mathlib.Logic.Function.Basic

namespace Linearize

variable {Op Res St : Type}

/-- An operation is named by the number of its call. -/
inductive Event (Op Res : Type)
  | call (id : Nat) (op : Op)
  | ret (id : Nat) (res : Res)

/-- An operation that took effect, and its result. -/
structure Entry (Op Res : Type) where
  id : Nat
  op : Op
  res : Res

/-- Two elements in this order in a list that ends in `c`. -/
theorem sublist_pair_append {α : Type*} {a b c : α} {l : List α} :
    [a, b].Sublist (l ++ [c]) ↔ [a, b].Sublist l ∨ b = c ∧ a ∈ l := by
  constructor
  · intro h
    obtain ⟨xs, ys, he, hx, hy⟩ := List.sublist_append_iff.mp h
    rcases List.eq_nil_or_concat ys with rfl | ⟨ys, y, rfl⟩
    · rw [List.append_nil] at he
      exact .inl (he ▸ hx)
    · obtain ⟨rfl, rfl⟩ : ys = [] ∧ y = c := by
        have hlen := hy.length_le
        simp only [List.concat_eq_append, List.length_append, List.length_cons, List.length_nil] at hlen
        obtain rfl : ys = [] := List.eq_nil_of_length_eq_zero (by omega)
        exact ⟨rfl, by simpa using hy⟩
      obtain ⟨rfl, hb⟩ := List.append_inj' (show [a] ++ [b] = xs ++ [y] by simpa using he) rfl
      exact .inr ⟨by simpa using hb, List.singleton_sublist.mp hx⟩
  · intro hpair
    rcases hpair with h | ⟨rfl, ha⟩
    · exact h.trans (List.sublist_append_left l [c])
    · exact (List.singleton_sublist.mpr ha).append (List.Sublist.refl [b])

/-- Operation `x` returned before `y` was called. -/
def Precedes (history : List (Event Op Res)) (x y : Nat) : Prop :=
  ∃ res op, [Event.ret x res, .call y op].Sublist history

/-- The specification gives these results, one operation after the other. -/
def Legal (spec : St → Op → St × Res) (st : St) : List (Entry Op Res) → St → Prop
  | [], st' => st' = st
  | e :: es, st' => e.res = (spec st e.op).2 ∧ Legal spec (spec st e.op).1 es st'

theorem legal_append {spec : St → Op → St × Res} {st st'' : St} {xs ys : List (Entry Op Res)} :
    Legal spec st (xs ++ ys) st'' ↔ ∃ st', Legal spec st xs st' ∧ Legal spec st' ys st'' := by
  induction xs generalizing st with
  | nil => simp [Legal]
  | cons e es ih =>
    simp only [List.cons_append, Legal, ih]
    constructor
    · intro hlegal
      obtain ⟨hr, st', h₁, h₂⟩ := hlegal
      exact ⟨st', ⟨hr, h₁⟩, h₂⟩
    · intro hlegal
      obtain ⟨st', ⟨hr, h₁⟩, h₂⟩ := hlegal
      exact ⟨hr, st', h₁, h₂⟩

/-- `order` linearizes the history of an object that was at `st₀` and is at
`st`. -/
structure Linearizes (spec : St → Op → St × Res) (st₀ : St) (history : List (Event Op Res))
    (order : List (Entry Op Res)) (st : St) : Prop where
  legal : Legal spec st₀ order st
  once : (order.map Entry.id).Nodup
  called : ∀ e ∈ order, .call e.id e.op ∈ history
  returned : ∀ id res, .ret id res ∈ history → ∃ op, ⟨id, op, res⟩ ∈ order
  realTime : order.Pairwise fun a b => ¬ Precedes history b.id a.id

/-! ## What a history tells of the order -/

theorem Linearizes.nodup {spec : St → Op → St × Res} {st₀ st : St} {history : List (Event Op Res)}
    {order : List (Entry Op Res)} (h : Linearizes spec st₀ history order st) : order.Nodup := h.once.of_map

/-- What precedes an operation in real time comes before it in the order. -/
theorem Linearizes.before {spec : St → Op → St × Res} {st₀ st : St} {history : List (Event Op Res)}
    {xs ys : List (Entry Op Res)} {e a : Entry Op Res} (h : Linearizes spec st₀ history (xs ++ e :: ys) st)
    (ha : a ∈ xs ++ e :: ys) (hne : a ≠ e) (hp : Precedes history a.id e.id) : a ∈ xs := by
  rcases List.mem_append.mp ha with ha | ha
  · exact ha
  · rcases List.mem_cons.mp ha with rfl | ha
    · exact absurd rfl hne
    · have ho := (List.pairwise_append.mp h.realTime).2.1
      exact absurd hp ((List.pairwise_cons.mp ho).1 a ha)

/-- What an operation precedes in real time comes after it in the order. -/
theorem Linearizes.after {spec : St → Op → St × Res} {st₀ st : St} {history : List (Event Op Res)}
    {xs ys : List (Entry Op Res)} {e a : Entry Op Res} (h : Linearizes spec st₀ history (xs ++ e :: ys) st)
    (ha : a ∈ xs ++ e :: ys) (hne : a ≠ e) (hp : Precedes history e.id a.id) : a ∈ ys := by
  rcases List.mem_append.mp ha with ha | ha
  · have ho := (List.pairwise_append.mp h.realTime).2.2
    exact absurd hp (ho a ha e List.mem_cons_self)
  · rcases List.mem_cons.mp ha with rfl | ha
    · exact absurd rfl hne
    · exact ha

/-! ## The object -/

/-- How far an operation is. -/
inductive Status (Op Res : Type)
  | unused
  | called (op : Op)
  /-- It took effect. -/
  | done (res : Res)
  | returned

structure Object (Op Res St : Type) where
  st : St
  /-- The number of the next call. -/
  next : Nat
  calls : Nat → Status Op Res
  history : List (Event Op Res)
  /-- The operations that took effect, in order. -/
  order : List (Entry Op Res)

inductive Act (Op : Type)
  | call (op : Op)
  | commit (id : Nat)
  | ret (id : Nat)

namespace Object

def start (st : St) : Object Op Res St where
  st := st
  next := 0
  calls := fun _ => .unused
  history := []
  order := []

def step (spec : St → Op → St × Res) (o : Object Op Res St) : Act Op → Option (Object Op Res St)
  | .call op =>
    some { o with
      next := o.next + 1
      calls := Function.update o.calls o.next (.called op)
      history := o.history ++ [.call o.next op] }
  | .commit id =>
    match o.calls id with
    | .called op =>
      some { o with
        st := (spec o.st op).1
        calls := Function.update o.calls id (.done (spec o.st op).2)
        order := o.order ++ [⟨id, op, (spec o.st op).2⟩] }
    | _ => none
  | .ret id =>
    match o.calls id with
    | .done res =>
      some { o with
        calls := Function.update o.calls id .returned
        history := o.history ++ [.ret id res] }
    | _ => none

/-- What an operation is, and was not made just now, it was before. -/
theorem calls_of_update {calls : Nat → Status Op Res} {id id' : Nat} {made status : Status Op Res}
    (h : Function.update calls id made id' = status) (hm : made ≠ status) : id' ≠ id ∧ calls id' = status := by
  by_cases hid : id' = id
  · subst hid
    rw [Function.update_self] at h
    exact absurd h hm
  · rw [Function.update_of_ne hid] at h
    exact ⟨hid, h⟩

/-- An operation that is something else stays as it is. -/
theorem update_of_calls {calls : Nat → Status Op Res} {id id' : Nat} {was made status : Status Op Res}
    (h : calls id' = status) (hc : calls id = was) (hw : was ≠ status) :
    Function.update calls id made id' = status := by
  have hid : id' ≠ id := fun he => hw (hc.symm.trans (he ▸ h))
  rw [Function.update_of_ne hid]
  exact h

/-- What history, order and calls have to do with each other. -/
structure Sound (spec : St → Op → St × Res) (st₀ : St) (o : Object Op Res St) : Prop where
  legal : Legal spec st₀ o.order o.st
  once : (o.order.map Entry.id).Nodup
  /-- A number that was not called yet is nowhere. -/
  fresh : ∀ id, o.next ≤ id → o.calls id = .unused
  callNumber : ∀ id op, .call id op ∈ o.history → id < o.next
  single : ∀ id op op', .call id op ∈ o.history → .call id op' ∈ o.history → op = op'
  calledCall : ∀ id op, o.calls id = .called op → .call id op ∈ o.history ∧ id ∉ o.order.map Entry.id
  doneEntry : ∀ id res, o.calls id = .done res → ∃ op, ⟨id, op, res⟩ ∈ o.order
  called : ∀ e ∈ o.order, .call e.id e.op ∈ o.history
  returned : ∀ id res, .ret id res ∈ o.history → (∃ op, ⟨id, op, res⟩ ∈ o.order) ∧ o.calls id = .returned
  realTime : o.order.Pairwise fun a b => ¬ Precedes o.history b.id a.id

theorem Sound.start (spec : St → Op → St × Res) (st₀ : St) : Sound spec st₀ (start st₀ : Object Op Res St) where
  legal := rfl
  once := .nil
  fresh := fun _ _ => rfl
  callNumber := by simp [Object.start]
  single := by simp [Object.start]
  calledCall := by simp [Object.start]
  doneEntry := by simp [Object.start]
  called := by simp [Object.start]
  returned := by simp [Object.start]
  realTime := .nil

theorem precedes_append_call {history : List (Event Op Res)} {x y id : Nat} {op : Op} :
    Precedes (history ++ [.call id op]) x y ↔ Precedes history x y ∨ y = id ∧ ∃ res, .ret x res ∈ history := by
  constructor
  · intro hp
    obtain ⟨res, op', hs⟩ := hp
    rcases sublist_pair_append.mp hs with hs | ⟨he, hm⟩
    · exact .inl ⟨res, op', hs⟩
    · cases he
      exact .inr ⟨rfl, res, hm⟩
  · intro hp
    rcases hp with ⟨res, op', hs⟩ | ⟨rfl, res, hm⟩
    · exact ⟨res, op', sublist_pair_append.mpr (.inl hs)⟩
    · exact ⟨res, op, sublist_pair_append.mpr (.inr ⟨rfl, hm⟩)⟩

theorem precedes_append_ret {history : List (Event Op Res)} {x y id : Nat} {res : Res} :
    Precedes (history ++ [.ret id res]) x y ↔ Precedes history x y := by
  constructor
  · intro hp
    obtain ⟨res', op, hs⟩ := hp
    rcases sublist_pair_append.mp hs with hs | ⟨he, -⟩
    · exact ⟨res', op, hs⟩
    · cases he
  · intro hp
    obtain ⟨res', op, hs⟩ := hp
    exact ⟨res', op, sublist_pair_append.mpr (.inl hs)⟩

/-- A call appended to the history says nothing of the operations before it. -/
theorem Sound.not_precedes_call {spec : St → Op → St × Res} {st₀ : St} {o : Object Op Res St}
    (h : Sound spec st₀ o) (op : Op) {a : Entry Op Res} (ha : a ∈ o.order) (x : Nat) :
    Precedes (o.history ++ [.call o.next op]) x a.id ↔ Precedes o.history x a.id := by
  rw [precedes_append_call, or_iff_left]
  intro hp
  obtain ⟨he, -⟩ := hp
  have := h.callNumber _ _ (h.called a ha)
  omega

theorem Sound.call {spec : St → Op → St × Res} {st₀ : St} {o : Object Op Res St} (h : Sound spec st₀ o) (op : Op) :
    Sound spec st₀ { o with
      next := o.next + 1
      calls := Function.update o.calls o.next (.called op)
      history := o.history ++ [.call o.next op] } where
  legal := h.legal
  once := h.once
  fresh := by
    intro id hid
    change o.next + 1 ≤ id at hid
    simp only
    rw [Function.update_of_ne (by omega)]
    exact h.fresh id (by omega)
  callNumber := by
    intro id op' hm
    show id < o.next + 1
    rcases List.mem_append.mp hm with hm | hm
    · have := h.callNumber id op' hm
      omega
    · simp only [List.mem_singleton, Event.call.injEq] at hm
      omega
  single := by
    intro id op₁ op₂ h₁ h₂
    have old : ∀ {op'}, .call id op' ∈ o.history → id ≠ o.next := fun hm =>
      Nat.ne_of_lt (h.callNumber id _ hm)
    simp only [List.mem_append, List.mem_singleton, Event.call.injEq] at h₁ h₂
    rcases h₁ with h₁ | ⟨he, rfl⟩
    · rcases h₂ with h₂ | ⟨he, rfl⟩
      · exact h.single id op₁ op₂ h₁ h₂
      · exact absurd he (old h₁)
    · rcases h₂ with h₂ | ⟨-, rfl⟩
      · exact absurd he (old h₂)
      · rfl
  calledCall := by
    intro id op' hc
    simp only at hc
    by_cases hid : id = o.next
    · subst hid
      rw [Function.update_self] at hc
      cases hc
      refine ⟨by simp, fun hm => ?_⟩
      obtain ⟨e, he, hid⟩ := List.mem_map.mp hm
      have := h.callNumber _ _ (h.called e he)
      omega
    · rw [Function.update_of_ne hid] at hc
      obtain ⟨hm, hn⟩ := h.calledCall id op' hc
      exact ⟨List.mem_append_left _ hm, hn⟩
  doneEntry := fun id res hd => h.doneEntry id res (calls_of_update hd (by simp)).2
  called := fun e he => List.mem_append_left _ (h.called e he)
  returned := by
    intro id res hm
    simp only [List.mem_append, List.mem_singleton, reduceCtorEq, or_false] at hm
    obtain ⟨he, hr⟩ := h.returned id res hm
    exact ⟨he, update_of_calls hr (h.fresh _ (Nat.le_refl _)) (by simp)⟩
  realTime := by
    refine h.realTime.imp_of_mem fun {a b} ha hb hab => ?_
    rw [h.not_precedes_call op ha]
    exact hab

theorem Sound.commit {spec : St → Op → St × Res} {st₀ : St} {o : Object Op Res St} (h : Sound spec st₀ o)
    {id : Nat} {op : Op} (hc : o.calls id = .called op) :
    Sound spec st₀ { o with
      st := (spec o.st op).1
      calls := Function.update o.calls id (.done (spec o.st op).2)
      order := o.order ++ [⟨id, op, (spec o.st op).2⟩] } where
  legal := legal_append.mpr ⟨o.st, h.legal, rfl, rfl⟩
  once := by
    obtain ⟨-, hn⟩ := h.calledCall id op hc
    simp only [List.map_append, List.map_cons, List.map_nil]
    exact List.nodup_append.mpr ⟨h.once, List.nodup_singleton id, fun a ha b hb he =>
      hn (List.mem_singleton.mp hb ▸ he ▸ ha)⟩
  fresh := fun id' hid => update_of_calls (h.fresh id' hid) hc (by simp)
  callNumber := h.callNumber
  single := h.single
  calledCall := by
    intro id' op' hc'
    obtain ⟨hid, hc'⟩ := calls_of_update hc' (by simp)
    obtain ⟨hm, hn⟩ := h.calledCall id' op' hc'
    refine ⟨hm, fun hmem => ?_⟩
    simp only [List.map_append, List.map_cons, List.map_nil, List.mem_append, List.mem_singleton] at hmem
    exact hmem.elim hn hid
  doneEntry := by
    intro id' res hd
    simp only at hd
    by_cases hid : id' = id
    · subst hid
      rw [Function.update_self] at hd
      cases hd
      exact ⟨op, by simp⟩
    · rw [Function.update_of_ne hid] at hd
      obtain ⟨op', he⟩ := h.doneEntry id' res hd
      exact ⟨op', List.mem_append_left _ he⟩
  called := by
    intro e he
    rcases List.mem_append.mp he with he | he
    · exact h.called e he
    · rw [List.mem_singleton.mp he]
      exact (h.calledCall id op hc).1
  returned := by
    intro id' res hm
    obtain ⟨⟨op', he⟩, hr⟩ := h.returned id' res hm
    exact ⟨⟨op', List.mem_append_left _ he⟩, update_of_calls hr hc (by simp)⟩
  realTime := by
    -- the operation has not returned, so it precedes nothing
    refine List.pairwise_append.mpr ⟨h.realTime, List.pairwise_singleton _ _, fun a _ b hb => ?_⟩
    rw [List.mem_singleton.mp hb]
    intro hp
    obtain ⟨res, op', hs⟩ := hp
    have hr := (h.returned id res (hs.subset (by simp))).2
    rw [hc] at hr
    cases hr

theorem Sound.ret {spec : St → Op → St × Res} {st₀ : St} {o : Object Op Res St} (h : Sound spec st₀ o)
    {id : Nat} {res : Res} (hd : o.calls id = .done res) :
    Sound spec st₀ { o with
      calls := Function.update o.calls id .returned
      history := o.history ++ [.ret id res] } where
  legal := h.legal
  once := h.once
  fresh := fun id' hid => update_of_calls (h.fresh id' hid) hd (by simp)
  callNumber := by
    intro id' op hm
    simp only [List.mem_append, List.mem_singleton, reduceCtorEq, or_false] at hm
    exact h.callNumber id' op hm
  single := by
    intro id' op₁ op₂ h₁ h₂
    simp only [List.mem_append, List.mem_singleton, reduceCtorEq, or_false] at h₁ h₂
    exact h.single id' op₁ op₂ h₁ h₂
  calledCall := by
    intro id' op hc
    obtain ⟨hm, hn⟩ := h.calledCall id' op (calls_of_update hc (by simp)).2
    exact ⟨List.mem_append_left _ hm, hn⟩
  doneEntry := fun id' res' hd' => h.doneEntry id' res' (calls_of_update hd' (by simp)).2
  called := fun e he => List.mem_append_left _ (h.called e he)
  returned := by
    intro id' res' hm
    simp only
    rcases List.mem_append.mp hm with hm | hm
    · obtain ⟨he, hr⟩ := h.returned id' res' hm
      refine ⟨he, ?_⟩
      by_cases hid : id' = id
      · rw [hid, Function.update_self]
      · rw [Function.update_of_ne hid]
        exact hr
    · simp only [List.mem_singleton, Event.ret.injEq] at hm
      obtain ⟨rfl, rfl⟩ := hm
      exact ⟨h.doneEntry _ _ hd, Function.update_self ..⟩
  realTime := by
    refine h.realTime.imp fun {a b} hab => ?_
    rw [precedes_append_ret]
    exact hab

theorem Sound.step {spec : St → Op → St × Res} {st₀ : St} {o o' : Object Op Res St} {a : Act Op}
    (h : Sound spec st₀ o) (hs : o.step spec a = some o') : Sound spec st₀ o' := by
  cases a with
  | call op =>
    cases hs
    exact h.call op
  | commit id =>
    simp only [Object.step] at hs
    split at hs
    · next op hc => cases hs; exact h.commit hc
    · cases hs
  | ret id =>
    simp only [Object.step] at hs
    split at hs
    · next res hd => cases hs; exact h.ret hd
    · cases hs

theorem Sound.reach {spec : St → Op → St × Res} {st₀ : St} {o : Object Op Res St}
    (h : Runs.Reach (Object.step spec) (fun _ _ => True) (.start st₀) o) : Sound spec st₀ o :=
  h.invariant (Sound spec st₀) (.start spec st₀) fun _ _ _ hi _ hs => hi.step hs

/-- **Every history of the object is linearizable.** -/
theorem Sound.linearizes {spec : St → Op → St × Res} {st₀ : St} {o : Object Op Res St} (h : Sound spec st₀ o) :
    Linearizes spec st₀ o.history o.order o.st where
  legal := h.legal
  once := h.once
  called := h.called
  returned := fun id res hm => (h.returned id res hm).1
  realTime := h.realTime

end Object

/-! ## Threads whose calls are an object's -/

section

variable {T P : Type}

/-- How far each thread is with its call, in the phases `P`, is how far the
object's call is: `id?` is the call that a phase is of. -/
structure Calls (id? : P → Option Nat) (Matches : P → Status Op Res → Prop) (threads : T → P) (n : Nat)
    (events : List (Event Op Res)) (o : Object Op Res St) : Prop where
  next : o.next = n
  history : o.history = events
  calls : ∀ t id, id? (threads t) = some id → Matches (threads t) (o.calls id)
  /-- A call is one thread's. -/
  single : ∀ t u id, id? (threads t) = some id → id? (threads u) = some id → t = u
  old : ∀ t id, id? (threads t) = some id → id < n

variable {id? : P → Option Nat} {Matches : P → Status Op Res → Prop} {threads : T → P} {n : Nat}
  {events events' : List (Event Op Res)} {o o' : Object Op Res St}

theorem Calls.start {rest : P} (hrest : id? rest = none) (a : St) :
    Calls id? Matches (fun _ : T => rest) 0 [] (Object.start a) where
  next := rfl
  history := rfl
  calls := fun t id h => by rw [hrest] at h; cases h
  single := fun t u id h => by rw [hrest] at h; cases h
  old := fun t id h => by rw [hrest] at h; cases h

variable [DecidableEq T]

/-- A call has one thread still when what a thread goes on with is no
other's. -/
theorem Calls.single_update (h : Calls id? Matches threads n events o) {t : T} {phase : P}
    (hp : ∀ u i, u ≠ t → id? phase = some i → id? (threads u) ≠ some i) (u v : T) (i : Nat)
    (hu : id? (Function.update threads t phase u) = some i) (hv : id? (Function.update threads t phase v) = some i) :
    u = v := by
  by_cases hut : u = t
  · by_cases hvt : v = t
    · rw [hut, hvt]
    · rw [hut, Function.update_self] at hu
      rw [Function.update_of_ne hvt] at hv
      exact absurd hv (hp v i hvt hu)
  · rw [Function.update_of_ne hut] at hu
    by_cases hvt : v = t
    · rw [hvt, Function.update_self] at hv
      exact absurd hu (hp u i hut hv)
    · rw [Function.update_of_ne hvt] at hv
      exact h.single u v i hu hv

/-- A thread's step on its own call, and the object's on the same one. -/
theorem Calls.move (h : Calls id? Matches threads n events o) {t : T} {id : Nat}
    (hid : id? (threads t) = some id) (phase : P) (hp : ∀ i, id? phase = some i → i = id) (hn : o'.next = o.next)
    (hh : o'.history = events') (hc : ∀ i, i ≠ id → o'.calls i = o.calls i)
    (hm : id? phase = some id → Matches phase (o'.calls id)) :
    Calls id? Matches (Function.update threads t phase) n events' o' := by
  have other : ∀ {u i}, u ≠ t → id? (threads u) = some i → i ≠ id := by
    intro u i hu hi he
    exact hu (h.single u t id (he ▸ hi) hid)
  refine ⟨hn.trans h.next, hh, ?_, ?_, ?_⟩
  · intro u i hu
    by_cases hut : u = t
    · subst hut
      rw [Function.update_self] at hu ⊢
      obtain rfl := hp i hu
      exact hm hu
    · rw [Function.update_of_ne hut] at hu ⊢
      rw [hc i (other hut hu)]
      exact h.calls u i hu
  · exact h.single_update fun u i hu hi he => other hu he (hp i hi)
  · intro u i hu
    by_cases hut : u = t
    · rw [hut, Function.update_self] at hu
      rw [hp i hu]
      exact h.old t id hid
    · rw [Function.update_of_ne hut] at hu
      exact h.old u i hu

/-- A call begun. -/
theorem Calls.call (h : Calls id? Matches threads n events o) (t : T) (op : Op) {phase : P}
    (hp : id? phase = some n) (hm : Matches phase (.called op)) :
    Calls id? Matches (Function.update threads t phase) (n + 1) (events ++ [.call n op])
      { o with
        next := o.next + 1
        calls := Function.update o.calls o.next (.called op)
        history := o.history ++ [.call o.next op] } := by
  have hnext := h.next
  refine ⟨by simp only [hnext], by simp only [hnext, h.history], ?_, ?_, ?_⟩
  · intro u i hu
    by_cases hut : u = t
    · subst hut
      rw [Function.update_self] at hu ⊢
      obtain rfl := Option.some.inj (hp.symm.trans hu)
      simp only [hnext, Function.update_self]
      exact hm
    · rw [Function.update_of_ne hut] at hu ⊢
      have hlt := h.old u i hu
      simp only [hnext]
      rw [Function.update_of_ne (by omega)]
      exact h.calls u i hu
  · refine h.single_update fun u i _ hi he => ?_
    obtain rfl := Option.some.inj (hp.symm.trans hi)
    exact absurd (h.old u _ he) (Nat.lt_irrefl _)
  · intro u i hu
    by_cases hut : u = t
    · rw [hut, Function.update_self] at hu
      obtain rfl := Option.some.inj (hp.symm.trans hu)
      exact Nat.lt_succ_self _
    · rw [Function.update_of_ne hut] at hu
      exact Nat.lt_succ_of_lt (h.old u i hu)

/-- The call takes effect. -/
theorem Calls.commit (h : Calls id? Matches threads n events o) {t : T} {id : Nat} {op : Op}
    (spec : St → Op → St × Res) (phase : P) (hid : id? (threads t) = some id) (hcall : o.calls id = .called op)
    (hp : id? phase = some id) (hm : Matches phase (.done (spec o.st op).2)) :
    ∃ o', o.step spec (.commit id) = some o' ∧ o'.st = (spec o.st op).1 ∧
      Calls id? Matches (Function.update threads t phase) n events o' := by
  refine ⟨{ o with
      st := (spec o.st op).1
      calls := Function.update o.calls id (.done (spec o.st op).2)
      order := o.order ++ [⟨id, op, (spec o.st op).2⟩] }, by simp only [Object.step, hcall], rfl, ?_⟩
  refine h.move hid phase (fun i hi => Option.some.inj (hi.symm.trans hp)) rfl h.history
    (fun i hi => Function.update_of_ne hi _ _) fun _ => ?_
  simp only [Function.update_self]
  exact hm

/-- And returns. -/
theorem Calls.ret (h : Calls id? Matches threads n events o) {t : T} {id : Nat} {res : Res}
    (spec : St → Op → St × Res) (phase : P) (hid : id? (threads t) = some id) (hcall : o.calls id = .done res)
    (hp : id? phase = none) :
    ∃ o', o.step spec (.ret id) = some o' ∧ o'.st = o.st ∧
      Calls id? Matches (Function.update threads t phase) n (events ++ [.ret id res]) o' := by
  refine ⟨{ o with calls := Function.update o.calls id .returned, history := o.history ++ [.ret id res] },
    by simp only [Object.step, hcall], rfl, ?_⟩
  have hno : ∀ i, id? phase ≠ some i := fun i hi => by rw [hp] at hi; cases hi
  exact h.move hid phase (fun i hi => absurd hi (hno i)) rfl (by rw [h.history])
    (fun i hi => Function.update_of_ne hi _ _) fun hi => absurd hi (hno id)

end

end Linearize
