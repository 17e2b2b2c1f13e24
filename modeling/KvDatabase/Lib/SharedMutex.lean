/-
A readers-writer lock, and an object whose operations each run under it, step
by step: the ones that write under it alone, the ones that only read under it
together.

The object's code is given by its steps on the shared state (`Code`). What one
has to show of it is sequential (`Implements`): begun on a shared state that
stands for an abstract one, an operation that runs alone ends on one that
stands for what the specification says, with its result. Then any number of
threads under the lock are an object of `Linearize` (`Reachable.simulates`): an
operation takes effect when it gives the lock back. What the steps in between
rely on holds whoever else runs (`Guarded.run`), and the threads never wait
for each other in a circle (`Guarded.progress`).
-/
import KvDatabase.Lib.Linearize

/-- Who has it: one thread for itself, or any others together. -/
structure SharedMutex (T : Type) where
  writer : Option T
  readers : List T
  nodup : readers.Nodup
  exclusive : writer ≠ none → readers = []

namespace SharedMutex

variable {T : Type}

def free (T : Type) : SharedMutex T := ⟨none, [], .nil, fun _ => rfl⟩

def lock (m : SharedMutex T) (t : T) : Option (SharedMutex T) :=
  if m.writer.isNone ∧ m.readers.isEmpty then some ⟨some t, [], .nil, fun _ => rfl⟩ else none

def unlock [DecidableEq T] (m : SharedMutex T) (t : T) : Option (SharedMutex T) :=
  if m.writer = some t then some ⟨none, m.readers, m.nodup, fun h => absurd rfl h⟩ else none

def lockShared [DecidableEq T] (m : SharedMutex T) (t : T) : Option (SharedMutex T) :=
  if h : m.writer.isNone ∧ t ∉ m.readers then
    some ⟨m.writer, t :: m.readers, List.nodup_cons.mpr ⟨h.2, m.nodup⟩,
      fun hw => absurd (Option.isNone_iff_eq_none.mp h.1) hw⟩
  else none

def unlockShared [DecidableEq T] (m : SharedMutex T) (t : T) : Option (SharedMutex T) :=
  if t ∈ m.readers then
    some ⟨m.writer, m.readers.erase t, m.nodup.erase t, fun hw => by rw [m.exclusive hw]; rfl⟩
  else none

section

variable {m m' : SharedMutex T} {t : T}

theorem lock_eq_some (h : m.lock t = some m') :
    m.writer = none ∧ m.readers = [] ∧ m'.writer = some t ∧ m'.readers = [] := by
  rw [lock] at h
  split at h
  · next hg =>
    cases h
    exact ⟨Option.isNone_iff_eq_none.mp hg.1, List.isEmpty_iff.mp hg.2, rfl, rfl⟩
  · cases h

variable [DecidableEq T]

theorem unlock_eq_some (h : m.unlock t = some m') :
    m.writer = some t ∧ m'.writer = none ∧ m'.readers = m.readers := by
  rw [unlock] at h
  split at h
  · next hg => cases h; exact ⟨hg, rfl, rfl⟩
  · cases h

theorem lockShared_eq_some (h : m.lockShared t = some m') :
    m.writer = none ∧ m'.writer = none ∧ m'.readers = t :: m.readers := by
  rw [lockShared] at h
  split at h
  · next hg =>
    cases h
    exact ⟨Option.isNone_iff_eq_none.mp hg.1, Option.isNone_iff_eq_none.mp hg.1, rfl⟩
  · cases h

theorem unlockShared_eq_some (h : m.unlockShared t = some m') :
    t ∈ m.readers ∧ m'.writer = m.writer ∧ m'.readers = m.readers.erase t := by
  rw [unlockShared] at h
  split at h
  · next hg => cases h; exact ⟨hg, rfl, rfl⟩
  · cases h

end

end SharedMutex

namespace Linearize

/-! ## Code and what it implements -/

/-- Operations in steps on a shared state. A step may depend on something the
code does not decide (`Input`): the address an allocation returns. -/
structure Code (σ Op Pc Input Res : Type) where
  start : Op → Pc
  /-- It takes the lock for itself. -/
  exclusive : Op → Bool
  step : σ → Pc → Input → Option (σ × Pc)
  /-- The operation is at its end. -/
  result : Pc → Option Res

variable {T σ Op Pc Input Res St : Type}

/-- The operations, each alone, do what `spec` says: `rep` is what a shared
state stands for, and `during` what holds while an operation runs that began
on one. -/
structure Implements (code : Code σ Op Pc Input Res) (spec : St → Op → St × Res) (rep : St → σ → Prop)
    (during : Op → St → σ → Pc → Prop) : Prop where
  begins : ∀ {op a s}, rep a s → during op a s (code.start op)
  steps : ∀ {op a s pc i s' pc'}, during op a s pc → code.step s pc i = some (s', pc') → during op a s' pc'
  ends : ∀ {op a s pc r}, during op a s pc → code.result pc = some r → rep (spec a op).1 s ∧ r = (spec a op).2
  /-- An operation that shares the lock writes nothing, -/
  reads : ∀ {op a s pc i s' pc'}, code.exclusive op = false → during op a s pc →
    code.step s pc i = some (s', pc') → s' = s
  /-- and means to change nothing. -/
  leaves : ∀ {op a}, code.exclusive op = false → (spec a op).1 = a

/-! ## Threads under the lock -/

/-- Where a thread is with the operation it was called for. -/
inductive Phase (Op Pc Res : Type)
  | idle
  /-- To take the lock. -/
  | called (id : Nat) (op : Op)
  | inside (id : Nat) (op : Op) (pc : Pc)
  /-- The lock is given back. -/
  | left (id : Nat) (res : Res)

namespace Phase

def id? : Phase Op Pc Res → Option Nat
  | idle => none
  | called id _ | inside id _ _ | left id _ => some id

/-- The operation it runs under the lock. -/
def inside? : Phase Op Pc Res → Option (Op × Pc)
  | inside _ op pc => some (op, pc)
  | _ => none

/-- How far the object's call is when a thread is here. -/
def Matches : Phase Op Pc Res → Status Op Res → Prop
  | idle, _ => True
  | called _ op, call => call = .called op
  | inside _ op _, call => call = .called op
  | left _ res, call => call = .done res

end Phase

/-- The threads of `T` over one shared state. -/
structure Locked (T σ Op Pc Res : Type) where
  shared : σ
  mutex : SharedMutex T
  threads : T → Phase Op Pc Res
  /-- The number of the next call. -/
  next : Nat
  history : List (Event Op Res)

inductive LockedStep (T Op Input : Type)
  | call (t : T) (op : Op)
  | acquire (t : T)
  | step (t : T) (input : Input)
  | release (t : T)
  | ret (t : T)

/-- A step of the code of `t`. -/
def LockedStep.inside [DecidableEq T] (t : T) : LockedStep T Op Input → Bool
  | .step u _ => u = t
  | _ => false

namespace Locked

def start (shared : σ) : Locked T σ Op Pc Res where
  shared := shared
  mutex := .free T
  threads := fun _ => .idle
  next := 0
  history := []

variable [DecidableEq T]

def step (code : Code σ Op Pc Input Res) (s : Locked T σ Op Pc Res) :
    LockedStep T Op Input → Option (Locked T σ Op Pc Res)
  | .call t op =>
    match s.threads t with
    | .idle =>
      some { s with
        threads := Function.update s.threads t (.called s.next op)
        next := s.next + 1
        history := s.history ++ [.call s.next op] }
    | _ => none
  | .acquire t =>
    match s.threads t with
    | .called id op =>
      (if code.exclusive op then s.mutex.lock t else s.mutex.lockShared t).map fun mutex =>
        { s with mutex, threads := Function.update s.threads t (.inside id op (code.start op)) }
    | _ => none
  | .step t input =>
    match s.threads t with
    | .inside id op pc =>
      (code.step s.shared pc input).map fun (shared, pc) =>
        { s with shared, threads := Function.update s.threads t (.inside id op pc) }
    | _ => none
  | .release t =>
    match s.threads t with
    | .inside id op pc =>
      match code.result pc with
      | some res =>
        (if code.exclusive op then s.mutex.unlock t else s.mutex.unlockShared t).map fun mutex =>
          { s with mutex, threads := Function.update s.threads t (.left id res) }
      | none => none
    | _ => none
  | .ret t =>
    match s.threads t with
    | .left id res =>
      some { s with threads := Function.update s.threads t .idle, history := s.history ++ [.ret id res] }
    | _ => none

/-- The runs of the threads from a shared state. -/
abbrev Reachable (code : Code σ Op Pc Input Res) (shared : σ) (s : Locked T σ Op Pc Res) : Prop :=
  Runs.Reach (step code) (fun _ _ => True) (start shared) s

/-- How far each thread is is how far the object's call is. -/
abbrev Calls (s : Locked T σ Op Pc Res) (o : Object Op Res St) : Prop :=
  Linearize.Calls Phase.id? Phase.Matches s.threads s.next s.history o

/-! ## What the lock guards -/

/-- The lock is with the threads inside, and while nobody has it for itself
the shared state stands for `a`. -/
structure Guarded (code : Code σ Op Pc Input Res) (rep : St → σ → Prop) (during : Op → St → σ → Pc → Prop)
    (s : Locked T σ Op Pc Res) (a : St) : Prop where
  writer : ∀ t, s.mutex.writer = some t ↔ ∃ op pc, (s.threads t).inside? = some (op, pc) ∧ code.exclusive op = true
  readers : ∀ t, t ∈ s.mutex.readers ↔ ∃ op pc, (s.threads t).inside? = some (op, pc) ∧ code.exclusive op = false
  rest : s.mutex.writer = none → rep a s.shared
  run : ∀ t op pc, (s.threads t).inside? = some (op, pc) → during op a s.shared pc

variable {code : Code σ Op Pc Input Res} {spec : St → Op → St × Res} {rep : St → σ → Prop}
  {during : Op → St → σ → Pc → Prop} {s s' : Locked T σ Op Pc Res} {a : St} {t u : T} {op op' : Op} {pc pc' : Pc}

omit [DecidableEq T] in
theorem Guarded.start {shared : σ} (h : rep a shared) :
    Guarded code rep during (start shared : Locked T σ Op Pc Res) a where
  writer := by simp [Locked.start, SharedMutex.free, Phase.inside?]
  readers := by simp [Locked.start, SharedMutex.free, Phase.inside?]
  rest := fun _ => h
  run := by intro t op pc ht; cases ht

omit [DecidableEq T] in
/-- Beside a thread that has the lock for itself nobody is inside. -/
theorem Guarded.alone (h : Guarded code rep during s a) (ht : (s.threads t).inside? = some (op, pc))
    (he : code.exclusive op = true) (hu : u ≠ t) : (s.threads u).inside? = none := by
  have hw : s.mutex.writer = some t := (h.writer t).mpr ⟨op, pc, ht, he⟩
  cases hin : (s.threads u).inside? with
  | none => rfl
  | some inside =>
    obtain ⟨op', pc'⟩ := inside
    cases hx : code.exclusive op' with
    | true =>
      have hw' := (h.writer u).mpr ⟨op', pc', hin, hx⟩
      exact absurd (Option.some.inj (hw'.symm.trans hw)) hu
    | false =>
      have hm := (h.readers u).mpr ⟨op', pc', hin, hx⟩
      rw [s.mutex.exclusive (by rw [hw]; exact Option.some_ne_none t)] at hm
      cases hm

omit [DecidableEq T] in
/-- While a thread shares the lock nobody has it for itself. -/
theorem Guarded.no_writer (h : Guarded code rep during s a) (ht : (s.threads t).inside? = some (op, pc))
    (he : code.exclusive op = false) : s.mutex.writer = none := by
  have hm := (h.readers t).mpr ⟨op, pc, ht, he⟩
  cases hw : s.mutex.writer with
  | none => rfl
  | some u =>
    rw [s.mutex.exclusive (by rw [hw]; exact Option.some_ne_none u)] at hm
    cases hm

/-- What a thread does outside. -/
theorem Guarded.outside (h : Guarded code rep during s a) (ht : (s.threads t).inside? = none)
    (phase : Phase Op Pc Res) (hp : phase.inside? = none) (next : Nat) (history : List (Event Op Res)) :
    Guarded code rep during { s with threads := Function.update s.threads t phase, next, history } a := by
  have same : ∀ u, (Function.update s.threads t phase u).inside? = (s.threads u).inside? := by
    intro u
    by_cases hu : u = t
    · rw [hu, Function.update_self, hp, ht]
    · rw [Function.update_of_ne hu]
  refine ⟨?_, ?_, h.rest, ?_⟩
  · intro u; simp only [same]; exact h.writer u
  · intro u; simp only [same]; exact h.readers u
  · intro u op pc hu; rw [same] at hu; exact h.run u op pc hu

theorem Guarded.acquire (h : Guarded code rep during s a) (hi : Implements code spec rep during)
    (ht : (s.threads t).inside? = none) {mutex : SharedMutex T}
    (hm : (if code.exclusive op then s.mutex.lock t else s.mutex.lockShared t) = some mutex) (id : Nat) :
    Guarded code rep during
      { s with mutex, threads := Function.update s.threads t (.inside id op (code.start op)) } a := by
  have hfree : s.mutex.writer = none := by
    split at hm
    · exact (SharedMutex.lock_eq_some hm).1
    · exact (SharedMutex.lockShared_eq_some hm).1
  refine ⟨?_, ?_, fun _ => h.rest hfree, ?_⟩
  · intro u
    have hu := h.writer u
    cases hx : code.exclusive op with
    | true =>
      rw [hx, if_pos rfl] at hm
      obtain ⟨-, -, hw, -⟩ := SharedMutex.lock_eq_some hm
      by_cases hut : u = t
      · subst hut
        simp [hw, Phase.inside?, hx]
      · simpa [hw, hfree, Function.update_of_ne hut, Ne.symm hut] using hu
    | false =>
      rw [hx, if_neg Bool.false_ne_true] at hm
      obtain ⟨-, hw, -⟩ := SharedMutex.lockShared_eq_some hm
      by_cases hut : u = t
      · subst hut
        simp [hw, Phase.inside?, hx]
      · simpa [hw, hfree, Function.update_of_ne hut] using hu
  · intro u
    have hu := h.readers u
    cases hx : code.exclusive op with
    | true =>
      rw [hx, if_pos rfl] at hm
      obtain ⟨-, hn, -, hr⟩ := SharedMutex.lock_eq_some hm
      by_cases hut : u = t
      · subst hut
        simp [hr, Phase.inside?, hx]
      · simpa [hr, hn, Function.update_of_ne hut] using hu
    | false =>
      rw [hx, if_neg Bool.false_ne_true] at hm
      obtain ⟨-, -, hr⟩ := SharedMutex.lockShared_eq_some hm
      by_cases hut : u = t
      · subst hut
        simp [hr, Phase.inside?, hx]
      · simpa [hr, Function.update_of_ne hut, hut] using hu
  · intro u op' pc' hu
    simp only at hu
    by_cases hut : u = t
    · subst hut
      rw [Function.update_self] at hu
      cases hu
      exact hi.begins (h.rest hfree)
    · rw [Function.update_of_ne hut] at hu
      exact h.run u op' pc' hu

/-- A step under the lock: who writes is alone. -/
theorem Guarded.move (h : Guarded code rep during s a) (hi : Implements code spec rep during) {id : Nat}
    (ht : s.threads t = .inside id op pc) {input : Input} {shared : σ}
    (hs : code.step s.shared pc input = some (shared, pc')) :
    Guarded code rep during { s with shared, threads := Function.update s.threads t (.inside id op pc') } a := by
  have hin : (s.threads t).inside? = some (op, pc) := by rw [ht]; rfl
  have hrun := h.run t op pc hin
  have same : ∀ b u, (∃ op' pc'', (Function.update s.threads t (.inside id op pc') u).inside? = some (op', pc'') ∧
      code.exclusive op' = b) ↔ ∃ op' pc'', (s.threads u).inside? = some (op', pc'') ∧ code.exclusive op' = b := by
    intro b u
    by_cases hut : u = t
    · subst hut
      rw [Function.update_self, hin]
      simp [Phase.inside?]
    · rw [Function.update_of_ne hut]
  refine ⟨fun u => ?_, fun u => ?_, fun hw => ?_, fun u op' pc'' hu => ?_⟩
  · simp only [same]
    exact h.writer u
  · simp only [same]
    exact h.readers u
  · cases hx : code.exclusive op with
    | true => exact absurd ((h.writer t).mpr ⟨op, pc, hin, hx⟩) (by rw [hw]; exact Option.some_ne_none t |>.symm)
    | false =>
      rw [hi.reads hx hrun hs]
      exact h.rest hw
  · simp only at hu
    by_cases hut : u = t
    · subst hut
      rw [Function.update_self] at hu
      cases hu
      exact hi.steps hrun hs
    · rw [Function.update_of_ne hut] at hu
      cases hx : code.exclusive op with
      | true =>
        rw [h.alone hin hx hut] at hu
        cases hu
      | false =>
        rw [hi.reads hx hrun hs]
        exact h.run u op' pc'' hu

/-- The lock given back: what the operation left stands for what the
specification says. -/
theorem Guarded.release (h : Guarded code rep during s a) (hi : Implements code spec rep during) {id : Nat}
    (ht : s.threads t = .inside id op pc) {res : Res} (hr : code.result pc = some res) {mutex : SharedMutex T}
    (hm : (if code.exclusive op then s.mutex.unlock t else s.mutex.unlockShared t) = some mutex) :
    Guarded code rep during { s with mutex, threads := Function.update s.threads t (.left id res) } (spec a op).1 := by
  have hin : (s.threads t).inside? = some (op, pc) := by rw [ht]; rfl
  obtain ⟨hrep, -⟩ := hi.ends (h.run t op pc hin) hr
  cases hx : code.exclusive op with
  | true =>
    rw [hx, if_pos rfl] at hm
    obtain ⟨hw, hw', hr'⟩ := SharedMutex.unlock_eq_some hm
    have hnone : ∀ u, (Function.update s.threads t (.left id res) u).inside? = none := by
      intro u
      by_cases hut : u = t
      · rw [hut, Function.update_self]; rfl
      · rw [Function.update_of_ne hut]
        exact h.alone hin hx hut
    have hempty : s.mutex.readers = [] := s.mutex.exclusive (by rw [hw]; exact Option.some_ne_none t)
    exact ⟨by simp [hw', hnone], by simp [hr', hempty, hnone], fun _ => hrep, by simp [hnone]⟩
  | false =>
    rw [hx, if_neg Bool.false_ne_true] at hm
    obtain ⟨hmem, hw, hr'⟩ := SharedMutex.unlockShared_eq_some hm
    have hfree := h.no_writer hin hx
    rw [hi.leaves hx]
    refine ⟨fun u => ?_, fun u => ?_, fun _ => h.rest hfree, fun u op' pc' hu => ?_⟩
    · have hu := h.writer u
      by_cases hut : u = t
      · subst hut
        simp [hw, hfree, Phase.inside?]
      · simpa [hw, hfree, Function.update_of_ne hut] using hu
    · have hu := h.readers u
      by_cases hut : u = t
      · subst hut
        simp [hr', Phase.inside?, s.mutex.nodup.mem_erase_iff]
      · simpa [hr', Function.update_of_ne hut, List.mem_erase_of_ne hut] using hu
    · simp only at hu
      by_cases hut : u = t
      · rw [hut, Function.update_self] at hu
        cases hu
      · rw [Function.update_of_ne hut] at hu
        exact h.run u op' pc' hu

/-! ## Every run -/

/-- Every step of a thread is one of the object's, or none: an operation takes
effect when it gives the lock back. -/
theorem Calls.step {o : Object Op Res St} {l : LockedStep T Op Input} (hi : Implements code spec rep during)
    (h : Calls s o) (hg : Guarded code rep during s o.st) (hs : s.step code l = some s') :
    ∃ o', (Calls s' o' ∧ Guarded code rep during s' o'.st) ∧ (o' = o ∨ ∃ b, o.step spec b = some o') := by
  have hcalls := h.calls
  cases l with
  | call t op =>
    simp only [Locked.step] at hs
    split at hs
    · next ht =>
      cases hs
      have hout := hg.outside (by rw [ht]; rfl) (.called s.next op) rfl
      exact ⟨_, ⟨h.call t op rfl rfl, hout _ _⟩, .inr ⟨.call op, rfl⟩⟩
    · cases hs
  | acquire t =>
    simp only [Locked.step] at hs
    split at hs
    · next id op ht =>
      obtain ⟨mutex, hm, rfl⟩ := Option.map_eq_some_iff.mp hs
      have hcall := hcalls t id (by rw [ht]; rfl)
      rw [ht] at hcall
      refine ⟨o, ⟨?_, hg.acquire hi (by rw [ht]; rfl) hm id⟩, .inl rfl⟩
      exact h.move (by rw [ht]; rfl) (.inside id op (code.start op)) (fun i hi => (Option.some.inj hi).symm) rfl
        h.history (fun _ _ => rfl) fun _ => hcall
    · cases hs
  | step t input =>
    simp only [Locked.step] at hs
    split at hs
    · next id op pc ht =>
      obtain ⟨⟨shared, pc'⟩, hc, rfl⟩ := Option.map_eq_some_iff.mp hs
      have hcall := hcalls t id (by rw [ht]; rfl)
      rw [ht] at hcall
      refine ⟨o, ⟨?_, hg.move hi ht hc⟩, .inl rfl⟩
      exact h.move (by rw [ht]; rfl) (.inside id op pc') (fun i hi => (Option.some.inj hi).symm) rfl h.history
        (fun _ _ => rfl) fun _ => hcall
    · cases hs
  | release t =>
    simp only [Locked.step] at hs
    split at hs
    · next id op pc ht =>
      split at hs
      · next res hr =>
        obtain ⟨mutex, hm, rfl⟩ := Option.map_eq_some_iff.mp hs
        have hcall := hcalls t id (by rw [ht]; rfl)
        rw [ht] at hcall
        obtain ⟨-, hres⟩ := hi.ends (hg.run t op pc (by rw [ht]; rfl)) hr
        obtain ⟨o', ho', hst, hafter⟩ :=
          h.commit spec (.left id res) (by rw [ht]; rfl) hcall rfl (by rw [hres]; rfl)
        exact ⟨o', ⟨hafter, hst ▸ hg.release hi ht hr hm⟩, .inr ⟨.commit id, ho'⟩⟩
      · cases hs
    · cases hs
  | ret t =>
    simp only [Locked.step] at hs
    split at hs
    · next id res ht =>
      cases hs
      have hcall := hcalls t id (by rw [ht]; rfl)
      rw [ht] at hcall
      obtain ⟨o', ho', hst, hafter⟩ := h.ret spec .idle (by rw [ht]; rfl) hcall rfl
      have hout := hg.outside (by rw [ht]; rfl) .idle rfl
      exact ⟨o', ⟨hafter, hst ▸ hout _ _⟩, .inr ⟨.ret id, ho'⟩⟩
    · cases hs

/-- **Operations under the lock are an object of the specification**, in every
run. -/
theorem Reachable.simulates {shared : σ} {a₀ : St} (hi : Implements code spec rep during) (ha : rep a₀ shared)
    (h : Reachable code shared s) :
    ∃ o, (Calls s o ∧ Guarded code rep during s o.st) ∧ Object.Sound spec a₀ o := by
  have hsim : ∃ o, (Calls s o ∧ Guarded code rep during s o.st) ∧
      Runs.Reach (Object.step spec) (fun _ _ => True) (.start a₀) o := by
    refine h.simulate (fun s o => Calls s o ∧ Guarded code rep during s o.st) ⟨Linearize.Calls.start rfl a₀, .start ha⟩
      fun s o l s' hso _ hs => ?_
    obtain ⟨o', hso', he | ⟨b, hb⟩⟩ := Calls.step hi hso.1 hso.2 hs
    · exact ⟨o', hso', .inl he⟩
    · exact ⟨o', hso', .inr ⟨b, trivial, hb⟩⟩
  obtain ⟨o, hso, ho⟩ := hsim
  exact ⟨o, hso, .reach ho⟩

/-! ## Nobody waits for ever -/

/-- A thread can go on. -/
def Enabled (code : Code σ Op Pc Input Res) (s : Locked T σ Op Pc Res) (t : T) : Prop :=
  (s.step code (.acquire t)).isSome ∨ (∃ i, (s.step code (.step t i)).isSome) ∨
    (s.step code (.release t)).isSome ∨ (s.step code (.ret t)).isSome

/-- Who is inside can go on, if its code can. -/
theorem Guarded.enabled_inside (h : Guarded code rep during s a)
    (hgo : ∀ {op a shared pc}, during op a shared pc → code.result pc = none → ∃ i, (code.step shared pc i).isSome)
    (ht : (s.threads t).inside? = some (op, pc)) : Enabled code s t := by
  have hrun := h.run t op pc ht
  cases hphase : s.threads t with
  | inside id op' pc' =>
    rw [hphase] at ht
    cases ht
    cases hr : code.result pc with
    | none =>
      obtain ⟨i, hs⟩ := hgo hrun hr
      exact .inr (.inl ⟨i, by simpa [Locked.step, hphase] using hs⟩)
    | some res =>
      refine .inr (.inr (.inl ?_))
      cases hx : code.exclusive op with
      | true =>
        have hw := (h.writer t).mpr ⟨op, pc, by rw [hphase]; rfl, hx⟩
        simp [Locked.step, hphase, hr, hx, SharedMutex.unlock, hw]
      | false =>
        have hm := (h.readers t).mpr ⟨op, pc, by rw [hphase]; rfl, hx⟩
        simp [Locked.step, hphase, hr, hx, SharedMutex.unlockShared, hm]
  | idle => rw [hphase] at ht; cases ht
  | called => rw [hphase] at ht; cases ht
  | left => rw [hphase] at ht; cases ht

/-- **The threads never wait for each other in a circle**: as long as one is
not at rest, one can go on. -/
theorem Guarded.progress (h : Guarded code rep during s a)
    (hgo : ∀ {op a shared pc}, during op a shared pc → code.result pc = none → ∃ i, (code.step shared pc i).isSome)
    (ht : s.threads t ≠ .idle) : ∃ u, s.threads u ≠ .idle ∧ Enabled code s u := by
  have hinside : ∀ {u op pc}, (s.threads u).inside? = some (op, pc) → ∃ u, s.threads u ≠ .idle ∧ Enabled code s u :=
    fun {u op pc} hu => ⟨u, fun hidle => (by rw [hidle] at hu; cases hu), h.enabled_inside hgo hu⟩
  cases hphase : s.threads t with
  | idle => exact absurd hphase ht
  | inside id op pc => exact hinside (show (s.threads t).inside? = some (op, pc) by rw [hphase]; rfl)
  | left id res => exact ⟨t, ht, .inr (.inr (.inr (by simp [Locked.step, hphase])))⟩
  | called id op =>
    cases hw : s.mutex.writer with
    | some u =>
      obtain ⟨op, pc, hu, -⟩ := (h.writer u).mp hw
      exact hinside hu
    | none =>
      cases hx : code.exclusive op with
      | false =>
        have hr : t ∉ s.mutex.readers := by
          rw [h.readers, hphase]
          simp [Phase.inside?]
        exact ⟨t, ht, .inl (by simp [Locked.step, hphase, hx, SharedMutex.lockShared, hw, hr])⟩
      | true =>
        cases hr : s.mutex.readers with
        | cons u readers =>
          obtain ⟨op, pc, hu, -⟩ := (h.readers u).mp (by rw [hr]; exact List.mem_cons_self)
          exact hinside hu
        | nil =>
          exact ⟨t, ht, .inl (by simp [Locked.step, hphase, hx, SharedMutex.lock, hw, hr])⟩

/-! ## Nobody stays inside for ever -/

/-- Beside a thread that is inside, the others change nothing. -/
theorem Guarded.others (h : Guarded code rep during s a) (hi : Implements code spec rep during) {id : Nat}
    (ht : s.threads t = .inside id op pc) {l : LockedStep T Op Input} (hs : s.step code l = some s')
    (hl : ∀ i, l ≠ .step t i) (hr : l ≠ .release t) :
    Guarded code rep during s' a ∧ s'.shared = s.shared ∧ s'.threads t = s.threads t := by
  have hin : (s.threads t).inside? = some (op, pc) := by rw [ht]; rfl
  -- who is inside beside it shares the lock
  have shares : ∀ {u op' pc'}, u ≠ t → (s.threads u).inside? = some (op', pc') → code.exclusive op' = false := by
    intro u op' pc' hu hu'
    cases hx : code.exclusive op' with
    | false => rfl
    | true =>
      rw [h.alone hu' hx (Ne.symm hu)] at hin
      cases hin
  have same : ∀ {u : T} {phase : Phase Op Pc Res}, u ≠ t → Function.update s.threads u phase t = s.threads t :=
    fun hu => Function.update_of_ne (Ne.symm hu) _ _
  cases l with
  | call u op' =>
    simp only [Locked.step] at hs
    split at hs
    · next hu =>
      cases hs
      exact ⟨h.outside (by rw [hu]; rfl) _ rfl _ _, rfl, same fun he => by rw [he, ht] at hu; cases hu⟩
    · cases hs
  | acquire u =>
    simp only [Locked.step] at hs
    split at hs
    · next id op' hu =>
      obtain ⟨mutex, hm, rfl⟩ := Option.map_eq_some_iff.mp hs
      exact ⟨h.acquire hi (by rw [hu]; rfl) hm id, rfl, same fun he => by rw [he, ht] at hu; cases hu⟩
    · cases hs
  | step u i =>
    simp only [Locked.step] at hs
    split at hs
    · next id op' pc' hu =>
      obtain ⟨⟨shared, pc''⟩, hc, rfl⟩ := Option.map_eq_some_iff.mp hs
      have hut : u ≠ t := fun he => hl i (he ▸ rfl)
      have hu' : (s.threads u).inside? = some (op', pc') := by rw [hu]; rfl
      exact ⟨h.move hi hu hc, hi.reads (shares hut hu') (h.run u op' pc' hu') hc, same hut⟩
    · cases hs
  | release u =>
    simp only [Locked.step] at hs
    split at hs
    · next id op' pc' hu =>
      split at hs
      · next res hres =>
        obtain ⟨mutex, hm, rfl⟩ := Option.map_eq_some_iff.mp hs
        have hut : u ≠ t := fun he => hr (he ▸ rfl)
        have hleft := h.release hi hu hres hm
        rw [hi.leaves (shares hut (show (s.threads u).inside? = some (op', pc') by rw [hu]; rfl))] at hleft
        exact ⟨hleft, rfl, same hut⟩
      · cases hs
    · cases hs
  | ret u =>
    simp only [Locked.step] at hs
    split at hs
    · next hu =>
      cases hs
      exact ⟨h.outside (by rw [hu]; rfl) _ rfl _ _, rfl, same fun he => by rw [he, ht] at hu; cases hu⟩
    · cases hs

/-- **Under the lock a thread takes the steps of its own code only**, however
many others are there: when `within n` bounds the steps that are left, it
takes at most `n` before it gives the lock back. -/
theorem Guarded.steps_le (within : Nat → Op → St → σ → Pc → Prop) (hi : Implements code spec rep during)
    (down : ∀ {n op a shared pc i shared' pc'}, within n op a shared pc →
      code.step shared pc i = some (shared', pc') → ∃ k < n, within k op a shared' pc')
    (h : Guarded code rep during s a) {id n : Nat} (ht : s.threads t = .inside id op pc)
    (hw : within n op a s.shared pc) {ls : List (LockedStep T Op Input)} (hs : Runs.exec (step code) s ls = some s')
    (hr : .release t ∉ ls) : ls.countP (·.inside t) ≤ n := by
  induction ls generalizing s n pc with
  | nil => exact Nat.zero_le n
  | cons l ls ih =>
    obtain ⟨s₁, h₁, hs⟩ := Runs.exec_cons_some.mp hs
    simp only [List.mem_cons, not_or] at hr
    by_cases hl : ∃ i, l = .step t i
    · obtain ⟨i, rfl⟩ := hl
      simp only [Locked.step, ht] at h₁
      obtain ⟨⟨shared, pc'⟩, hc, rfl⟩ := Option.map_eq_some_iff.mp h₁
      obtain ⟨k, hk, hw⟩ := down hw hc
      have hle := ih (h.move hi ht hc) (Function.update_self ..) hw hs hr.2
      rw [List.countP_cons_of_pos (by simp [LockedStep.inside])]
      omega
    · have hl : ∀ i, l ≠ .step t i := fun i he => hl ⟨i, he⟩
      obtain ⟨hg, hshared, hsame⟩ := h.others hi ht h₁ hl (Ne.symm hr.1)
      have hle := ih hg (hsame.trans ht) (hshared.symm ▸ hw) hs hr.2
      have hnot : l.inside t ≠ true := by
        cases l with
        | step u i =>
          intro hin
          obtain rfl : u = t := by simpa [LockedStep.inside] using hin
          exact hl i rfl
        | _ => simp [LockedStep.inside]
      rwa [List.countP_cons_of_neg hnot]

end Locked

end Linearize
