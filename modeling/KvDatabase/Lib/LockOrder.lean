/-
Threads that take several mutexes, alone or shared.

If each takes them in one order, from the outer to the inner, and gives them
back in turn, they never wait for each other in a circle: from a thread that
cannot go on, whom it waits for, whom that one waits for and so on leads to
one that can (`Nested.progress`).
-/
import KvDatabase.Lib.Runs
import KvDatabase.Lib.SharedMutex
import Mathlib.Logic.Relation
import Mathlib.Order.WellFounded

namespace SharedMutex

variable {T : Type} [DecidableEq T] {m m' : SharedMutex T} {t : T} {shared : Bool}

def Has (m : SharedMutex T) (t : T) (shared : Bool) : Prop := if shared then t ∈ m.readers else m.writer = some t

def acquire (m : SharedMutex T) (t : T) (shared : Bool) : Option (SharedMutex T) :=
  if shared then m.lockShared t else m.lock t

def release (m : SharedMutex T) (t : T) (shared : Bool) : Option (SharedMutex T) :=
  if shared then m.unlockShared t else m.unlock t

omit [DecidableEq T] in
theorem has_free (t : T) (shared : Bool) : ¬ (free T).Has t shared := by
  cases shared <;> simp [Has, free]

theorem has_acquire (h : m.acquire t shared = some m') (u : T) (b : Bool) :
    m'.Has u b ↔ m.Has u b ∨ (u = t ∧ b = shared) := by
  cases shared with
  | true =>
    obtain ⟨hw, hw', hr'⟩ := lockShared_eq_some h
    cases b <;> simp [Has, hw, hw', hr', or_comm]
  | false =>
    obtain ⟨hw, hr, hw', hr'⟩ := lock_eq_some h
    cases b <;> simp [Has, hw, hr, hw', hr', eq_comm]

theorem has_release (h : m.release t shared = some m') (u : T) (b : Bool) :
    m'.Has u b ↔ m.Has u b ∧ ¬ (u = t ∧ b = shared) := by
  cases shared with
  | true =>
    obtain ⟨-, hw', hr'⟩ := unlockShared_eq_some h
    cases b <;> simp [Has, hw', hr', m.nodup.mem_erase_iff, and_comm]
  | false =>
    obtain ⟨hw, hw', hr'⟩ := unlock_eq_some h
    have hr : m.readers = [] := m.exclusive (by simp [hw])
    cases b <;> simp [Has, hw, hw', hr', hr, eq_comm]

/-- What it has, it can give back. -/
theorem release_isSome (h : m.Has t shared) : (m.release t shared).isSome := by
  cases shared with
  | true => simpa [release, unlockShared, Has] using h
  | false => simpa [release, unlock, Has] using h

/-- What it does not get, somebody has. -/
theorem has_of_blocked (h : m.acquire t shared = none) : ∃ u b, m.Has u b := by
  by_contra hno
  have hw : m.writer = none := Option.eq_none_iff_forall_not_mem.mpr fun u hu => hno ⟨u, false, hu⟩
  have hr : m.readers = [] := List.eq_nil_iff_forall_not_mem.mpr fun u hu => hno ⟨u, true, hu⟩
  cases shared with
  | true => simp [acquire, lockShared, hw, hr] at h
  | false => simp [acquire, lock, hw, hr] at h

end SharedMutex

namespace LockOrder

variable {T M : Type}

/-- What a thread does to the mutexes. -/
inductive Act (M : Type)
  | acquire (m : M) (shared : Bool)
  | release (m : M) (shared : Bool)
deriving DecidableEq, Repr

/-- The body under the mutex, alone. -/
def exclusively (m : M) (body : List (Act M)) : List (Act M) := .acquire m false :: body ++ [.release m false]

/-- The body under the mutex, with others that share it. -/
def sharing (m : M) (body : List (Act M)) : List (Act M) := .acquire m true :: body ++ [.release m true]

structure Threads (T M : Type) where
  mutex : M → SharedMutex T
  /-- What each thread has still to do. -/
  program : T → List (Act M)

/-- Nothing is taken yet. -/
def start (program : T → List (Act M)) : Threads T M := ⟨fun _ => .free T, program⟩

section

variable [DecidableEq T] [DecidableEq M]

/-- The thread takes its next step, if nobody is in its way. -/
def step (s : Threads T M) (t : T) : Option (Threads T M) :=
  match s.program t with
  | [] => none
  | .acquire m shared :: acts =>
    ((s.mutex m).acquire t shared).map fun mutex =>
      ⟨Function.update s.mutex m mutex, Function.update s.program t acts⟩
  | .release m shared :: acts =>
    ((s.mutex m).release t shared).map fun mutex =>
      ⟨Function.update s.mutex m mutex, Function.update s.program t acts⟩

abbrev Reachable (program : T → List (Act M)) (s : Threads T M) : Prop :=
  Runs.Reach step (fun _ _ => True) (start program) s

end

/-! ## In one order -/

/-- With `held`, innermost first, the thread takes only what comes after all
of it, gives back the innermost first, and all of it in the end. -/
def Ordered (before : M → M → Prop) : List (M × Bool) → List (Act M) → Prop
  | held, [] => held = []
  | held, .acquire m shared :: acts => (∀ h ∈ held, before h.1 m) ∧ Ordered before ((m, shared) :: held) acts
  | h :: held, .release m shared :: acts => h = (m, shared) ∧ Ordered before held acts
  | [], .release _ _ :: _ => False

variable {before : M → M → Prop}

theorem Ordered.append {held : List (M × Bool)} {acts acts' : List (Act M)} (h : Ordered before held acts)
    (h' : Ordered before [] acts') : Ordered before held (acts ++ acts') := by
  induction acts generalizing held with
  | nil =>
    obtain rfl : held = [] := by simpa [Ordered] using h
    exact h'
  | cons a acts ih =>
    cases a with
    | acquire m shared => exact ⟨h.1, ih h.2⟩
    | release m shared =>
      cases held with
      | nil => exact h.elim
      | cons x held => exact ⟨h.1, ih h.2⟩

/-- One thing after the other. -/
theorem Ordered.flatMap {α : Type*} {f : α → List (Act M)} {xs : List α} (h : ∀ x ∈ xs, Ordered before [] (f x)) :
    Ordered before [] (xs.flatMap f) := by
  induction xs with
  | nil => rfl
  | cons x xs ih => exact (h x List.mem_cons_self).append (ih fun y hy => h y (List.mem_cons_of_mem x hy))

/-- The thread is about to take a mutex that the other one has. -/
def Threads.WaitsFor (s : Threads T M) (t u : T) : Prop :=
  ∃ m shared acts b, s.program t = .acquire m shared :: acts ∧ (s.mutex m).Has u b

/-- Everybody is in order, with what it has. -/
structure Nested (before : M → M → Prop) (s : Threads T M) (held : T → List (M × Bool)) : Prop where
  ordered : ∀ t, Ordered before (held t) (s.program t)
  has : ∀ t m b, (s.mutex m).Has t b ↔ (m, b) ∈ held t
  once : ∀ t, ((held t).map Prod.fst).Nodup

variable [DecidableEq T] [DecidableEq M] {s s' : Threads T M} {t : T} {held : T → List (M × Bool)}

omit [DecidableEq T] [DecidableEq M] in
theorem Nested.start {program : T → List (Act M)} (h : ∀ t, Ordered before [] (program t)) :
    Nested before (start program) fun _ => [] where
  ordered := h
  has t m b := by simp [LockOrder.start, SharedMutex.has_free]
  once _ := List.nodup_nil

/-- A thread has taken or given back the mutex, and nothing else. -/
theorem Nested.set (h : Nested before s held) {m : M} {mutex : SharedMutex T} {acts : List (Act M)}
    {now : List (M × Bool)} (hordered : Ordered before now acts)
    (hmutex : ∀ u b, mutex.Has u b ↔ if u = t then (m, b) ∈ now else (m, b) ∈ held u)
    (hothers : ∀ k b, k ≠ m → ((k, b) ∈ now ↔ (k, b) ∈ held t)) (honce : (now.map Prod.fst).Nodup) :
    Nested before ⟨Function.update s.mutex m mutex, Function.update s.program t acts⟩ (Function.update held t now) where
  ordered u := by
    by_cases hu : u = t
    · subst hu
      simpa using hordered
    · simpa [hu] using h.ordered u
  has u k b := by
    by_cases hk : k = m
    · subst hk
      by_cases hu : u = t
      · subst hu
        simpa using hmutex u b
      · simpa [hu] using hmutex u b
    · by_cases hu : u = t
      · subst hu
        simpa [hk, hothers k b hk] using h.has u k b
      · simpa [hk, hu] using h.has u k b
  once u := by
    by_cases hu : u = t
    · subst hu
      simpa using honce
    · simpa [hu] using h.once u

theorem Nested.step (h : Nested before s held) (irrefl : ∀ m, ¬ before m m) (hs : step s t = some s') :
    ∃ held', Nested before s' held' := by
  have ht := h.ordered t
  cases hp : s.program t with
  | nil => simp [LockOrder.step, hp] at hs
  | cons a acts =>
    rw [hp] at ht
    cases a with
    | acquire m shared =>
      simp only [LockOrder.step, hp, Option.map_eq_some_iff] at hs
      obtain ⟨mutex, hm, rfl⟩ := hs
      have hnew : m ∉ (held t).map Prod.fst := fun hmem => by
        obtain ⟨x, hx, rfl⟩ := List.mem_map.mp hmem
        exact irrefl _ (ht.1 x hx)
      refine ⟨_, h.set ht.2 (fun u b => ?_) (fun k b hk => by simp [hk]) (List.nodup_cons.mpr ⟨hnew, h.once t⟩)⟩
      rw [SharedMutex.has_acquire hm, h.has]
      by_cases hu : u = t
      · subst hu
        simp [or_comm]
      · simp [hu]
    | release m shared =>
      simp only [LockOrder.step, hp, Option.map_eq_some_iff] at hs
      obtain ⟨mutex, hm, rfl⟩ := hs
      cases hheld : held t with
      | nil => rw [hheld] at ht; exact ht.elim
      | cons x rest =>
        rw [hheld] at ht
        obtain ⟨rfl, hrest⟩ := ht
        have honce := h.once t
        rw [hheld, List.map_cons, List.nodup_cons] at honce
        have hgone : ∀ b, (m, b) ∉ rest := fun b hb => honce.1 (List.mem_map.mpr ⟨(m, b), hb, rfl⟩)
        refine ⟨_, h.set hrest (fun u b => ?_) (fun k b hk => by simp [hheld, hk]) honce.2⟩
        rw [SharedMutex.has_release hm, h.has]
        by_cases hu : u = t
        · subst hu
          simp [hheld, hgone]
        · simp [hu]

/-- What a thread has, it can give back. -/
theorem Nested.release_isSome (h : Nested before s held) {m : M} {shared : Bool} {acts : List (Act M)}
    (hp : s.program t = .release m shared :: acts) : (LockOrder.step s t).isSome := by
  have ht := h.ordered t
  rw [hp] at ht
  cases hheld : held t with
  | nil => rw [hheld] at ht; exact ht.elim
  | cons x rest =>
    rw [hheld] at ht
    have hhas : (s.mutex m).Has t shared := (h.has t m shared).mpr (by rw [hheld, ht.1]; exact List.mem_cons_self)
    simpa [LockOrder.step, hp] using SharedMutex.release_isSome hhas

/-- **Nobody waits in a circle**: whoever is not done can go on, or waits for
somebody who can, or who waits in turn for one who can, and so on. -/
theorem Nested.progress (h : Nested before s held) (wf : WellFounded (flip before)) (ht : s.program t ≠ []) :
    ∃ u, Relation.ReflTransGen s.WaitsFor t u ∧ (LockOrder.step s u).isSome := by
  -- by how far out the mutex is that the thread waits for
  have blocked : ∀ m t shared acts, s.program t = .acquire m shared :: acts →
      ∃ u, Relation.ReflTransGen s.WaitsFor t u ∧ (LockOrder.step s u).isSome := by
    intro m
    induction m using wf.induction with
    | h m ih =>
      intro t shared acts hp
      cases hm : (s.mutex m).acquire t shared with
      | some mutex => exact ⟨t, .refl, by simp [LockOrder.step, hp, hm]⟩
      | none =>
        obtain ⟨v, b, hv⟩ := SharedMutex.has_of_blocked hm
        have hwaits : s.WaitsFor t v := ⟨m, shared, acts, b, hp, hv⟩
        have hheld : (m, b) ∈ held v := (h.has v m b).mp hv
        have hordered := h.ordered v
        cases hpv : s.program v with
        | nil =>
          rw [hpv, Ordered] at hordered
          rw [hordered] at hheld
          cases hheld
        | cons a acts' =>
          rw [hpv] at hordered
          cases a with
          | acquire k shared' =>
            obtain ⟨u, hvu, hu⟩ := ih k (hordered.1 _ hheld) v shared' acts' hpv
            exact ⟨u, .head hwaits hvu, hu⟩
          | release k shared' => exact ⟨v, .single hwaits, h.release_isSome hpv⟩
  cases hp : s.program t with
  | nil => exact absurd hp ht
  | cons a acts =>
    cases a with
    | acquire m shared => exact blocked m t shared acts hp
    | release m shared => exact ⟨t, .refl, h.release_isSome hp⟩

/-- So it is in every run. -/
theorem Reachable.progress {program : T → List (Act M)} (hr : Reachable program s)
    (hordered : ∀ t, Ordered before [] (program t)) (wf : WellFounded (flip before)) (ht : s.program t ≠ []) :
    ∃ u, Relation.ReflTransGen s.WaitsFor t u ∧ (LockOrder.step s u).isSome := by
  have irrefl : ∀ m, ¬ before m m := fun m hm => wf.asymmetric m m hm hm
  obtain ⟨held, h⟩ : ∃ held, Nested before s held :=
    Runs.Reach.invariant hr (fun s => ∃ held, Nested before s held) ⟨_, .start hordered⟩ fun s t s' hi _ hs => by
      obtain ⟨held, h⟩ := hi
      exact h.step irrefl hs
  exact h.progress wf ht

end LockOrder
