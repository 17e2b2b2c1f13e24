/-
Logs of writes over a partial map: a write names a key and what it leaves
there, a log is replayed by making its writes in order.

A key's value after a replay is what the last write to it leaves, whatever
was there before (`replay_eq`). The rest of the file is that fact's use:
when two replays agree, and that a listing of a map, replayed over nothing,
is the map.
-/
import Mathlib.Data.List.Basic
import Mathlib.Logic.Function.Basic

namespace WriteLog

variable {K V : Type*} [DecidableEq K]

/-- Make one write. -/
def apply (m : K → Option V) (w : K × Option V) : K → Option V := Function.update m w.1 w.2

/-- Make the writes in order. -/
def replay (ws : List (K × Option V)) (m : K → Option V) : K → Option V := ws.foldl apply m

/-- What the last write to `k` leaves; `none` when no write names `k`. -/
def last (k : K) : List (K × Option V) → Option (Option V)
  | [] => none
  | w :: ws => (last k ws).or (if w.1 = k then some w.2 else none)

@[simp] theorem replay_nil (m : K → Option V) : replay [] m = m := rfl

@[simp] theorem replay_cons (w : K × Option V) (ws m) : replay (w :: ws) m = replay ws (apply m w) := rfl

theorem replay_append (xs ys : List (K × Option V)) (m) : replay (xs ++ ys) m = replay ys (replay xs m) :=
  List.foldl_append

@[simp] theorem last_nil (k : K) : last k ([] : List (K × Option V)) = none := rfl

theorem last_cons (k : K) (w : K × Option V) (ws) :
    last k (w :: ws) = (last k ws).or (if w.1 = k then some w.2 else none) := rfl

theorem last_append (k : K) (xs ys : List (K × Option V)) : last k (xs ++ ys) = (last k ys).or (last k xs) := by
  induction xs with
  | nil => simp
  | cons x xs ih => rw [List.cons_append, last_cons, last_cons, ih, Option.or_assoc]

theorem last_eq_none_iff {k : K} {ws : List (K × Option V)} : last k ws = none ↔ ∀ w ∈ ws, w.1 ≠ k := by
  induction ws with
  | nil => simp
  | cons w ws ih =>
    simp only [last_cons, Option.or_eq_none_iff, ih, List.forall_mem_cons]
    by_cases h : w.1 = k <;> simp [h]

theorem mem_of_last {k : K} {o : Option V} {ws : List (K × Option V)} (h : last k ws = some o) : (k, o) ∈ ws := by
  induction ws with
  | nil => simp at h
  | cons w ws ih =>
    rw [last_cons, Option.or_eq_some_iff] at h
    rcases h with h | ⟨-, h⟩
    · exact List.mem_cons_of_mem _ (ih h)
    · split at h
      · next hk =>
        simp only [Option.some.injEq] at h
        subst hk h
        exact List.mem_cons_self
      · cases h

/-- The last write to a key is the one no later write names. -/
theorem last_eq_some_iff {k : K} {o : Option V} {ws : List (K × Option V)} :
    last k ws = some o ↔ ∃ before after, ws = before ++ (k, o) :: after ∧ ∀ w ∈ after, w.1 ≠ k := by
  constructor
  · intro h
    induction ws with
    | nil => simp at h
    | cons w ws ih =>
      rw [last_cons, Option.or_eq_some_iff] at h
      rcases h with h | ⟨hn, h⟩
      · obtain ⟨before, after, rfl, ha⟩ := ih h
        exact ⟨w :: before, after, rfl, ha⟩
      · split at h
        · next hk =>
          simp only [Option.some.injEq] at h
          subst hk h
          exact ⟨[], ws, rfl, last_eq_none_iff.mp hn⟩
        · cases h
  · intro hlast
    obtain ⟨before, after, rfl, ha⟩ := hlast
    rw [last_append, last_cons, last_eq_none_iff.mpr ha]
    simp

/-- **Last writer wins**: a replay leaves each key as the last write to it
does, and a key no write names as it was. -/
theorem replay_eq (ws : List (K × Option V)) (m : K → Option V) (k : K) :
    replay ws m k = (last k ws).getD (m k) := by
  induction ws generalizing m with
  | nil => rfl
  | cons w ws ih =>
    rw [replay_cons, ih, last_cons]
    cases last k ws with
    | some o => rfl
    | none =>
      by_cases h : w.1 = k
      · subst h; simp [apply]
      · simp [apply, h, Function.update_of_ne (Ne.symm h)]

theorem replay_of_last {ws : List (K × Option V)} {k : K} {o : Option V} (h : last k ws = some o)
    (m : K → Option V) : replay ws m k = o := by
  rw [replay_eq, h]; rfl

theorem replay_of_last_none {ws : List (K × Option V)} {k : K} (h : last k ws = none)
    (m : K → Option V) : replay ws m k = m k := by
  rw [replay_eq, h]; rfl

/-- A log changes nothing of a map exactly when the last write to each key
leaves there what the map has. -/
theorem replay_eq_self_iff {ws : List (K × Option V)} {m : K → Option V} :
    replay ws m = m ↔ ∀ k o, last k ws = some o → m k = o := by
  refine ⟨fun h k o hk => ?_, fun h => funext fun k => ?_⟩
  · rw [← congrFun h k, replay_of_last hk]
  · cases hk : last k ws with
    | none => exact replay_of_last_none hk m
    | some o => rw [replay_of_last hk, h k o hk]

/-- Replaying a log over its own result changes nothing. -/
theorem replay_replay (ws : List (K × Option V)) (m : K → Option V) : replay ws (replay ws m) = replay ws m :=
  replay_eq_self_iff.mpr fun _ _ hk => replay_of_last hk m

/-- One log over two maps: the results agree exactly when the maps agree on
every key the log does not name. -/
theorem replay_eq_replay_iff {ws : List (K × Option V)} {m m' : K → Option V} :
    replay ws m = replay ws m' ↔ ∀ k, last k ws = none → m k = m' k := by
  refine ⟨fun h k hk => ?_, fun h => funext fun k => ?_⟩
  · simpa [replay_of_last_none hk] using congrFun h k
  · cases hk : last k ws with
    | none => rw [replay_of_last_none hk, replay_of_last_none hk, h k hk]
    | some o => rw [replay_of_last hk, replay_of_last hk]

/-- `ws` inserts exactly the entries of `m`, in some order. -/
def Lists (ws : List (K × Option V)) (m : K → Option V) : Prop :=
  (∀ w ∈ ws, w.2 ≠ none) ∧ ∀ k v, (k, some v) ∈ ws ↔ m k = some v

/-- A listing of a map, replayed over nothing, is the map. -/
theorem Lists.replay {ws : List (K × Option V)} {m : K → Option V} (h : Lists ws m) :
    WriteLog.replay ws (fun _ => none) = m := by
  funext k
  cases hk : last k ws with
  | none =>
    rw [replay_of_last_none hk]
    cases hm : m k with
    | none => rfl
    | some v => exact absurd rfl (last_eq_none_iff.mp hk _ ((h.2 k v).mpr hm))
  | some o =>
    rw [replay_of_last hk]
    have hmem := mem_of_last hk
    cases o with
    | none => exact absurd rfl (h.1 _ hmem)
    | some v => exact ((h.2 k v).mp hmem).symm

end WriteLog
