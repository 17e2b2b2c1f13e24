/-
Token buckets. A bucket of size `M` is full at first and refilled at rate `r`,
never above `M`; each call it admits takes a token.

What it holds follows from its calls: the least, over them and now, of what a
bucket would hold that was full at that call (`le_level_iff`). A refused call
takes nothing, and what it refilled would have been refilled later. So the
calls a bucket admits are told by a law over all stretches of its history
(`Lawful`), whatever the order of their times.
-/
import Mathlib.Algebra.Order.Field.Basic
import Mathlib.Data.List.Induction
import Mathlib.Tactic.Linarith
import Mathlib.Tactic.Ring

namespace TokenBucket

variable {K : Type*} [Field K] [LinearOrder K] [IsStrictOrderedRing K]

/-- How many of these calls, each a time and an answer, were admitted. -/
def admitted (calls : List (K × Bool)) : K := (calls.countP Prod.snd : Nat)

omit [LinearOrder K] [IsStrictOrderedRing K] in
@[simp] theorem admitted_nil : admitted ([] : List (K × Bool)) = 0 := by simp [admitted]

omit [LinearOrder K] [IsStrictOrderedRing K] in
@[simp] theorem admitted_append (xs ys : List (K × Bool)) : admitted (xs ++ ys) = admitted xs + admitted ys := by
  simp [admitted]

/-- What a bucket that holds `held` at each time holds after a call. -/
def call (M r : K) (held : K → K) (c : K × Bool) (now : K) : K :=
  min M (held c.1 - admitted [c] + (now - c.1) * r)

/-- What a bucket holds after these calls, at each time. -/
def level (M r : K) (calls : List (K × Bool)) : K → K := calls.foldl (call M r) fun _ => M

omit [IsStrictOrderedRing K] in
@[simp] theorem level_nil (M r now : K) : level M r [] now = M := rfl

omit [IsStrictOrderedRing K] in
theorem level_append (M r : K) (calls : List (K × Bool)) (c : K × Bool) (now : K) :
    level M r (calls ++ [c]) now = min M (level M r calls c.1 - admitted [c] + (now - c.1) * r) := by
  rw [level, List.foldl_append]
  rfl

/-- The recursion unrolled: a bucket holds `x` when `x` more tokens could have
been taken since any of its calls. -/
theorem le_level_iff {M r : K} {calls : List (K × Bool)} {x now : K} :
    x ≤ level M r calls now ↔ x ≤ M ∧
      ∀ i (_ : i < calls.length), admitted (calls.drop i) + x ≤ M + (now - calls[i].1) * r := by
  induction calls using List.reverseRecOn generalizing x now with
  | nil => simp
  | append_singleton calls c ih =>
    have hlast : x ≤ level M r calls c.1 - admitted [c] + (now - c.1) * r ↔
        x + admitted [c] - (now - c.1) * r ≤ level M r calls c.1 := by
      constructor
      · intro h
        linarith
      · intro h
        linarith
    rw [level_append, le_min_iff, hlast, ih]
    refine and_congr_right fun _ => ⟨fun h i hi => ?_, fun h => ⟨?_, fun i hi => ?_⟩⟩
    · rcases Nat.lt_succ_iff_lt_or_eq.mp (by simpa using hi) with hlt | rfl
      · have hold := h.2 i hlt
        rw [List.drop_append_of_le_length (le_of_lt hlt), admitted_append, List.getElem_append_left hlt]
        linarith
      · have hnew := h.1
        simp only [List.drop_left', List.getElem_concat_length]
        linarith
    · have hnew := h calls.length (by simp)
      simp only [List.drop_left', List.getElem_concat_length] at hnew
      linarith
    · have hold := h i (by simp; omega)
      rw [List.drop_append_of_le_length (le_of_lt hi), admitted_append, List.getElem_append_left hi] at hold
      linarith

/-- A call is admitted exactly when, over every stretch of calls that ends in
it, no more are admitted than the bucket held at most and the refill since. -/
def Lawful (M r : K) (calls : List (K × Bool)) : Prop :=
  ∀ k (_ : k < calls.length), calls[k].2 = true ↔
    ∀ i (_ : i ≤ k), admitted ((calls.take k).drop i) + 1 ≤ M + (calls[k].1 - calls[i].1) * r

omit [IsStrictOrderedRing K] in
theorem Lawful.nil (M r : K) : Lawful M r [] := fun _ hk => absurd hk (Nat.not_lt_zero _)

/-- A lawful history goes on lawfully when the call is answered by what the
bucket holds. -/
theorem Lawful.append {M r : K} {calls : List (K × Bool)} (h : Lawful M r calls) {c : K × Bool}
    (hc : c.2 = true ↔ 1 ≤ level M r calls c.1) : Lawful M r (calls ++ [c]) := by
  intro k hk
  rcases Nat.lt_succ_iff_lt_or_eq.mp (by simpa using hk) with hlt | rfl
  · rw [List.getElem_append_left hlt, List.take_append_of_le_length (le_of_lt hlt), h k hlt]
    refine forall₂_congr fun i hi => ?_
    rw [List.getElem_append_left (lt_of_le_of_lt hi hlt)]
  · rw [List.getElem_concat_length rfl, List.take_left' rfl, hc, le_level_iff]
    constructor
    · intro hl i hi
      rcases Nat.lt_or_eq_of_le hi with hlt | rfl
      · rw [List.getElem_append_left hlt]
        exact hl.2 i hlt
      · simpa using hl.1
    · intro hl
      refine ⟨by simpa using hl calls.length le_rfl, fun i hi => ?_⟩
      have hold := hl i (le_of_lt hi)
      rwa [List.getElem_append_left hi] at hold

omit [IsStrictOrderedRing K] in
theorem Lawful.of_append {M r : K} {calls : List (K × Bool)} {c : K × Bool} (h : Lawful M r (calls ++ [c])) :
    Lawful M r calls := by
  intro k hk
  have hold := h k (by simp; omega)
  rw [List.getElem_append_left hk, List.take_append_of_le_length (le_of_lt hk)] at hold
  rw [hold]
  refine forall₂_congr fun i hi => ?_
  rw [List.getElem_append_left (lt_of_le_of_lt hi hk)]

omit [IsStrictOrderedRing K] in
/-- What the law says of an admitted call that comes last. -/
theorem Lawful.last {M r : K} {calls : List (K × Bool)} {now : K} (h : Lawful M r (calls ++ [(now, true)])) {i : Nat}
    (hi : i < calls.length) : admitted (calls.drop i) + 1 ≤ M + (now - calls[i].1) * r := by
  have hlast := (h calls.length (by simp)).mp (by simp) i (le_of_lt hi)
  rwa [List.take_left' rfl, List.getElem_concat_length rfl, List.getElem_append_left hi] at hlast

omit [IsStrictOrderedRing K] in
theorem Lawful.one_le {M r : K} {calls : List (K × Bool)} {now : K} (h : Lawful M r (calls ++ [(now, true)])) :
    1 ≤ M := by
  simpa using (h calls.length (by simp)).mp (by simp) calls.length le_rfl

/-- The calls that were admitted in an interval. -/
def admittedIn (calls : List (K × Bool)) (start stop : K) : List (K × Bool) :=
  calls.filter fun c => c.2 ∧ start ≤ c.1 ∧ c.1 ≤ stop

omit [Field K] [IsStrictOrderedRing K] in
/-- Those admitted in an interval are none, or are among the calls from the
first of them on. -/
theorem admittedIn_cases (calls : List (K × Bool)) (start stop : K) : admittedIn calls start stop = [] ∨
    ∃ i, ∃ hi : i < calls.length, start ≤ calls[i].1 ∧
      (admittedIn calls start stop).length ≤ (calls.drop i).countP Prod.snd := by
  cases hf : calls.findIdx? (fun c => c.2 ∧ start ≤ c.1 ∧ c.1 ≤ stop) with
  | none =>
    refine .inl ?_
    rw [admittedIn, List.filter_eq_nil_iff]
    simpa using List.findIdx?_eq_none_iff.mp hf
  | some i =>
    obtain ⟨hi, hp, hbefore⟩ := List.findIdx?_eq_some_iff_getElem.mp hf
    have hnone : admittedIn (calls.take i) start stop = [] := by
      rw [admittedIn, List.filter_eq_nil_iff]
      intro c hc
      obtain ⟨j, hj, rfl⟩ := List.mem_iff_getElem.mp hc
      simp only [List.length_take, lt_min_iff] at hj
      rw [List.getElem_take]
      exact hbefore j hj.1
    have hsplit : admittedIn calls start stop = admittedIn (calls.drop i) start stop := by
      rw [← List.take_append_drop i calls, admittedIn, List.filter_append, ← admittedIn, hnone, List.nil_append,
        List.take_append_drop]
      rfl
    refine .inr ⟨i, hi, (of_decide_eq_true hp).2.1, ?_⟩
    rw [hsplit, admittedIn, ← List.countP_eq_length_filter]
    exact List.countP_mono_left fun c _ hc => (of_decide_eq_true hc).1

/-- **A bucket admits no more than it holds at most and the refill**, over
any interval. -/
theorem Lawful.bound {M r : K} {calls : List (K × Bool)} (h : Lawful M r calls) (hM : 0 ≤ M) (hr : 0 ≤ r)
    {start stop : K} (hle : start ≤ stop) :
    ((admittedIn calls start stop).length : K) ≤ M + (stop - start) * r := by
  have hpos : 0 ≤ (stop - start) * r := mul_nonneg (sub_nonneg.mpr hle) hr
  induction calls using List.reverseRecOn with
  | nil => simpa [admittedIn] using add_nonneg hM hpos
  | append_singleton calls c ih =>
    have ih := ih h.of_append
    by_cases hc : c.2 = true ∧ start ≤ c.1 ∧ c.1 ≤ stop
    · obtain ⟨now, ok⟩ := c
      obtain ⟨rfl, hstart, hstop⟩ := hc
      have hlen : ((admittedIn (calls ++ [(now, true)]) start stop).length : K) =
          (admittedIn calls start stop).length + 1 := by
        simp only at hstart hstop
        simp [admittedIn, hstart, hstop]
      rw [hlen]
      -- the stretch from the first call admitted in the interval to the last
      rcases admittedIn_cases calls start stop with hnone | ⟨i, hi, hfirst, hcount⟩
      · have hone := h.one_le
        rw [hnone, List.length_nil, Nat.cast_zero, zero_add]
        linarith
      · calc ((admittedIn calls start stop).length : K) + 1 ≤ admitted (calls.drop i) + 1 := by
              have hcast : ((admittedIn calls start stop).length : K) ≤ admitted (calls.drop i) := Nat.cast_le.mpr hcount
              linarith
          _ ≤ M + (now - calls[i].1) * r := h.last hi
          _ ≤ M + (stop - start) * r := by
            have hrefill := mul_le_mul_of_nonneg_right (sub_le_sub hstop hfirst) hr
            linarith
    · have hsame : admittedIn (calls ++ [c]) start stop = admittedIn calls start stop := by
        simp [admittedIn, hc]
      rw [hsame]
      exact ih

end TokenBucket
