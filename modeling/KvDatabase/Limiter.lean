/-
The rate limiter (`Limit/Limiter.h`, `Limit/Limiter.cpp`): a window that
counts the requests of every address, and a bucket of tokens for each.

A call passes the window before it reaches its bucket, and one that its
bucket refuses has been counted, so an address without tokens still spends
what the window leaves the others. `bucket_refusals_iff` says when it does
not: the window is a matter of the calls' times alone (`isAllowed_fst`), and
a bucket of the calls that its own address made (`tokensAt_isAllowed`).

Token counts are exact here.
-/
import KvDatabase.UserSession
import KvDatabase.Lib.Runs
import Mathlib.Algebra.Order.Field.Rat
import Mathlib.Tactic.Linarith
import Mathlib.Tactic.Positivity
import Mathlib.Tactic.Ring

namespace KvDatabase

structure IPRecord where
  tokens : ℚ
  lastRefill : Time

structure RateLimiter where
  ipRecords : UInt32 → Option IPRecord
  globalCount : Int
  globalWindowStart : Time
  maxTokens : ℚ
  /-- Tokens a second. -/
  refillRate : ℚ
  maxRequestsGlobal : Int

/-- One call of `isAllowed`: the address, and what its two readings of the
clock give. -/
structure Call where
  ip : UInt32
  globalNow : Time
  privateNow : Time
deriving DecidableEq, Repr

namespace RateLimiter

def new (maxTokens refillRate : ℚ) (globalLimit : Int) (now : Time) : RateLimiter where
  ipRecords := fun _ => none
  globalCount := 0
  globalWindowStart := now
  maxTokens := maxTokens
  refillRate := refillRate
  maxRequestsGlobal := globalLimit

@[simp] theorem new_globalWindowStart (maxTokens refillRate : ℚ) (globalLimit : Int) (now : Time) :
    (new maxTokens refillRate globalLimit now).globalWindowStart = now := rfl

@[simp] theorem new_maxRequestsGlobal (maxTokens refillRate : ℚ) (globalLimit : Int) (now : Time) :
    (new maxTokens refillRate globalLimit now).maxRequestsGlobal = globalLimit := rfl

/-- `duration_cast<seconds>(now - start).count() >= 1`. -/
def windowOver (start now : Time) : Bool := 1 ≤ ((now : Int) - start).tdiv 1000000000

def isAllowedGlobal (rt : RateLimiter) (now : Time) : Bool × RateLimiter :=
  let rt := if windowOver rt.globalWindowStart now then { rt with globalCount := 0, globalWindowStart := now } else rt
  if rt.globalCount ≥ rt.maxRequestsGlobal then (false, rt)
  else (true, { rt with globalCount := rt.globalCount + 1 })

/-- `duration<double>(now - last).count()`. -/
def seconds (last now : Time) : ℚ := ((now : ℚ) - last) / 1000000000

/-- The tokens of an address's bucket, refilled; a new one is full. -/
def tokensAt (rt : RateLimiter) (ip : UInt32) (now : Time) : ℚ :=
  let record := (rt.ipRecords ip).getD ⟨rt.maxTokens, now⟩
  let tokens := record.tokens + seconds record.lastRefill now * rt.refillRate
  if tokens > rt.maxTokens then rt.maxTokens else tokens

def setRecord (rt : RateLimiter) (ip : UInt32) (record : IPRecord) : RateLimiter :=
  { rt with ipRecords := Function.update rt.ipRecords ip (some record) }

def isAllowedPrivate (rt : RateLimiter) (ip : UInt32) (now : Time) : Bool × RateLimiter :=
  let tokens := rt.tokensAt ip now
  if tokens < 1 then (false, rt.setRecord ip ⟨tokens, now⟩)
  else (true, rt.setRecord ip ⟨tokens - 1, now⟩)

def isAllowed (rt : RateLimiter) (c : Call) : Bool × RateLimiter :=
  let (allowed, rt) := rt.isAllowedGlobal c.globalNow
  if allowed then rt.isAllowedPrivate c.ip c.privateNow else (false, rt)

/-! ## Sequences of calls -/

/-- The limiter after the calls. -/
def run (rt : RateLimiter) (cs : List Call) : RateLimiter := cs.foldl (fun rt c => (rt.isAllowed c).2) rt

/-- The calls with what each is answered. -/
def outcomes (rt : RateLimiter) : List Call → List (Call × Bool)
  | [] => []
  | c :: cs => (c, (rt.isAllowed c).1) :: outcomes (rt.isAllowed c).2 cs

/-- The call passes the global check, and its bucket refuses it. -/
def refusedByBucket (rt : RateLimiter) (c : Call) : Bool :=
  (rt.isAllowedGlobal c.globalNow).1 && !(rt.isAllowed c).1

/-- The calls without those of `a` that its bucket refuses. -/
def kept (a : UInt32) (rt : RateLimiter) : List Call → List Call
  | [] => []
  | c :: cs =>
    if c.ip = a ∧ rt.refusedByBucket c then kept a (rt.isAllowed c).2 cs else c :: kept a (rt.isAllowed c).2 cs

/-- What the other addresses are answered. -/
def othersOutcomes (a : UInt32) (rt : RateLimiter) (cs : List Call) : List (Call × Bool) :=
  (rt.outcomes cs).filter fun o => o.1.ip ≠ a

/-- The readings of the clock, in the order in which they are made. -/
def clock (cs : List Call) : List Time := cs.flatMap fun c => [c.globalNow, c.privateNow]

theorem run_append (rt : RateLimiter) (cs : List Call) (c : Call) :
    rt.run (cs ++ [c]) = ((rt.run cs).isAllowed c).2 := by
  simp [run]

theorem outcomes_append (rt : RateLimiter) (cs : List Call) (c : Call) :
    rt.outcomes (cs ++ [c]) = rt.outcomes cs ++ [(c, ((rt.run cs).isAllowed c).1)] := by
  induction cs generalizing rt with
  | nil => rfl
  | cons d cs ih =>
    rw [List.cons_append, outcomes, ih, outcomes]
    rfl

theorem kept_append (a : UInt32) (rt : RateLimiter) (cs : List Call) (c : Call) :
    rt.kept a (cs ++ [c]) =
      rt.kept a cs ++ if c.ip = a ∧ (rt.run cs).refusedByBucket c then [] else [c] := by
  induction cs generalizing rt with
  | nil =>
    rw [List.nil_append, kept]
    split <;> simp_all [kept, run]
  | cons d cs ih =>
    rw [List.cons_append, kept, kept, ih]
    split
    · rfl
    · rw [List.cons_append]; rfl

theorem kept_sublist (a : UInt32) (rt : RateLimiter) (cs : List Call) : (rt.kept a cs).Sublist cs := by
  induction cs generalizing rt with
  | nil => exact .slnil
  | cons c cs ih =>
    rw [kept]
    split
    · exact (ih _).cons c
    · exact (ih _).cons_cons c

/-! ## The window -/

/-- A window, and the calls made in it so far. -/
structure Window where
  start : Time
  calls : Nat

namespace Window

/-- The calls in its window before a call at `now`. -/
def place (w : Window) (now : Time) : Nat := if windowOver w.start now then 0 else w.calls

def call (w : Window) (now : Time) : Window :=
  if windowOver w.start now then ⟨now, 1⟩ else { w with calls := w.calls + 1 }

end Window

/-- The calls before `c` in its window, after the calls `before` to a limiter
made at `t₀`. -/
def place (t₀ : Time) (before : List Call) (c : Call) : Nat :=
  (before.foldl (fun w c => w.call c.globalNow) (Window.mk t₀ 0)).place c.globalNow

/-- The limiter counts the window's calls, up to its limit. -/
def Counts (rt : RateLimiter) (w : Window) : Prop :=
  rt.globalWindowStart = w.start ∧ rt.globalCount = min (w.calls : Int) (max 0 rt.maxRequestsGlobal)

theorem Counts.isAllowedGlobal {rt : RateLimiter} {w : Window} (h : rt.Counts w) (now : Time) :
    (rt.isAllowedGlobal now).1 = decide ((w.place now : Int) < rt.maxRequestsGlobal) ∧
      (rt.isAllowedGlobal now).2.Counts (w.call now) := by
  obtain ⟨hs, hc⟩ := h
  unfold RateLimiter.isAllowedGlobal Window.place Window.call
  rw [hs]
  split
  · next ho =>
    by_cases hl : (0 : Int) ≥ rt.maxRequestsGlobal
    · rw [if_pos hl]
      refine ⟨by simp; omega, rfl, ?_⟩
      simp only
      omega
    · rw [if_neg hl]
      refine ⟨by simp; omega, rfl, ?_⟩
      simp only
      omega
  · next ho =>
    by_cases hl : rt.globalCount ≥ rt.maxRequestsGlobal
    · rw [if_pos hl]
      refine ⟨by simp; omega, hs, ?_⟩
      simp only
      omega
    · rw [if_neg hl]
      refine ⟨by simp; omega, hs, ?_⟩
      simp only
      omega

/-- The global check changes the window only. -/
theorem isAllowedGlobal_snd (rt : RateLimiter) (now : Time) :
    ∃ count start, (rt.isAllowedGlobal now).2 = { rt with globalCount := count, globalWindowStart := start } := by
  unfold isAllowedGlobal
  by_cases ho : windowOver rt.globalWindowStart now = true
  · rw [if_pos ho]
    by_cases hl : (0 : Int) ≥ rt.maxRequestsGlobal
    · exact ⟨0, now, by simp [hl]⟩
    · exact ⟨1, now, by simp [hl]⟩
  · rw [if_neg ho]
    by_cases hl : rt.globalCount ≥ rt.maxRequestsGlobal
    · exact ⟨rt.globalCount, rt.globalWindowStart, by simp [hl]⟩
    · exact ⟨rt.globalCount + 1, rt.globalWindowStart, by simp [hl]⟩

theorem tokensAt_isAllowedGlobal (rt : RateLimiter) (now : Time) (ip : UInt32) (t : Time) :
    (rt.isAllowedGlobal now).2.tokensAt ip t = rt.tokensAt ip t := by
  obtain ⟨count, start, h⟩ := rt.isAllowedGlobal_snd now
  rw [h]
  rfl

/-- What a call is answered: its window has room for it, and its bucket a
token. -/
theorem isAllowed_fst (rt : RateLimiter) (c : Call) :
    (rt.isAllowed c).1 = ((rt.isAllowedGlobal c.globalNow).1 && decide (1 ≤ rt.tokensAt c.ip c.privateNow)) := by
  unfold isAllowed
  cases hg : (rt.isAllowedGlobal c.globalNow).1 with
  | false => simp [hg]
  | true =>
    simp only [hg, if_true, Bool.true_and]
    unfold isAllowedPrivate
    rw [tokensAt_isAllowedGlobal]
    by_cases ht : rt.tokensAt c.ip c.privateNow < 1
    · simp [ht]
    · simp [ht, not_lt.mp ht]

/-- What a call leaves: the bucket of its address refilled, and a token taken
of it, when it came to the bucket. -/
theorem isAllowed_snd (rt : RateLimiter) (c : Call) :
    (rt.isAllowed c).2 =
      if (rt.isAllowedGlobal c.globalNow).1 then
        (rt.isAllowedGlobal c.globalNow).2.setRecord c.ip
          ⟨rt.tokensAt c.ip c.privateNow - if (rt.isAllowed c).1 then 1 else 0, c.privateNow⟩
      else (rt.isAllowedGlobal c.globalNow).2 := by
  rw [isAllowed_fst]
  unfold isAllowed
  cases hg : (rt.isAllowedGlobal c.globalNow).1 with
  | false => simp [hg]
  | true =>
    simp only [hg, if_true, Bool.true_and]
    unfold isAllowedPrivate
    rw [tokensAt_isAllowedGlobal]
    by_cases ht : rt.tokensAt c.ip c.privateNow < 1
    · simp [ht, not_le.mpr ht]
    · simp [ht, not_lt.mp ht]

/-- What the calls leave of how the limiter was made. -/
theorem run_config (rt : RateLimiter) (cs : List Call) :
    (rt.run cs).maxTokens = rt.maxTokens ∧ (rt.run cs).refillRate = rt.refillRate ∧
      (rt.run cs).maxRequestsGlobal = rt.maxRequestsGlobal := by
  induction cs using List.reverseRecOn with
  | nil => exact ⟨rfl, rfl, rfl⟩
  | append_singleton cs c ih =>
    obtain ⟨count, start, h⟩ := (rt.run cs).isAllowedGlobal_snd c.globalNow
    rw [run_append, isAllowed_snd, h]
    split
    · exact ih
    · exact ih

theorem counts_run (rt : RateLimiter) (w : Window) (h : rt.Counts w) (cs : List Call) :
    (rt.run cs).Counts (cs.foldl (fun w c => w.call c.globalNow) w) := by
  induction cs using List.reverseRecOn with
  | nil => exact h
  | append_singleton cs c ih =>
    rw [run_append, List.foldl_append, List.foldl_cons, List.foldl_nil, isAllowed_snd]
    have hc := (ih.isAllowedGlobal c.globalNow).2
    split
    · exact hc
    · exact hc

/-- The global check is a matter of the calls' times. -/
theorem isAllowedGlobal_run (maxTokens refillRate : ℚ) (globalLimit : Int) (t₀ : Time) (cs : List Call) (c : Call) :
    (((new maxTokens refillRate globalLimit t₀).run cs).isAllowedGlobal c.globalNow).1 =
      decide ((place t₀ cs c : Int) < globalLimit) := by
  have hnew : (new maxTokens refillRate globalLimit t₀).Counts ⟨t₀, 0⟩ := by
    refine ⟨rfl, ?_⟩
    simp only [new]
    omega
  have hc := counts_run _ _ hnew cs
  rw [(hc.isAllowedGlobal c.globalNow).1, (run_config _ cs).2.2]
  rfl

/-! ## Buckets -/

theorem seconds_add (t₁ t₂ t₃ : Time) : seconds t₁ t₂ + seconds t₂ t₃ = seconds t₁ t₃ := by
  unfold seconds
  ring

theorem seconds_nonneg {t₁ t₂ : Time} (h : t₁ ≤ t₂) : 0 ≤ seconds t₁ t₂ := by
  have hq : (t₁ : ℚ) ≤ t₂ := by exact_mod_cast h
  unfold seconds
  have := sub_nonneg.mpr hq
  positivity

/-- A bucket refilled twice, and once for as long. -/
theorem refill_refill {M r x d₁ d₂ : ℚ} (hx : x ≤ M) (h₁ : 0 ≤ d₁) (h₂ : 0 ≤ d₂) :
    min M (min M (x + d₁ * r) + d₂ * r) = min M (x + (d₁ + d₂) * r) := by
  rcases le_total 0 r with hr | hr
  · have hd : 0 ≤ d₂ * r := mul_nonneg h₂ hr
    rcases le_total (x + d₁ * r) M with hm | hm
    · rw [min_eq_right hm]
      congr 1
      ring
    · rw [min_eq_left hm, min_eq_left (by linarith), min_eq_left]
      calc M ≤ x + d₁ * r + d₂ * r := by linarith
        _ = x + (d₁ + d₂) * r := by ring
  · have hd : d₁ * r ≤ 0 := mul_nonpos_of_nonneg_of_nonpos h₁ hr
    rw [min_eq_right (by linarith : x + d₁ * r ≤ M)]
    congr 1
    ring

theorem tokensAt_eq (rt : RateLimiter) (ip : UInt32) (now : Time) :
    rt.tokensAt ip now = min rt.maxTokens (((rt.ipRecords ip).getD ⟨rt.maxTokens, now⟩).tokens +
      seconds ((rt.ipRecords ip).getD ⟨rt.maxTokens, now⟩).lastRefill now * rt.refillRate) := by
  simp only [tokensAt]
  split
  · next h => rw [min_eq_left (le_of_lt h)]
  · next h => rw [min_eq_right (not_lt.mp h)]

theorem tokensAt_le (rt : RateLimiter) (ip : UInt32) (now : Time) : rt.tokensAt ip now ≤ rt.maxTokens := by
  rw [tokensAt_eq]
  exact min_le_left _ _

theorem tokensAt_of_none {rt : RateLimiter} {ip : UInt32} (h : rt.ipRecords ip = none) (now : Time) :
    rt.tokensAt ip now = rt.maxTokens := by
  rw [tokensAt_eq, h]
  simp [seconds]

theorem tokensAt_setRecord (rt : RateLimiter) (ip : UInt32) (record : IPRecord) (now : Time) :
    (rt.setRecord ip record).tokensAt ip now =
      min rt.maxTokens (record.tokens + seconds record.lastRefill now * rt.refillRate) := by
  simp [tokensAt_eq, setRecord]

theorem tokensAt_setRecord_of_ne (rt : RateLimiter) {ip b : UInt32} (h : b ≠ ip) (record : IPRecord) (now : Time) :
    (rt.setRecord ip record).tokensAt b now = rt.tokensAt b now := by
  simp [tokensAt_eq, setRecord, Function.update_of_ne h]

/-- No bucket is over its size, or was refilled after `t`. -/
def Filled (rt : RateLimiter) (t : Time) : Prop :=
  ∀ ip record, rt.ipRecords ip = some record → record.tokens ≤ rt.maxTokens ∧ record.lastRefill ≤ t

theorem filled_run (rt : RateLimiter) {t : Time} (h : rt.Filled t) (cs : List Call) (ht : ∀ c ∈ cs, c.privateNow ≤ t) :
    (rt.run cs).Filled t := by
  induction cs using List.reverseRecOn with
  | nil => exact h
  | append_singleton cs c ih =>
    have ih := ih fun c' hc' => ht c' (List.mem_append_left _ hc')
    obtain ⟨count, start, hg⟩ := (rt.run cs).isAllowedGlobal_snd c.globalNow
    intro ip record hr
    rw [run_append, isAllowed_snd, hg] at hr ⊢
    split at hr
    · next hok =>
      rw [if_pos hok]
      by_cases hip : ip = c.ip
      · subst hip
        simp only [setRecord, Function.update_self, Option.some.injEq] at hr
        subst hr
        refine ⟨?_, ht c (by simp)⟩
        have hle := tokensAt_le (rt.run cs) c.ip c.privateNow
        simp only [setRecord]
        split
        · linarith
        · linarith
      · simp only [setRecord, Function.update_of_ne hip] at hr
        exact ih ip record hr
    · next hok =>
      rw [if_neg hok]
      exact ih ip record hr

/-- A bucket that refuses is left to refill as it was. -/
theorem tokensAt_of_refused {rt : RateLimiter} {ip : UInt32} {now t : Time} (hM : 1 ≤ rt.maxTokens)
    (hf : rt.Filled now) (hnow : now ≤ t) (hr : rt.tokensAt ip now < 1) :
    min rt.maxTokens (rt.tokensAt ip now + seconds now t * rt.refillRate) = rt.tokensAt ip t := by
  cases hrec : rt.ipRecords ip with
  | none =>
    rw [tokensAt_of_none hrec] at hr
    exact absurd hM (not_le.mpr hr)
  | some record =>
    obtain ⟨hx, hl⟩ := hf ip record hrec
    rw [tokensAt_eq, tokensAt_eq, hrec, Option.getD_some, Option.getD_some,
      refill_refill hx (seconds_nonneg hl) (seconds_nonneg hnow), seconds_add]

/-- What a call leaves of the buckets: one token less in its own, if it was
allowed, and nothing else. -/
theorem tokensAt_isAllowed {rt : RateLimiter} {c : Call} (hM : 1 ≤ rt.maxTokens) (hf : rt.Filled c.privateNow)
    (b : UInt32) {t : Time} (ht : c.privateNow ≤ t) :
    (rt.isAllowed c).2.tokensAt b t =
      if c.ip = b ∧ (rt.isAllowed c).1 = true then
        min rt.maxTokens (rt.tokensAt b c.privateNow - 1 + seconds c.privateNow t * rt.refillRate)
      else rt.tokensAt b t := by
  have hfst := rt.isAllowed_fst c
  obtain ⟨count, start, hg⟩ := rt.isAllowedGlobal_snd c.globalNow
  rw [isAllowed_snd]
  cases hok : (rt.isAllowedGlobal c.globalNow).1 with
  | false =>
    rw [hok, Bool.false_and] at hfst
    rw [if_neg Bool.false_ne_true, tokensAt_isAllowedGlobal, hfst]
    simp
  | true =>
    rw [hok, Bool.true_and] at hfst
    rw [if_pos rfl]
    by_cases hb : c.ip = b
    · subst hb
      rw [tokensAt_setRecord, hg]
      cases ha : (rt.isAllowed c).1 with
      | true => simp
      | false =>
        rw [hfst] at ha
        simpa using tokensAt_of_refused hM hf ht (not_le.mp (of_decide_eq_false ha))
    · rw [tokensAt_setRecord_of_ne _ (Ne.symm hb), tokensAt_isAllowedGlobal, if_neg fun h => hb h.1]

/-! ## What refused calls do to others -/

/-- The calls of `a` that its bucket refuses change nothing of what the other
addresses are answered. -/
def Unaffected (a : UInt32) (rt : RateLimiter) (cs : List Call) : Prop :=
  rt.othersOutcomes a cs = rt.othersOutcomes a (rt.kept a cs)

instance (a : UInt32) (rt : RateLimiter) (cs : List Call) : Decidable (Unaffected a rt cs) :=
  inferInstanceAs (Decidable (_ = _))

theorem othersOutcomes_append (a : UInt32) (rt : RateLimiter) (cs : List Call) (c : Call) :
    rt.othersOutcomes a (cs ++ [c]) =
      rt.othersOutcomes a cs ++ if c.ip = a then [] else [(c, ((rt.run cs).isAllowed c).1)] := by
  unfold othersOutcomes
  rw [outcomes_append, List.filter_append]
  by_cases hc : c.ip = a <;> simp [hc]

theorem unaffected_append {a : UInt32} {rt : RateLimiter} {cs : List Call} {c : Call} :
    Unaffected a rt (cs ++ [c]) ↔ Unaffected a rt cs ∧
      (c.ip ≠ a → ((rt.run cs).isAllowed c).1 = ((rt.run (rt.kept a cs)).isAllowed c).1) := by
  unfold Unaffected
  by_cases hc : c.ip = a
  · -- a call of `a` itself, kept or not, is no other's
    have hk : rt.othersOutcomes a (rt.kept a (cs ++ [c])) = rt.othersOutcomes a (rt.kept a cs) := by
      rw [kept_append]
      split
      · rw [List.append_nil]
      · rw [othersOutcomes_append, if_pos hc, List.append_nil]
    rw [hk, othersOutcomes_append, if_pos hc, List.append_nil]
    simp [hc]
  · rw [kept_append, if_neg fun h => hc h.1, othersOutcomes_append, othersOutcomes_append, if_neg hc, if_neg hc]
    constructor
    · intro h
      obtain ⟨h₁, h₂⟩ := List.append_inj' h rfl
      simp only [List.cons.injEq, Prod.mk.injEq, true_and, and_true] at h₂
      exact ⟨h₁, fun _ => h₂⟩
    · intro heqs
      obtain ⟨h₁, h₂⟩ := heqs
      rw [h₁, h₂ hc]

theorem filled_new (maxTokens refillRate : ℚ) (globalLimit : Int) (t₀ t : Time) :
    (new maxTokens refillRate globalLimit t₀).Filled t := by
  intro ip record h
  cases h

/-- While the others are answered alike, their buckets hold alike with the
refused calls and without them. -/
theorem tokensAt_kept {rt : RateLimiter} {a : UInt32} (hM : 1 ≤ rt.maxTokens) (hf : ∀ t, rt.Filled t)
    {cs : List Call} (hs : (cs.map Call.privateNow).Pairwise (· ≤ ·)) (hu : Unaffected a rt cs) {b : UInt32}
    (hb : b ≠ a) {t : Time} (ht : ∀ c ∈ cs, c.privateNow ≤ t) :
    (rt.run cs).tokensAt b t = (rt.run (rt.kept a cs)).tokensAt b t := by
  induction cs using List.reverseRecOn generalizing t with
  | nil => rfl
  | append_singleton cs c ih =>
    rw [List.map_append, List.pairwise_append] at hs
    obtain ⟨hs, -, hlast⟩ := hs
    obtain ⟨hu, hc⟩ := unaffected_append.mp hu
    have hnow : ∀ c' ∈ cs, c'.privateNow ≤ c.privateNow := fun c' hc' =>
      hlast _ (List.mem_map_of_mem hc') _ (by simp)
    have hct : c.privateNow ≤ t := ht c (by simp)
    have hnow' : ∀ c' ∈ rt.kept a cs, c'.privateNow ≤ c.privateNow := fun c' hc' =>
      hnow c' ((kept_sublist a rt cs).subset hc')
    have hmax : ∀ ds, 1 ≤ (rt.run ds).maxTokens := fun ds => by rw [(run_config rt ds).1]; exact hM
    have hfull := tokensAt_isAllowed (hmax cs) (filled_run rt (hf _) cs hnow) b hct
    have hkept := tokensAt_isAllowed (hmax (rt.kept a cs)) (filled_run rt (hf _) _ hnow') b hct
    have iht := ih hs hu fun c' hc' => le_trans (hnow c' hc') hct
    have ihnow := ih hs hu hnow
    rw [run_append, hfull, kept_append]
    by_cases hca : c.ip = a
    · -- a call of `a` is not for the bucket of `b`
      have hcb : c.ip ≠ b := fun h => hb (h.symm.trans hca)
      rw [if_neg fun h => hcb h.1]
      split
      · rw [List.append_nil]
        exact iht
      · rw [run_append, hkept, if_neg fun h => hcb h.1]
        exact iht
    · rw [if_neg fun h : c.ip = a ∧ _ => hca h.1, run_append, hkept, ← hc hca, (run_config rt cs).1,
        (run_config rt cs).2.1, (run_config rt _).1, (run_config rt _).2.1, iht, ihnow]

theorem pairwise_privateNow {cs : List Call} (h : (clock cs).Pairwise (· ≤ ·)) :
    (cs.map Call.privateNow).Pairwise (· ≤ ·) := by
  refine h.sublist ?_
  induction cs with
  | nil => exact .slnil
  | cons c cs ih =>
    rw [List.map_cons, clock, List.flatMap_cons]
    exact ((ih ((List.pairwise_append.mp h).2.1)).cons_cons _).cons _

/-- A call that is as much in time for its window with the refused calls as
without them, or finds no token in its own bucket. -/
def Isolated (a : UInt32) (rt : RateLimiter) (before : List Call) (c : Call) : Prop :=
  ((place rt.globalWindowStart before c : Int) < rt.maxRequestsGlobal ↔
      (place rt.globalWindowStart (rt.kept a before) c : Int) < rt.maxRequestsGlobal) ∨
    (rt.run before).tokensAt c.ip c.privateNow < 1

/-- **What an address's refused requests do to the others**: nothing, exactly
when each call of another address is as much in time for its window with them
as without them, or finds no token in its own bucket. -/
theorem bucket_refusals_iff (maxTokens refillRate : ℚ) (globalLimit : Int) (t₀ : Time) (a : UInt32) (cs : List Call)
    (hs : (t₀ :: clock cs).Pairwise (· ≤ ·)) :
    Unaffected a (new maxTokens refillRate globalLimit t₀) cs ↔
      ∀ before c after, cs = before ++ c :: after → c.ip ≠ a →
        Isolated a (new maxTokens refillRate globalLimit t₀) before c := by
  replace hs := pairwise_privateNow (List.pairwise_cons.mp hs).2
  have hf : ∀ t, (new maxTokens refillRate globalLimit t₀).Filled t := fun t => filled_new _ _ _ _ t
  induction cs using List.reverseRecOn with
  | nil => simp [Unaffected, kept, othersOutcomes]
  | append_singleton cs c ih =>
    rw [List.map_append, List.pairwise_append] at hs
    obtain ⟨hs, -, hlast⟩ := hs
    have hnow : ∀ c' ∈ cs, c'.privateNow ≤ c.privateNow := fun c' hc' =>
      hlast _ (List.mem_map_of_mem hc') _ (by simp)
    have hlow : ∀ ds, maxTokens < 1 →
        ((new maxTokens refillRate globalLimit t₀).run ds).tokensAt c.ip c.privateNow < 1 := fun ds hM =>
      lt_of_le_of_lt (tokensAt_le _ _ _) (by rw [(run_config _ ds).1]; exact hM)
    refine unaffected_append.trans (Iff.trans (and_congr_right fun hu => imp_congr_right fun hc => ?_)
      (Iff.trans (and_congr_left' (ih hs)) Runs.forall_split_append.symm))
    rw [isAllowed_fst, isAllowed_fst, isAllowedGlobal_run, isAllowedGlobal_run, Isolated]
    rcases lt_or_ge maxTokens 1 with hM | hM
    · -- a bucket that never holds a token refuses every call
      simp [hlow _ hM, not_le.mpr (hlow _ hM)]
    · rw [← tokensAt_kept hM hf hs hu hc hnow]
      by_cases hT : 1 ≤ ((new maxTokens refillRate globalLimit t₀).run cs).tokensAt c.ip c.privateNow
      · simp [hT, not_lt.mpr hT]
      · simp [hT, not_le.mp hT]

theorem bucket_refusals_example : Unaffected 1 (new 1 0 1000 0) [⟨1, 5, 6⟩, ⟨1, 7, 8⟩, ⟨2, 9, 9⟩] := by
  refine (bucket_refusals_iff 1 0 1000 0 1 _ (by decide)).mpr fun before c after he hc => ?_
  rcases before with _ | ⟨c₀, _ | ⟨c₁, _ | ⟨c₂, before⟩⟩⟩
  · cases he
    exact absurd rfl hc
  · cases he
    exact absurd rfl hc
  · cases he
    exact .inl (by decide +kernel)
  · simp at he

/-- One token for an address and two requests a second for all: the second
request of address 1 is refused by its bucket, and the first one of address 2
by the window it filled. -/
theorem bucket_refusals_fill_window :
    ¬ Unaffected 1 (new 1 0 2 0) [⟨1, 0, 0⟩, ⟨1, 0, 0⟩, ⟨2, 0, 0⟩] := by
  decide +kernel

end RateLimiter

end KvDatabase
