/-
What the buckets of the limiter admit. A record is a token bucket
(`TokenBucket`) of its address's calls, refilled lazily and as its clock says,
also when that runs back; so `isAllowedPrivate` keeps the bucket's law
(`bucket_law`), for each address on its own.
-/
import KvDatabase.Limiter
import KvDatabase.Lib.TokenBucket

namespace KvDatabase

/-- One call of `isAllowedPrivate`: the address, and what its reading of the
clock, made before the lock is taken, has given. -/
structure PrivateCall where
  ip : UInt32
  now : Time
deriving DecidableEq, Repr

namespace RateLimiter

/-- The limiter after the calls, in the order in which they take the lock. -/
def privateRun (rt : RateLimiter) (cs : List PrivateCall) : RateLimiter :=
  cs.foldl (fun rt c => (rt.isAllowedPrivate c.ip c.now).2) rt

/-- The calls with what each returns. -/
def privateOutcomes (rt : RateLimiter) : List PrivateCall → List (PrivateCall × Bool)
  | [] => []
  | c :: cs => (c, (rt.isAllowedPrivate c.ip c.now).1) :: privateOutcomes (rt.isAllowedPrivate c.ip c.now).2 cs

/-- The times and answers of one address's calls. -/
def callsOf (ip : UInt32) (outcomes : List (PrivateCall × Bool)) : List (Time × Bool) :=
  (outcomes.filter fun o => o.1.ip = ip).map fun o => (o.1.now, o.2)

theorem privateRun_append (rt : RateLimiter) (cs : List PrivateCall) (c : PrivateCall) :
    rt.privateRun (cs ++ [c]) = ((rt.privateRun cs).isAllowedPrivate c.ip c.now).2 := by
  simp [privateRun]

theorem privateOutcomes_append (rt : RateLimiter) (cs : List PrivateCall) (c : PrivateCall) :
    rt.privateOutcomes (cs ++ [c]) =
      rt.privateOutcomes cs ++ [(c, ((rt.privateRun cs).isAllowedPrivate c.ip c.now).1)] := by
  induction cs generalizing rt with
  | nil => rfl
  | cons d cs ih =>
    rw [List.cons_append, privateOutcomes, ih, privateOutcomes]
    rfl

theorem callsOf_append (ip : UInt32) (outcomes : List (PrivateCall × Bool)) (c : PrivateCall) (ok : Bool) :
    callsOf ip (outcomes ++ [(c, ok)]) = callsOf ip outcomes ++ if c.ip = ip then [(c.now, ok)] else [] := by
  by_cases hc : c.ip = ip <;> simp [callsOf, hc]

/-! ## A record is a bucket -/

/-- A reading of the clock, in seconds. -/
def inSeconds (t : Time) : ℚ := (t : ℚ) / 1000000000

theorem seconds_eq (t₁ t₂ : Time) : seconds t₁ t₂ = inSeconds t₂ - inSeconds t₁ := by
  unfold seconds inSeconds
  ring

/-- Calls as the library has them. -/
def timed (calls : List (Time × Bool)) : List (ℚ × Bool) := calls.map fun c => (inSeconds c.1, c.2)

theorem isAllowedPrivate_fst (rt : RateLimiter) (ip : UInt32) (now : Time) :
    (rt.isAllowedPrivate ip now).1 = decide (1 ≤ rt.tokensAt ip now) := by
  unfold isAllowedPrivate
  by_cases ht : rt.tokensAt ip now < 1
  · simp [ht]
  · simp [ht, not_lt.mp ht]

/-- What a call leaves: its own record, refilled, and a token less if it was
allowed. -/
theorem isAllowedPrivate_snd (rt : RateLimiter) (ip : UInt32) (now : Time) :
    (rt.isAllowedPrivate ip now).2 =
      rt.setRecord ip ⟨rt.tokensAt ip now - if (rt.isAllowedPrivate ip now).1 then 1 else 0, now⟩ := by
  unfold isAllowedPrivate
  by_cases ht : rt.tokensAt ip now < 1 <;> simp [ht]

/-- The records hold what buckets hold after these calls, with these answers. -/
structure Tracks (rt : RateLimiter) (outcomes : List (PrivateCall × Bool)) : Prop where
  held : ∀ ip now, rt.tokensAt ip now =
    TokenBucket.level rt.maxTokens rt.refillRate (timed (callsOf ip outcomes)) (inSeconds now)
  lawful : ∀ ip, TokenBucket.Lawful rt.maxTokens rt.refillRate (timed (callsOf ip outcomes))

theorem tracks_new (maxTokens refillRate : ℚ) (globalLimit : Int) (t₀ : Time) :
    (new maxTokens refillRate globalLimit t₀).Tracks [] where
  held _ now := tokensAt_of_none rfl now
  lawful _ := .nil _ _

theorem Tracks.isAllowedPrivate {rt : RateLimiter} {outcomes : List (PrivateCall × Bool)} (h : rt.Tracks outcomes)
    (c : PrivateCall) :
    (rt.isAllowedPrivate c.ip c.now).2.Tracks (outcomes ++ [(c, (rt.isAllowedPrivate c.ip c.now).1)]) := by
  have hfst := rt.isAllowedPrivate_fst c.ip c.now
  generalize hok : (rt.isAllowedPrivate c.ip c.now).1 = ok at hfst ⊢
  rw [isAllowedPrivate_snd, hok]
  refine ⟨fun ip now => ?_, fun ip => ?_⟩
  · rw [callsOf_append]
    by_cases hip : c.ip = ip
    · subst hip
      rw [if_pos rfl, timed, List.map_append, List.map_singleton, ← timed, TokenBucket.level_append,
        tokensAt_setRecord, h.held c.ip c.now, seconds_eq]
      cases ok <;> simp [setRecord, TokenBucket.admitted]
    · rw [if_neg hip, List.append_nil, tokensAt_setRecord_of_ne _ (Ne.symm hip)]
      exact h.held ip now
  · rw [callsOf_append]
    by_cases hip : c.ip = ip
    · subst hip
      rw [if_pos rfl, timed, List.map_append, List.map_singleton, ← timed]
      refine (h.lawful c.ip).append ?_
      rw [← h.held c.ip c.now, hfst, decide_eq_true_iff]
    · rw [if_neg hip, List.append_nil]
      exact h.lawful ip

theorem isAllowedPrivate_config (rt : RateLimiter) (ip : UInt32) (now : Time) :
    (rt.isAllowedPrivate ip now).2.maxTokens = rt.maxTokens ∧
      (rt.isAllowedPrivate ip now).2.refillRate = rt.refillRate := by
  rw [isAllowedPrivate_snd]
  exact ⟨rfl, rfl⟩

theorem tracks_run {rt : RateLimiter} (h : rt.Tracks []) (cs : List PrivateCall) :
    (rt.privateRun cs).Tracks (rt.privateOutcomes cs) := by
  induction cs using List.reverseRecOn with
  | nil => exact h
  | append_singleton cs c ih =>
    rw [privateRun_append, privateOutcomes_append]
    exact ih.isAllowedPrivate c

theorem privateRun_config (rt : RateLimiter) (cs : List PrivateCall) :
    (rt.privateRun cs).maxTokens = rt.maxTokens ∧ (rt.privateRun cs).refillRate = rt.refillRate := by
  induction cs using List.reverseRecOn with
  | nil => exact ⟨rfl, rfl⟩
  | append_singleton cs c ih =>
    obtain ⟨hM, hr⟩ := (rt.privateRun cs).isAllowedPrivate_config c.ip c.now
    rw [privateRun_append, hM, hr]
    exact ih

/-! ## The law -/

/-- What an address is answered does not depend on the calls of others. -/
theorem callsOf_filter {rt rt' : RateLimiter} {ip : UInt32} (cs : List PrivateCall)
    (hheld : ∀ now, rt.tokensAt ip now = rt'.tokensAt ip now) (hM : rt.maxTokens = rt'.maxTokens)
    (hr : rt.refillRate = rt'.refillRate) :
    callsOf ip (rt.privateOutcomes cs) = callsOf ip (rt'.privateOutcomes (cs.filter fun c => c.ip = ip)) := by
  induction cs generalizing rt rt' with
  | nil => rfl
  | cons c cs ih =>
    obtain ⟨hM₁, hr₁⟩ := rt.isAllowedPrivate_config c.ip c.now
    obtain ⟨hM₂, hr₂⟩ := rt'.isAllowedPrivate_config c.ip c.now
    by_cases hc : c.ip = ip
    · have hok : (rt.isAllowedPrivate c.ip c.now).1 = (rt'.isAllowedPrivate c.ip c.now).1 := by
        rw [isAllowedPrivate_fst, isAllowedPrivate_fst, hc, hheld]
      have hheld' : ∀ now, (rt.isAllowedPrivate c.ip c.now).2.tokensAt ip now =
          (rt'.isAllowedPrivate c.ip c.now).2.tokensAt ip now := fun now => by
        rw [isAllowedPrivate_snd, isAllowedPrivate_snd, hok, hc, tokensAt_setRecord, tokensAt_setRecord, hheld, hM, hr]
      have ih := ih hheld' (by rw [hM₁, hM₂, hM]) (by rw [hr₁, hr₂, hr])
      simp only [callsOf, privateOutcomes, List.filter_cons, hc, decide_true, if_true, List.map_cons] at ih hok ⊢
      rw [ih, hok]
    · have hheld' : ∀ now, (rt.isAllowedPrivate c.ip c.now).2.tokensAt ip now = rt'.tokensAt ip now := fun now => by
        rw [isAllowedPrivate_snd, tokensAt_setRecord_of_ne _ (Ne.symm hc), hheld]
      have ih := ih hheld' (hM₁.trans hM) (hr₁.trans hr)
      simpa [callsOf, privateOutcomes, hc] using ih

/-- **The bucket's law.** Whatever calls there are of whatever addresses, in
whatever order their clocks were read, one of an address is allowed exactly
when, over every stretch of that address's calls that ends in it, no more are
allowed than the bucket's size and the refill since; and the calls of others
make no difference. -/
theorem bucket_law (maxTokens refillRate : ℚ) (globalLimit : Int) (t₀ : Time) (cs : List PrivateCall) (ip : UInt32) :
    let rt := new maxTokens refillRate globalLimit t₀
    let calls := callsOf ip (rt.privateOutcomes cs)
    (∀ k (_ : k < calls.length), calls[k].2 = true ↔ ∀ i (_ : i ≤ k),
      (((calls.take k).drop i).countP Prod.snd : ℚ) + 1 ≤ maxTokens + refillRate * seconds calls[i].1 calls[k].1) ∧
    calls = callsOf ip (rt.privateOutcomes (cs.filter fun c => c.ip = ip)) := by
  intro rt calls
  refine ⟨fun k hk => ?_, callsOf_filter cs (fun _ => rfl) rfl rfl⟩
  have hlaw := (tracks_run (tracks_new maxTokens refillRate globalLimit t₀) cs).lawful ip
  rw [(privateRun_config _ cs).1, (privateRun_config _ cs).2] at hlaw
  have hk' : k < (timed calls).length := by simpa [timed] using hk
  have hiff := hlaw k hk'
  simp only [timed, List.getElem_map] at hiff
  rw [hiff]
  refine forall₂_congr fun i hi => ?_
  rw [TokenBucket.admitted, ← List.map_take, ← List.map_drop, List.countP_map, seconds_eq, mul_comm refillRate]
  rfl

end RateLimiter

end KvDatabase
