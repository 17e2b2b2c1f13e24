/-
What the global window of the limiter admits. Windows follow one another, each
opened by the first call a second or more after the one before was opened, and
each admits as many calls as the limit says (`window_cap`). A second that is
no window's own can take its calls from the end of one window and the start of
the next, so twice as many are admitted in it at most.
-/
import KvDatabase.Limiter

namespace KvDatabase
namespace RateLimiter

/-- A call, the start of the window it is counted in, and its answer. -/
structure Counted where
  start : Time
  call : Call
  ok : Bool

/-- The calls to a limiter whose window is `w`. -/
def counted (w : Window) (rt : RateLimiter) : List Call → List Counted
  | [] => []
  | c :: cs => ⟨(w.call c.globalNow).start, c, (rt.isAllowed c).1⟩ :: counted (w.call c.globalNow) (rt.isAllowed c).2 cs

/-- The window after these calls. -/
def Window.after (w : Window) (cs : List Call) : Window := cs.foldl (fun w c => w.call c.globalNow) w

theorem Window.after_append (w : Window) (cs : List Call) (c : Call) :
    w.after (cs ++ [c]) = (w.after cs).call c.globalNow := by
  simp [Window.after]

theorem counted_append (w : Window) (rt : RateLimiter) (cs : List Call) (c : Call) :
    counted w rt (cs ++ [c]) =
      counted w rt cs ++ [⟨((w.after cs).call c.globalNow).start, c, ((rt.run cs).isAllowed c).1⟩] := by
  induction cs generalizing w rt with
  | nil => rfl
  | cons d cs ih =>
    rw [List.cons_append, counted, ih, counted]
    rfl

/-- The windows aside, these are the outcomes. -/
theorem map_counted (w : Window) (rt : RateLimiter) (cs : List Call) :
    (counted w rt cs).map (fun o => (o.call, o.ok)) = rt.outcomes cs := by
  induction cs generalizing w rt with
  | nil => rfl
  | cons c cs ih => rw [counted, List.map_cons, ih, outcomes]

theorem windowOver_iff {start now : Nat} (h : start ≤ now) :
    windowOver start now = true ↔ start + 1000000000 ≤ now := by
  rw [windowOver, decide_eq_true_iff, Int.tdiv_eq_ediv_of_nonneg (by omega)]
  omega

theorem lt_of_windowOver {start now : Nat} (h : windowOver start now = true) : start < now := by
  by_contra hle
  have hneg : ((now : Int) - start).tdiv 1000000000 ≤ 0 := by
    rw [← neg_sub, Int.neg_tdiv]
    have := Int.tdiv_nonneg (a := (start : Int) - now) (b := 1000000000) (by omega) (by omega)
    omega
  rw [windowOver, decide_eq_true_iff] at h
  omega

/-! ## One window -/

/-- The calls counted in the window opened at `start` that are allowed. -/
def allowedIn (start : Time) (os : List Counted) : List Counted := os.filter fun o => o.ok ∧ o.start = start

theorem allowedIn_append (start : Time) (os : List Counted) (o : Counted) :
    (allowedIn start (os ++ [o])).length =
      (allowedIn start os).length + if o.ok = true ∧ o.start = start then 1 else 0 := by
  by_cases ho : o.ok = true ∧ o.start = start <;> simp [allowedIn, ho]

/-- A call that opens a window, or one that falls in the window there is. -/
theorem Window.call_cases (w : Window) (now : Time) :
    (w.start < now ∧ windowOver w.start now = true ∧ w.call now = ⟨now, 1⟩ ∧ w.place now = 0) ∨
      (windowOver w.start now = false ∧ w.call now = ⟨w.start, w.calls + 1⟩ ∧ w.place now = w.calls) := by
  cases ho : windowOver w.start now with
  | true => exact .inl ⟨lt_of_windowOver ho, rfl, by simp [Window.call, ho], by simp [Window.place, ho]⟩
  | false => exact .inr ⟨rfl, by simp [Window.call, ho], by simp [Window.place, ho]⟩

/-- A call is allowed only if its window has room for it. -/
theorem place_lt_of_allowed {rt : RateLimiter} {w : Window} (h : rt.Counts w) {c : Call}
    (hok : (rt.isAllowed c).1 = true) : (w.place c.globalNow : Int) < rt.maxRequestsGlobal := by
  rw [isAllowed_fst, Bool.and_eq_true, (h.isAllowedGlobal c.globalNow).1] at hok
  exact of_decide_eq_true hok.1

/-- The allowed calls of each window: in the open one no more than its calls,
in one to come none, and in any no more than the limit. -/
structure Capped (limit : Int) (w : Window) (start : Time) (n : Nat) : Prop where
  current : start = w.start → n ≤ w.calls
  later : w.start < start → n = 0
  cap : (n : Int) ≤ limit

theorem capped_counted {rt : RateLimiter} {w : Window} (h : rt.Counts w) (hlimit : 0 ≤ rt.maxRequestsGlobal)
    (cs : List Call) (start : Time) :
    Capped rt.maxRequestsGlobal (w.after cs) start (allowedIn start (counted w rt cs)).length := by
  induction cs using List.reverseRecOn with
  | nil => exact ⟨fun _ => Nat.zero_le _, fun _ => rfl, hlimit⟩
  | append_singleton cs c ih =>
    have hplace : ((rt.run cs).isAllowed c).1 = true → ((w.after cs).place c.globalNow : Int) < rt.maxRequestsGlobal := by
      rw [← (run_config rt cs).2.2]
      exact place_lt_of_allowed (counts_run rt w h cs)
    rw [Window.after_append, counted_append, allowedIn_append]
    generalize (allowedIn start (counted w rt cs)).length = n at ih
    rcases (w.after cs).call_cases c.globalNow with ⟨hlt, -, hc, hp⟩ | ⟨-, hc, hp⟩
    · -- a window is opened, and had no calls before
      rw [hp] at hplace
      rw [hc]
      by_cases ho : ((rt.run cs).isAllowed c).1 = true ∧ c.globalNow = start
      · obtain ⟨hok, rfl⟩ := ho
        have hn := ih.later hlt
        have := hplace hok
        rw [if_pos ⟨hok, rfl⟩, hn]
        refine ⟨fun _ => le_rfl, fun hs => absurd hs (lt_irrefl _), ?_⟩
        omega
      · rw [if_neg ho, add_zero]
        refine ⟨fun hs => ?_, fun hs => ih.later (lt_trans hlt hs), ih.cap⟩
        rw [ih.later (hs ▸ hlt)]
        exact Nat.zero_le _
    · rw [hp] at hplace
      rw [hc]
      by_cases ho : ((rt.run cs).isAllowed c).1 = true ∧ (w.after cs).start = start
      · obtain ⟨hok, rfl⟩ := ho
        have hn := ih.current rfl
        have := hplace hok
        rw [if_pos ⟨hok, rfl⟩]
        refine ⟨fun _ => Nat.succ_le_succ hn, fun hs => absurd hs (lt_irrefl _), ?_⟩
        omega
      · rw [if_neg ho, add_zero]
        exact ⟨fun hs => Nat.le_succ_of_le (ih.current hs), ih.later, ih.cap⟩

/-! ## Any second -/

/-- The calls fall in their windows, and windows are a second apart. -/
structure Spaced (w : Window) (os : List Counted) : Prop where
  within : ∀ o ∈ os, (o.start : Nat) ≤ o.call.globalNow ∧ (o.call.globalNow : Nat) < o.start + 1000000000
  before : ∀ o ∈ os, o.start = w.start ∨ (o.start : Nat) + 1000000000 ≤ w.start
  apart : os.Pairwise fun o o' => o.start = o'.start ∨ (o.start : Nat) + 1000000000 ≤ o'.start

/-- One more call, in the open window or in one opened a second later. -/
theorem Spaced.append {w w' : Window} {os : List Counted} {o : Counted} (h : Spaced w os) (ho : o.start = w'.start)
    (hin : (o.start : Nat) ≤ o.call.globalNow ∧ (o.call.globalNow : Nat) < o.start + 1000000000)
    (hw : w'.start = w.start ∨ (w.start : Nat) + 1000000000 ≤ w'.start) : Spaced w' (os ++ [o]) := by
  have hbefore : ∀ o' ∈ os, o'.start = w'.start ∨ (o'.start : Nat) + 1000000000 ≤ w'.start := by
    intro o' hm
    rcases h.before o' hm, hw with ⟨he | hlt, hsame | hover⟩
    · exact .inl (he.trans hsame.symm)
    · exact .inr (he ▸ hover)
    · exact .inr (hsame ▸ hlt)
    · exact .inr (le_trans (le_trans hlt (Nat.le_add_right _ _)) hover)
  refine ⟨fun o' hm => ?_, fun o' hm => ?_, List.pairwise_append.mpr ⟨h.apart, List.pairwise_singleton _ _, ?_⟩⟩
  · rcases List.mem_append.mp hm with hm | hm
    · exact h.within o' hm
    · rw [List.mem_singleton.mp hm]
      exact hin
  · rcases List.mem_append.mp hm with hm | hm
    · exact hbefore o' hm
    · rw [List.mem_singleton.mp hm]
      exact .inl ho
  · intro o' hm o'' hm'
    rw [List.mem_singleton.mp hm', ho]
    exact hbefore o' hm

theorem spaced_counted (w : Window) (rt : RateLimiter) (cs : List Call)
    (hs : (w.start :: cs.map Call.globalNow).Pairwise (· ≤ ·)) :
    Spaced (w.after cs) (counted w rt cs) ∧ ∀ t, (∀ s ∈ w.start :: cs.map Call.globalNow, s ≤ t) → (w.after cs).start ≤ t := by
  induction cs using List.reverseRecOn with
  | nil => exact ⟨⟨by simp [counted], by simp [counted], by simp [counted]⟩, fun t ht => ht _ List.mem_cons_self⟩
  | append_singleton cs c ih =>
    rw [List.map_append, ← List.cons_append, List.pairwise_append] at hs
    obtain ⟨hs, -, hlast⟩ := hs
    obtain ⟨hsp, hle⟩ := ih hs
    have hnow : ((w.after cs).start : Nat) ≤ c.globalNow := hle _ fun s hm => hlast s hm _ (by simp)
    rw [Window.after_append, counted_append]
    rcases (w.after cs).call_cases c.globalNow with ⟨-, ho, hc, -⟩ | ⟨ho, hc, -⟩
    · have hover := (windowOver_iff hnow).mp ho
      rw [hc]
      exact ⟨hsp.append rfl ⟨le_rfl, Nat.lt_add_of_pos_right (by decide)⟩ (.inr hover), fun t ht => ht _ (by simp)⟩
    · have hover : ¬ ((w.after cs).start : Nat) + 1000000000 ≤ c.globalNow := by
        rw [← windowOver_iff hnow, ho]
        exact Bool.false_ne_true
      rw [hc]
      refine ⟨hsp.append rfl ⟨hnow, not_le.mp hover⟩ (.inl rfl), fun t ht => hle t fun s hm => ht s ?_⟩
      rw [List.map_append, ← List.cons_append]
      exact List.mem_append_left _ hm

/-- Two windows are the same or a second apart. -/
def Apart (o o' : Counted) : Prop :=
  o.start = o'.start ∨ (o.start : Nat) + 1000000000 ≤ o'.start ∨ (o'.start : Nat) + 1000000000 ≤ o.start

theorem Apart.eq {o o' : Counted} (h : Apart o o') (hlt : (o.start : Nat) < o'.start + 1000000000)
    (hlt' : (o'.start : Nat) < o.start + 1000000000) : o.start = o'.start :=
  h.resolve_right fun hor => hor.elim (not_le.mpr hlt') (not_le.mpr hlt)

theorem Spaced.apart_of_mem {w : Window} {os : List Counted} (h : Spaced w os) {o o' : Counted} (ho : o ∈ os)
    (ho' : o' ∈ os) : Apart o o' := by
  have hflip : os.Pairwise (flip Apart) := h.apart.imp fun {a b} hab => by
    rcases hab with he | hlt
    · exact .inl he.symm
    · exact .inr (.inr hlt)
  exact (h.apart.imp fun hab => hab.imp_right .inl).forall_of_forall_of_flip (fun _ _ => .inl rfl) hflip ho ho'

/-- Allowed calls of one window are no more than the limit. -/
theorem length_le_of_one_window {os : List Counted} {limit : Int} (hlimit : 0 ≤ limit)
    (hcap : ∀ start, ((allowedIn start os).length : Int) ≤ limit) (p : Counted → Prop) [DecidablePred p]
    (hok : ∀ o, p o → o.ok = true) (hone : ∀ o ∈ os, ∀ o' ∈ os, p o → p o' → o.start = o'.start) :
    ((os.filter p).length : Int) ≤ limit := by
  cases hf : os.filter p with
  | nil => exact hlimit
  | cons o rest =>
    obtain ⟨ho, hp⟩ := List.mem_filter.mp (hf ▸ List.mem_cons_self : o ∈ os.filter p)
    have hsub : os.filter p = (allowedIn o.start os).filter p := by
      rw [allowedIn, List.filter_filter]
      refine List.filter_congr fun o' ho' => ?_
      by_cases hp' : p o'
      · simp [hp', hok o' hp', hone o' ho' o ho hp' (of_decide_eq_true hp)]
      · simp [hp']
    have hlen : (os.filter p).length ≤ (allowedIn o.start os).length := by
      rw [hsub]
      exact List.length_filter_le _ _
    rw [← hf]
    exact le_trans (Int.ofNat_le.mpr hlen) (hcap o.start)

theorem pairwise_globalNow {t₀ : Time} {cs : List Call} (h : (t₀ :: clock cs).Pairwise (· ≤ ·)) :
    (t₀ :: cs.map Call.globalNow).Pairwise (· ≤ ·) := by
  have hsub : ∀ cs : List Call, (cs.map Call.globalNow).Sublist (clock cs) := by
    intro cs
    induction cs with
    | nil => exact .slnil
    | cons c cs ih =>
      rw [List.map_cons, clock, List.flatMap_cons]
      exact (ih.cons _).cons_cons _
  exact h.sublist ((hsub cs).cons_cons t₀)

/-- The calls made in the second from `t` on that are allowed. -/
def allowedDuring (t : Time) (outcomes : List (Call × Bool)) : List (Call × Bool) :=
  outcomes.filter fun o => o.2 ∧ (t : Nat) ≤ o.1.globalNow ∧ (o.1.globalNow : Nat) < t + 1000000000

/-- **The cap of a window, and of a second.** No window has more calls allowed
than the limit, and no second more than two windows have: it takes its calls
from the one it begins in and at most one opened since. -/
theorem window_cap (maxTokens refillRate : ℚ) (globalLimit : Int) (t₀ : Time) (cs : List Call) (hlimit : 0 ≤ globalLimit)
    (hs : (t₀ :: clock cs).Pairwise (· ≤ ·)) :
    let rt := new maxTokens refillRate globalLimit t₀
    (∀ start, ((allowedIn start (counted ⟨t₀, 0⟩ rt cs)).length : Int) ≤ globalLimit) ∧
      ∀ t, ((allowedDuring t (rt.outcomes cs)).length : Int) ≤ 2 * globalLimit := by
  intro rt
  have hcounts : rt.Counts ⟨t₀, 0⟩ := by
    refine ⟨rfl, ?_⟩
    simp only [rt, new]
    omega
  have hcap : ∀ start, ((allowedIn start (counted ⟨t₀, 0⟩ rt cs)).length : Int) ≤ globalLimit := fun start =>
    (capped_counted hcounts hlimit cs start).cap
  obtain ⟨hsp, -⟩ := spaced_counted ⟨t₀, 0⟩ rt cs (pairwise_globalNow hs)
  refine ⟨hcap, fun t => ?_⟩
  rw [← map_counted ⟨t₀, 0⟩ rt cs]
  generalize counted ⟨t₀, 0⟩ rt cs = os at hcap hsp
  -- the calls of the second, by whether their window was open at `t`
  let During (o : Counted) : Prop := o.ok = true ∧ (t : Nat) ≤ o.call.globalNow ∧ (o.call.globalNow : Nat) < t + 1000000000
  have hold : ((os.filter fun o => During o ∧ (o.start : Nat) ≤ t).length : Int) ≤ globalLimit := by
    refine length_le_of_one_window hlimit hcap _ (fun o hp => hp.1.1) fun o ho o' ho' hp hp' => ?_
    refine (hsp.apart_of_mem ho ho').eq ?_ ?_
    · exact lt_of_le_of_lt (le_trans hp.2 hp'.1.2.1) (hsp.within o' ho').2
    · exact lt_of_le_of_lt (le_trans hp'.2 hp.1.2.1) (hsp.within o ho).2
  have hopened : ((os.filter fun o => During o ∧ (t : Nat) < o.start).length : Int) ≤ globalLimit := by
    refine length_le_of_one_window hlimit hcap _ (fun o hp => hp.1.1) fun o ho o' ho' hp hp' => ?_
    refine (hsp.apart_of_mem ho ho').eq ?_ ?_
    · exact lt_of_le_of_lt (hsp.within o ho).1
        (lt_of_lt_of_le hp.1.2.2 (Nat.add_le_add_right (le_of_lt hp'.2) _))
    · exact lt_of_le_of_lt (hsp.within o' ho').1
        (lt_of_lt_of_le hp'.1.2.2 (Nat.add_le_add_right (le_of_lt hp.2) _))
  have hsplit : (allowedDuring t (os.map fun o => (o.call, o.ok))).length =
      (os.filter fun o => During o ∧ (o.start : Nat) ≤ t).length +
        (os.filter fun o => During o ∧ (t : Nat) < o.start).length := by
    rw [allowedDuring, List.filter_map, List.length_map]
    have hlen := (os.filter fun o => During o).length_eq_length_filter_add fun o => decide ((o.start : Nat) ≤ t)
    rw [List.filter_filter, List.filter_filter] at hlen
    simpa [During, Function.comp_def, Bool.and_comm, ← decide_not] using hlen
  omega

theorem window_cap_example :
    let rt := new 10 5 2 0
    let cs : List Call := [⟨1, 5, 5⟩, ⟨1, 6, 6⟩, ⟨2, 7, 7⟩]
    (∀ start, ((allowedIn start (counted ⟨0, 0⟩ rt cs)).length : Int) ≤ 2) ∧
      ∀ t, ((allowedDuring t (rt.outcomes cs)).length : Int) ≤ 2 * 2 :=
  window_cap 10 5 2 0 _ (by decide) (by decide)

/-- One request a second: one is allowed at the end of the first window, and
one half a second later in the next. -/
theorem second_over_cap :
    ¬ ∀ (maxTokens refillRate : ℚ) (globalLimit : Int) (t₀ : Time) (cs : List Call), 0 ≤ globalLimit →
      (t₀ :: clock cs).Pairwise (· ≤ ·) → ∀ t,
        ((allowedDuring t ((new maxTokens refillRate globalLimit t₀).outcomes cs)).length : Int) ≤ globalLimit := by
  intro hall
  have h := hall 10 5 1 0 [⟨1, 500000000, 500000000⟩, ⟨1, 1000000000, 1000000000⟩] (by decide) (by decide) 500000000
  revert h
  decide +kernel

end RateLimiter
end KvDatabase
