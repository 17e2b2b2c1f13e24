/-
Runs without end, and what comes about in them. Threads are scheduled fairly
when none of them can take a step for ever and takes none (`Fair`).

That something comes about is shown by a thread that helps: in each state
before it does, one can take a step, brings it nearer when it takes one, and is
not held up by the others' steps (`LeadsTo.of_helpful`). Who helps may change,
when there is less to do afterwards.
-/
import KvDatabase.Lib.Runs
import Mathlib.Order.OrderIsoNat
import Mathlib.Order.WellFounded

namespace Runs

variable {σ ℓ : Type*} {step : σ → ℓ → Option σ} {C : σ → ℓ → Prop} {states : ℕ → σ} {labels : ℕ → ℓ}

/-- The states of a run that does not end, and the labels taken in them. -/
structure Forever (step : σ → ℓ → Option σ) (C : σ → ℓ → Prop) (states : ℕ → σ) (labels : ℕ → ℓ) : Prop where
  next : ∀ n, step (states n) (labels n) = some (states (n + 1))
  meets : ∀ n, C (states n) (labels n)

theorem Forever.reach (h : Forever step C states labels) {s₀ : σ} (h₀ : Reach step C s₀ (states 0)) (n : ℕ) :
    Reach step C s₀ (states n) := by
  induction n with
  | zero => exact h₀
  | succ n ih => exact ih.next (h.meets n) (h.next n)

/-- One of these labels can be taken. -/
def Enabled (step : σ → ℓ → Option σ) (C : σ → ℓ → Prop) (mine : ℓ → Prop) (s : σ) : Prop :=
  ∃ l, mine l ∧ C s l ∧ (step s l).isSome

/-- If from some moment on one of these labels can always be taken, one is. -/
def Fair (step : σ → ℓ → Option σ) (C : σ → ℓ → Prop) (states : ℕ → σ) (labels : ℕ → ℓ) (mine : ℓ → Prop) : Prop :=
  ∀ n, (∀ m, n ≤ m → Enabled step C mine (states m)) → ∃ m, n ≤ m ∧ mine (labels m)

/-- Whenever the one holds, the other does at that moment or at a later one. -/
def LeadsTo (P Q : ℕ → Prop) : Prop := ∀ n, P n → ∃ m, n ≤ m ∧ Q m

theorem LeadsTo.trans {P Q R : ℕ → Prop} (h : LeadsTo P Q) (h' : LeadsTo Q R) : LeadsTo P R := by
  intro n hn
  obtain ⟨m, hnm, hm⟩ := h n hn
  obtain ⟨k, hmk, hk⟩ := h' m hm
  exact ⟨k, Nat.le_trans hnm hmk, hk⟩

/-- By cases of what comes about. -/
theorem LeadsTo.elim {P Q R S : ℕ → Prop} (h : LeadsTo P fun n => Q n ∨ R n) (hQ : LeadsTo Q S)
    (hR : ∀ n, R n → S n) : LeadsTo P S := by
  intro n hn
  obtain ⟨m, hnm, hm | hm⟩ := h n hn
  · obtain ⟨k, hmk, hk⟩ := hQ m hm
    exact ⟨k, Nat.le_trans hnm hmk, hk⟩
  · exact ⟨m, hnm, hR m hm⟩

/-- **What fair threads bring about.** Thread `t` helps, with `r` to go, in an
order in which one cannot go down for ever: it can take a step, and each step,
whoever takes it, brings the goal about, or leaves somebody helping with less
to go, or is another thread's and leaves this one helping. -/
theorem LeadsTo.of_helpful {T α : Type*} [LT α] [WellFoundedLT α] {mine : T → ℓ → Prop}
    (hfair : ∀ t, Fair step C states labels (mine t)) {Q : ℕ → Prop} (Helps : T → α → ℕ → Prop)
    (enabled : ∀ t r n, Helps t r n → Enabled step C (mine t) (states n))
    (next : ∀ t r n, Helps t r n → Q n ∨ Q (n + 1) ∨ (∃ t' r', r' < r ∧ Helps t' r' (n + 1)) ∨
      Helps t r (n + 1) ∧ ¬ mine t (labels n)) :
    LeadsTo (fun n => ∃ t r, Helps t r n) Q := by
  intro n hn
  obtain ⟨t, r, hn⟩ := hn
  induction r using WellFoundedLT.induction generalizing t n with
  | ind r ih =>
    by_contra hno
    have stuck : ∀ d, Helps t r (n + d) ∧ ∀ k < d, ¬ mine t (labels (n + k)) := by
      intro d
      induction d with
      | zero => exact ⟨hn, fun k hk => absurd hk (Nat.not_lt_zero k)⟩
      | succ d ihd =>
        obtain ⟨hhelps, hothers⟩ := ihd
        rcases next t r (n + d) hhelps with hq | hq | ⟨t', r', hlt, hhelps'⟩ | ⟨hhelps', hother⟩
        · exact absurd ⟨n + d, Nat.le_add_right n d, hq⟩ hno
        · exact absurd ⟨n + d + 1, by omega, hq⟩ hno
        · obtain ⟨m, hm, hq⟩ := ih r' hlt (n + d + 1) t' hhelps'
          exact absurd ⟨m, by omega, hq⟩ hno
        · refine ⟨hhelps', fun k hk => ?_⟩
          rcases Nat.lt_succ_iff_lt_or_eq.mp hk with hk | rfl
          · exact hothers k hk
          · exact hother
    obtain ⟨m, hm, hmine⟩ := hfair t n fun m hm => by
      obtain ⟨d, rfl⟩ := Nat.exists_eq_add_of_le hm
      exact enabled t r (n + d) (stuck d).1
    obtain ⟨d, rfl⟩ := Nat.exists_eq_add_of_le hm
    exact (stuck (d + 1)).2 d (Nat.lt_succ_self d) hmine

/-! ## Runs that may come to an end -/

/-- The system may also stay as it is for a moment, and so for ever. -/
def withIdle (step : σ → ℓ → Option σ) (s : σ) : Option ℓ → Option σ
  | some l => step s l
  | none => some s

/-- A condition on the steps that are taken. -/
def WithIdle (C : σ → ℓ → Prop) (s : σ) : Option ℓ → Prop
  | some l => C s l
  | none => True

theorem Reach.of_idle {s₀ s : σ} (h : Reach (withIdle step) (WithIdle C) s₀ s) : Reach step C s₀ s :=
  h.map id fun s l s' hc hs => by
    cases l with
    | none => cases hs; exact .inl rfl
    | some l => exact .inr ⟨l, hc, hs⟩

theorem Reach.with_idle {s₀ s : σ} (h : Reach step C s₀ s) : Reach (withIdle step) (WithIdle C) s₀ s :=
  h.map id fun _ l _ hc hs => .inr ⟨some l, hc, hs⟩

/-- What fair threads bring about in a run that may be idle, told of its
states. -/
theorem LeadsTo.of_helpful_idle {T α : Type*} [LT α] [WellFoundedLT α] {labels : ℕ → Option ℓ} {mine : T → ℓ → Prop}
    (hrun : Forever (withIdle step) (WithIdle C) states labels)
    (hfair : ∀ t, Fair (withIdle step) (WithIdle C) states labels fun l => ∃ k, l = some k ∧ mine t k) {Q : σ → Prop}
    (Helps : T → α → σ → Prop) (enabled : ∀ n t r, Helps t r (states n) → Enabled step C (mine t) (states n))
    (next : ∀ n t r l, Helps t r (states n) → step (states n) l = some (states (n + 1)) →
      Q (states (n + 1)) ∨ (∃ t' r', r' < r ∧ Helps t' r' (states (n + 1))) ∨
        Helps t r (states (n + 1)) ∧ ¬ mine t l) :
    LeadsTo (fun n => ∃ t r, Helps t r (states n)) fun n => Q (states n) := by
  refine LeadsTo.of_helpful hfair (fun t r n => Helps t r (states n)) (fun t r n hn => ?_) fun t r n hn => ?_
  · obtain ⟨l, hl, hc, hs⟩ := enabled n t r hn
    exact ⟨some l, ⟨l, rfl, hl⟩, hc, hs⟩
  · have hnext := hrun.next n
    cases hl : labels n with
    | none =>
      rw [hl] at hnext
      have hsame : states n = states (n + 1) := Option.some.inj hnext
      exact .inr (.inr (.inr ⟨hsame ▸ hn, by simp⟩))
    | some l =>
      rw [hl] at hnext
      rcases next n t r l hn hnext with hq | hless | ⟨hsame, hother⟩
      · exact .inr (.inl hq)
      · exact .inr (.inr (.inl hless))
      · exact .inr (.inr (.inr ⟨hsame, by simpa using hother⟩))

/-- What never grows comes to rest. -/
theorem comes_to_rest {f : ℕ → ℕ} {n : ℕ} (h : ∀ m, n ≤ m → f (m + 1) ≤ f m) :
    ∃ k, n ≤ k ∧ ∀ m, k ≤ m → f (m + 1) = f m := by
  have hanti : Antitone fun d => f (n + d) := antitone_nat_of_succ_le fun d => h (n + d) (Nat.le_add_right n d)
  obtain ⟨d, hd⟩ := WellFoundedLT.antitone_chain_condition hanti
  refine ⟨n + d, Nat.le_add_right n d, fun m hm => ?_⟩
  obtain ⟨e, rfl⟩ := Nat.exists_eq_add_of_le hm
  rw [Nat.add_assoc n d e, Nat.add_assoc n (d + e) 1]
  exact (hd (d + e + 1) (by omega)).symm.trans (hd (d + e) (Nat.le_add_right d e))

/-! ## Runs that go round -/

/-- A run after which another goes on. -/
theorem Forever.prepend {s₀ : σ} {ls : List ℓ} (h : Forever step C states labels)
    (hs : exec step s₀ ls = some (states 0)) (hc : ∀ l ∈ ls, ∀ s, C s l) :
    ∃ states' labels', Forever step C states' labels' ∧ states' 0 = s₀ ∧
      (∀ n, states' (ls.length + n) = states n) ∧ ∀ n, labels' (ls.length + n) = labels n := by
  induction ls generalizing s₀ with
  | nil => exact ⟨states, labels, h, (Option.some.inj hs).symm, by simp, by simp⟩
  | cons l ls ih =>
    obtain ⟨s₁, hl, hls⟩ := exec_cons_some.mp hs
    obtain ⟨states', labels', h', h₀, hstates, hlabels⟩ := ih hls fun l' hl' => hc l' (List.mem_cons_of_mem l hl')
    refine ⟨fun n => n.casesOn s₀ states', fun n => n.casesOn l labels', ⟨fun n => ?_, fun n => ?_⟩, rfl, ?_, ?_⟩
    · cases n with
      | zero => exact hl.trans (congrArg some h₀.symm)
      | succ n => exact h'.next n
    · cases n with
      | zero => exact hc l List.mem_cons_self s₀
      | succ n => exact h'.meets n
    · intro n
      rw [List.length_cons, Nat.succ_add]
      exact hstates n
    · intro n
      rw [List.length_cons, Nat.succ_add]
      exact hlabels n

/-- It is as fair as what goes on. -/
theorem Fair.prepend {states' : ℕ → σ} {labels' : ℕ → ℓ} {mine : ℓ → Prop} {k : ℕ}
    (h : Fair step C states labels mine) (hstates : ∀ n, states' (k + n) = states n)
    (hlabels : ∀ n, labels' (k + n) = labels n) : Fair step C states' labels' mine := by
  intro n hen
  obtain ⟨m, hm, hmine⟩ := h n fun m hm => hstates m ▸ hen (k + m) (by omega)
  exact ⟨k + m, by omega, (hlabels m).symm ▸ hmine⟩

/-- A run in rounds of one length, from one base to the next. -/
theorem Forever.of_cycles (base : ℕ → σ) (cycle : ℕ → List ℓ) {len : ℕ} (hne : 0 < len)
    (hlen : ∀ k, (cycle k).length = len) (h : ∀ k, exec step (base k) (cycle k) = some (base (k + 1)))
    (hc : ∀ k j s l, exec step (base k) ((cycle k).take j) = some s → (cycle k)[j]? = some l → C s l) :
    ∃ states labels, Forever step C states labels ∧
      (∀ k j, j < len → exec step (base k) ((cycle k).take j) = some (states (len * k + j))) ∧
      ∀ k j, j < len → (cycle k)[j]? = some (labels (len * k + j)) := by
  let states (n : ℕ) : σ := (exec step (base (n / len)) ((cycle (n / len)).take (n % len))).getD (base 0)
  let labels (n : ℕ) : ℓ := (cycle (n / len)).get ⟨n % len, (hlen _).symm ▸ Nat.mod_lt n hne⟩
  have hdiv : ∀ k j, j < len → (len * k + j) / len = k ∧ (len * k + j) % len = j := fun k j hj =>
    ⟨by rw [Nat.mul_add_div hne, Nat.div_eq_of_lt hj, Nat.add_zero], by rw [Nat.mul_add_mod, Nat.mod_eq_of_lt hj]⟩
  have hstates : ∀ k j, j < len → exec step (base k) ((cycle k).take j) = some (states (len * k + j)) := by
    intro k j hj
    obtain ⟨s, hs, -⟩ := exec_append.mp ((List.take_append_drop j (cycle k)).symm ▸ h k)
    simp only [states, (hdiv k j hj).1, (hdiv k j hj).2, hs, Option.getD_some]
  have hlabels : ∀ k j, j < len → (cycle k)[j]? = some (labels (len * k + j)) := by
    intro k j hj
    simp only [labels, (hdiv k j hj).1, (hdiv k j hj).2, List.get_eq_getElem]
    exact List.getElem?_eq_getElem ((hlen k).symm ▸ hj)
  have hturn : ∀ n, ∃ k j, j < len ∧ n = len * k + j := fun n =>
    ⟨n / len, n % len, Nat.mod_lt n hne, (Nat.div_add_mod n len).symm⟩
  refine ⟨states, labels, ⟨fun n => ?_, fun n => ?_⟩, hstates, hlabels⟩
  all_goals obtain ⟨k, j, hj, rfl⟩ := hturn n
  case refine_2 => exact hc k j _ _ (hstates k j hj) (hlabels k j hj)
  have htake : exec step (base k) ((cycle k).take (j + 1)) =
      step (states (len * k + j)) (labels (len * k + j)) := by
    rw [List.take_add_one, hlabels k j hj, exec_of_append (hstates k j hj)]
    simp
  rw [← htake]
  by_cases hlast : j + 1 < len
  · exact hstates k (j + 1) hlast
  · obtain hfull : j + 1 = len := by omega
    rw [List.take_of_length_le (by rw [hlen k, hfull]), h k, Nat.add_assoc, hfull, ← Nat.mul_succ]
    exact hstates (k + 1) 0 hne

/-- A run through the same labels again and again. -/
theorem Forever.of_cycle (base : ℕ → σ) {cycle : List ℓ} (hne : 0 < cycle.length)
    (h : ∀ k, exec step (base k) cycle = some (base (k + 1)))
    (hc : ∀ k j s, (hj : j < cycle.length) → exec step (base k) (cycle.take j) = some s → C s cycle[j]) :
    ∃ states labels, Forever step C states labels ∧
      (∀ k j, j < cycle.length → exec step (base k) (cycle.take j) = some (states (cycle.length * k + j))) ∧
      ∀ k j, (hj : j < cycle.length) → labels (cycle.length * k + j) = cycle[j] := by
  obtain ⟨states, labels, hrun, hstates, hlabels⟩ :=
    Forever.of_cycles (C := C) base (fun _ => cycle) hne (fun _ => rfl) h fun k j s l hs hl => by
      obtain ⟨hj, rfl⟩ := List.getElem?_eq_some_iff.mp hl
      exact hc k j s hj hs
  refine ⟨states, labels, hrun, hstates, fun k j hj => Option.some.inj ((hlabels k j hj).symm.trans ?_)⟩
  exact List.getElem?_eq_getElem hj

end Runs
