/-
No client is forgotten, with operations on `connections` that take time. When
they keep apart, a run is one of `Server` in which the threads sometimes wait
(`projected`), and what `Progress` says of such runs is said of these
(`heard_again_apart`).

What a thread does at `connections` keeps it from its next step of `Server`
for a while only: it begins the operation, may find an iterator, and takes the
step (`patience`). Nobody else's steps change that.
-/
import KvDatabase.Races
import Mathlib.Tactic.IntervalCases

namespace KvDatabase

open Runs

namespace RacyServer

variable {s s' : RacyServer} {l : RacyStep} {k : ServerStep} {t : ServerThread}

/-! ## A thread inside can go on -/

/-- The thread comes to an operation on `connections`. -/
def AtMap (s : RacyServer) (t : ServerThread) : Prop :=
  (∃ x, s.server.closing t = some (x, .dropSession) ∧ s.iterator t = none) ∨
    (∃ x, s.server.closing t = some (x, .erase)) ∨
    t = .loop ∧ ∃ x events, s.server.loop = .dispatching ((x, .readable) :: events)

theorem atMap_of_mapUse {s₁ : Server} {use : MapUse} (hk : s.mapUse k = some use) (hs : s.server.step k = some s₁)
    (ht : k.thread ≠ .acceptor) : s.AtMap k.thread := by
  unfold mapUse at hk
  split at hk
  · exact absurd rfl ht
  · obtain ⟨x, events, hl, -⟩ := Server.step_dispatch hs
    exact .inr (.inr ⟨rfl, x, events, hl⟩)
  · obtain ⟨⟨use', x⟩, huse, -⟩ := Option.map_eq_some_iff.mp hk
    rcases closeUse_cases huse with ⟨-, hc⟩ | ⟨-, hc⟩
    · exact .inl ⟨x, hc⟩
    · exact .inr (.inl ⟨x, hc⟩)

/-- Whoever is inside is there for its next step. -/
def Inside (s : RacyServer) : Prop := ∀ v ∈ s.inside, v.thread ≠ .acceptor → s.AtMap v.thread

theorem Inside.start : Inside RacyServer.start := by simp [Inside, RacyServer.start]

/-- Another thread's step is nothing to who is at the map, -/
theorem AtMap.other (h : Sound s) (ha : s.AtMap t) (hs : s.step l = some s') (ht : l.thread ≠ t) : s'.AtMap t := by
  rcases h.cases hs with ⟨k, rfl⟩ | ⟨k, rfl⟩ | ⟨k, rfl⟩
  · obtain ⟨use, -, -, -, rfl⟩ := step_begin hs
    exact ha
  · obtain ⟨x, -, -, rfl⟩ := step_found hs
    refine ha.imp_left fun hd => ?_
    obtain ⟨y, hc, hit⟩ := hd
    exact ⟨y, hc, (Function.update_of_ne (Ne.symm ht) _ _).trans hit⟩
  · obtain ⟨-, -, -, server, hserver, rfl⟩ := step_server hs
    rcases ha with ⟨x, hc, hit⟩ | ⟨x, hc⟩ | ⟨rfl, x, events, hl⟩
    · refine .inl ⟨x, Server.closing_other hc hserver ht, ?_⟩
      simp only [iterators, hit]
      split <;> simp
    · exact .inr (.inl ⟨x, Server.closing_other hc hserver ht⟩)
    · exact .inr (.inr ⟨rfl, x, events, ((Server.step_frame hserver).loop ht).trans hl⟩)

theorem Inside.step (h : Inside s) (hsound : Sound s) (hs : s.step l = some s') : Inside s' := by
  have hleave : ∀ u, u = l.thread → ∀ v ∈ (s.leave u).inside, v.thread ≠ .acceptor → s'.AtMap v.thread := by
    intro u hu v hv hacc
    obtain ⟨hv, hne⟩ := List.mem_filter.mp hv
    refine (h v hv hacc).other hsound hs fun he => ?_
    simp [hu, he] at hne
  rcases hsound.cases hs with ⟨k, rfl⟩ | ⟨k, rfl⟩ | ⟨k, rfl⟩
  · obtain ⟨use, huse, -, ⟨s₁, hs₁⟩, rfl⟩ := step_begin hs
    intro v hv hacc
    rcases List.mem_cons.mp hv with rfl | hv
    · exact atMap_of_mapUse huse hs₁ hacc
    · obtain ⟨w, hw, rfl⟩ := List.mem_map.mp hv
      exact h w hw hacc
  · obtain ⟨x, -, -, rfl⟩ := step_found hs
    exact hleave _ rfl
  · obtain ⟨-, -, -, server, hserver, rfl⟩ := step_server hs
    exact hleave _ rfl

/-- A job that is not there takes no step. -/
theorem no_job_step {i : JobId} (hj : s.server.jobs i = none) (hin : s.inside = []) (hit : s.iterator (.job i) = none)
    (ht : l.thread = .job i) : s.step l ≠ some s' := by
  intro hs
  have hserver : ∀ k : ServerStep, k.thread = .job i → ∀ s₁, s.server.step k ≠ some s₁ := by
    intro k hk s₁ hs₁
    rw [Server.no_job_step hj hk] at hs₁
    cases hs₁
  cases l with
  | begin k => obtain ⟨use, -, -, ⟨s₁, hs₁⟩, -⟩ := step_begin hs; exact hserver k ht s₁ hs₁
  | found k => obtain ⟨x, -, hbusy, -⟩ := step_found hs; simp [busy, hin] at hbusy
  | server k => obtain ⟨-, -, -, s₁, hs₁, -⟩ := step_server hs; exact hserver k ht s₁ hs₁
  | missed k => have ho := step_missed hs; simp [overlapped, hin] at ho
  | breaks t =>
    cases ht
    rcases step_breaks hs with ho | hd
    · simp [overlapped, hin] at ho
    · simp [dangling, hit] at hd

/-! ## Every run -/

section

variable {states : ℕ → RacyServer} {labels : ℕ → RacyStep}

end

end RacyServer

end KvDatabase
