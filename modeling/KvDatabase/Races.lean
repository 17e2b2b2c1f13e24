/-
`Server::connections` has no mutex. The accept thread inserts into it, the
event loop and the jobs find in it and erase from it, and here an operation on
it takes time: it begins, and it ends with the step of `Server` that it is.

While another thread inserts or erases, a `find` may miss an element that was
there all the time, or worse. And `closeConnection` keeps an iterator from its
`find` to its `erase`, which is dangling once another thread has erased the
element. If operations keep apart and no two threads close one number, there
is none of that, and the steps are those of `Server` (`reach_server`).

So where nothing else goes wrong the turns are kept when operations keep apart
(`dispatch_turn_apart`), and not always otherwise (`dispatch_turn_lost`). And
no descriptor is lost (`descriptors_kept_apart`).
-/
import KvDatabase.Descriptors

namespace KvDatabase

open Runs

/-- An operation on `connections`. -/
inductive MapUse
  | find
  | insert
  | erase
deriving DecidableEq, Repr

def MapUse.writes : MapUse → Bool
  | .find => false
  | .insert | .erase => true

/-- A thread in an operation on `connections`. -/
structure Visit where
  thread : ServerThread
  writes : Bool
  /-- Another thread was in one at the same time, and one of the two writes. -/
  overlapped : Bool

/-- What `find` has returned to `closeConnection`. -/
structure Iterator where
  num : SocketType
  /-- Its element was erased since, by another thread. -/
  dangling : Bool

@[ext]
structure RacyServer where
  server : Server
  inside : List Visit
  iterator : ServerThread → Option Iterator
  /-- Undefined behaviour has ended the process. -/
  broken : Bool

inductive RacyStep
  /-- The thread begins the operation on `connections` that ends with the step. -/
  | begin (l : ServerStep)
  /-- The `find` of `closeConnection` returns an element. -/
  | found (l : ServerStep)
  | server (l : ServerStep)
  /-- A `find` that was overlapped does not find anything. -/
  | missed (l : ServerStep)
  /-- An operation that was overlapped, or a dangling iterator, ends the
  process. -/
  | breaks (t : ServerThread)

/-- Whose step it is. -/
def RacyStep.thread : RacyStep → ServerThread
  | .begin l | .found l | .server l | .missed l => l.thread
  | .breaks t => t

/-- The number the thread is closing, and the stage it is at. -/
def Server.closing (s : Server) : ServerThread → Option (SocketType × CloseStage)
  | .loop => s.loop.closing
  | .job i =>
    match s.jobs i with
    | some ⟨conn, .closing stage⟩ => some (conn.socket.num, stage)
    | _ => none
  | _ => none

namespace RacyServer

def start : RacyServer := ⟨.start, [], fun _ => none, false⟩

/-- What `closeConnection` is about to do with `connections`, and its number.
The session is removed between the two. -/
def closeUse (s : RacyServer) (l : ServerStep) : Option (MapUse × SocketType) :=
  match l with
  | .loopClose | .jobClose _ =>
    match s.server.closing l.thread with
    | some (x, .dropSession) => if (s.iterator l.thread).isNone then some (.find, x) else none
    | some (x, .erase) => some (.erase, x)
    | _ => none
  | _ => none

/-- The operation on `connections` that the step ends. -/
def mapUse (s : RacyServer) (l : ServerStep) : Option MapUse :=
  match l with
  | .register => some .insert
  | .dispatch _ => some .find
  | l => (s.closeUse l).map Prod.fst

/-- The number that `closeConnection` looks up, if it is there. -/
def hit (s : RacyServer) (l : ServerStep) : Option SocketType :=
  match s.closeUse l with
  | some (.find, x) => if (s.server.connections x).isSome then some x else none
  | _ => none

def busy (s : RacyServer) (t : ServerThread) : Bool := s.inside.any fun v => v.thread == t

def overlapped (s : RacyServer) (t : ServerThread) : Bool := s.inside.any fun v => v.thread == t && v.overlapped

def dangling (s : RacyServer) (t : ServerThread) : Bool := (s.iterator t).any Iterator.dangling

/-- The thread begins an operation. -/
def enter (s : RacyServer) (t : ServerThread) (use : MapUse) : RacyServer :=
  { s with
    inside := ⟨t, use.writes, s.inside.any fun v => v.writes || use.writes⟩ ::
      s.inside.map fun v => { v with overlapped := v.overlapped || v.writes || use.writes } }

/-- Its operation is over. -/
def leave (s : RacyServer) (t : ServerThread) : RacyServer :=
  { s with inside := s.inside.filter fun v => !(v.thread == t) }

/-- The iterators after the step. An element that is erased leaves those of
other threads dangling; one that is inserted leaves all others where they are. -/
def iterators (s : RacyServer) (l : ServerStep) (t : ServerThread) : Option Iterator :=
  match s.closeUse l with
  | some (.erase, x) =>
    if t = l.thread then none
    else (s.iterator t).map fun it => if it.num = x then { it with dangling := true } else it
  | _ => s.iterator t

def step (s : RacyServer) (l : RacyStep) : Option RacyServer :=
  if s.broken then none
  else match l with
  | .begin l =>
    match s.mapUse l with
    | some use => if !s.busy l.thread && (s.server.step l).isSome then some (s.enter l.thread use) else none
    | none => none
  | .found l =>
    match s.hit l with
    | some x =>
      if s.busy l.thread then
        some { s.leave l.thread with iterator := Function.update s.iterator l.thread (some ⟨x, false⟩) }
      else none
    | none => none
  | .server l =>
    if s.busy l.thread = (s.mapUse l).isSome ∧ s.hit l = none ∧ s.dangling l.thread = false then
      (s.server.step l).map fun server =>
        { server, inside := (s.leave l.thread).inside, iterator := s.iterators l, broken := s.broken }
    else none
  | .missed l =>
    if s.mapUse l = some .find ∧ s.overlapped l.thread = true then
      (Server.step { s.server with connections := fun _ => none } l).map fun server =>
        { s.leave l.thread with server := { server with connections := s.server.connections } }
    else none
  | .breaks t => if s.overlapped t || s.dangling t then some { s with broken := true } else none

/-! ## Conditions on a run -/

/-- No operation on `connections` overlaps another thread's insert or erase. -/
def Apart (s : RacyServer) : RacyStep → Prop
  | .begin l => ∀ use ∈ s.mapUse l, ∀ v ∈ s.inside, v.writes = false ∧ use.writes = false
  | _ => True

/-- No session expires, and no `epoll_ctl` fails. -/
def Undisturbed (s : RacyServer) : RacyStep → Prop
  | .server l => s.server.Undisturbed l
  | _ => True

/-- No two threads close one number. -/
def OneCloser (s : RacyServer) : Prop :=
  ∀ t u x stage stage', s.server.closing t = some (x, stage) → s.server.closing u = some (x, stage') → t = u

instance (s : RacyServer) : DecidablePred s.Apart
  | .begin l => inferInstanceAs (Decidable (∀ use ∈ s.mapUse l, ∀ v ∈ s.inside, v.writes = false ∧ use.writes = false))
  | .found _ | .server _ | .missed _ | .breaks _ => isTrue trivial

instance (s : RacyServer) : DecidablePred s.Undisturbed
  | .server l => inferInstanceAs (Decidable (s.server.Undisturbed l))
  | .begin _ | .found _ | .missed _ | .breaks _ => isTrue trivial

/-! ## What each step does -/

variable {s s' : RacyServer} {l : ServerStep}

theorem step_begin (hs : s.step (.begin l) = some s') :
    ∃ use, s.mapUse l = some use ∧ s.busy l.thread = false ∧ (∃ s₁, s.server.step l = some s₁) ∧
      s' = s.enter l.thread use := by
  simp only [step, Option.ite_none_left_eq_some] at hs
  obtain ⟨-, hs⟩ := hs
  split at hs
  · next use huse =>
    simp only [Option.ite_none_right_eq_some, Bool.and_eq_true, Bool.not_eq_true', Option.some.injEq] at hs
    exact ⟨use, huse, hs.1.1, Option.isSome_iff_exists.mp hs.1.2, hs.2.symm⟩
  · cases hs

theorem step_found (hs : s.step (.found l) = some s') :
    ∃ x, s.hit l = some x ∧ s.busy l.thread = true ∧
      s' = { s.leave l.thread with iterator := Function.update s.iterator l.thread (some ⟨x, false⟩) } := by
  simp only [step, Option.ite_none_left_eq_some] at hs
  obtain ⟨-, hs⟩ := hs
  split at hs
  · next x hx =>
    simp only [Option.ite_none_right_eq_some, Option.some.injEq] at hs
    exact ⟨x, hx, hs.1, hs.2.symm⟩
  · cases hs

theorem step_server (hs : s.step (.server l) = some s') :
    s.busy l.thread = (s.mapUse l).isSome ∧ s.hit l = none ∧ s.dangling l.thread = false ∧
      ∃ server, s.server.step l = some server ∧
        s' = ⟨server, (s.leave l.thread).inside, s.iterators l, s.broken⟩ := by
  simp only [step, Option.ite_none_left_eq_some, Option.ite_none_right_eq_some, Option.map_eq_some_iff] at hs
  obtain ⟨-, ⟨hb, hh, hd⟩, server, hserver, rfl⟩ := hs
  exact ⟨hb, hh, hd, server, hserver, rfl⟩

theorem step_missed (hs : s.step (.missed l) = some s') : s.overlapped l.thread = true := by
  simp only [step, Option.ite_none_left_eq_some, Option.ite_none_right_eq_some] at hs
  exact hs.2.1.2

theorem step_breaks {t : ServerThread} (hs : s.step (.breaks t) = some s') :
    s.overlapped t = true ∨ s.dangling t = true := by
  simp only [step, Option.ite_none_left_eq_some, Option.ite_none_right_eq_some, Bool.or_eq_true] at hs
  exact hs.2.1

end RacyServer

/-! ## Who is closing what -/

namespace Server

variable {s s' : Server} {l : ServerStep} {x : SocketType} {stage : CloseStage} {t : ServerThread}

theorem closing_iff : s.closing t = some (x, stage) ↔ ∃ u, t = .ofJob u ∧ s.Releases x stage u := by
  cases t with
  | loop =>
    constructor
    · exact fun h => ⟨none, rfl, h⟩
    · intro h
      obtain ⟨u, hu, hr⟩ := h
      cases u with
      | none => exact hr
      | some => cases hu
  | job i =>
    constructor
    · intro h
      refine ⟨some i, rfl, ?_⟩
      rw [closing] at h
      split at h
      · next conn stage' hj => cases h; exact ⟨conn, hj, rfl⟩
      · cases h
    · intro h
      obtain ⟨u, hu, hr⟩ := h
      cases u with
      | none => cases hu
      | some =>
        cases hu
        obtain ⟨conn, hj, rfl⟩ := hr
        rw [closing, hj]
  | clock | acceptor | sweeper =>
    refine iff_of_false (by simp [closing]) fun h => ?_
    obtain ⟨u, hu, -⟩ := h
    cases u <;> cases hu

/-- A thread goes on closing by stages of `closeConnection`, -/
theorem closing_label (hc : s.closing l.thread = some (x, stage)) (hs : s.step l = some s') :
    l = .loopClose ∨ ∃ i, l = .jobClose i := by
  obtain ⟨u, hu, hr⟩ := closing_iff.mp hc
  rcases hr.label hs hu with ⟨rfl, -⟩ | ⟨i, rfl, -⟩
  · exact .inl rfl
  · exact .inr ⟨i, rfl⟩

/-- and other threads' steps leave it where it is. -/
theorem closing_other (hc : s.closing t = some (x, stage)) (hs : s.step l = some s') (ht : l.thread ≠ t) :
    s'.closing t = some (x, stage) := by
  obtain ⟨u, rfl, hr⟩ := closing_iff.mp hc
  refine closing_iff.mpr ⟨u, rfl, ?_⟩
  cases u with
  | none => rw [Releases, (step_frame hs).loop ht]; exact hr
  | some i =>
    obtain ⟨conn, hj, hx⟩ := hr
    exact ⟨conn, job_kept hs ht hj, hx⟩

/-- Who removes the session of a connection that is there goes on to erase it. -/
theorem closing_found (hc : s.closing l.thread = some (x, .dropSession)) (hx : s.connections x ≠ none)
    (hs : s.step l = some s') : s'.closing l.thread = some (x, .erase) ∧ s'.connections = s.connections := by
  obtain ⟨conn, hconn⟩ := Option.ne_none_iff_exists'.mp hx
  obtain ⟨u, hu, hr⟩ := closing_iff.mp hc
  rcases hr.label hs hu with ⟨rfl, rfl⟩ | ⟨i, rfl, rfl⟩
  · rcases step_loopClose hs with ⟨a, stage, close, hl, rfl⟩ | ⟨sock, stage, events, hl, rfl⟩
    all_goals
      rw [Releases, hl] at hr
      cases hr
      simp [closing, ServerStep.thread, closeConnection, logDrain, hconn, LoopPc.closing]
  · obtain ⟨conn', hj, rfl⟩ := hr
    obtain ⟨conn'', stage, hj', rfl⟩ := step_jobClose hs
    cases hj.symm.trans hj'
    simp [closing, ServerStep.thread, closeConnection, logAccess, setJob, hconn]

/-- What is listed stays, unless it is erased by who is closing it. -/
theorem listed_unless (hx : s.connections x ≠ none) (hs : s.step l = some s') :
    s'.connections x ≠ none ∨ s.closing l.thread = some (x, .erase) := by
  have erase : ∀ (s₁ : Server) (sock : SocketType) (stage : CloseStage), s₁.connections = s.connections →
      (s₁.closeConnection sock stage).1.connections x ≠ none ∨ sock = x ∧ stage = .erase := by
    intro s₁ sock stage hc
    cases stage with
    | unwatch | close => exact .inl (hc ▸ hx)
    | dropSession =>
      rw [closeConnection]
      split <;> exact .inl (hc ▸ hx)
    | erase =>
      by_cases hsock : sock = x
      · exact .inr ⟨hsock, rfl⟩
      · exact .inl (ne_of_eq_of_ne (Function.update_of_ne (Ne.symm hsock) _ _) (hc ▸ hx))
  cases l with
  | register =>
    obtain ⟨a, key, ha, rfl⟩ := step_register hs
    by_cases hax : x = a.num
    · simp [hax]
    · exact .inl (by simpa [hax] using hx)
  | loopClose =>
    rcases step_loopClose hs with ⟨a, stage, close, hl, rfl⟩ | ⟨sock, stage, events, hl, rfl⟩
    · refine (erase (s.logDrain a) a.num stage rfl).imp_right fun he => ?_
      obtain ⟨rfl, rfl⟩ := he
      simp [closing, ServerStep.thread, hl, LoopPc.closing]
    · refine (erase s sock stage rfl).imp_right fun he => ?_
      obtain ⟨rfl, rfl⟩ := he
      simp [closing, ServerStep.thread, hl, LoopPc.closing]
  | jobClose i =>
    obtain ⟨own, stage, hj, rfl⟩ := step_jobClose hs
    refine (erase (s.logAccess own) own.socket.num stage rfl).imp_right fun he => ?_
    obtain ⟨rfl, rfl⟩ := he
    simp [closing, ServerStep.thread, hj]
  | _ => exact .inl ((step_frame hs).listed (by simp) (by simp) (by simp) ▸ hx)

end Server

namespace RacyServer

variable {s s' : RacyServer} {l : RacyStep} {t : ServerThread} {x : SocketType}

/-! ## Operations that keep apart -/

/-- No operation was overlapped, and who has an iterator is closing the number
of its element, which is there. -/
structure Sound (s : RacyServer) : Prop where
  running : s.broken = false
  apart : ∀ v ∈ s.inside, v.overlapped = false
  iterator : ∀ t it, s.iterator t = some it → it.dangling = false ∧ s.server.connections it.num ≠ none ∧
    ∃ stage, s.server.closing t = some (it.num, stage) ∧ (stage = .dropSession ∨ stage = .erase)

theorem Sound.start : Sound start := ⟨rfl, by simp [RacyServer.start], by simp [RacyServer.start]⟩

theorem Sound.not_overlapped (h : Sound s) (t : ServerThread) : s.overlapped t = false := by
  simp only [overlapped, List.any_eq_false, Bool.and_eq_true, not_and, Bool.not_eq_true]
  exact fun v hv _ => h.apart v hv

theorem Sound.not_dangling (h : Sound s) (t : ServerThread) : s.dangling t = false := by
  cases hit : s.iterator t with
  | none => simp [dangling, hit]
  | some it => simp [dangling, hit, (h.iterator t it hit).1]

theorem Sound.leave (h : Sound s) (t : ServerThread) : ∀ v ∈ (s.leave t).inside, v.overlapped = false :=
  fun v hv => h.apart v (List.mem_filter.mp hv).1

/-- There is nothing to miss an element, or to break. -/
theorem Sound.cases (h : Sound s) (hs : s.step l = some s') :
    (∃ k, l = .begin k) ∨ (∃ k, l = .found k) ∨ ∃ k, l = .server k := by
  cases l with
  | begin k => exact .inl ⟨k, rfl⟩
  | found k => exact .inr (.inl ⟨k, rfl⟩)
  | server k => exact .inr (.inr ⟨k, rfl⟩)
  | missed k =>
    have ho := step_missed hs
    rw [h.not_overlapped] at ho
    cases ho
  | breaks t =>
    rcases step_breaks hs with ho | hd
    · rw [h.not_overlapped] at ho
      cases ho
    · rw [h.not_dangling] at hd
      cases hd

theorem closeUse_cases {l : ServerStep} {use : MapUse} (h : s.closeUse l = some (use, x)) :
    use = .find ∧ s.server.closing l.thread = some (x, .dropSession) ∧ s.iterator l.thread = none ∨
      use = .erase ∧ s.server.closing l.thread = some (x, .erase) := by
  unfold closeUse at h
  split at h
  all_goals try cases h
  all_goals
    split at h
    · next hc =>
      obtain ⟨hit, he⟩ := Option.ite_none_right_eq_some.mp h
      cases he
      exact .inl ⟨rfl, hc, by simpa using hit⟩
    · next hc => cases h; exact .inr ⟨rfl, hc⟩
    · cases h

theorem closeUse_erase {l : ServerStep} {s₁ : Server} (hc : s.server.closing l.thread = some (x, .erase))
    (hs : s.server.step l = some s₁) : s.closeUse l = some (.erase, x) := by
  rcases Server.closing_label hc hs with rfl | ⟨i, rfl⟩ <;> simp [closeUse, hc]

/-- What `closeConnection` finds is there. -/
theorem of_hit {l : ServerStep} (h : s.hit l = some x) :
    s.server.connections x ≠ none ∧ s.server.closing l.thread = some (x, .dropSession) ∧
      s.iterator l.thread = none := by
  unfold hit at h
  split at h
  · next y huse =>
    obtain ⟨hx, he⟩ := Option.ite_none_right_eq_some.mp h
    cases he
    rcases closeUse_cases huse with ⟨-, hc⟩ | ⟨he, -⟩
    · exact ⟨Option.isSome_iff_ne_none.mp hx, hc⟩
    · cases he
  · cases h

/-- A step in which the thread erases a number that no other thread is
closing leaves the others' iterators as they are; all others leave all. -/
theorem Sound.iterators (h : Sound s) (hone : s.OneCloser) {l : ServerStep} {s₁ : Server}
    (hs : s.server.step l = some s₁) {it : Iterator} (hit : s.iterators l t = some it) :
    s.iterator t = some it ∧ (t = l.thread → s.server.closing t ≠ some (it.num, .erase)) := by
  unfold RacyServer.iterators at hit
  split at hit
  · next x huse =>
    obtain ⟨ht, hit⟩ := Option.ite_none_left_eq_some.mp hit
    obtain ⟨old, hold, rfl⟩ := Option.map_eq_some_iff.mp hit
    refine ⟨?_, fun he => absurd he ht⟩
    rcases closeUse_cases huse with ⟨he, -⟩ | ⟨-, hc⟩
    · cases he
    · obtain ⟨-, -, stage, hstage, -⟩ := h.iterator t old hold
      have hne : old.num ≠ x := fun he => ht (hone t _ x stage _ (he ▸ hstage) hc)
      rw [if_neg hne]
      exact hold
  · next huse =>
    refine ⟨hit, fun he hc => ?_⟩
    subst he
    exact huse _ (closeUse_erase hc hs)

theorem Sound.step (h : Sound s) (hapart : s.Apart l) (hone : s.OneCloser) (hs : s.step l = some s') : Sound s' := by
  rcases h.cases hs with ⟨l, rfl⟩ | ⟨l, rfl⟩ | ⟨l, rfl⟩
  · obtain ⟨use, huse, -, -, rfl⟩ := step_begin hs
    refine ⟨h.running, fun v hv => ?_, h.iterator⟩
    rcases List.mem_cons.mp hv with rfl | hv
    · simp only [List.any_eq_false, Bool.or_eq_true, not_or, Bool.not_eq_true]
      exact hapart use huse
    · obtain ⟨w, hw, rfl⟩ := List.mem_map.mp hv
      obtain ⟨hreads, hreads'⟩ := hapart use huse w hw
      simp [h.apart w hw, hreads, hreads']
  · obtain ⟨x, hx, -, rfl⟩ := step_found hs
    obtain ⟨hlisted, hc, -⟩ := of_hit hx
    refine ⟨h.running, h.leave _, fun t it hit => ?_⟩
    by_cases ht : t = l.thread
    · subst ht
      cases (Function.update_self ..).symm.trans hit
      exact ⟨rfl, hlisted, _, hc, .inl rfl⟩
    · exact h.iterator t it ((Function.update_of_ne ht _ _).symm.trans hit)
  · obtain ⟨-, -, -, server, hserver, rfl⟩ := step_server hs
    refine ⟨h.running, h.leave _, fun t it hit => ?_⟩
    obtain ⟨hold, hown⟩ := h.iterators hone hserver hit
    obtain ⟨hd, hlisted, stage, hc, hstage⟩ := h.iterator t it hold
    refine ⟨hd, ?_⟩
    by_cases ht : t = l.thread
    · subst ht
      obtain rfl : stage = .dropSession := hstage.resolve_right fun he => hown rfl (he ▸ hc)
      obtain ⟨hc', hsame⟩ := Server.closing_found hc hlisted hserver
      exact ⟨hsame ▸ hlisted, .erase, hc', .inr rfl⟩
    · refine ⟨(Server.listed_unless hlisted hserver).resolve_right fun he => ht ?_, stage,
        Server.closing_other hc hserver (Ne.symm ht), hstage⟩
      exact hone t _ _ _ _ hc he

/-- Where operations keep apart, a step is one of `Server`, or none. -/
theorem Sound.server_step (h : Sound s) (hs : s.step l = some s') :
    s'.server = s.server ∧ (∀ k, l ≠ .server k) ∨ ∃ k, l = .server k ∧ s.server.step k = some s'.server := by
  rcases h.cases hs with ⟨l, rfl⟩ | ⟨l, rfl⟩ | ⟨l, rfl⟩
  · obtain ⟨use, -, -, -, rfl⟩ := step_begin hs
    exact .inl ⟨rfl, by simp⟩
  · obtain ⟨x, -, -, rfl⟩ := step_found hs
    exact .inl ⟨rfl, by simp⟩
  · obtain ⟨-, -, -, server, hserver, rfl⟩ := step_server hs
    exact .inr ⟨l, rfl, hserver⟩

/-- A run in which they do, and no two threads close one number, is one of
`Server`. -/
theorem reach_server {C : RacyServer → RacyStep → Prop} {C' : Server → ServerStep → Prop}
    (hr : Reach step C RacyServer.start s)
    (hC : ∀ (s : RacyServer) l, C s l → Reach Server.step C' Server.start s.server →
      s.Apart l ∧ s.OneCloser ∧ ∀ k, l = .server k → C' s.server k) :
    Sound s ∧ Reach Server.step C' Server.start s.server := by
  refine hr.invariant (fun s => Sound s ∧ Reach Server.step C' Server.start s.server) ⟨.start, .start⟩ ?_
  intro s l s' hi hc hs
  obtain ⟨hsound, hreach⟩ := hi
  obtain ⟨hapart, hone, hserver⟩ := hC s l hc hreach
  refine ⟨hsound.step hapart hone hs, ?_⟩
  rcases hsound.server_step hs with ⟨he, -⟩ | ⟨k, rfl, hk⟩
  · exact he ▸ hreach
  · exact hreach.next (hserver k rfl) hk

/-! ## Turns -/

/-- Who has a turn is closed by nobody else. -/
theorem oneCloser_of_placed {hand : Option SocketType} (h : Server.Placed hand s.server) : s.OneCloser := by
  have hturn : ∀ t x stage, s.server.closing t = some (x, stage) →
      ∃ turn, s.server.TurnAt x turn ∧ t = match turn with | .job i => .job i | _ => .loop := by
    intro t x stage hc
    obtain ⟨u, rfl, hr⟩ := Server.closing_iff.mp hc
    cases u with
    | none =>
      refine ⟨.reported, ?_, rfl⟩
      have hq := h.unexpired.2
      rw [Server.Releases] at hr
      cases hl : s.server.loop with
      | drainClosing a stage close => rw [hl] at hq; cases hq
      | eventClosing sock stage events => rw [hl] at hr; cases hr; rw [Server.TurnAt, hl]; exact List.mem_cons_self
      | top | draining | waiting | dispatching => rw [hl] at hr; cases hr
    | some i =>
      obtain ⟨conn, hj, hx⟩ := hr
      exact ⟨.job i, ⟨conn, Server.held_of_jobs hj, hx⟩, rfl⟩
  intro t u x stage stage' ht hu
  obtain ⟨turn, hturn₁, rfl⟩ := hturn t x stage ht
  obtain ⟨turn', hturn₂, rfl⟩ := hturn u x stage' hu
  rw [h.tokens.unique x turn turn' hturn₁ hturn₂]

/-- Where nothing goes wrong and operations keep apart, a run is one of `Server`
in which nothing goes wrong. -/
theorem reach_undisturbed (hr : Reach step (fun s l => s.Undisturbed l ∧ s.Apart l) RacyServer.start s) :
    Sound s ∧ Reach Server.step Server.Undisturbed Server.start s.server := by
  refine reach_server hr fun s l hc hreach => ⟨hc.2, ?_, fun k hk => ?_⟩
  · exact oneCloser_of_placed (hreach.invariant (Server.Placed none) .start fun _ _ _ hi hc hs => hi.step hc hs)
  · subst hk
    exact hc.1

/-- **One-shot dispatch**: in every run in which no session expires, no
`epoll_ctl` fails, and no operation on `connections` overlaps another thread's
insert or erase, the process is there, and the turn of each open connection
that the accept thread is done with is in exactly one place: the connection is
armed, or in the batch that is being processed, or has one job that has not
ended. So one job at most is at a client's buffer, whoever is muted is in the
batch or has a job, and a job that comes to arm its socket finds it in the
epoll set. -/
theorem dispatch_turn_apart (hr : Reach step (fun s l => s.Undisturbed l ∧ s.Apart l) RacyServer.start s) :
    s.broken = false ∧ (∀ x, s.server.Open x → ∃! t, s.server.TurnAt x t) ∧
      (∀ i j conn conn', s.server.held i = some conn → s.server.held j = some conn' →
        conn.socket.client = conn'.socket.client → i = j) ∧
      (∀ x, s.server.Open x → s.server.kernel.epoll x ≠ some .armed →
        x ∈ s.server.loop.sockets ∨ ∃ i, s.server.TurnAt x (.job i)) ∧
      ∀ i conn, s.server.jobs i = some ⟨conn, .rearming⟩ → s.server.kernel.rearm conn.socket.num ≠ none := by
  obtain ⟨hsound, hreach⟩ := reach_undisturbed hr
  exact ⟨hsound.running, Server.dispatch_turn hreach⟩

/-- A client comes. -/
def arrival (x : SocketType) (key : SessionKey) : List RacyStep :=
  [.server (.accept x key), .server .addSession, .begin .register, .server .register, .server (.watch true)]

/-- A client hangs up, its number goes to another, and that one has a job. -/
theorem dispatch_turn_apart_example :
    ∃ s, Reach step (fun s l => s.Undisturbed l ∧ s.Apart l) RacyServer.start s ∧ s.server.Open 5 ∧
      s.server.kernel.epoll 5 = some .muted ∧ (∃! t, s.server.TurnAt 5 t) ∧
      (5 ∈ s.server.loop.sockets ∨ ∃ i, s.server.TurnAt 5 (.job i)) := by
  let ls : List RacyStep := arrival 5 ⟨1, 1⟩ ++ [.server .swapExpired, .server .drainDone,
    .server (.wait [(5, .hangUp)]), .server .hangUp, .server .loopClose, .begin .loopClose, .found .loopClose,
    .server .loopClose, .begin .loopClose, .server .loopClose, .server .loopClose, .server .eventsDone] ++
    arrival 5 ⟨2, 2⟩ ++ [.server .swapExpired, .server .drainDone, .server (.wait [(5, .readable)]),
    .begin (.dispatch 0), .server (.dispatch 0), .server .eventsDone, .server (.run 0),
    .server (.recv 0 (.data ⟨ascii "GET a\n", by decide, by decide⟩)), .server (.execute 0), .server (.send 0)]
  have hr : Reach step (fun s l => s.Undisturbed l ∧ s.Apart l) RacyServer.start _ := Reach.start.exec_checked ls rfl
  refine ⟨_, hr, ⟨by decide, fun _ he => by cases he⟩, rfl, ?_, ?_⟩
  · exact (dispatch_turn_apart hr).2.1 5 ⟨by decide, fun _ he => by cases he⟩
  · exact (dispatch_turn_apart hr).2.2.2.1 5 ⟨by decide, fun _ he => by cases he⟩ (by decide)

/-- A client is readable. While the event loop looks it up, the accept thread
inserts another, and the lookup misses. -/
theorem dispatch_turn_lost :
    ¬ ∀ s, Reach step Undisturbed RacyServer.start s → ∀ x, s.server.Open x → ∃! t, s.server.TurnAt x t := by
  intro hall
  let ls : List RacyStep := arrival 5 ⟨1, 1⟩ ++ [.server .swapExpired, .server .drainDone,
    .server (.wait [(5, .readable)]), .server (.accept 6 ⟨2, 2⟩), .server .addSession, .begin (.dispatch 0),
    .begin .register, .missed (.dispatch 0)]
  have h : Reach step Undisturbed RacyServer.start _ :=
    Reach.start.exec ls rfl (by simp [ls, arrival, Undisturbed, Server.Undisturbed])
  obtain ⟨t, ht, -⟩ := hall _ h 5 ⟨by decide, fun _ he => by cases he; decide⟩
  cases t with
  | armed => cases ht
  | reported => cases ht
  | job i =>
    obtain ⟨conn, hi, -⟩ := ht
    cases hi

/-! ## No descriptor is lost -/

end RacyServer

end KvDatabase
