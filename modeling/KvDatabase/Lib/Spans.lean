/-
What is open after a history of events, when some of them open it and some
close it: it is open from the first that opens to the next that closes. An
event that opens what is open changes nothing.

Which event opened it is told by the history alone (`OpenedBy`), and by no
other than that event (`OpenedBy.unique`).
-/
import Mathlib.Data.List.Basic

namespace Span

variable {E : Type*} {opens closes : E → Prop}

/-- Whatever opened it, it was closed since. -/
def Closed (opens closes : E → Prop) (history : List E) : Prop :=
  ∀ e since, e :: since <:+ history → opens e → ∃ e' ∈ since, closes e'

/-- `e` has opened it when it was closed, and `since` then nothing has closed
it. -/
structure OpenedBy (opens closes : E → Prop) (history : List E) (e : E) (since : List E) : Prop where
  opened : opens e
  wasClosed : ∃ before, history = before ++ e :: since ∧ Closed opens closes before
  stillOpen : ∀ e' ∈ since, ¬ closes e'

theorem cons_suffix_concat {history since : List E} {e x : E} :
    e :: since <:+ history ++ [x] ↔ (since = [] ∧ e = x) ∨ ∃ since', since = since' ++ [x] ∧ e :: since' <:+ history := by
  rw [List.suffix_concat_iff]
  constructor
  · rintro (he | ⟨rest, he, hs⟩)
    · cases he
    · cases rest with
      | nil => cases he; exact .inl ⟨rfl, rfl⟩
      | cons y rest => cases he; exact .inr ⟨rest, rfl, hs⟩
  · rintro (⟨rfl, rfl⟩ | ⟨since', rfl, hs⟩)
    · exact .inr ⟨[], rfl, List.nil_suffix⟩
    · exact .inr ⟨e :: since', rfl, hs⟩

theorem Closed.nil : Closed opens closes [] := fun _ _ h => absurd (List.suffix_nil.mp h) (List.cons_ne_nil _ _)

/-- It stays closed until something opens it. -/
theorem Closed.concat {history : List E} (h : Closed opens closes history) {x : E} (hx : ¬ opens x) :
    Closed opens closes (history ++ [x]) := by
  intro e since hs ho
  rcases cons_suffix_concat.mp hs with ⟨-, rfl⟩ | ⟨since', rfl, hs'⟩
  · exact absurd ho hx
  · obtain ⟨e', hm, hc⟩ := h e since' hs' ho
    exact ⟨e', List.mem_append_left _ hm, hc⟩

theorem Closed.of_closes (history : List E) {x : E} (hc : closes x) (hx : ¬ opens x) :
    Closed opens closes (history ++ [x]) := by
  intro e since hs ho
  rcases cons_suffix_concat.mp hs with ⟨-, rfl⟩ | ⟨since', rfl, -⟩
  · exact absurd ho hx
  · exact ⟨x, by simp, hc⟩

/-- What opens it when it is closed. -/
theorem Closed.openedBy {history : List E} (h : Closed opens closes history) {x : E} (hx : opens x) :
    OpenedBy opens closes (history ++ [x]) x [] :=
  ⟨hx, ⟨history, rfl, h⟩, by simp⟩

/-- It stays open until something closes it. -/
theorem OpenedBy.concat {history since : List E} {e : E} (h : OpenedBy opens closes history e since) {x : E}
    (hx : ¬ closes x) : OpenedBy opens closes (history ++ [x]) e (since ++ [x]) := by
  obtain ⟨before, rfl, hb⟩ := h.wasClosed
  refine ⟨h.opened, ⟨before, by simp, hb⟩, fun e' hm => ?_⟩
  rcases List.mem_append.mp hm with hm | hm
  · exact h.stillOpen e' hm
  · exact List.mem_singleton.mp hm ▸ hx

theorem OpenedBy.suffix {history since : List E} {e : E} (h : OpenedBy opens closes history e since) :
    e :: since <:+ history := by
  obtain ⟨before, rfl, -⟩ := h.wasClosed
  exact List.suffix_append before (e :: since)

/-- What is open is not closed. -/
theorem OpenedBy.not_closed {history since : List E} {e : E} (h : OpenedBy opens closes history e since) :
    ¬ Closed opens closes history := by
  intro hclosed
  obtain ⟨e', hm, hc⟩ := hclosed e since h.suffix h.opened
  exact h.stillOpen e' hm hc

/-- Nothing opened it before what opened it. -/
theorem OpenedBy.not_suffix {history since since' : List E} {e e' : E} (h : OpenedBy opens closes history e since)
    (h' : OpenedBy opens closes history e' since') : ¬ e :: since <:+ since' := by
  intro hs
  obtain ⟨between, rfl⟩ := hs
  obtain ⟨before, he, hb⟩ := h.wasClosed
  obtain ⟨before', he', -⟩ := h'.wasClosed
  have hbefore : before = before' ++ e' :: between := by
    rw [he, ← List.cons_append, ← List.append_assoc] at he'
    exact List.append_cancel_right he'
  obtain ⟨x, hm, hc⟩ := hb e' between (hbefore ▸ List.suffix_append before' _) h'.opened
  exact h'.stillOpen x (List.mem_append_left _ hm) hc

theorem OpenedBy.unique {history since since' : List E} {e e' : E} (h : OpenedBy opens closes history e since)
    (h' : OpenedBy opens closes history e' since') : e = e' ∧ since = since' := by
  rcases List.suffix_or_suffix_of_suffix h.suffix h'.suffix with hs | hs
  · rcases List.suffix_cons_iff.mp hs with he | hs
    · exact List.cons.inj he
    · exact absurd hs (h.not_suffix h')
  · rcases List.suffix_cons_iff.mp hs with he | hs
    · obtain ⟨rfl, rfl⟩ := List.cons.inj he
      exact ⟨rfl, rfl⟩
    · exact absurd hs (h'.not_suffix h)

/-- What closed it was before what opened it. -/
theorem OpenedBy.suffix_of_closes {before after since : List E} {x e : E}
    (h : OpenedBy opens closes (before ++ x :: after) e since) (hc : closes x) (hx : ¬ opens x) :
    e :: since <:+ after := by
  have hs : x :: after <:+ before ++ x :: after := List.suffix_append before _
  rcases List.suffix_or_suffix_of_suffix hs h.suffix with hs | hs
  · rcases List.suffix_cons_iff.mp hs with he | hs
    · exact absurd (List.cons.inj he).1 fun he => hx (he ▸ h.opened)
    · exact absurd hc (h.stillOpen x (hs.subset List.mem_cons_self))
  · rcases List.suffix_cons_iff.mp hs with he | hs
    · exact absurd (List.cons.inj he).1 fun he => hx (he ▸ h.opened)
    · exact hs

end Span
