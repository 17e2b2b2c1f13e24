/-
Singly linked cells in a heap. A segment is what following `next` passes on
the way from one pointer to another; a chain is a segment that ends in null.

The heap alone decides what a chain is (`Segment.unique`), so no chain passes
an address twice (`Segment.nodup`), and a write to an address that a segment
does not pass leaves the segment (`Segment.frame`). What changes a chain is
said for each of the writes that programs make: to a cell's data, to the
`next` of a cell, and of a new cell at the head.
-/
import Mathlib.Data.List.Nodup
import Mathlib.Logic.Function.Basic

namespace Cells

/-- A cell, and the pointer to the one after it; `none` is null. -/
structure Cell (A D : Type) where
  data : D
  next : Option A
deriving DecidableEq, Repr

abbrev Heap (A D : Type) := A → Option (Cell A D)

variable {A D I : Type}

/-- From `p`, following `next`, one passes these cells and is at `q`. -/
def Segment (heap : Heap A D) : Option A → List (A × D) → Option A → Prop
  | p, [], q => p = q
  | p, (a, d) :: cells, q => p = some a ∧ ∃ next, heap a = some ⟨d, next⟩ ∧ Segment heap next cells q

/-- The addresses of some cells. -/
abbrev addresses (cells : List (A × D)) : List A := cells.map Prod.fst

variable {heap heap' : Heap A D} {p q : Option A} {a : A} {d : D} {xs ys cells : List (A × D)}

theorem segment_append : Segment heap p (xs ++ ys) q ↔ ∃ r, Segment heap p xs r ∧ Segment heap r ys q := by
  induction xs generalizing p with
  | nil => simp [Segment]
  | cons x xs ih =>
    simp only [List.cons_append, Segment, ih]
    constructor
    · rintro ⟨hp, next, hc, r, hx, hy⟩
      exact ⟨r, ⟨hp, next, hc, hx⟩, hy⟩
    · rintro ⟨r, ⟨hp, next, hc, hx⟩, hy⟩
      exact ⟨hp, next, hc, r, hx, hy⟩

/-- What is not passed is not read. -/
theorem Segment.frame (h : Segment heap p cells q) (hf : ∀ a ∈ addresses cells, heap' a = heap a) :
    Segment heap' p cells q := by
  induction cells generalizing p with
  | nil => exact h
  | cons c cells ih =>
    obtain ⟨hp, next, hc, hs⟩ := h
    refine ⟨hp, next, ?_, ih hs fun a ha => hf a (List.mem_cons_of_mem _ ha)⟩
    rw [hf c.1 List.mem_cons_self]
    exact hc

theorem Segment.update [DecidableEq A] (h : Segment heap p cells q) (ha : a ∉ addresses cells)
    (c : Option (Cell A D)) : Segment (Function.update heap a c) p cells q :=
  h.frame fun b hb => Function.update_of_ne (fun he : b = a => ha (he ▸ hb)) c heap

/-- A passed address holds its cell. -/
theorem Segment.heap_mem (h : Segment heap p cells q) (hm : (a, d) ∈ cells) : ∃ next, heap a = some ⟨d, next⟩ := by
  induction cells generalizing p with
  | nil => cases hm
  | cons c cells ih =>
    obtain ⟨-, next, hc, hs⟩ := h
    rcases List.mem_cons.mp hm with rfl | hm
    · exact ⟨next, hc⟩
    · exact ih hs hm

theorem Segment.heap_ne_none (h : Segment heap p cells q) (ha : a ∈ addresses cells) : heap a ≠ none := by
  obtain ⟨⟨b, d⟩, hm, rfl⟩ := List.mem_map.mp ha
  obtain ⟨next, hc⟩ := h.heap_mem hm
  rw [hc]
  exact Option.some_ne_none _

/-- There is one way to null. -/
theorem Segment.unique (h : Segment heap p xs none) (h' : Segment heap p ys none) : xs = ys := by
  induction xs generalizing p ys with
  | nil =>
    cases ys with
    | nil => rfl
    | cons y ys => cases h.symm.trans h'.1
  | cons x xs ih =>
    obtain ⟨hp, next, hc, hs⟩ := h
    cases ys with
    | nil => cases hp.symm.trans h'
    | cons y ys =>
      obtain ⟨hp', next', hc', hs'⟩ := h'
      obtain ⟨a, d⟩ := x
      obtain ⟨a', d'⟩ := y
      cases hp.symm.trans hp'
      cases hc.symm.trans hc'
      rw [ih hs hs']

theorem Segment.nodup (h : Segment heap p cells none) : (addresses cells).Nodup := by
  induction cells generalizing p with
  | nil => exact .nil
  | cons c cells ih =>
    obtain ⟨a, d⟩ := c
    have htail := h
    obtain ⟨rfl, next, hc, hs⟩ := htail
    refine List.nodup_cons.mpr ⟨fun hm => ?_, ih hs⟩
    -- the way on from the second visit is the way on from the first, and shorter
    obtain ⟨⟨b, d'⟩, hmem, rfl⟩ := List.mem_map.mp hm
    obtain ⟨before, after, he⟩ := List.append_of_mem hmem
    rw [he] at hs
    obtain ⟨r, -, hr⟩ := segment_append.mp hs
    obtain rfl : r = some b := hr.1
    have hlen := congrArg List.length (hr.unique h)
    simp only [he, List.length_cons, List.length_append] at hlen
    omega

/-! ## Writes to a chain -/

section Writes

variable [DecidableEq A] {next : Option A} {b : A} {d' e : D}

/-- A cell's data is overwritten. -/
theorem Segment.write (h : Segment heap p (xs ++ (a, d) :: ys) none) (hc : heap a = some ⟨d, next⟩) (d' : D) :
    Segment (Function.update heap a (some ⟨d', next⟩)) p (xs ++ (a, d') :: ys) none := by
  have hn := h.nodup
  simp only [addresses, List.map_append, List.map_cons] at hn
  obtain ⟨-, hny, hdisj⟩ := List.nodup_append.mp hn
  obtain ⟨r, hx, hr, next', hc', hy⟩ := segment_append.mp h
  cases hc.symm.trans hc'
  have hax : a ∉ addresses xs := fun hm => hdisj a hm a List.mem_cons_self rfl
  have hay : a ∉ addresses ys := (List.nodup_cons.mp hny).1
  exact segment_append.mpr ⟨r, hx.update hax _, hr, next, Function.update_self .., hy.update hay _⟩

/-- The cell after `b` is passed over. -/
theorem Segment.unlink (h : Segment heap p (xs ++ (b, e) :: (a, d) :: ys) none) (hc : heap a = some ⟨d, next⟩) :
    Segment (Function.update heap b (some ⟨e, next⟩)) p (xs ++ (b, e) :: ys) none := by
  have hn := h.nodup
  simp only [addresses, List.map_append, List.map_cons] at hn
  obtain ⟨-, hny, hdisj⟩ := List.nodup_append.mp hn
  obtain ⟨r, hx, hr, -, -, -, next', hc', hy⟩ := segment_append.mp h
  cases hc.symm.trans hc'
  have hbx : b ∉ addresses xs := fun hm => hdisj b hm b List.mem_cons_self rfl
  have hby : b ∉ addresses ys := fun hm => (List.nodup_cons.mp hny).1 (List.mem_cons_of_mem _ hm)
  exact segment_append.mpr ⟨r, hx.update hbx _, hr, next, Function.update_self .., hy.update hby _⟩

end Writes

/-! ## Chains from an array of heads -/

/-- From each head its chain; no address is in two of them, and what is
allocated is in one, or loose. -/
structure Holds (heap : Heap A D) (head : I → Option A) (chains : I → List (A × D)) (loose : List A) : Prop where
  chain : ∀ i, Segment heap (head i) (chains i) none
  disjoint : ∀ i j a, a ∈ addresses (chains i) → a ∈ addresses (chains j) → i = j
  apart : ∀ i, ∀ a ∈ loose, a ∉ addresses (chains i)
  allocated : ∀ a, heap a ≠ none ↔ a ∈ loose ∨ ∃ i, a ∈ addresses (chains i)

namespace Holds

variable {head head' : I → Option A} {chains : I → List (A × D)} {loose loose' : List A} {i : I}

/-- An address of chain `i`, a loose one and a free one are in no other
chain. -/
theorem only (h : Holds heap head chains loose)
    (ha : a ∈ addresses (chains i) ∨ a ∈ loose ∨ heap a = none) : ∀ j, j ≠ i → a ∉ addresses (chains j) := by
  intro j hj hm
  rcases ha with ha | ha | ha
  · exact hj (h.disjoint j i a hm ha)
  · exact h.apart j a ha hm
  · exact (h.chain j).heap_ne_none hm ha

/-- What no other chain has is allocated when it is loose or in chain `i`. -/
theorem allocated_here (h : Holds heap head chains loose) (ha : ∀ j, j ≠ i → a ∉ addresses (chains j)) :
    heap a ≠ none ↔ a ∈ loose ∨ a ∈ addresses (chains i) := by
  rw [h.allocated]
  refine or_congr_right ⟨?_, fun hm => ⟨i, hm⟩⟩
  rintro ⟨j, hj⟩
  by_cases hji : j = i
  · exact hji ▸ hj
  · exact absurd hj (ha j hji)

variable [DecidableEq I]

/-- Chain `i` becomes another, of cells that no other chain has. -/
theorem set (h : Holds heap head chains loose) (hc : Segment heap' (head' i) cells none)
    (hh : ∀ j, j ≠ i → head' j = head j)
    (hf : ∀ j, j ≠ i → ∀ a ∈ addresses (chains j), heap' a = heap a)
    (hn : ∀ a, (∀ j, j ≠ i → a ∉ addresses (chains j)) → (heap' a ≠ none ↔ a ∈ loose' ∨ a ∈ addresses cells))
    (hs : ∀ a, a ∈ loose' ∨ a ∈ addresses cells → ∀ j, j ≠ i → a ∉ addresses (chains j))
    (hd : ∀ a ∈ loose', a ∉ addresses cells) : Holds heap' head' (Function.update chains i cells) loose' where
  chain := by
    intro j
    by_cases hj : j = i
    · subst hj
      rw [Function.update_self]
      exact hc
    · rw [Function.update_of_ne hj, hh j hj]
      exact (h.chain j).frame (hf j hj)
  disjoint := by
    intro j k a hj hk
    by_cases hji : j = i
    · by_cases hki : k = i
      · rw [hji, hki]
      · rw [hji, Function.update_self] at hj
        rw [Function.update_of_ne hki] at hk
        exact absurd hk (hs a (.inr hj) k hki)
    · rw [Function.update_of_ne hji] at hj
      by_cases hki : k = i
      · rw [hki, Function.update_self] at hk
        exact absurd hj (hs a (.inr hk) j hji)
      · rw [Function.update_of_ne hki] at hk
        exact h.disjoint j k a hj hk
  apart := by
    intro j a ha
    by_cases hj : j = i
    · subst hj
      rw [Function.update_self]
      exact hd a ha
    · rw [Function.update_of_ne hj]
      exact hs a (.inl ha) j hj
  allocated := by
    intro a
    by_cases hother : ∃ j, j ≠ i ∧ a ∈ addresses (chains j)
    · obtain ⟨j, hj, ha⟩ := hother
      refine iff_of_true ?_ (.inr ⟨j, by rwa [Function.update_of_ne hj]⟩)
      rw [hf j hj a ha]
      exact (h.chain j).heap_ne_none ha
    · have hnot : ∀ j, j ≠ i → a ∉ addresses (chains j) := fun j hj ha => hother ⟨j, hj, ha⟩
      rw [hn a hnot]
      refine or_congr_right ⟨fun ha => ⟨i, by rwa [Function.update_self]⟩, ?_⟩
      rintro ⟨j, hj⟩
      by_cases hji : j = i
      · rwa [hji, Function.update_self] at hj
      · rw [Function.update_of_ne hji] at hj
        exact absurd hj (hnot j hji)

/-- A loose cell that points to a head becomes the head. -/
theorem push (h : Holds heap head chains (a :: loose)) (ha : a ∉ loose) (hc : heap a = some ⟨d, head i⟩) :
    Holds heap (Function.update head i (some a)) (Function.update chains i ((a, d) :: chains i)) loose := by
  have hai := h.apart i a List.mem_cons_self
  refine h.set ?_ (fun j hj => Function.update_of_ne hj ..) (fun _ _ _ _ => rfl) (fun b hb => ?_) (fun b hb => ?_)
    fun b hb => ?_
  · rw [Function.update_self]
    exact ⟨rfl, head i, hc, h.chain i⟩
  · rw [h.allocated_here hb]
    simp only [addresses, List.map_cons, List.mem_cons]
    rw [or_assoc, or_left_comm]
  · apply h.only
    rcases hb with hb | hb
    · exact .inr (.inl (List.mem_cons_of_mem _ hb))
    · rcases List.mem_cons.mp hb with rfl | hb
      · exact .inr (.inl List.mem_cons_self)
      · exact .inl hb
  · intro hm
    rcases List.mem_cons.mp hm with rfl | hm
    · exact ha hb
    · exact h.apart i b (List.mem_cons_of_mem _ hb) hm

/-- The first cell of a chain becomes loose. -/
theorem unlinkHead {next : Option A} (h : Holds heap head chains loose) (hi : chains i = (a, d) :: ys)
    (hc : heap a = some ⟨d, next⟩) :
    Holds heap (Function.update head i next) (Function.update chains i ys) (a :: loose) := by
  have hchain := h.chain i
  rw [hi] at hchain
  obtain ⟨-, next', hc', hy⟩ := hchain
  cases hc.symm.trans hc'
  have hsame : ∀ b, b ∈ addresses (chains i) ↔ b = a ∨ b ∈ addresses ys := fun b => by simp [hi]
  refine h.set ?_ (fun j hj => Function.update_of_ne hj ..) (fun _ _ _ _ => rfl) (fun b hb => ?_) (fun b hb => ?_)
    fun b hb => ?_
  · rw [Function.update_self]
    exact hy
  · rw [h.allocated_here hb, hsame, List.mem_cons, or_assoc, or_left_comm]
  · apply h.only
    rw [hsame]
    rcases hb with hb | hb
    · exact (List.mem_cons.mp hb).imp .inl .inl
    · exact .inl (.inr hb)
  · rcases List.mem_cons.mp hb with rfl | hb
    · have hn := (h.chain i).nodup
      rw [hi] at hn
      exact (List.nodup_cons.mp hn).1
    · exact fun hm => h.apart i b hb ((hsame b).mpr (.inr hm))

variable [DecidableEq A] {next : Option A} {b : A} {e : D}

omit [DecidableEq I] in
/-- A free address is taken. -/
theorem alloc (h : Holds heap head chains loose) (ha : heap a = none) (c : Cell A D) :
    Holds (Function.update heap a (some c)) head chains (a :: loose) where
  chain := fun i => (h.chain i).update (fun hm => (h.chain i).heap_ne_none hm ha) _
  disjoint := h.disjoint
  apart := by
    intro i b hb
    rcases List.mem_cons.mp hb with rfl | hb
    · exact fun hm => (h.chain i).heap_ne_none hm ha
    · exact h.apart i b hb
  allocated := by
    intro b
    by_cases hb : b = a
    · subst hb; simp
    · rw [Function.update_of_ne hb, h.allocated, List.mem_cons, or_iff_right hb]

omit [DecidableEq I] in
/-- A loose cell is overwritten. -/
theorem writeLoose (h : Holds heap head chains loose) (ha : a ∈ loose) (c : Cell A D) :
    Holds (Function.update heap a (some c)) head chains loose where
  chain := fun i => (h.chain i).update (h.apart i a ha) _
  disjoint := h.disjoint
  apart := h.apart
  allocated := by
    intro b
    by_cases hb : b = a
    · subst hb; simp [ha]
    · rw [Function.update_of_ne hb, h.allocated]

omit [DecidableEq I] in
/-- A loose cell is freed. -/
theorem free (h : Holds heap head chains (a :: loose)) (ha : a ∉ loose) :
    Holds (Function.update heap a none) head chains loose where
  chain := fun i => (h.chain i).update (h.apart i a List.mem_cons_self) _
  disjoint := h.disjoint
  apart := fun i b hb => h.apart i b (List.mem_cons_of_mem _ hb)
  allocated := by
    intro b
    by_cases hb : b = a
    · subst hb
      simp only [Function.update_self, ne_eq, not_true_eq_false, false_iff, not_or, not_exists]
      exact ⟨ha, fun i => h.apart i b List.mem_cons_self⟩
    · rw [Function.update_of_ne hb, h.allocated, List.mem_cons, or_iff_right hb]

/-- The data of a cell in a chain is overwritten. -/
theorem write (h : Holds heap head chains loose) (hi : chains i = xs ++ (a, d) :: ys)
    (hc : heap a = some ⟨d, next⟩) (d' : D) :
    Holds (Function.update heap a (some ⟨d', next⟩)) head (Function.update chains i (xs ++ (a, d') :: ys)) loose := by
  have hsame : addresses (xs ++ (a, d') :: ys) = addresses (chains i) := by simp [hi]
  have ha : a ∈ addresses (chains i) := by simp [hi]
  have hchain := h.chain i
  rw [hi] at hchain
  refine h.set (hchain.write hc d') (fun _ _ => rfl) (fun j hj b hb => ?_) (fun b hb => ?_) (fun b hb => ?_) ?_
  · exact Function.update_of_ne (fun he : b = a => h.only (.inl ha) j hj (he ▸ hb)) _ _
  · rw [hsame, ← h.allocated_here hb]
    by_cases hba : b = a
    · subst hba; simp [hc]
    · rw [Function.update_of_ne hba]
  · rw [hsame] at hb
    exact h.only (hb.symm.imp_right .inl)
  · rw [hsame]
    exact h.apart i

/-- The cell after `b` in a chain becomes loose. -/
theorem unlink (h : Holds heap head chains loose) (hi : chains i = xs ++ (b, e) :: (a, d) :: ys)
    (hc : heap a = some ⟨d, next⟩) :
    Holds (Function.update heap b (some ⟨e, next⟩)) head (Function.update chains i (xs ++ (b, e) :: ys))
      (a :: loose) := by
  have hchain := h.chain i
  have hn := hchain.nodup
  rw [hi] at hchain hn
  have hsame : ∀ c, c ∈ addresses (chains i) ↔ c = a ∨ c ∈ addresses (xs ++ (b, e) :: ys) := fun c => by
    simp [hi, or_left_comm]
  have hb : b ∈ addresses (chains i) := by simp [hi]
  refine h.set (hchain.unlink hc) (fun _ _ => rfl) (fun j hj c hm => ?_) (fun c hm => ?_) (fun c hm => ?_)
    fun c hm => ?_
  · exact Function.update_of_ne (fun he : c = b => h.only (.inl hb) j hj (he ▸ hm)) _ _
  · rw [List.mem_cons, or_assoc, or_left_comm, ← hsame, ← h.allocated_here hm]
    by_cases hcb : c = b
    · subst hcb
      simp [(h.chain i).heap_ne_none hb]
    · rw [Function.update_of_ne hcb]
  · apply h.only
    rw [hsame]
    rcases hm with hm | hm
    · exact (List.mem_cons.mp hm).imp .inl .inl
    · exact .inl (.inr hm)
  · rcases List.mem_cons.mp hm with rfl | hm
    · simp only [addresses, List.map_append, List.map_cons, List.nodup_append, List.nodup_cons, List.mem_cons] at hn ⊢
      grind
    · exact fun hm' => h.apart i c hm ((hsame c).mpr (.inr hm'))

end Holds

end Cells
