/-
Text files as lists of bytes (of any type): the records a separator ends,
and the words blanks split a record into.

`records` reads as a loop of line reads does: the last record may lack its
separator, and a file that ends in one has no empty record after it. So a
file of whole records can be extended record by record (`records_append`),
and one whose last record is cut off cannot.
-/
import Mathlib.Data.List.Basic
import Mathlib.Data.List.Induction
import Mathlib.Data.List.TakeWhile

namespace Text

variable {α : Type*}

section Records

/-- The records of a file: the runs that `sep` ends, then what follows the
last `sep` unless it is empty. -/
def records [DecidableEq α] (sep : α) : List α → List (List α)
  | [] => []
  | x :: xs =>
    if x = sep then [] :: records sep xs
    else match records sep xs with
      | [] => [[x]]
      | r :: rs => (x :: r) :: rs

/-- Every record of the file is ended: it is empty, or ends in `sep`. -/
def Terminated (sep : α) (xs : List α) : Prop := xs = [] ∨ xs.getLast? = some sep

instance [DecidableEq α] (sep : α) (xs : List α) : Decidable (Terminated sep xs) :=
  inferInstanceAs (Decidable (_ ∨ _))

theorem Terminated.nil {sep : α} : Terminated sep [] := .inl rfl

theorem Terminated.append_sep {sep : α} (xs : List α) : Terminated sep (xs ++ [sep]) := .inr (by simp)

theorem Terminated.append {sep : α} {xs ys : List α} (hx : Terminated sep xs) (hy : Terminated sep ys) :
    Terminated sep (xs ++ ys) := by
  rcases hy with rfl | hy
  · simpa using hx
  · refine .inr ?_
    rw [List.getLast?_append, hy, Option.some_or]

theorem Terminated.tail {sep x : α} {xs : List α} (h : Terminated sep (x :: xs)) : Terminated sep xs := by
  cases xs with
  | nil => exact .nil
  | cons y xs => exact .inr (by simpa [Terminated] using h)

/-- The first separator of a file is in one place. -/
theorem append_sep_inj {sep : α} {r r' : List α} (hr : sep ∉ r) (hr' : sep ∉ r') {xs xs' : List α} :
    r ++ sep :: xs = r' ++ sep :: xs' ↔ r = r' ∧ xs = xs' := by
  refine ⟨fun h => ?_, fun ⟨h, h'⟩ => by rw [h, h']⟩
  induction r generalizing r' with
  | nil =>
    cases r' with
    | nil => simpa using h
    | cons y r' => simp [(List.cons.inj h).1] at hr'
  | cons x r ih =>
    cases r' with
    | nil => simp [(List.cons.inj h).1] at hr
    | cons y r' =>
      simp only [List.mem_cons, not_or] at hr hr'
      obtain ⟨rfl, htail⟩ := List.cons.inj h
      obtain ⟨rfl, rfl⟩ := ih hr.2 hr'.2 htail
      exact ⟨rfl, rfl⟩

variable [DecidableEq α] {sep : α}

@[simp] theorem records_nil : records sep [] = [] := rfl

@[simp] theorem records_sep (xs : List α) : records sep (sep :: xs) = [] :: records sep xs := by simp [records]

/-- The first record of a file, up to its separator. -/
theorem records_record {r : List α} (hr : sep ∉ r) (xs : List α) :
    records sep (r ++ sep :: xs) = r :: records sep xs := by
  induction r with
  | nil => simp
  | cons x r ih =>
    simp only [List.mem_cons, not_or] at hr
    rw [List.cons_append, records, if_neg (Ne.symm hr.1), ih hr.2]

/-- A last record without its separator. -/
theorem records_tail {r : List α} (hr : sep ∉ r) (hne : r ≠ []) : records sep r = [r] := by
  induction r with
  | nil => exact absurd rfl hne
  | cons x r ih =>
    simp only [List.mem_cons, not_or] at hr
    rw [records, if_neg (Ne.symm hr.1)]
    cases r with
    | nil => rfl
    | cons y r => rw [ih hr.2 (by simp)]

theorem records_ne_nil (x : α) (xs : List α) : records sep (x :: xs) ≠ [] := by
  rw [records]
  split
  · simp
  · split <;> simp

/-- A file of whole records is extended record by record. -/
theorem records_append {xs : List α} (h : Terminated sep xs) (ys : List α) :
    records sep (xs ++ ys) = records sep xs ++ records sep ys := by
  induction xs with
  | nil => rfl
  | cons x xs ih =>
    by_cases hx : x = sep
    · subst hx
      simp [ih h.tail]
    · cases xs with
      | nil => simp [Terminated, hx] at h
      | cons y xs =>
        have hne : records sep (y :: xs) ≠ [] := records_ne_nil y xs
        obtain ⟨r, rs, hr⟩ := List.exists_cons_of_ne_nil hne
        have hl : records sep (x :: y :: xs) = (x :: r) :: rs := by rw [records, if_neg hx, hr]
        rw [List.cons_append, records, if_neg hx, ih h.tail, hr, hl]
        rfl

end Records

section Cuts

variable {β : Type*}

/-- Where a file of the texts `f x` is cut after `n` bytes: how many are
whole, and how many bytes of the next one are left. -/
def cut (f : β → List α) : List β → Nat → Nat × Nat
  | [], _ => (0, 0)
  | x :: xs, n =>
    if (f x).length ≤ n then ((cut f xs (n - (f x).length)).1 + 1, (cut f xs (n - (f x).length)).2)
    else (0, n)

/-- What is left of the text that a cut falls in. -/
def torn (f : β → List α) (xs : List β) (n : Nat) : List α :=
  match xs[(cut f xs n).1]? with
  | some x => (f x).take (cut f xs n).2
  | none => []

theorem take_flatMap (f : β → List α) (xs : List β) (n : Nat) :
    (xs.flatMap f).take n = (xs.take (cut f xs n).1).flatMap f ++ torn f xs n := by
  induction xs generalizing n with
  | nil => simp [cut, torn]
  | cons x xs ih =>
    rw [List.flatMap_cons]
    by_cases h : (f x).length ≤ n
    · rw [List.take_append, List.take_of_length_le h, ih]
      simp [cut, torn, h]
    · rw [List.take_append_of_le_length (by omega)]
      simp [cut, torn, h]

/-- The text a cut falls in is not whole. -/
theorem cut_lt {f : β → List α} {xs : List β} {n : Nat} {x : β} (h : xs[(cut f xs n).1]? = some x) :
    (cut f xs n).2 < (f x).length := by
  induction xs generalizing n with
  | nil => simp at h
  | cons y xs ih =>
    by_cases hy : (f y).length ≤ n
    · simp only [cut, hy, if_true, List.getElem?_cons_succ] at h ⊢
      exact ih h
    · simp only [cut, hy, if_false, List.getElem?_cons_zero, Option.some.injEq] at h ⊢
      subst h
      omega

/-- The cut that falls in a text after others. -/
theorem cut_append {f : β → List α} {x : β} {i : Nat} (hi : i < (f x).length) (xs ys : List β) :
    cut f (xs ++ x :: ys) ((xs.flatMap f).length + i) = (xs.length, i) := by
  induction xs with
  | nil => simp [cut, hi]
  | cons y xs ih =>
    have hrest : (f y).length + (xs.flatMap f).length + i - (f y).length = (xs.flatMap f).length + i := by omega
    rw [List.flatMap_cons, List.length_append, List.cons_append, cut, if_pos (by omega), hrest, ih]
    rfl

end Cuts

section Words

variable {blank : α → Bool}

/-- Read one word: skip blanks, take what is not blank. The empty word when
nothing is left. Second, what is left after it. -/
def extract (blank : α → Bool) (xs : List α) : List α × List α :=
  let ys := xs.dropWhile blank
  (ys.takeWhile (!blank ·), ys.dropWhile (!blank ·))

/-- Split on blanks. -/
def words (blank : α → Bool) (xs : List α) : List (List α) := (xs.splitOnP blank).filter (· ≠ [])

def BlankFree (blank : α → Bool) (w : List α) : Prop := ∀ c ∈ w, blank c = false

/-- A nonempty run without blanks. -/
def IsWord (blank : α → Bool) (w : List α) : Prop := w ≠ [] ∧ BlankFree blank w

/-- A word that ends here ends: what follows is nothing, or starts with a
blank. -/
def Stops (blank : α → Bool) (xs : List α) : Prop := ∀ c ∈ xs.head?, blank c = true

instance (w : List α) : Decidable (BlankFree blank w) := inferInstanceAs (Decidable (∀ c ∈ w, blank c = false))

instance [DecidableEq α] (w : List α) : Decidable (IsWord blank w) := inferInstanceAs (Decidable (_ ∧ _))

theorem BlankFree.take {w : List α} (h : BlankFree blank w) (i : Nat) : BlankFree blank (w.take i) :=
  fun c hc => h c (List.mem_of_mem_take hc)

@[simp] theorem extract_nil : extract blank [] = ([], []) := rfl

@[simp] theorem Stops.nil : Stops blank ([] : List α) := by simp [Stops]

theorem Stops.cons {b : α} (hb : blank b = true) (xs) : Stops blank (b :: xs) := by simpa [Stops] using hb

theorem extract_blank {b : α} (hb : blank b = true) (xs : List α) : extract blank (b :: xs) = extract blank xs := by
  simp [extract, hb]

theorem extract_word {w : List α} (hw : IsWord blank w) {rest : List α} (hr : Stops blank rest) :
    extract blank (w ++ rest) = (w, rest) := by
  obtain ⟨c, w, rfl⟩ := List.exists_cons_of_ne_nil hw.1
  have hskip : (c :: w ++ rest).dropWhile blank = c :: w ++ rest := by
    have hc : blank c = false := hw.2 c List.mem_cons_self
    simp [hc]
  have hall : ∀ x ∈ c :: w, (!blank x) = true := fun x hx => by simp [hw.2 x hx]
  simp only [extract, hskip, List.takeWhile_append_of_pos hall, List.dropWhile_append_of_pos hall]
  cases rest with
  | nil => simp
  | cons b rest =>
    have hb : blank b = true := hr b (by simp)
    simp [hb]

/-- A word and what stops it, when the word may be missing. -/
theorem extract_blankFree {w : List α} (hw : BlankFree blank w) : extract blank w = (w, []) := by
  by_cases hne : w = []
  · subst hne; rfl
  · have he : extract blank (w ++ []) = (w, []) := extract_word ⟨hne, hw⟩ .nil
    simpa using he

theorem extract_fst_blankFree (xs : List α) : BlankFree blank (extract blank xs).1 := fun c hc => by
  simpa using List.mem_takeWhile_imp hc

theorem extract_snd_of_fst_nil {xs : List α} (h : (extract blank xs).1 = []) : (extract blank xs).2 = [] := by
  simp only [extract] at h ⊢
  cases hd : xs.dropWhile blank with
  | nil => rfl
  | cons c ys =>
    have hc : blank c = false := by
      have := List.head?_dropWhile_not blank xs
      rw [hd] at this
      simpa using this
    simp [hd, hc] at h

/-- The words of a text are the ones read off it one after another. -/
theorem words_eq_extract (xs : List α) : words blank xs =
    if (extract blank xs).1 = [] then [] else (extract blank xs).1 :: words blank (extract blank xs).2 := by
  induction xs with
  | nil => simp [words, extract]
  | cons x xs ih =>
    by_cases hx : blank x = true
    · rw [extract_blank hx, ← ih]
      simp [words, List.splitOnP_cons_eq_if_modifyHead, hx]
    · -- The text starts with a word `w`; `rest` starts with the blank that ends it.
      have hx : blank x = false := by simpa using hx
      have hsplit := List.takeWhile_append_dropWhile (p := (!blank ·)) (l := x :: xs)
      have hw : BlankFree blank ((x :: xs).takeWhile (!blank ·)) := fun c hc => by
        simpa using List.mem_takeWhile_imp hc
      have hr := List.head?_dropWhile_not (!blank ·) (x :: xs)
      have hne : (x :: xs).takeWhile (!blank ·) ≠ [] := by simp [hx]
      generalize (x :: xs).takeWhile (!blank ·) = w at hsplit hw hne
      generalize (x :: xs).dropWhile (!blank ·) = rest at hsplit hr
      have hstop : Stops blank rest := fun c hc => by simpa [Option.mem_def.mp hc] using hr
      rw [← hsplit, extract_word ⟨hne, hw⟩ hstop, if_neg hne]
      cases rest with
      | nil => simp [words, List.splitOnP_eq_singleton hw, hne]
      | cons b rest =>
        have hb : blank b = true := hstop b (by simp)
        simp [words, List.splitOnP_append_cons_of_forall_mem hw b hb, List.splitOnP_cons_eq_if_modifyHead, hb, hne]

theorem extract_fst (xs : List α) : (extract blank xs).1 = (words blank xs).headD [] := by
  rw [words_eq_extract]
  split
  · next h => rw [h]; rfl
  · rfl

theorem words_extract_snd (xs : List α) : words blank (extract blank xs).2 = (words blank xs).tail := by
  rw [words_eq_extract xs]
  split
  · next h => rw [extract_snd_of_fst_nil h]; rfl
  · rfl

/-- A blank ends a word: the words of two texts with one between them. -/
theorem words_append_blank {b : α} (hb : blank b = true) (xs ys : List α) :
    words blank (xs ++ b :: ys) = words blank xs ++ words blank ys := by
  rw [words, List.splitOnP_append_cons xs ys hb, List.filter_append]
  rfl

theorem ne_nil_of_mem_words {w xs : List α} (h : w ∈ words blank xs) : w ≠ [] := by
  simpa using (List.mem_filter.mp h).2

end Words

end Text
