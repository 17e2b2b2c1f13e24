/-
Accumulators of the form `h := m * h + c`, in any commutative ring.

What a digit adds to the last value is the digit times a power of `m`, one
for each digit after it (`value_append`). So the value of two lists that
differ in one digit differs by the digits' difference times that power
(`value_eq_iff`): a unit `m` tells every two apart, and one with a power that
is zero forgets all but the last digits (`value_suffix`).
-/
import Mathlib.Algebra.Group.Units.Basic
import Mathlib.Algebra.GroupWithZero.Basic
import Mathlib.Data.List.Induction
import Mathlib.Tactic.Ring

namespace Horner

variable {R : Type*} [CommRing R]

/-- The accumulator after these digits, from zero. -/
def value (m : R) (digits : List R) : R := digits.foldl (fun h c => m * h + c) 0

@[simp] theorem value_nil (m : R) : value m [] = 0 := rfl

@[simp] theorem value_concat (m : R) (digits : List R) (c : R) :
    value m (digits ++ [c]) = m * value m digits + c := by
  simp [value]

theorem value_append (m : R) (xs ys : List R) : value m (xs ++ ys) = m ^ ys.length * value m xs + value m ys := by
  induction ys using List.reverseRecOn with
  | nil => simp
  | append_singleton ys c ih =>
    rw [← List.append_assoc, value_concat, value_concat, ih, List.length_append, List.length_singleton]
    ring

theorem value_cons (m c : R) (digits : List R) : value m (c :: digits) = m ^ digits.length * c + value m digits := by
  rw [← List.singleton_append, value_append]
  simp [value]

/-- Two lists that differ in one digit. -/
theorem value_eq_iff (m : R) (xs : List R) (c c' : R) (ys : List R) :
    value m (xs ++ c :: ys) = value m (xs ++ c' :: ys) ↔ m ^ ys.length * (c - c') = 0 := by
  rw [value_append, value_append, value_cons, value_cons, List.length_cons, List.length_cons, ← sub_eq_zero]
  ring_nf

theorem value_eq_iff_of_isUnit {m : R} (hm : IsUnit m) (xs : List R) (c c' : R) (ys : List R) :
    value m (xs ++ c :: ys) = value m (xs ++ c' :: ys) ↔ c = c' := by
  rw [value_eq_iff, (hm.pow ys.length).mul_right_eq_zero, sub_eq_zero]

/-- What a power of `m` that is zero forgets. -/
theorem value_suffix {m : R} {n : Nat} (hm : m ^ n = 0) {ys : List R} (hy : n ≤ ys.length) (xs : List R) :
    value m (xs ++ ys) = value m ys := by
  rw [value_append, pow_eq_zero_of_le hy hm, zero_mul, zero_add]

end Horner
