/-
What the hash sees of a key. The update is written `+=`, so the accumulator is
multiplied by 32 where the comment has 31, and each step moves what came
before five bits up. After thirteen more characters nothing is left of a byte
(`hashValue_suffix`), and after twelve its lower half is (`hashValue_ne_iff`).
31 is odd, and would lose nothing (`statedHash_eq_iff`).
-/
import KvDatabase.HashMap
import KvDatabase.Lib.Horner
import Mathlib.Data.UInt

namespace KvDatabase

open scoped UInt64.CommRing

/-! ## The accumulator as a polynomial -/

/-- The value of a `char`, which is signed. -/
def charValue (c : UInt8) : ℤ := c.toInt8.toInt

/-- The accumulator that the comment in `hashFunction` states. -/
def statedHash (key : Bytes) : UInt64 :=
  key.foldl (fun hashValue c => 31 * hashValue + c.toInt8.toInt64.toUInt64) 0

theorem toUInt64_char (c : UInt8) : c.toInt8.toInt64.toUInt64 = (charValue c : UInt64) := by
  rw [← UInt64.toBitVec_inj, UInt64.toBitVec_intCast]
  rfl

theorem hashValue_eq (key : Bytes) : hashValue key = Horner.value 32 (key.map fun c => (charValue c : UInt64)) := by
  rw [hashValue, Horner.value, List.foldl_map]
  congr
  funext h c
  rw [toUInt64_char]
  ring

theorem statedHash_eq (key : Bytes) : statedHash key = Horner.value 31 (key.map fun c => (charValue c : UInt64)) := by
  simp only [statedHash, Horner.value, List.foldl_map, toUInt64_char]

theorem charValue_eq (c : UInt8) : charValue c = if c.toNat < 128 then (c.toNat : ℤ) else c.toNat - 256 := by
  have h : charValue c = c.toBitVec.toInt := rfl
  have hn : c.toBitVec.toNat = c.toNat := rfl
  rw [h, BitVec.toInt_eq_toNat_cond, hn]
  split <;> split <;> omega

theorem intCast_eq_zero_iff (n : ℤ) : (n : UInt64) = 0 ↔ (2 ^ 64 : ℤ) ∣ n := by
  have hn : ((n : UInt64)).toBitVec = BitVec.ofInt 64 n := UInt64.toBitVec_intCast n
  rw [← UInt64.toBitVec_inj, hn, Int.dvd_iff_emod_eq_zero, ← BitVec.toNat_inj, BitVec.toNat_ofInt]
  simp
  omega

/-! ## Which bytes are told apart -/

theorem charValue_sub_ne {c c' : UInt8} (h : c ≠ c') : charValue c - charValue c' ≠ 0 := by
  have hn : c.toNat ≠ c'.toNat := fun he => h (UInt8.toNat_inj.mp he)
  have hc := c.toNat_lt
  have hc' := c'.toNat_lt
  rw [charValue_eq, charValue_eq]
  split <;> split <;> omega

theorem abs_charValue_sub_lt (c c' : UInt8) : |charValue c - charValue c'| < 512 := by
  have hc := c.toNat_lt
  have hc' := c'.toNat_lt
  rw [charValue_eq, charValue_eq, abs_lt]
  split <;> split <;> omega

/-- The lower halves of two bytes are those of their values. -/
theorem lower_half_iff (c c' : UInt8) : (16 : ℤ) ∣ charValue c - charValue c' ↔ c % 16 = c' % 16 := by
  rw [← UInt8.toNat_inj, UInt8.toNat_mod, UInt8.toNat_mod, charValue_eq, charValue_eq]
  have h16 : (16 : UInt8).toNat = 16 := rfl
  rw [h16]
  split <;> split <;> omega

/-- What thirteen steps move out of 64 bits, twelve, and fewer. -/
theorem shifted_out_iff {d : Nat} {z : ℤ} (hz : z ≠ 0) (hlt : |z| < 512) :
    (2 ^ 64 : ℤ) ∣ 32 ^ d * z ↔ 12 < d ∨ (d = 12 ∧ 16 ∣ z) := by
  rcases Nat.lt_trichotomy d 12 with hd | rfl | hd
  · refine iff_of_false (fun hdvd => hz ?_) (by omega)
    have hpow : (2 ^ 64 : ℤ) = 32 ^ 11 * 512 := by norm_num
    have hle : (32 ^ d * z : ℤ) ∣ 32 ^ 11 * z := mul_dvd_mul_right (pow_dvd_pow 32 (Nat.le_of_lt_succ hd)) z
    rw [hpow] at hdvd
    exact Int.eq_zero_of_abs_lt_dvd ((mul_dvd_mul_iff_left (by norm_num)).mp (hdvd.trans hle)) hlt
  · have hpow : (2 ^ 64 : ℤ) = 32 ^ 12 * 16 := by norm_num
    rw [hpow, mul_dvd_mul_iff_left (by norm_num)]
    simp
  · have hpow : (2 ^ 64 : ℤ) ∣ 32 ^ 13 := ⟨2, by norm_num⟩
    exact iff_of_true ((hpow.trans (pow_dvd_pow 32 hd)).mul_right z) (.inl hd)

theorem charValue_cast_inj (c c' : UInt8) : (charValue c : UInt64) = (charValue c' : UInt64) ↔ c = c' := by
  rw [← sub_eq_zero, ← Int.cast_sub, intCast_eq_zero_iff]
  constructor
  · intro hdvd
    by_contra h
    have hlt : |charValue c - charValue c'| < 2 ^ 64 := (abs_charValue_sub_lt c c').trans (by decide)
    exact charValue_sub_ne h (Int.eq_zero_of_abs_lt_dvd hdvd hlt)
  · rintro rfl
    simp

/-- Keys that differ in one byte, told apart or not. -/
theorem hashValue_eq_iff {c c' : UInt8} (h : c ≠ c') (before after : Bytes) :
    hashValue (before ++ c :: after) = hashValue (before ++ c' :: after) ↔
      12 < after.length ∨ (after.length = 12 ∧ c % 16 = c' % 16) := by
  have hcast : ∀ n, (32 : UInt64) ^ n * ((charValue c : UInt64) - charValue c') =
      ((32 ^ n * (charValue c - charValue c') : ℤ) : UInt64) := fun n => by push_cast; ring
  rw [hashValue_eq, hashValue_eq, List.map_append, List.map_append, List.map_cons, List.map_cons, Horner.value_eq_iff,
    List.length_map, hcast, intCast_eq_zero_iff, shifted_out_iff (charValue_sub_ne h) (abs_charValue_sub_lt c c'),
    lower_half_iff]

/-- The stated accumulator tells every two apart. -/
theorem statedHash_eq_iff {c c' : UInt8} (before after : Bytes) :
    statedHash (before ++ c :: after) = statedHash (before ++ c' :: after) ↔ c = c' := by
  have hunit : IsUnit (31 : UInt64) := IsUnit.of_mul_eq_one 17256631552825064415 (by decide)
  rw [statedHash_eq, statedHash_eq, List.map_append, List.map_append, List.map_cons, List.map_cons,
    Horner.value_eq_iff_of_isUnit hunit, charValue_cast_inj]

/-! ## Keys that differ in one byte -/

/-- Two keys of one length that differ in byte `i` and nowhere else. -/
structure DifferOnlyAt (i : Nat) (key key' : Bytes) : Prop where
  length : key.length = key'.length
  differ : ∀ j, key[j]? ≠ key'[j]? ↔ j = i

/-- What the accumulator needs to tell them apart: that eleven bytes follow
at the most, or twelve and the two differ in their lower halves. -/
def InSight (i : Nat) (key key' : Bytes) : Prop :=
  key.length ≤ i + 12 ∨ (key.length = i + 13 ∧ key.getD i 0 % 16 ≠ key'.getD i 0 % 16)

theorem differOnlyAt_of_ne {c c' : UInt8} (h : c ≠ c') (before after : Bytes) :
    DifferOnlyAt before.length (before ++ c :: after) (before ++ c' :: after) := by
  refine ⟨by simp, fun j => ?_⟩
  rcases Nat.lt_trichotomy j before.length with hj | rfl | hj
  · simp [List.getElem?_append_left hj, Nat.ne_of_lt hj]
  · simp [h]
  · obtain ⟨k, rfl⟩ := Nat.exists_eq_add_of_lt hj
    have hk : before.length + k + 1 - before.length = k + 1 := by omega
    simp [List.getElem?_append_right (Nat.le_of_lt hj), hk, Nat.ne_of_gt hj]

theorem DifferOnlyAt.split {i : Nat} {key key' : Bytes} (h : DifferOnlyAt i key key') :
    ∃ before c c' after, c ≠ c' ∧ before.length = i ∧ key = before ++ c :: after ∧ key' = before ++ c' :: after := by
  have hsame : ∀ j, j ≠ i → key[j]? = key'[j]? := fun j hj => not_not.mp (mt (h.differ j).mp hj)
  have hne : key[i]? ≠ key'[i]? := (h.differ i).mpr rfl
  have hi : i < key.length := by
    by_contra hle
    rw [List.getElem?_eq_none (not_lt.mp hle), List.getElem?_eq_none (h.length ▸ not_lt.mp hle)] at hne
    exact hne rfl
  have hi' : i < key'.length := h.length ▸ hi
  have htake : key.take i = key'.take i := by
    refine List.ext_getElem? fun j => ?_
    rw [List.getElem?_take, List.getElem?_take]
    split
    · next hj => exact hsame j (Nat.ne_of_lt hj)
    · rfl
  have hdrop : key.drop (i + 1) = key'.drop (i + 1) := by
    refine List.ext_getElem? fun j => ?_
    rw [List.getElem?_drop, List.getElem?_drop]
    exact hsame _ (by omega)
  refine ⟨key.take i, key[i], key'[i], key.drop (i + 1), fun he => ?_, ?_, ?_, ?_⟩
  · rw [List.getElem?_eq_getElem hi, List.getElem?_eq_getElem hi', he] at hne
    exact hne rfl
  · exact List.length_take_of_le (Nat.le_of_lt hi)
  · rw [← List.drop_eq_getElem_cons hi, List.take_append_drop]
  · rw [htake, hdrop, ← List.drop_eq_getElem_cons hi', List.take_append_drop]

/-- **What the hash depends on.** Of any two keys of one length that differ in
one byte, the accumulators differ exactly when that byte is in sight of the
end; the ones the comment states differ always. -/
theorem hashValue_ne_iff {i : Nat} {key key' : Bytes} (h : DifferOnlyAt i key key') :
    (hashValue key ≠ hashValue key' ↔ InSight i key key') ∧ statedHash key ≠ statedHash key' := by
  obtain ⟨before, c, c', after, hne, rfl, rfl, rfl⟩ := h.split
  refine ⟨?_, fun he => hne ((statedHash_eq_iff before after).mp he)⟩
  have hlen : (before ++ c :: after).length = before.length + (after.length + 1) := by simp
  have hget : ∀ c, (before ++ c :: after).getD before.length 0 = c := fun c => by simp [List.getD_eq_getElem?_getD]
  have hshort : before.length + (after.length + 1) ≤ before.length + 12 ↔ after.length < 12 := by omega
  have htwelve : before.length + (after.length + 1) = before.length + 13 ↔ after.length = 12 := by omega
  rw [ne_eq, hashValue_eq_iff hne, InSight, hlen, hget, hget, hshort, htwelve, not_or, not_and, not_lt]
  constructor
  · rintro ⟨hle, hhalf⟩
    exact hle.lt_or_eq.imp_right fun he => ⟨he, hhalf he⟩
  · rintro (hlt | ⟨he, hhalf⟩)
    · exact ⟨hlt.le, fun he => absurd he hlt.ne⟩
    · exact ⟨he.le, fun _ => hhalf⟩

/-- Fourteen bytes, with the first one seen by nothing. -/
theorem hashValue_collides :
    ¬ ∀ i key key', DifferOnlyAt i key key' → hashValue key ≠ hashValue key' := by
  intro hall
  exact hall 0 (ascii "a_of_fourteen_") (ascii "b_of_fourteen_") (differOnlyAt_of_ne (by decide) [] _) (by decide)

/-- Thirteen bytes, with the first one in sight: its lower half is another. -/
theorem hashValue_ne_example :
    let key := ascii "a_of_thirteen"
    let key' := ascii "b_of_thirteen"
    (hashValue key ≠ hashValue key' ↔ InSight 0 key key') ∧ statedHash key ≠ statedHash key' :=
  hashValue_ne_iff (differOnlyAt_of_ne (by decide) [] _)

/-! ## What is forgotten -/

/-- Thirteen characters leave nothing of what came before them. -/
theorem hashValue_suffix {key : Bytes} (h : 13 ≤ key.length) (before : Bytes) :
    hashValue (before ++ key) = hashValue key := by
  have hzero : (32 : UInt64) ^ 13 = 0 := by decide
  rw [hashValue_eq, hashValue_eq, List.map_append]
  exact Horner.value_suffix hzero (by simpa using h) _

/-- So keys with one ending of thirteen bytes share a chain, in a table of any
capacity. -/
theorem hashFunction_suffix {capacity : Nat} (pos : 0 < capacity) {key : Bytes} (h : 13 ≤ key.length)
    (before : Bytes) : hashFunction pos (before ++ key) = hashFunction pos key := by
  rw [hashFunction, hashFunction, Fin.mk.injEq, hashValue_suffix h]

end KvDatabase
