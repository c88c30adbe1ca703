import Mathlib.Data.UInt

/-!
# Saturating machine words

Unsigned addition that stops at the largest value instead of wrapping, with
its meaning on natural numbers.
-/

namespace UInt64

def maxValue : UInt64 := 18446744073709551615

@[simp] theorem toNat_maxValue : maxValue.toNat = 2 ^ 64 - 1 := rfl

def saturatingAdd (a b : UInt64) : UInt64 :=
  if a.toNat + b.toNat < 2 ^ 64 then a + b else maxValue

theorem toNat_saturatingAdd (a b : UInt64) :
    (saturatingAdd a b).toNat = min (a.toNat + b.toNat) (2 ^ 64 - 1) := by
  unfold saturatingAdd
  split_ifs with h
  · rw [UInt64.toNat_add, Nat.mod_eq_of_lt h]
    omega
  · rw [toNat_maxValue]
    omega

@[simp] theorem toNat_saturatingAdd_one (a : UInt64) :
    (saturatingAdd a 1).toNat = min (a.toNat + 1) (2 ^ 64 - 1) :=
  toNat_saturatingAdd a 1

theorem toNat_saturatingAdd_one_of_ne {a : UInt64} (h : a ≠ maxValue) :
    (saturatingAdd a 1).toNat = a.toNat + 1 := by
  have hlt := a.toNat_lt
  have hne : a.toNat ≠ 2 ^ 64 - 1 := fun heq => h (UInt64.toNat_inj.mp heq)
  rw [toNat_saturatingAdd_one]
  omega

def saturatingSub (a b : UInt64) : UInt64 :=
  if b ≤ a then a - b else 0

theorem toNat_saturatingSub (a b : UInt64) :
    (saturatingSub a b).toNat = a.toNat - b.toNat := by
  unfold saturatingSub
  split_ifs with h
  · exact UInt64.toNat_sub_of_le a b h
  · have hlt : a.toNat < b.toNat := by
      rw [← not_le, ← le_iff_toNat_le]
      exact h
    rw [show (0 : UInt64).toNat = 0 from rfl]
    omega

theorem le_max_left (a b : UInt64) : a ≤ max a b := by
  rw [UInt64.le_iff_toNat_le, toNat_max]
  omega

theorem max_saturatingAdd_one (a : UInt64) : max a (a.saturatingAdd 1) = a.saturatingAdd 1 := by
  rw [← UInt64.toNat_inj, toNat_max, toNat_saturatingAdd_one]
  have := a.toNat_lt
  omega

end UInt64

namespace UInt32

def maxValue : UInt32 := 4294967295

def saturatingAdd (a b : UInt32) : UInt32 :=
  if a.toNat + b.toNat < 2 ^ 32 then a + b else maxValue

theorem toNat_saturatingAdd_one (a : UInt32) :
    (a.saturatingAdd 1).toNat = min (a.toNat + 1) (2 ^ 32 - 1) := by
  have hone : (1 : UInt32).toNat = 1 := rfl
  unfold saturatingAdd
  split_ifs with h
  · rw [UInt32.toNat_add, Nat.mod_eq_of_lt h, hone]
    omega
  · rw [show maxValue.toNat = 2 ^ 32 - 1 from rfl]
    omega

theorem saturatingAdd_one_ne_zero (a : UInt32) : a.saturatingAdd 1 ≠ 0 := by
  unfold saturatingAdd
  split_ifs with h
  · intro hzero
    have hnat := congrArg UInt32.toNat hzero
    rw [UInt32.toNat_add, Nat.mod_eq_of_lt h] at hnat
    exact absurd hnat (Nat.succ_ne_zero _)
  · decide

end UInt32
