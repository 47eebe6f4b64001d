import Mathlib.Data.Nat.Prime.Basic
import Mathlib.Order.Bounds.Basic

/-! # Power-of-two multiples of a base

Slots that are a base times a power of two are ordered by divisibility, and the divisors of such a
slot that are multiples of the base are again of this form. Rounding up to a multiple gives the
least one that is large enough. -/

namespace Topograph

/-- `n` is `b` times a power of two. -/
def IsPowMul (b n : Nat) : Prop := ∃ k, n = b * 2 ^ k

namespace IsPowMul

variable {b m n : Nat}

theorem refl (b : Nat) : IsPowMul b b := ⟨0, by rw [pow_zero, mul_one]⟩

theorem mul_two (h : IsPowMul (b * 2) n) : IsPowMul b n := by
  obtain ⟨k, rfl⟩ := h
  exact ⟨k + 1, by rw [pow_succ', mul_assoc]⟩

theorem trans (h : IsPowMul b m) (h' : IsPowMul m n) : IsPowMul b n := by
  obtain ⟨k, rfl⟩ := h
  obtain ⟨j, rfl⟩ := h'
  exact ⟨k + j, by rw [pow_add, mul_assoc]⟩

theorem base_dvd (h : IsPowMul b n) : b ∣ n := by
  obtain ⟨k, rfl⟩ := h
  exact Dvd.intro _ rfl

theorem pos (hb : 0 < b) (h : IsPowMul b n) : 0 < n := by
  obtain ⟨k, rfl⟩ := h
  exact Nat.mul_pos hb (Nat.two_pow_pos k)

/-- **Slots are ordered by divisibility.** -/
theorem dvd_of_le (hb : 0 < b) (hm : IsPowMul b m) (hn : IsPowMul b n) (h : m ≤ n) : m ∣ n := by
  obtain ⟨k, rfl⟩ := hm
  obtain ⟨j, rfl⟩ := hn
  have hkj : k ≤ j := (Nat.pow_le_pow_iff_right (by decide)).mp (Nat.le_of_mul_le_mul_left h hb)
  exact Nat.mul_dvd_mul_left b (Nat.pow_dvd_pow 2 hkj)

/-- A multiple of the base that divides a slot is a slot. -/
theorem of_dvd (hb : 0 < b) (hn : IsPowMul b n) (hbm : b ∣ m) (hmn : m ∣ n) : IsPowMul b m := by
  obtain ⟨k, rfl⟩ := hn
  obtain ⟨c, rfl⟩ := hbm
  obtain ⟨j, -, hj⟩ := (Nat.dvd_prime_pow Nat.prime_two).mp (Nat.dvd_of_mul_dvd_mul_left hb hmn)
  exact ⟨j, by rw [hj]⟩

end IsPowMul

/-- **Rounding up to a multiple**: the least multiple of `step` that is at least `s`. -/
theorem isLeast_roundUp {step : Nat} (hstep : 0 < step) (s : Nat) :
    IsLeast {n | step ∣ n ∧ s ≤ n} ((s + step - 1) / step * step) := by
  have hmod := Nat.div_add_mod' (s + step - 1) step
  have hlt := Nat.mod_lt (s + step - 1) hstep
  refine ⟨⟨Dvd.intro_left _ rfl, by omega⟩, ?_⟩
  rintro n ⟨⟨k, rfl⟩, hsn⟩
  -- The quotient is at most `k`, since `s + step - 1 < step * (k + 1)`.
  rw [mul_comm step k]
  apply Nat.mul_le_mul_right
  apply Nat.le_of_lt_succ
  rw [Nat.div_lt_iff_lt_mul hstep, Nat.succ_mul, mul_comm k step]
  omega

/-- A multiple is its own rounding. -/
theorem isLeast_of_dvd {step s : Nat} (h : step ∣ s) : IsLeast {n | step ∣ n ∧ s ≤ n} s :=
  ⟨⟨h, le_rfl⟩, fun _ hn => hn.2⟩

end Topograph
