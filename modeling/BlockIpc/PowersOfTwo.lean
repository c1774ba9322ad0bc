import Mathlib

/-!
# Powers of two and masks

The mask of a power of two takes remainders. Among powers of two, order and divisibility are the
same, and a power of two below twice another one is not larger than it.
-/

namespace BlockIpc.PowersOfTwo

variable {a b m x : ℕ}

theorem and_pred_eq_mod (h : m.isPowerOfTwo) (x : ℕ) : x &&& (m-1)=x%m := by
  obtain ⟨k,rfl⟩ := h
  exact Nat.and_two_pow_sub_one_eq_mod x k

theorem and_pred_eq_zero_iff (h : m.isPowerOfTwo) : x &&& (m-1)=0 ↔ m ∣ x := by
  rw [and_pred_eq_mod h]
  exact Nat.dvd_iff_mod_eq_zero.symm

theorem and_pred_of_lt (h : m.isPowerOfTwo) (hx : x < m) : x &&& (m-1)=x := by
  rw [and_pred_eq_mod h]
  exact Nat.mod_eq_of_lt hx

/-- A smaller power of two divides a larger one. -/
theorem dvd_of_le (ha : a.isPowerOfTwo) (hb : b.isPowerOfTwo) (h : a≤b) : a ∣ b := by
  obtain ⟨i,rfl⟩ := ha
  obtain ⟨j,rfl⟩ := hb
  exact Nat.pow_dvd_pow 2 ((Nat.pow_le_pow_iff_right (by decide)).mp h)

theorem le_of_lt_double (ha : a.isPowerOfTwo) (hb : b.isPowerOfTwo) (h : a<2*b) : a≤b := by
  obtain ⟨i,rfl⟩ := ha
  obtain ⟨j,rfl⟩ := hb
  rw [← Nat.pow_succ'] at h
  have hij : i<j+1 := (Nat.pow_lt_pow_iff_right (by decide)).mp h
  exact Nat.pow_le_pow_right (by decide) (by omega)

theorem isPowerOfTwo_max (ha : a.isPowerOfTwo) (hb : b.isPowerOfTwo) : (max a b).isPowerOfTwo := by
  rcases max_choice a b with h|h
  · rw [h]
    exact ha
  · rw [h]
    exact hb

end BlockIpc.PowersOfTwo
