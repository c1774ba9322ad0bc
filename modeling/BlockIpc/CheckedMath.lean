import Mathlib

/-!
# Checked size arithmetic

Sizes are unsigned words of a given width. The helpers compute sums and products
of sizes and report an overflow instead of a wrapped value.
-/

namespace BlockIpc.CheckedMath

/-- The sum of two sizes; none if it overflows. -/
def l30SizeAddOverflow (w a b : ℕ) : Option ℕ := if 2^w-1-b<a then none else some ((a+b)%2^w)

/-- The product of two sizes; none if it overflows. -/
def l30SizeMulOverflow (w a b : ℕ) : Option ℕ := if a≠0 ∧ (2^w-1)/a<b then none else some ((a*b)%2^w)

def l30SizeArrayBytes (w count elementSize : ℕ) : Option ℕ := l30SizeMulOverflow w count elementSize

/-- Bytes of a header and an array. -/
def l30SizeFlexBytes (w headerSize count elementSize : ℕ) : Option ℕ :=
  match l30SizeArrayBytes w count elementSize with
  | none => none
  | some payloadSize => l30SizeAddOverflow w headerSize payloadSize

/-- Bytes of records with a fixed overhead each. -/
def l30SizeRecordsBytes (w count payloadSize overheadSize : ℕ) : Option ℕ :=
  match l30SizeAddOverflow w payloadSize overheadSize with
  | none => none
  | some recordSize => l30SizeArrayBytes w count recordSize

/-- A sum is returned exactly if it is a word. -/
theorem l30SizeAddOverflow_eq_some {w a b c : ℕ} (hb : b<2^w) :
    l30SizeAddOverflow w a b=some c ↔ a+b<2^w ∧ c=a+b := by
  unfold l30SizeAddOverflow
  split
  · next h => simp; omega
  · next h =>
    have hlt : a+b<2^w := by omega
    rw [Nat.mod_eq_of_lt hlt]
    simp [hlt,eq_comm]

/-- A product is returned exactly if it is a word. -/
theorem l30SizeMulOverflow_eq_some {w a b c : ℕ} : l30SizeMulOverflow w a b=some c ↔ a*b<2^w ∧ c=a*b := by
  have hpos : 0<2^w := Nat.two_pow_pos w
  unfold l30SizeMulOverflow
  by_cases ha : a=0
  · simp [ha,hpos,eq_comm]
  · have hle : b≤(2^w-1)/a ↔ a*b<2^w := by
      rw [Nat.le_div_iff_mul_le (Nat.pos_of_ne_zero ha),Nat.mul_comm b a]
      omega
    split
    · next h =>
      have hlt : ¬a*b<2^w := fun hl => absurd (hle.mpr hl) (not_le.mpr h.2)
      simp [hlt]
    · next h =>
      have hlt : a*b<2^w := hle.mp (not_lt.mp (fun hl => h ⟨ha,hl⟩))
      rw [Nat.mod_eq_of_lt hlt]
      simp [hlt,eq_comm]

/-- The bytes of a header and an array are returned exactly if they are a word. -/
theorem l30SizeFlexBytes_eq_some {w header count element c : ℕ} :
    l30SizeFlexBytes w header count element=some c ↔ header+count*element<2^w ∧ c=header+count*element := by
  unfold l30SizeFlexBytes l30SizeArrayBytes
  cases h : l30SizeMulOverflow w count element with
  | none =>
    have hnot : ¬count*element<2^w := by
      intro hlt
      have hsome := l30SizeMulOverflow_eq_some.mpr ⟨hlt,rfl⟩
      rw [h] at hsome
      cases hsome
    exact ⟨nofun,fun hc => absurd (lt_of_le_of_lt (Nat.le_add_left _ _) hc.1) hnot⟩
  | some payload =>
    obtain ⟨hlt,rfl⟩ := l30SizeMulOverflow_eq_some.mp h
    exact l30SizeAddOverflow_eq_some hlt

/-- The bytes of records are returned exactly if the size of one record and the
size of all are words. -/
theorem l30SizeRecordsBytes_eq_some {w count payload overhead c : ℕ} (ho : overhead<2^w) :
    l30SizeRecordsBytes w count payload overhead=some c ↔
      payload+overhead<2^w ∧ count*(payload+overhead)<2^w ∧ c=count*(payload+overhead) := by
  unfold l30SizeRecordsBytes
  cases h : l30SizeAddOverflow w payload overhead with
  | none =>
    have hnot : ¬payload+overhead<2^w := by
      intro hlt
      have hsome := (l30SizeAddOverflow_eq_some ho).mpr ⟨hlt,rfl⟩
      rw [h] at hsome
      cases hsome
    simp [hnot]
  | some recordSize =>
    obtain ⟨hlt,he⟩ := (l30SizeAddOverflow_eq_some ho).mp h
    subst he
    unfold l30SizeArrayBytes
    rw [l30SizeMulOverflow_eq_some]
    simp [hlt]

end BlockIpc.CheckedMath
