import Mathlib

/-!
# Error numbers and narrow integers of the modelled kernel

System calls return a value or a negated error number. The numbers are the
generic ones the C sources name. A C short keeps the low sixteen bits of the
integer assigned to it, read as a signed value.
-/

namespace BlockIpc.KernelNumbers

def eperm : ℤ := 1
def enoent : ℤ := 2
def eintr : ℤ := 4
def eio : ℤ := 5
def enxio : ℤ := 6
def e2big : ℤ := 7
def ebadf : ℤ := 9
def eagain : ℤ := 11
def enomem : ℤ := 12
def eacces : ℤ := 13
def efault : ℤ := 14
def ebusy : ℤ := 16
def eexist : ℤ := 17
def einval : ℤ := 22
def efbig : ℤ := 27
def enospc : ℤ := 28
def erange : ℤ := 34
def enomsg : ℤ := 42
def eidrm : ℤ := 43
def eoverflow : ℤ := 75
def emsgsize : ℤ := 90
def etimedout : ℤ := 110
def erestartsys : ℤ := 512
def erestartnohand : ℤ := 514

/-- A negated error number, as a kernel function reports a failure. -/
structure Errno where
  /-- The returned value. -/
  code : ℤ
  /-- Failures are reported by negative values. -/
  neg : code<0

/-- The failure that a refused allocation reports. -/
def Errno.noMemory : Errno := ⟨-enomem,by decide⟩

/-- The value a C short holds after an int is assigned to it. -/
def toShort (x : ℤ) : ℤ := x.bmod 65536

/-- The value range of a C short. -/
def IsShort (x : ℤ) : Prop := -32768≤x ∧ x≤32767

/-- The value a C int holds after a wider value is assigned to it. -/
def toInt (x : ℤ) : ℤ := x.bmod 4294967296

def intMax : ℤ := 2147483647

theorem toInt_of_range {x : ℤ} (h0 : 0≤x) (h : x ≤ intMax) : toInt x=x := by
  unfold intMax at h
  exact Int.bmod_eq_of_le (by omega) (by omega)

/-- The value range of a C int. -/
def IsInt (x : ℤ) : Prop := -2147483648≤x ∧ x ≤ intMax

/-- An int always holds a value in range. -/
theorem toInt_isInt (x : ℤ) : IsInt (toInt x) := by
  have hl := Int.le_bmod (x:=x) (m:=4294967296) (by decide)
  have hu := Int.bmod_lt (x:=x) (m:=4294967296) (by decide)
  unfold IsInt toInt intMax
  omega

/-- An int that is not negative is not larger than the value assigned to it. -/
theorem toInt_le {x : ℕ} (h : 0≤toInt x) : toInt x≤x := by
  unfold toInt at h ⊢
  rw [Int.bmod_def] at h ⊢
  split at h
  · next hlt =>
    rw [if_pos hlt]
    omega
  · omega

theorem toInt_toInt_add (x y : ℤ) : toInt (toInt x+y)=toInt (x+y) := by
  unfold toInt
  exact Int.bmod_add_bmod

theorem toInt_toInt_sub (x y : ℤ) : toInt (toInt x-y)=toInt (x-y) := by
  unfold toInt
  exact Int.bmod_sub_bmod

/-- Assigning an int to a short always yields a short. -/
theorem toShort_isShort (x : ℤ) : IsShort (toShort x) := by
  have hl := Int.le_bmod (x:=x) (m:=65536) (by decide)
  have hu := Int.bmod_lt (x:=x) (m:=65536) (by decide)
  unfold IsShort toShort
  omega

theorem toShort_of_isShort {x : ℤ} (h : IsShort x) : toShort x=x := by
  obtain ⟨hl,hu⟩ := h
  exact Int.bmod_eq_of_le (by omega) (by omega)

theorem toShort_sub_toShort (x y : ℤ) : toShort (toShort x-y)=toShort (x-y) := by
  unfold toShort
  exact Int.bmod_sub_bmod

/-- time_before: the difference of two clock values is negative as a signed word. -/
def timeBefore {w : ℕ} (a b : BitVec w) : Bool := (a-b).msb

end BlockIpc.KernelNumbers
