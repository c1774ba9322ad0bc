import BlockIpc.PowersOfTwo

/-!
# Limits of stacked devices

A stacking driver starts from the default limits and stacks the limits of every component onto
them. The alignment of a component is compatible with that of the top if the larger of two sums,
each of a granularity and an alignment, has no bit in common with the smaller one minus one. This
is divisibility if the smaller sum is a power of two, and it is not otherwise.
-/

namespace BlockIpc.StackedLimits

open List PowersOfTwo

structure QueueLimits where
  bouncePfn : ℕ
  segBoundaryMask : ℕ
  maxHwSectors : ℕ
  maxSectors : ℕ
  maxSegmentSize : ℕ
  physicalBlockSize : ℕ
  alignmentOffset : ℕ
  ioMin : ℕ
  ioOpt : ℕ
  maxDiscardSectors : ℕ
  discardGranularity : ℕ
  discardAlignment : ℕ
  logicalBlockSize : ℕ
  maxSegments : ℕ
  maxIntegritySegments : ℕ
  misaligned : Bool
  discardMisaligned : Bool
  cluster : Bool
  discardZeroesData : Bool

/-- blk_set_default_limits, with the page number of BLK_BOUNCE_ANY. -/
def blkSetDefaultLimits (bounceAny : ℕ) : QueueLimits where
  bouncePfn := bounceAny
  segBoundaryMask := 0xFFFFFFFF
  maxHwSectors := 2147483647
  maxSectors := 1024
  maxSegmentSize := 65536
  physicalBlockSize := 512
  alignmentOffset := 0
  ioMin := 512
  ioOpt := 0
  maxDiscardSectors := 0
  discardGranularity := 0
  discardAlignment := 0
  logicalBlockSize := 512
  maxSegments := 128
  maxIntegritySegments := 0
  misaligned := false
  discardMisaligned := false
  cluster := true
  discardZeroesData := true

def minNotZero (x y : ℕ) : ℕ := if x=0 then y else if y=0 then x else min x y

/-- lcm of lib/lcm.c; the product of two unsigned int fits in an unsigned long. -/
def lcm (a b : ℕ) : ℕ := if a≠0 ∧ b≠0 then a*b/Nat.gcd a b else if b≠0 then b else a

/-- An unsigned int minus one. -/
def dec (x : ℕ) : ℕ := (x+(2^32-1))%2^32

/-- The larger of physical_block_size and io_min. -/
def granularity (b : QueueLimits) : ℕ := max b.physicalBlockSize b.ioMin

def queueLimitAlignmentOffset (b : QueueLimits) (start : ℕ) : ℕ :=
  (granularity b+b.alignmentOffset+(2^32-((start*512)%2^64 &&& dec (granularity b))))%2^32 &&& dec (granularity b)

/-- Top and bottom intervals line up. -/
def linesUp (top bottom : ℕ) : Bool := decide (max top bottom &&& dec (min top bottom)=0)

/-- A granularity plus an alignment, an unsigned int. -/
def interval (g a : ℕ) : ℕ := (g+a)%2^32

/-- The sizes after a component has been stacked. -/
structure Sizes where
  /-- logical_block_size. -/
  logical : ℕ
  /-- physical_block_size. -/
  physical : ℕ
  ioMin : ℕ
  ioOpt : ℕ
  /-- Some size had to be changed. -/
  bad : Bool

/-- A size that is not a multiple of another one is replaced by it. -/
def raiseTo (x y : ℕ) : ℕ := if x &&& dec y≠0 then y else x

/-- The part of blk_stack_limits on sizes. -/
def stackSizes (t b : QueueLimits) : Sizes :=
  let logical := max t.logicalBlockSize b.logicalBlockSize
  let physical := raiseTo (max t.physicalBlockSize b.physicalBlockSize) logical
  let ioMin := raiseTo (max t.ioMin b.ioMin) physical
  let ioOpt := lcm t.ioOpt b.ioOpt%2^32
  ⟨logical,physical,ioMin,if ioOpt &&& dec physical≠0 then 0 else ioOpt,
    decide (max t.physicalBlockSize b.physicalBlockSize &&& dec logical≠0) ||
      decide (max t.ioMin b.ioMin &&& dec physical≠0) || decide (ioOpt &&& dec physical≠0)⟩

/-- The lowest common alignment_offset. -/
def stackAlignment (t b : QueueLimits) (alignment : ℕ) : ℕ :=
  lcm t.alignmentOffset alignment &&& dec (max (stackSizes t b).physical (stackSizes t b).ioMin)

/-- The alignments do not fit together. -/
def clash (t b : QueueLimits) (alignment : ℕ) : Bool :=
  decide (t.alignmentOffset≠alignment) &&
    !linesUp (interval (granularity t) t.alignmentOffset) (interval (granularity b) alignment)

section

-- queue_limit_discard_alignment, of which nothing is known
variable (discardAlign : QueueLimits → ℕ → ℕ)

/-- The part of blk_stack_limits on discard, for a component with a discard_granularity. -/
def stackDiscard (t b : QueueLimits) (start : ℕ) : QueueLimits :=
  let discards := decide (b.discardGranularity≠0)
  let alignment := discardAlign b start
  let granularity := max t.discardGranularity b.discardGranularity
  {t with
    discardMisaligned := t.discardMisaligned ||
      (discards && decide (t.discardGranularity≠0 ∧ t.discardAlignment≠alignment) &&
        !linesUp (interval t.discardGranularity t.discardAlignment) (interval b.discardGranularity alignment))
    maxDiscardSectors := if discards then minNotZero t.maxDiscardSectors b.maxDiscardSectors else t.maxDiscardSectors
    discardGranularity := if discards then granularity else t.discardGranularity
    discardAlignment := if discards then lcm t.discardAlignment alignment &&& dec granularity else t.discardAlignment}

/-- Whether blk_stack_limits returns -1. -/
def stackFails (t b : QueueLimits) (start : ℕ) : Bool :=
  let alignment := queueLimitAlignmentOffset b start
  clash t b alignment || (stackSizes t b).bad ||
    decide (stackAlignment t b alignment &&& dec (stackSizes t b).logical≠0)

def blkStackLimits (t b : QueueLimits) (start : ℕ) : QueueLimits × ℤ :=
  let new : QueueLimits := {t with
    maxSectors := minNotZero t.maxSectors b.maxSectors
    maxHwSectors := minNotZero t.maxHwSectors b.maxHwSectors
    bouncePfn := minNotZero t.bouncePfn b.bouncePfn
    segBoundaryMask := minNotZero t.segBoundaryMask b.segBoundaryMask
    maxSegments := minNotZero t.maxSegments b.maxSegments
    maxIntegritySegments := minNotZero t.maxIntegritySegments b.maxIntegritySegments
    maxSegmentSize := minNotZero t.maxSegmentSize b.maxSegmentSize
    misaligned := t.misaligned || b.misaligned || stackFails t b start
    logicalBlockSize := (stackSizes t b).logical
    physicalBlockSize := (stackSizes t b).physical
    ioMin := (stackSizes t b).ioMin
    ioOpt := (stackSizes t b).ioOpt
    cluster := t.cluster && b.cluster
    discardZeroesData := t.discardZeroesData && b.discardZeroesData
    alignmentOffset := stackAlignment t b (queueLimitAlignmentOffset b start)}
  (stackDiscard discardAlign new b start,if stackFails t b start then -1 else 0)

end

/-- A size: a power of two that an unsigned int can hold. -/
def Size (x : ℕ) : Prop := x.isPowerOfTwo ∧ x<2^32

/-- A component: its limits and its first data sector. -/
structure Component where
  limits : QueueLimits
  /-- The first data sector. -/
  start : ℕ
  logical : Size limits.logicalBlockSize
  physical : Size limits.physicalBlockSize
  ioMin : Size limits.ioMin

def Component.alignment (c : Component) : ℕ := queueLimitAlignmentOffset c.limits c.start

section

variable (discardAlign : QueueLimits → ℕ → ℕ)

/-- The limits after one more component. -/
def stack (t : QueueLimits) (c : Component) : QueueLimits := (blkStackLimits discardAlign t c.limits c.start).1

/-- The limits after some components. -/
def stackAll (t : QueueLimits) (cs : List Component) : QueueLimits := cs.foldl (stack discardAlign) t

/-- Every call returns 0. -/
def AllAligned (t : QueueLimits) : List Component → Prop
  | [] => True
  | c::cs => (blkStackLimits discardAlign t c.limits c.start).2=0 ∧ AllAligned (stack discardAlign t c) cs

/-- Where alignments are compared, the smaller of the two sums is a power of two. -/
def Regular (t : QueueLimits) : List Component → Prop
  | [] => True
  | c::cs => (t.alignmentOffset=c.alignment ∨
      (min (interval (granularity t) t.alignmentOffset) (interval (granularity c.limits) c.alignment)).isPowerOfTwo) ∧
    Regular (stack discardAlign t c) cs

/-- No least common multiple of optimal sizes is too large for an unsigned int. -/
def OptFits (t : QueueLimits) : List Component → Prop
  | [] => True
  | c::cs => lcm t.ioOpt c.limits.ioOpt<2^32 ∧ OptFits (stack discardAlign t c) cs

end

section

variable {discardAlign : QueueLimits → ℕ → ℕ} {t : QueueLimits} {c : Component} {x y : ℕ}

theorem dec_eq (h : Size x) : dec x=x-1 := by
  have hpos := Nat.pos_of_isPowerOfTwo h.1
  have hlt := h.2
  unfold dec
  omega

theorem and_dec_lt (h : Size x) (z : ℕ) : z &&& dec x<x := by
  rw [dec_eq h,and_pred_eq_mod h.1]
  exact Nat.mod_lt z (Nat.pos_of_isPowerOfTwo h.1)

variable {z a b α : ℕ} {done : List Component}

theorem and_dec_of_lt (h : Size x) (hz : z<x) : z &&& dec x=z := by
  rw [dec_eq h]
  exact and_pred_of_lt h.1 hz

theorem and_dec_eq_zero_iff (h : Size x) : z &&& dec x=0 ↔ x ∣ z := by
  rw [dec_eq h]
  exact and_pred_eq_zero_iff h.1

theorem Size.max (hx : Size x) (hy : Size y) : Size (max x y) := ⟨isPowerOfTwo_max hx.1 hy.1,max_lt hx.2 hy.2⟩

/-- A size that is not a multiple of another one is smaller. -/
theorem lt_of_and_dec_ne_zero (hx : Size x) (hy : Size y) (h : x &&& dec y≠0) : x<y := by
  by_contra hge
  exact h ((and_dec_eq_zero_iff hy).mpr (dvd_of_le hy.1 hx.1 (not_lt.mp hge)))

theorem le_of_and_dec_eq_zero (hx : Size x) (hy : Size y) (h : x &&& dec y=0) : y≤x :=
  Nat.le_of_dvd (Nat.pos_of_isPowerOfTwo hx.1) ((and_dec_eq_zero_iff hy).mp h)

/-- A size and a smaller alignment do not wrap. -/
theorem interval_eq (h : Size x) (ha : a<x) : interval x a=x+a := by
  have htop : (2^31 : ℕ).isPowerOfTwo := ⟨31,rfl⟩
  have hle : x≤2^31 := le_of_lt_double h.1 htop (by have := h.2; omega)
  unfold interval
  exact Nat.mod_eq_of_lt (by omega)

theorem Component.size (c : Component) : Size (granularity c.limits) := c.physical.max c.ioMin

theorem Component.alignment_lt (c : Component) : c.alignment<granularity c.limits := and_dec_lt c.size _

/-- lcm is zero for zeros, and otherwise the other argument for one zero. -/
theorem lcm_eq (a b : ℕ) : lcm a b=if a=0 then b else if b=0 then a else Nat.lcm a b := by
  unfold lcm
  by_cases ha : a=0
  · by_cases hb : b=0
    · simp [ha,hb]
    · simp [ha,hb]
  · by_cases hb : b=0
    · simp [ha,hb]
    · simp [ha,hb,Nat.lcm]

/-- lcm of alignments that are zero or the same. -/
theorem lcm_of_same (ha : a=0 ∨ a=α) (hb : b=0 ∨ b=α) : lcm a b=0 ∨ lcm a b=α := by
  rw [lcm_eq]
  rcases ha with rfl|rfl
  · rw [if_pos rfl]
    exact hb
  · rcases hb with rfl|rfl
    · rw [if_pos rfl]
      split
      case isTrue => exact .inl rfl
      case isFalse => exact .inr rfl
    · rw [Nat.lcm_self,ite_self,ite_self]
      exact .inr rfl

/-- lcm of alignments that are zero or the same, one of which is it. -/
theorem lcm_eq_of_same (ha : a=0 ∨ a=α) (hb : b=0 ∨ b=α) (h : a=α ∨ b=α) : lcm a b=α := by
  rw [lcm_eq]
  rcases h with rfl|rfl
  · rcases hb with rfl|rfl
    · rw [if_pos rfl]
      split
      case isTrue hz => exact hz.symm
      case isFalse => rfl
    · rw [Nat.lcm_self,ite_self,ite_self]
  · rcases ha with rfl|rfl
    · rw [if_pos rfl]
    · rw [Nat.lcm_self,ite_self,ite_self]

/-- Limits as the stacking leaves them: the sizes are sizes, and the alignment is below the
granularity. -/
structure Sound (t : QueueLimits) : Prop where
  logical : Size t.logicalBlockSize
  physical : Size t.physicalBlockSize
  ioMin : Size t.ioMin
  alignment : t.alignmentOffset<granularity t

theorem Sound.size (h : Sound t) : Size (granularity t) := h.physical.max h.ioMin

theorem Sound.logical_step (h : Sound t) (c : Component) : Size (stackSizes t c.limits).logical :=
  h.logical.max c.logical

/-- A size that is replaced if it is not a multiple of another one is not smaller than before. -/
theorem raiseTo_spec (hx : Size x) (hy : Size y) :
    Size (raiseTo x y) ∧ x ≤ raiseTo x y ∧ raiseTo x y ≤ max x y := by
  unfold raiseTo
  split
  case isTrue hbad => exact ⟨hy,(lt_of_and_dec_ne_zero hx hy hbad).le,le_max_right x y⟩
  case isFalse => exact ⟨hx,le_refl x,le_max_left x y⟩

/-- The new physical_block_size: the larger one, or the new logical_block_size if that is larger. -/
theorem Sound.physical_step (h : Sound t) (c : Component) : Size (stackSizes t c.limits).physical ∧
      max t.physicalBlockSize c.limits.physicalBlockSize≤(stackSizes t c.limits).physical ∧
      (stackSizes t c.limits).physical ≤
        max (max t.physicalBlockSize c.limits.physicalBlockSize) (stackSizes t c.limits).logical :=
  raiseTo_spec (h.physical.max c.physical) (h.logical_step c)

/-- The new io_min: the larger one, or the new physical_block_size if that is larger. -/
theorem Sound.ioMin_step (h : Sound t) (c : Component) :
    Size (stackSizes t c.limits).ioMin ∧ max t.ioMin c.limits.ioMin≤(stackSizes t c.limits).ioMin ∧
      (stackSizes t c.limits).ioMin ≤ max (max t.ioMin c.limits.ioMin) (stackSizes t c.limits).physical :=
  raiseTo_spec (h.ioMin.max c.ioMin) (h.physical_step c).1

/-- The new granularity is not smaller than either of the two. -/
theorem Sound.granularity_step (h : Sound t) (discardAlign : QueueLimits → ℕ → ℕ) (c : Component) :
    Size (granularity (stack discardAlign t c)) ∧ granularity t≤granularity (stack discardAlign t c) ∧
      granularity c.limits≤granularity (stack discardAlign t c) := by
  obtain ⟨hphys,hple,-⟩ := h.physical_step c
  obtain ⟨hmin,hmle,-⟩ := h.ioMin_step c
  obtain ⟨hpt,hpc⟩ := max_le_iff.mp hple
  obtain ⟨hmt,hmc⟩ := max_le_iff.mp hmle
  exact ⟨hphys.max hmin,max_le_max hpt hmt,max_le_max hpc hmc⟩

/-- Stacking leaves limits as they should be. -/
theorem Sound.step (h : Sound t) (discardAlign : QueueLimits → ℕ → ℕ) (c : Component) :
    Sound (stack discardAlign t c) :=
  ⟨h.logical_step c,(h.physical_step c).1,(h.ioMin_step c).1,and_dec_lt (h.granularity_step discardAlign c).1 _⟩

/-- The new alignment_offset, if no bit is cut off. -/
theorem Sound.alignment_step (h : Sound t) (c : Component)
    (hlt : lcm t.alignmentOffset c.alignment<granularity (stack discardAlign t c)) :
    (stack discardAlign t c).alignmentOffset=lcm t.alignmentOffset c.alignment :=
  and_dec_of_lt (h.granularity_step discardAlign c).1 hlt

theorem size_two_pow {k : ℕ} (hk : k<32) : Size (2^k) := ⟨⟨k,rfl⟩,Nat.pow_lt_pow_right (by decide) hk⟩

theorem size_sector : Size 512 := ⟨⟨9,rfl⟩,by decide⟩

theorem sound_default (bounceAny : ℕ) : Sound (blkSetDefaultLimits bounceAny) :=
  ⟨size_sector,size_sector,size_sector,Nat.pos_of_isPowerOfTwo (size_sector.max size_sector).1⟩

theorem raiseTo_of_multiple (h : x &&& dec y=0) : raiseTo x y=x := if_neg (not_not.mpr h)

/-- What is known when a call returns 0: the alignments are the same or line up, and the sizes are
the larger ones. -/
structure Aligned (t : QueueLimits) (c : Component) : Prop where
  alignments : t.alignmentOffset=c.alignment ∨
    linesUp (interval (granularity t) t.alignmentOffset) (interval (granularity c.limits) c.alignment)=true
  physical : (stackSizes t c.limits).physical=max t.physicalBlockSize c.limits.physicalBlockSize
  ioMin : (stackSizes t c.limits).ioMin=max t.ioMin c.limits.ioMin
  ioOpt : (stackSizes t c.limits).ioOpt=lcm t.ioOpt c.limits.ioOpt%2^32
  /-- The logical block size is the smallest. -/
  logical_le : (stackSizes t c.limits).logical≤(stackSizes t c.limits).physical
  /-- The smallest request is the largest. -/
  physical_le : (stackSizes t c.limits).physical≤(stackSizes t c.limits).ioMin

/-- A call that returns 0 has found nothing wrong. -/
theorem stackFails_of_ret (hret : (blkStackLimits discardAlign t c.limits c.start).2=0) :
    stackFails t c.limits c.start=false := by
  unfold blkStackLimits at hret
  dsimp only at hret
  split at hret
  case isTrue => cases hret
  case isFalse hf => exact Bool.eq_false_iff.mpr hf

/-- A call that returns 0 has found no clash, and sizes that are multiples of each other. -/
theorem checks_of_ret (hret : (blkStackLimits discardAlign t c.limits c.start).2=0) :
    clash t c.limits c.alignment=false ∧
      max t.physicalBlockSize c.limits.physicalBlockSize &&& dec (stackSizes t c.limits).logical=0 ∧
      max t.ioMin c.limits.ioMin &&& dec (stackSizes t c.limits).physical=0 ∧
      lcm t.ioOpt c.limits.ioOpt%2^32 &&& dec (stackSizes t c.limits).physical=0 := by
  have hok := stackFails_of_ret hret
  unfold stackFails at hok
  simp only [Bool.or_eq_false_iff] at hok
  obtain ⟨⟨hclash,hbad⟩,-⟩ := hok
  unfold stackSizes at hbad
  simp only [Bool.or_eq_false_iff,decide_eq_false_iff_not,not_not] at hbad
  exact ⟨hclash,hbad.1.1,hbad.1.2,hbad.2⟩

/-- A call that returns 0. -/
theorem Sound.aligned (h : Sound t) (hret : (blkStackLimits discardAlign t c.limits c.start).2=0) : Aligned t c := by
  obtain ⟨hclash,hp,hm,ho⟩ := checks_of_ret hret
  have hphys : (stackSizes t c.limits).physical=max t.physicalBlockSize c.limits.physicalBlockSize :=
    raiseTo_of_multiple hp
  have hmin : (stackSizes t c.limits).ioMin=max t.ioMin c.limits.ioMin := raiseTo_of_multiple hm
  refine ⟨?_,hphys,hmin,if_neg (not_not.mpr ho),?_,?_⟩
  · unfold clash at hclash
    rw [Bool.and_eq_false_iff,decide_eq_false_iff_not,not_not,Bool.not_eq_false'] at hclash
    exact hclash
  · rw [hphys]
    exact le_of_and_dec_eq_zero (h.physical.max c.physical) (h.logical_step c) hp
  · rw [hmin]
    exact le_of_and_dec_eq_zero (h.ioMin.max c.ioMin) (h.physical_step c).1 hm

/-- Two alignments that line up where the smaller sum is a power of two: one of them is zero, and its
granularity divides the other one. -/
theorem zero_of_linesUp {g g' a' : ℕ} (hg : Size g) (ha : a<g) (hg' : Size g') (ha' : a'<g')
    (hpow : (min (interval g a) (interval g' a')).isPowerOfTwo) (h : linesUp (interval g a) (interval g' a')=true) :
    a=0 ∧ g ∣ a' ∨ a'=0 ∧ g' ∣ a := by
  -- the smaller sum is a granularity, since there is no other power of two between it and its double
  have hone : ∀ {g a g' a' : ℕ}, Size g → a<g → Size g' → a'<g' → g+a≤g'+a' → (g+a).isPowerOfTwo →
      linesUp (g+a) (g'+a')=true → a=0 ∧ g ∣ a' := by
    intro g a g' a' hg ha hg' ha' hle hpow h
    have hsum : g+a=g := le_antisymm (le_of_lt_double hpow hg.1 (by omega)) (Nat.le_add_right g a)
    have hzero : a=0 := by omega
    have hle' : g≤g' := le_of_lt_double hg.1 hg'.1 (by omega)
    unfold linesUp at h
    rw [max_eq_right hle,min_eq_left hle,hsum,decide_eq_true_eq,and_dec_eq_zero_iff hg] at h
    exact ⟨hzero,(Nat.dvd_add_right (dvd_of_le hg.1 hg'.1 hle')).mp h⟩
  rw [interval_eq hg ha,interval_eq hg' ha'] at h hpow
  rcases le_total (g+a) (g'+a') with hle|hle
  · rw [min_eq_left hle] at hpow
    exact .inl (hone hg ha hg' ha' hle hpow h)
  · rw [min_eq_right hle] at hpow
    have hswap : linesUp (g'+a') (g+a)=true := by
      unfold linesUp at h ⊢
      rw [max_comm,min_comm]
      exact h
    exact .inr (hone hg' ha' hg ha hle hpow hswap)

/-- The largest value of some components and a start. -/
def largest (f : Component → ℕ) (x : ℕ) (cs : List Component) : ℕ := cs.foldl (fun m c => max m (f c)) x

/-- The start is not larger. -/
theorem le_largest (f : Component → ℕ) (x : ℕ) (cs : List Component) : x≤largest f x cs := by
  induction cs generalizing x with
  | nil => exact le_refl x
  | cons c cs ih => exact (le_max_left x (f c)).trans (ih (max x (f c)))

/-- A larger start that the largest value reaches anyway makes no difference. -/
theorem largest_of_le {f : Component → ℕ} {cs : List Component} (hxy : x≤y) (hy : y≤largest f x cs) :
    largest f y cs=largest f x cs := by
  induction cs generalizing x y with
  | nil => exact le_antisymm hy hxy
  | cons c cs ih =>
    refine ih (max_le_max_right (f c) hxy) (max_le hy ?_)
    exact (le_max_right x (f c)).trans (le_largest f (max x (f c)) cs)

theorem largest_concat (f : Component → ℕ) (x : ℕ) (cs : List Component) (c : Component) :
    largest f x (cs++[c])=max (largest f x cs) (f c) := by
  unfold largest
  rw [foldl_append]
  rfl

/-- The components so far when all calls returned 0: they have no larger granularity, and the
alignment of each is the common one, or is zero and its granularity divides the common one. -/
structure Stacked (t : QueueLimits) (done : List Component) : Prop where
  /-- The limits are as they should be. -/
  sound : Sound t
  ordered : t.logicalBlockSize≤t.physicalBlockSize ∧ t.physicalBlockSize≤t.ioMin
  covers : ∀ c∈done, granularity c.limits≤granularity t
  common : ∀ c∈done, c.alignment=t.alignmentOffset ∨ c.alignment=0 ∧ granularity c.limits ∣ t.alignmentOffset
  /-- The common alignment is that of some component. -/
  origin : t.alignmentOffset=0 ∨ ∃ c∈done, c.alignment=t.alignmentOffset
  logical : t.logicalBlockSize=largest (fun c => c.limits.logicalBlockSize) 512 done
  physical : t.physicalBlockSize=largest (fun c => c.limits.physicalBlockSize) 512 done
  /-- The smallest request. -/
  ioMin : t.ioMin=largest (fun c => c.limits.ioMin) 512 done

/-- The alignment after a call that returned 0, with the alignment of the component. -/
theorem Aligned.cases (h : Aligned t c) (hs : Sound t) (hreg : t.alignmentOffset=c.alignment ∨
      (min (interval (granularity t) t.alignmentOffset) (interval (granularity c.limits) c.alignment)).isPowerOfTwo) :
    t.alignmentOffset=c.alignment ∨ t.alignmentOffset=0 ∧ granularity t ∣ c.alignment ∨
      c.alignment=0 ∧ granularity c.limits ∣ t.alignmentOffset := by
  rcases hreg with heq|hpow
  · exact .inl heq
  · rcases h.alignments with heq|hup
    · exact .inl heq
    · exact .inr (zero_of_linesUp hs.size hs.alignment c.size c.alignment_lt hpow hup)

/-- Alignments that are zero or a common value become it if one of the two is. -/
theorem Sound.alignment_same (h : Sound t) (discardAlign : QueueLimits → ℕ → ℕ) (c : Component)
    (ht : t.alignmentOffset=0 ∨ t.alignmentOffset=α) (hc : c.alignment=0 ∨ c.alignment=α) :
    ((stack discardAlign t c).alignmentOffset=0 ∨ (stack discardAlign t c).alignmentOffset=α) ∧
      (t.alignmentOffset=α ∨ c.alignment=α → (stack discardAlign t c).alignmentOffset=α) := by
  obtain ⟨hsize,hgt,hgc⟩ := h.granularity_step discardAlign c
  have hcut : lcm t.alignmentOffset c.alignment<granularity (stack discardAlign t c) := by
    by_cases hex : t.alignmentOffset=α ∨ c.alignment=α
    · rw [lcm_eq_of_same ht hc hex]
      rcases hex with hex|hex
      · rw [← hex]
        exact h.alignment.trans_le hgt
      · rw [← hex]
        exact c.alignment_lt.trans_le hgc
    · have hzero : t.alignmentOffset=0 := ht.resolve_right (fun he => hex (.inl he))
      have hzero' : c.alignment=0 := hc.resolve_right (fun he => hex (.inr he))
      rw [hzero,hzero',lcm_eq,if_pos rfl]
      exact Nat.pos_of_isPowerOfTwo hsize.1
  rw [h.alignment_step c hcut]
  exact ⟨lcm_of_same ht hc,lcm_eq_of_same ht hc⟩

/-- One more component after a call that returned 0. -/
theorem Stacked.step (h : Stacked t done) (hret : (blkStackLimits discardAlign t c.limits c.start).2=0)
    (hreg : t.alignmentOffset=c.alignment ∨
      (min (interval (granularity t) t.alignmentOffset) (interval (granularity c.limits) c.alignment)).isPowerOfTwo) :
    Stacked (stack discardAlign t c) (done++[c]) := by
  have hal := h.sound.aligned hret
  obtain ⟨-,hgt,hgc⟩ := h.sound.granularity_step discardAlign c
  -- the new alignment is that of the top or of the component, and what is zero divides it
  have hnew : ((stack discardAlign t c).alignmentOffset=t.alignmentOffset ∧
        (c.alignment=t.alignmentOffset ∨ c.alignment=0 ∧ granularity c.limits ∣ t.alignmentOffset)) ∨
      ((stack discardAlign t c).alignmentOffset=c.alignment ∧ t.alignmentOffset=0 ∧ granularity t ∣ c.alignment) := by
    rcases hal.cases h.sound hreg with heq|⟨hz,hdvd⟩|⟨hz,hdvd⟩
    · have hsame := h.sound.alignment_same discardAlign c (.inr rfl) (.inr heq.symm)
      exact .inl ⟨hsame.2 (.inl rfl),.inl heq.symm⟩
    · have hsame := h.sound.alignment_same discardAlign c (.inl hz) (.inr rfl)
      exact .inr ⟨hsame.2 (.inr rfl),hz,hdvd⟩
    · have hsame := h.sound.alignment_same discardAlign c (.inr rfl) (.inl hz)
      exact .inl ⟨hsame.2 (.inl rfl),.inr ⟨hz,hdvd⟩⟩
  refine ⟨h.sound.step discardAlign c,⟨hal.logical_le,hal.physical_le⟩,?_,?_,?_,?_,?_,?_⟩
  · intro d hd
    rcases mem_append.mp hd with hd|hd
    · exact (h.covers d hd).trans hgt
    · rw [mem_singleton.mp hd]
      exact hgc
  · intro d hd
    rcases hnew with ⟨hkeep,hc⟩|⟨htake,hz,hdvd⟩
    · rw [hkeep]
      rcases mem_append.mp hd with hd|hd
      · exact h.common d hd
      · rw [mem_singleton.mp hd]
        exact hc
    · rw [htake]
      rcases mem_append.mp hd with hd|hd
      · have hdz : d.alignment=0 := by
          rcases h.common d hd with he|he
          · rw [he,hz]
          · exact he.1
        have hsize := dvd_of_le d.size.1 h.sound.size.1 (h.covers d hd)
        exact .inr ⟨hdz,hsize.trans hdvd⟩
      · rw [mem_singleton.mp hd]
        exact .inl rfl
  · rcases hnew with ⟨hkeep,-⟩|⟨htake,-,-⟩
    · rw [hkeep]
      exact h.origin.imp_right (fun ⟨d,hd,he⟩ => ⟨d,mem_append_left [c] hd,he⟩)
    · exact .inr ⟨c,mem_append_right done (mem_singleton_self c),htake.symm⟩
  · rw [largest_concat,← h.logical]
    rfl
  · rw [largest_concat,← h.physical]
    exact hal.physical
  · rw [largest_concat,← h.ioMin]
    exact hal.ioMin

/-- All components after calls that returned 0. -/
theorem Stacked.run {cs : List Component} (h : Stacked t done) (hret : AllAligned discardAlign t cs)
    (hreg : Regular discardAlign t cs) : Stacked (stackAll discardAlign t cs) (done++cs) := by
  induction cs generalizing t done with
  | nil =>
    rw [append_nil]
    exact h
  | cons c cs ih =>
    have hrest := ih (h.step hret.1 hreg.1) hret.2 hreg.2
    rw [append_assoc] at hrest
    exact hrest

/-- Sizes after any calls are the largest ones, if those are ordered. -/
theorem Sound.run_sizes (h : Sound t) (discardAlign : QueueLimits → ℕ → ℕ) (cs : List Component)
    (hlp : largest (fun c => c.limits.logicalBlockSize) t.logicalBlockSize cs ≤
      largest (fun c => c.limits.physicalBlockSize) t.physicalBlockSize cs)
    (hpm : largest (fun c => c.limits.physicalBlockSize) t.physicalBlockSize cs ≤
      largest (fun c => c.limits.ioMin) t.ioMin cs) :
    (stackAll discardAlign t cs).logicalBlockSize=largest (fun c => c.limits.logicalBlockSize) t.logicalBlockSize cs ∧
      (stackAll discardAlign t cs).physicalBlockSize=
        largest (fun c => c.limits.physicalBlockSize) t.physicalBlockSize cs ∧
      (stackAll discardAlign t cs).ioMin=largest (fun c => c.limits.ioMin) t.ioMin cs := by
  induction cs generalizing t with
  | nil => exact ⟨rfl,rfl,rfl⟩
  | cons c cs ih =>
    obtain ⟨-,hple,hpub⟩ := h.physical_step c
    obtain ⟨-,hmle,hmub⟩ := h.ioMin_step c
    have hlog : (stackSizes t c.limits).logical ≤
        largest (fun c => c.limits.logicalBlockSize) t.logicalBlockSize (c::cs) := le_largest _ _ cs
    have hphys : largest (fun c => c.limits.physicalBlockSize) (stackSizes t c.limits).physical cs=
        largest (fun c => c.limits.physicalBlockSize) t.physicalBlockSize (c::cs) :=
      largest_of_le hple (hpub.trans (max_le (le_largest _ _ cs) (hlog.trans hlp)))
    have hple' : (stackSizes t c.limits).physical ≤
        largest (fun c => c.limits.physicalBlockSize) t.physicalBlockSize (c::cs) :=
      hphys ▸ le_largest _ (stackSizes t c.limits).physical cs
    have hmin : largest (fun c => c.limits.ioMin) (stackSizes t c.limits).ioMin cs=
        largest (fun c => c.limits.ioMin) t.ioMin (c::cs) :=
      largest_of_le hmle (hmub.trans (max_le (le_largest _ _ cs) (hple'.trans hpm)))
    have hrest := ih (h.step discardAlign c) (hlp.trans_eq hphys.symm)
      ((hphys.trans_le hpm).trans_eq hmin.symm)
    exact ⟨hrest.1,hrest.2.1.trans hphys,hrest.2.2.trans hmin⟩

/-- Alignments that are zero or a common value leave it if one of them is. -/
theorem Sound.run_alignment (h : Sound t) (cs : List Component) (ht : t.alignmentOffset=0 ∨ t.alignmentOffset=α)
    (hcs : ∀ c∈cs, c.alignment=0 ∨ c.alignment=α) (hex : t.alignmentOffset=α ∨ ∃ c∈cs, c.alignment=α) :
    (stackAll discardAlign t cs).alignmentOffset=α := by
  induction cs generalizing t with
  | nil => exact hex.resolve_right (fun ⟨c,hc,_⟩ => not_mem_nil hc)
  | cons c cs ih =>
    obtain ⟨hval,hset⟩ := h.alignment_same discardAlign c ht (hcs c mem_cons_self)
    refine ih (h.step discardAlign c) hval (fun d hd => hcs d (mem_cons_of_mem c hd)) ?_
    rcases hex with he|⟨d,hd,he⟩
    · exact .inl (hset (.inl he))
    · rcases mem_cons.mp hd with hdc|hd
      · rw [hdc] at he
        exact .inl (hset (.inr he))
      · exact .inr ⟨d,hd,he⟩

/-- A value that every call combines with one of the component does not depend on the order. -/
theorem stackAll_perm {β : Type*} (f : QueueLimits → β) (op : β → Component → β)
    (hstep : ∀ t c, f (stack discardAlign t c)=op (f t) c) (hswap : ∀ z c d, op (op z c) d=op (op z d) c)
    {cs ds : List Component} (hperm : cs.Perm ds) :
    f (stackAll discardAlign t cs)=f (stackAll discardAlign t ds) := by
  have hfold (cs : List Component) : cs.foldl op (f t)=f (stackAll discardAlign t cs) :=
    foldl_hom f (fun t c => (hstep t c).symm)
  have : RightCommutative op := ⟨hswap⟩
  rw [← hfold,← hfold]
  exact hperm.foldl_eq (f t)

theorem minNotZero_swap (z x y : ℕ) : minNotZero (minNotZero z x) y=minNotZero (minNotZero z y) x := by
  unfold minNotZero
  split_ifs <;> omega

/-- lcm may be taken in any order. -/
theorem lcm_swap (z x y : ℕ) : lcm (lcm z x) y=lcm (lcm z y) x := by
  have hne : ∀ {a b : ℕ}, a≠0 → b≠0 → ¬Nat.lcm a b=0 := fun ha hb => Nat.lcm_ne_zero ha hb
  simp only [lcm_eq]
  by_cases hz : z=0
  · by_cases hx : x=0
    · simp [hz,hx]
    · by_cases hy : y=0
      · simp [hz,hx,hy]
      · simp [hz,hx,hy,Nat.lcm_comm]
  · by_cases hx : x=0
    · by_cases hy : y=0
      · simp [hx,hy]
      · simp [hz,hx,hy]
    · by_cases hy : y=0
      · simp [hz,hx,hy]
      · simp [hz,hx,hy,hne hz hx,hne hz hy,Nat.lcm_assoc,Nat.lcm_comm x y]

/-- The largest value does not depend on the order. -/
theorem largest_perm (f : Component → ℕ) (x : ℕ) {cs ds : List Component} (h : cs.Perm ds) :
    largest f x cs=largest f x ds := by
  have : RightCommutative (fun m (c : Component) => max m (f c)) := ⟨fun m c d => max_right_comm m (f c) (f d)⟩
  exact h.foldl_eq x

/-- The least common multiple of the optimal sizes of some components. -/
def optimal (x : ℕ) (cs : List Component) : ℕ := cs.foldl (fun o c => lcm o c.limits.ioOpt) x

/-- Values that are not zero are related to what they are combined to, if that is so for two. -/
theorem foldl_related {S : ℕ → ℕ → Prop} [Std.Refl S] [IsTrans ℕ S] {op : ℕ → ℕ → ℕ}
    (h : ∀ x y, (x≠0 → op x y≠0 ∧ S x (op x y)) ∧ (y≠0 → op x y≠0 ∧ S y (op x y))) {β : Type*} (f : β → ℕ) (x : ℕ)
    (cs : List β) : (x≠0 → S x (cs.foldl (fun z c => op z (f c)) x)) ∧
      ∀ c∈cs, f c≠0 → S (f c) (cs.foldl (fun z c => op z (f c)) x) := by
  induction cs generalizing x with
  | nil => exact ⟨fun _ => refl_of S x,nofun⟩
  | cons c cs ih =>
    obtain ⟨hx,hcs⟩ := ih (op x (f c))
    obtain ⟨hl,hr⟩ := h x (f c)
    exact ⟨fun h0 => trans_of S (hl h0).2 (hx (hl h0).1),
      forall_mem_cons.mpr ⟨fun h0 => trans_of S (hr h0).2 (hx (hr h0).1),hcs⟩⟩

theorem dvd_lcm (x y : ℕ) : (x≠0 → lcm x y≠0 ∧ x ∣ lcm x y) ∧ (y≠0 → lcm x y≠0 ∧ y ∣ lcm x y) := by
  rw [lcm_eq]
  split_ifs with hx hy
  · exact ⟨fun h => absurd hx h,fun h => ⟨h,dvd_refl y⟩⟩
  · exact ⟨fun h => ⟨h,dvd_refl x⟩,fun h => absurd hy h⟩
  · exact ⟨fun _ => ⟨Nat.lcm_ne_zero hx hy,Nat.dvd_lcm_left x y⟩,fun _ => ⟨Nat.lcm_ne_zero hx hy,Nat.dvd_lcm_right x y⟩⟩

/-- A call that returned 0 stores a least common multiple that fits. -/
theorem Sound.ioOpt_step (h : Sound t) (hret : (blkStackLimits discardAlign t c.limits c.start).2=0)
    (hfits : lcm t.ioOpt c.limits.ioOpt<2^32) : (stack discardAlign t c).ioOpt=lcm t.ioOpt c.limits.ioOpt :=
  (h.aligned hret).ioOpt.trans (Nat.mod_eq_of_lt hfits)

/-- If the least common multiple of all optimal sizes fits, so do all those that are computed. -/
theorem Sound.optFits (h : Sound t) {cs : List Component} (hret : AllAligned discardAlign t cs)
    (hfits : optimal t.ioOpt cs<2^32) : OptFits discardAlign t cs := by
  have hle : ∀ x y, (x≠0 → lcm x y≠0 ∧ x≤lcm x y) ∧ (y≠0 → lcm x y≠0 ∧ y≤lcm x y) := fun x y =>
    ⟨fun hx => ((dvd_lcm x y).1 hx).imp_right (Nat.le_of_dvd (Nat.pos_of_ne_zero ((dvd_lcm x y).1 hx).1)),
      fun hy => ((dvd_lcm x y).2 hy).imp_right (Nat.le_of_dvd (Nat.pos_of_ne_zero ((dvd_lcm x y).2 hy).1))⟩
  induction cs generalizing t with
  | nil => trivial
  | cons c cs ih =>
    have hlt : lcm t.ioOpt c.limits.ioOpt<2^32 := by
      by_cases hz : lcm t.ioOpt c.limits.ioOpt=0
      · omega
      · exact ((foldl_related hle (fun c : Component => c.limits.ioOpt) _ cs).1 hz).trans_lt hfits
    refine ⟨hlt,ih (h.step discardAlign c) hret.2 ?_⟩
    rw [h.ioOpt_step hret.1 hlt]
    exact hfits

/-- The optimal size and the flag after calls that returned 0. -/
theorem Sound.run_opt (h : Sound t) {cs : List Component} (hret : AllAligned discardAlign t cs)
    (hfits : OptFits discardAlign t cs) : (stackAll discardAlign t cs).ioOpt=optimal t.ioOpt cs ∧
      (stackAll discardAlign t cs).misaligned=cs.foldl (fun m c => m || c.limits.misaligned) t.misaligned := by
  induction cs generalizing t with
  | nil => exact ⟨rfl,rfl⟩
  | cons c cs ih =>
    have hopt := h.ioOpt_step hret.1 hfits.1
    have hok := stackFails_of_ret hret.1
    have hflag : (stack discardAlign t c).misaligned=(t.misaligned || c.limits.misaligned) := by
      change (t.misaligned || c.limits.misaligned || stackFails t c.limits c.start)=_
      rw [hok,Bool.or_false]
    have hrest := ih (h.step discardAlign c) hret.2 hfits.2
    rw [hopt,hflag] at hrest
    exact hrest

end

/-- Limits that agree but for the optimal size, the alignment for discard, and the flags of both
alignments. -/
structure Agrees (t t' : QueueLimits) : Prop where
  alignmentOffset : t.alignmentOffset=t'.alignmentOffset
  logicalBlockSize : t.logicalBlockSize=t'.logicalBlockSize
  physicalBlockSize : t.physicalBlockSize=t'.physicalBlockSize
  ioMin : t.ioMin=t'.ioMin
  maxSectors : t.maxSectors=t'.maxSectors
  maxHwSectors : t.maxHwSectors=t'.maxHwSectors
  bouncePfn : t.bouncePfn=t'.bouncePfn
  segBoundaryMask : t.segBoundaryMask=t'.segBoundaryMask
  maxSegments : t.maxSegments=t'.maxSegments
  maxIntegritySegments : t.maxIntegritySegments=t'.maxIntegritySegments
  maxSegmentSize : t.maxSegmentSize=t'.maxSegmentSize
  cluster : t.cluster=t'.cluster
  discardZeroesData : t.discardZeroesData=t'.discardZeroesData
  maxDiscardSectors : t.maxDiscardSectors=t'.maxDiscardSectors
  discardGranularity : t.discardGranularity=t'.discardGranularity

section

variable {discardAlign : QueueLimits → ℕ → ℕ} {bounceAny : ℕ} {cs ds : List Component}

/-- Default limits are those of no component. -/
theorem stacked_default (bounceAny : ℕ) : Stacked (blkSetDefaultLimits bounceAny) [] :=
  ⟨sound_default bounceAny,⟨le_refl 512,le_refl 512⟩,nofun,nofun,.inl rfl,rfl,rfl,rfl⟩

/-- The limits do not depend on the order of components that can be stacked in one of the orders. -/
theorem Stacked.agrees (h : Stacked (stackAll discardAlign (blkSetDefaultLimits bounceAny) cs) cs)
    (hperm : ds.Perm cs) : Agrees (stackAll discardAlign (blkSetDefaultLimits bounceAny) ds)
      (stackAll discardAlign (blkSetDefaultLimits bounceAny) cs) := by
  have hsound := sound_default bounceAny
  have hord := h.ordered
  rw [h.logical,h.physical,h.ioMin,← largest_perm _ _ hperm,← largest_perm _ _ hperm,← largest_perm _ _ hperm] at hord
  obtain ⟨hl,hp,hm⟩ := hsound.run_sizes discardAlign ds hord.1 hord.2
  have halign : (stackAll discardAlign (blkSetDefaultLimits bounceAny) ds).alignmentOffset=
      (stackAll discardAlign (blkSetDefaultLimits bounceAny) cs).alignmentOffset := by
    refine hsound.run_alignment ds (.inl rfl) (fun c hc => ?_) ?_
    · rcases h.common c (hperm.mem_iff.mp hc) with he|he
      · exact .inr he
      · exact .inl he.1
    · rcases h.origin with he|⟨c,hc,he⟩
      · exact .inl he.symm
      · exact .inr ⟨c,hperm.mem_iff.mpr hc,he⟩
  have hmin : ∀ f : QueueLimits → ℕ, (∀ t c, f (stack discardAlign t c)=minNotZero (f t) (f c.limits)) →
      f (stackAll discardAlign (blkSetDefaultLimits bounceAny) ds)=
        f (stackAll discardAlign (blkSetDefaultLimits bounceAny) cs) :=
    fun f hf => stackAll_perm f (fun z c => minNotZero z (f c.limits)) hf (fun _ _ _ => minNotZero_swap _ _ _) hperm
  -- a component without discard_granularity leaves the limits for discard
  have hdiscard : ∀ (f : QueueLimits → ℕ) (op : ℕ → ℕ → ℕ), (∀ z x y, op (op z x) y=op (op z y) x) →
      (∀ t c, f (stack discardAlign t c)=
        if decide (c.limits.discardGranularity≠0) then op (f t) (f c.limits) else f t) →
      f (stackAll discardAlign (blkSetDefaultLimits bounceAny) ds)=
        f (stackAll discardAlign (blkSetDefaultLimits bounceAny) cs) := by
    intro f op hop hf
    refine stackAll_perm f (fun z c => if decide (c.limits.discardGranularity≠0) then op z (f c.limits) else z) hf
      (fun z c d => ?_) hperm
    split_ifs
    · exact hop _ _ _
    all_goals rfl
  refine ⟨halign,?_,?_,?_,?_,?_,?_,?_,?_,?_,?_,?_,?_,?_,?_⟩
  · rw [hl,h.logical]
    exact largest_perm _ _ hperm
  · rw [hp,h.physical]
    exact largest_perm _ _ hperm
  · rw [hm,h.ioMin]
    exact largest_perm _ _ hperm
  · exact hmin QueueLimits.maxSectors (fun _ _ => rfl)
  · exact hmin QueueLimits.maxHwSectors (fun _ _ => rfl)
  · exact hmin QueueLimits.bouncePfn (fun _ _ => rfl)
  · exact hmin QueueLimits.segBoundaryMask (fun _ _ => rfl)
  · exact hmin QueueLimits.maxSegments (fun _ _ => rfl)
  · exact hmin QueueLimits.maxIntegritySegments (fun _ _ => rfl)
  · exact hmin QueueLimits.maxSegmentSize (fun _ _ => rfl)
  · exact stackAll_perm _ (fun z c => z && c.limits.cluster) (fun _ _ => rfl)
      (fun _ _ _ => Bool.and_right_comm _ _ _) hperm
  · exact stackAll_perm _ (fun z c => z && c.limits.discardZeroesData) (fun _ _ => rfl)
      (fun _ _ _ => Bool.and_right_comm _ _ _) hperm
  · exact hdiscard QueueLimits.maxDiscardSectors minNotZero minNotZero_swap (fun _ _ => rfl)
  · exact hdiscard QueueLimits.discardGranularity max max_right_comm (fun _ _ => rfl)

end

/-- Stacked limits that report success are aligned with every component, and do not depend on the
order, if the smaller sum is a power of two wherever alignments are compared. The optimal size and
the flag for alignment depend on which calls fail, so they are the same for orders without a
failure, if the least common multiple of all optimal sizes fits. -/
theorem stacked_limits_aligned (discardAlign : QueueLimits → ℕ → ℕ) (bounceAny : ℕ) (cs : List Component)
    (hret : AllAligned discardAlign (blkSetDefaultLimits bounceAny) cs)
    (hreg : Regular discardAlign (blkSetDefaultLimits bounceAny) cs) :
    (∀ c∈cs, (stackAll discardAlign (blkSetDefaultLimits bounceAny) cs).alignmentOffset ≡
      c.alignment [MOD c.limits.physicalBlockSize]) ∧
    ∀ ds, ds.Perm cs →
      Agrees (stackAll discardAlign (blkSetDefaultLimits bounceAny) ds)
        (stackAll discardAlign (blkSetDefaultLimits bounceAny) cs) ∧
      (AllAligned discardAlign (blkSetDefaultLimits bounceAny) ds → optimal 0 cs<2^32 →
        (stackAll discardAlign (blkSetDefaultLimits bounceAny) ds).ioOpt=
            (stackAll discardAlign (blkSetDefaultLimits bounceAny) cs).ioOpt ∧
          (stackAll discardAlign (blkSetDefaultLimits bounceAny) ds).misaligned=
            (stackAll discardAlign (blkSetDefaultLimits bounceAny) cs).misaligned) := by
  have hsound := sound_default bounceAny
  have hrun := (stacked_default bounceAny).run hret hreg
  rw [nil_append] at hrun
  refine ⟨fun c hc => ?_,fun ds hperm => ⟨hrun.agrees hperm,fun hret' hfits => ?_⟩⟩
  · rcases hrun.common c hc with he|⟨hz,hdvd⟩
    · rw [he]
    · have hsize : c.limits.physicalBlockSize ∣ granularity c.limits :=
        dvd_of_le c.physical.1 c.size.1 (le_max_left _ _)
      rw [hz]
      exact (Nat.modEq_zero_iff_dvd).mpr (hsize.trans hdvd)
  · have : RightCommutative (fun o (c : Component) => lcm o c.limits.ioOpt) :=
      ⟨fun o c d => lcm_swap o c.limits.ioOpt d.limits.ioOpt⟩
    have : RightCommutative (fun m (c : Component) => m || c.limits.misaligned) :=
      ⟨fun m c d => Bool.or_right_comm m _ _⟩
    have horder : optimal 0 ds=optimal 0 cs := hperm.foldl_eq 0
    obtain ⟨hopt,hflag⟩ := hsound.run_opt hret (hsound.optFits hret hfits)
    obtain ⟨hopt',hflag'⟩ := hsound.run_opt hret' (hsound.optFits hret' (horder.trans_lt hfits))
    rw [hopt,hopt',hflag,hflag']
    exact ⟨horder,hperm.foldl_eq _⟩

/-- The limits of a disk with sectors of 512 bytes and larger physical blocks. -/
def diskLimits (k alignmentOffset : ℕ) : QueueLimits :=
  {blkSetDefaultLimits 0 with
    physicalBlockSize := 2^k
    ioMin := 2^k
    alignmentOffset := alignmentOffset}

/-- A disk with sectors of 512 bytes and larger physical blocks. -/
def disk (k : ℕ) (hk : k<32) (alignmentOffset : ℕ) : Component :=
  ⟨diskLimits k alignmentOffset,0,size_sector,size_two_pow hk,size_two_pow hk⟩

/-- A disk of 4096 byte blocks that are aligned at 3584, and one of 512 byte blocks. -/
theorem stacked_limits_aligned_shifted :
    AllAligned (fun _ _ => 0) (blkSetDefaultLimits 0) [disk 12 (by decide) 3584,disk 9 (by decide) 0] ∧
    ∀ c∈[disk 12 (by decide) 3584,disk 9 (by decide) 0],
      (stackAll (fun _ _ => 0) (blkSetDefaultLimits 0)
        [disk 12 (by decide) 3584,disk 9 (by decide) 0]).alignmentOffset ≡ c.alignment
          [MOD c.limits.physicalBlockSize] := by
  have hret : AllAligned (fun _ _ => 0) (blkSetDefaultLimits 0) [disk 12 (by decide) 3584,disk 9 (by decide) 0] :=
    ⟨by decide,by decide,trivial⟩
  have hreg : Regular (fun _ _ => 0) (blkSetDefaultLimits 0) [disk 12 (by decide) 3584,disk 9 (by decide) 0] :=
    ⟨.inr ⟨9,by decide⟩,.inr ⟨9,by decide⟩,trivial⟩
  exact ⟨hret,(stacked_limits_aligned (fun _ _ => 0) 0 _ hret hreg).1⟩

/-- A disk of 1024 byte blocks that are aligned at 512 and one of 4096 byte blocks: the sums 1536
and 4096 have no bit in common once one is subtracted from the smaller, so both calls return 0, and
the result is aligned at 512, which is not the alignment of the second disk. -/
theorem mask_of_sum_not_power :
    AllAligned (fun _ _ => 0) (blkSetDefaultLimits 0) [disk 10 (by decide) 512,disk 12 (by decide) 0] ∧
      (disk 12 (by decide) 0).alignment=0 ∧
      ¬(stackAll (fun _ _ => 0) (blkSetDefaultLimits 0)
        [disk 10 (by decide) 512,disk 12 (by decide) 0]).alignmentOffset ≡
        (disk 12 (by decide) 0).alignment [MOD (disk 12 (by decide) 0).limits.physicalBlockSize] :=
  ⟨⟨by decide,by decide,trivial⟩,by decide,by decide⟩

/-- The limits that are the smallest of the components, where zero is no limit. -/
def minima : List (QueueLimits → ℕ) :=
  [QueueLimits.maxSectors,QueueLimits.maxHwSectors,QueueLimits.maxSegments,QueueLimits.maxSegmentSize,
    QueueLimits.segBoundaryMask,QueueLimits.bouncePfn,QueueLimits.maxIntegritySegments]

section

variable {discardAlign : QueueLimits → ℕ → ℕ} {t : QueueLimits} {c : Component} {cs : List Component}

theorem minNotZero_le (x y : ℕ) : (x≠0 → minNotZero x y≠0 ∧ x ≥ minNotZero x y) ∧
    (y≠0 → minNotZero x y≠0 ∧ y ≥ minNotZero x y) := by
  unfold minNotZero
  split_ifs <;> omega

/-- The sizes of the top and of a component are not larger than the new ones. -/
def Covers (t u : QueueLimits) : Prop :=
  t.logicalBlockSize≤u.logicalBlockSize ∧ t.physicalBlockSize≤u.physicalBlockSize ∧ t.ioMin≤u.ioMin

/-- Sizes only grow. -/
theorem Sound.run_covers (h : Sound t) (discardAlign : QueueLimits → ℕ → ℕ) (cs : List Component) :
    Covers t (stackAll discardAlign t cs) ∧ ∀ c∈cs, Covers c.limits (stackAll discardAlign t cs) := by
  induction cs generalizing t with
  | nil => exact ⟨⟨le_rfl,le_rfl,le_rfl⟩,nofun⟩
  | cons c cs ih =>
    obtain ⟨⟨hl,hp,hm⟩,hcs⟩ := ih (h.step discardAlign c)
    obtain ⟨hpt,hpc⟩ := max_le_iff.mp ((h.physical_step c).2.1.trans hp)
    obtain ⟨hmt,hmc⟩ := max_le_iff.mp ((h.ioMin_step c).2.1.trans hm)
    obtain ⟨hlt,hlc⟩ := max_le_iff.mp hl
    exact ⟨⟨hlt,hpt,hmt⟩,forall_mem_cons.mpr ⟨⟨hlc,hpc,hmc⟩,hcs⟩⟩

/-- After calls that returned 0 the optimal size is a multiple of the physical block size. -/
theorem Sound.run_opt_dvd (h : Sound t) (hret : AllAligned discardAlign t cs) (ht : t.physicalBlockSize ∣ t.ioOpt) :
    (stackAll discardAlign t cs).physicalBlockSize ∣ (stackAll discardAlign t cs).ioOpt := by
  induction cs generalizing t with
  | nil => exact ht
  | cons c cs ih =>
    refine ih (h.step discardAlign c) hret.2 ?_
    change _ ∣ (stackSizes t c.limits).ioOpt
    rw [(h.aligned hret.1).ioOpt]
    exact (and_dec_eq_zero_iff (h.physical_step c).1).mp (checks_of_ret hret.1).2.2.2

end

/-- The limits that are minima do not exceed that of any component, whatever its sizes are. In a
stack of components whose sizes are powers of two the sizes are not below those of any component;
and if all calls returned 0 and no least common multiple was cut off, an optimal size is a multiple
of all of them. -/
theorem stacked_limits_bounded (discardAlign : QueueLimits → ℕ → ℕ) (bounceAny : ℕ) (cs : List Component) :
    (∀ ls : List (QueueLimits × ℕ), ∀ l∈ls, ∀ f∈minima, f l.1≠0 →
      f (ls.foldl (fun t l => (blkStackLimits discardAlign t l.1 l.2).1) (blkSetDefaultLimits bounceAny))≤f l.1) ∧
    (∀ c∈cs, ∀ f∈minima, f c.limits≠0 → f (stackAll discardAlign (blkSetDefaultLimits bounceAny) cs)≤f c.limits) ∧
    (∀ c∈cs, Covers c.limits (stackAll discardAlign (blkSetDefaultLimits bounceAny) cs)) ∧
    (AllAligned discardAlign (blkSetDefaultLimits bounceAny) cs →
      (OptFits discardAlign (blkSetDefaultLimits bounceAny) cs → ∀ c∈cs, c.limits.ioOpt≠0 →
        c.limits.ioOpt ∣ (stackAll discardAlign (blkSetDefaultLimits bounceAny) cs).ioOpt) ∧
      (stackAll discardAlign (blkSetDefaultLimits bounceAny) cs).physicalBlockSize ∣
        (stackAll discardAlign (blkSetDefaultLimits bounceAny) cs).ioOpt) := by
  have hsound := sound_default bounceAny
  have hmin : ∀ f∈minima, ∀ t b start, f (blkStackLimits discardAlign t b start).1=minNotZero (f t) (f b) := by
    simp [minima,blkStackLimits,stackDiscard]
  have hall (ls : List (QueueLimits × ℕ)) (l : QueueLimits × ℕ) (hl : l∈ls) (f : QueueLimits → ℕ) (hf : f∈minima)
      (hne : f l.1≠0) :
      f (ls.foldl (fun t l => (blkStackLimits discardAlign t l.1 l.2).1) (blkSetDefaultLimits bounceAny))≤f l.1 := by
    have hfold : ls.foldl (fun z l => minNotZero z (f l.1)) (f (blkSetDefaultLimits bounceAny))=f (ls.foldl _ _) :=
      foldl_hom f (fun t l => (hmin f hf t l.1 l.2).symm)
    rw [← hfold]
    exact (foldl_related minNotZero_le (fun l : QueueLimits × ℕ => f l.1) _ ls).2 l hl hne
  refine ⟨hall,fun c hc f hf hne => ?_,(hsound.run_covers discardAlign cs).2,fun hret => ⟨fun hfits c hc hne => ?_,?_⟩⟩
  · have hc' := hall (cs.map (fun c => (c.limits,c.start))) _ (mem_map_of_mem hc) f hf hne
    rwa [foldl_map] at hc'
  · rw [(hsound.run_opt hret hfits).1]
    exact (foldl_related dvd_lcm (fun c => c.limits.ioOpt) _ cs).2 c hc hne
  · exact hsound.run_opt_dvd hret (dvd_zero _)

/-- A disk with an optimal size. -/
def stripedDisk (k : ℕ) (hk : k<32) (ioOpt : ℕ) : Component :=
  ⟨{diskLimits k 0 with ioOpt := ioOpt},0,size_sector,size_two_pow hk,size_two_pow hk⟩

theorem stacked_limits_bounded_striped : 8192 ∣ (stackAll (fun _ _ => 0) (blkSetDefaultLimits 0)
      [disk 9 (by decide) 0,stripedDisk 12 (by decide) 8192]).ioOpt :=
  ((stacked_limits_bounded (fun _ _ => 0) 0 [disk 9 (by decide) 0,stripedDisk 12 (by decide) 8192]).2.2.2
    ⟨by decide,by decide,trivial⟩).1 ⟨by decide,by decide,trivial⟩ _ (mem_cons_of_mem _ mem_cons_self) (by decide)

/-- A component with an io_min of 6144 bytes and physical blocks of 4096 leaves an io_min of 4096.
And optimal sizes of 2^31 and 3*2^20 bytes leave 2^31, although both calls return 0. -/
theorem stacked_limits_unbounded :
    (blkStackLimits (fun _ _ => 0) (blkSetDefaultLimits 0) {diskLimits 12 0 with ioMin := 6144} 0).1.ioMin<6144 ∧
    ∃ t, blkStackLimits (fun _ _ => 0) (blkSetDefaultLimits 0) {diskLimits 12 0 with ioOpt := 2^31} 0=(t,0) ∧
      (blkStackLimits (fun _ _ => 0) t {diskLimits 12 0 with ioOpt := 3*2^20} 0).2=0 ∧
      (blkStackLimits (fun _ _ => 0) t {diskLimits 12 0 with ioOpt := 3*2^20} 0).1.ioOpt=2^31 ∧ ¬3*2^20 ∣ 2^31 :=
  ⟨by decide,_,rfl,by decide,by decide,by decide⟩

end BlockIpc.StackedLimits
