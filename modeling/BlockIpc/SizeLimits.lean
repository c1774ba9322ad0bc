import BlockIpc.PhysSegments

/-!
# Sizes against the limits of a queue

max_hw_sectors and max_sectors are unsigned int. The merge functions copy them to an unsigned
short before they compare, and the checks of a length in bytes shift max_hw_sectors to the left
by 9 in 32 bits. Lengths are of any size, and blk_rq_bytes does not wrap.
-/

namespace BlockIpc.SizeLimits

open PhysSegments

def blkDefMaxSectors : ℕ := 1024

/-- max_hw_sectors in bytes, an unsigned int. -/
def hwBytes (maxHwSectors : ℕ) : ℕ := maxHwSectors*512%2^32

/-- blk_queue_max_hw_sectors and blk_limits_max_hw_sectors. -/
def blkQueueMaxHwSectors (q : Limits) (max : ℕ) : Limits :=
  let hw := if hwBytes max<2^q.pageShift then 2^(q.pageShift-9) else max
  {q with maxHwSectors := hw, maxSectors := min hw blkDefMaxSectors}

def queueMaxSectorsStore (q : Limits) (kb : ℕ) : Option Limits :=
  if q.maxHwSectors/2<kb ∨ kb<2^(q.pageShift-10) then none else some {q with maxSectors := kb*2}

def blkRqBytes (r : Request) : ℕ := (r.bios.map Bio.size).sum

/-- The merge functions refuse a bio for its size. -/
def mergeTooLarge (q : Limits) (r : Request) (b : Bio) : Bool := decide (mergeSectors q r<blkRqSectors r+bioSectors b)

/-- blk_rq_check_limits refuses a request for its size. -/
def overMaxSize (q : Limits) (r : Request) : Bool :=
  decide (q.maxSectors<blkRqSectors r) || decide (hwBytes q.maxHwSectors<blkRqBytes r)

/-- blk_rq_check_limits: whether it returns 0, and the request. -/
def blkRqCheckLimits (q : Limits) (r : Request) (discard : Bool) : Bool × Request :=
  if discard then (true,r)
  else if overMaxSize q r then (false,r)
  else
    let r := blkRecalcRqSegments q r
    (decide (r.nrPhysSegments≤q.maxSegments),r)

/-- blk_rq_map_user and sg_io refuse a length for its size. -/
def lengthTooLarge (q : Limits) (len : ℕ) : Bool := decide (hwBytes q.maxHwSectors<len)

/-- The limits that a queue has after a driver has set max_hw_sectors, and perhaps a user
max_sectors. -/
inductive Configured (q : Limits) (max : ℕ) : Limits → Prop
  | driver : Configured q max (blkQueueMaxHwSectors q max)
  | sysfs {q' q'' : Limits} {kb : ℕ} (h : Configured q max q') (hs : queueMaxSectorsStore q' kb=some q'') :
    Configured q max q''

variable {q q' : Limits} {max : ℕ}

/-- A number of sectors whose bytes fit is stored as it is. -/
theorem hwBytes_eq (h : max<2^23) : hwBytes max=max*512 := Nat.mod_eq_of_lt (by omega)

/-- max_hw_sectors does not exceed what the driver gave, and is that if its bytes fit. -/
theorem Configured.maxHwSectors (h : Configured q max q') (hmin : 2^q.pageShift ≤ max*512) :
    q'.maxHwSectors ≤ max ∧ (max<2^23 → q'.maxHwSectors=max) := by
  induction h with
  | driver =>
    unfold blkQueueMaxHwSectors
    dsimp only
    split
    case isTrue hsmall =>
      refine ⟨?_,fun hmax => absurd hsmall (by rw [hwBytes_eq hmax]; omega)⟩
      by_cases hshift : 9≤q.pageShift
      · have hpow : 2^q.pageShift=2^(q.pageShift-9)*512 := by rw [← Nat.pow_sub_mul_pow 2 hshift]
        omega
      · have hone : 2^(q.pageShift-9)=1 := by rw [Nat.sub_eq_zero_of_le (by omega),Nat.pow_zero]
        have hpos := Nat.two_pow_pos q.pageShift
        omega
    case isFalse => exact ⟨le_rfl,fun _ => rfl⟩
  | sysfs _ hs ih =>
    obtain ⟨-,heq⟩ := Option.ite_none_left_eq_some.mp hs
    obtain rfl := Option.some.inj heq
    exact ih

def pieceBio (n : ℕ) : Bio := ⟨[⟨0,0,n⟩],n,n,1,true⟩

def pieceRequest (n : ℕ) (blockPc : Bool) : Request := ⟨[pieceBio n],1,blockPc⟩

@[simp] theorem size_pieceBio (n : ℕ) : (pieceBio n).size=n := by simp [pieceBio,Bio.size,GreedySplits.total]

@[simp] theorem blkRqBytes_pieceRequest (n : ℕ) (pc : Bool) : blkRqBytes (pieceRequest n pc)=n := by
  simp [pieceRequest,blkRqBytes]

@[simp] theorem blkRqSectors_pieceRequest (n : ℕ) (pc : Bool) : blkRqSectors (pieceRequest n pc)=n/512 := by
  simp [pieceRequest,blkRqSectors]

theorem nrPhysSegments_pieceRequest (q : Limits) (n : ℕ) (pc : Bool) :
    (blkRecalcRqSegments q (pieceRequest n pc)).nrPhysSegments=1 := by
  simp [pieceRequest,pieceBio,blkRecalcRqSegments,blkRecalcSegments,vecsOf,recalcLoop]

/-- The merge functions compare with a limit if their copy of it is that limit. -/
theorem mergeTooLarge_exact_iff (q : Limits) (pc : Bool) (limit : ℕ) :
    (∀ r b, r.blockPc=pc → (mergeTooLarge q r b=false ↔ blkRqSectors r+bioSectors b≤limit)) ↔
      (if pc then q.maxHwSectors else q.maxSectors)%2^16=limit := by
  constructor
  · intro h
    refine eq_of_forall_le_iff (fun n => ?_)
    have hn := h ⟨[],0,pc⟩ (pieceBio (n*512)) rfl
    simpa [mergeTooLarge,mergeSectors,blkRqSectors,bioSectors] using hn
  · rintro rfl r b rfl
    rw [mergeTooLarge,mergeSectors,decide_eq_false_iff_not,not_lt]

/-- What blk_rq_check_limits asks of a request that is no discard. -/
theorem blkRqCheckLimits_eq_true {r : Request} : (blkRqCheckLimits q r false).1=true ↔
    blkRqSectors r≤q.maxSectors ∧ blkRqBytes r≤hwBytes q.maxHwSectors ∧
      (blkRecalcRqSegments q r).nrPhysSegments≤q.maxSegments := by
  unfold blkRqCheckLimits overMaxSize
  rw [if_neg Bool.false_ne_true]
  split
  case isTrue hover =>
    rw [Bool.or_eq_true,decide_eq_true_eq,decide_eq_true_eq] at hover
    exact iff_of_false Bool.false_ne_true (by omega)
  case isFalse hover =>
    rw [Bool.or_eq_true,decide_eq_true_eq,decide_eq_true_eq,not_or,not_lt,not_lt] at hover
    rw [decide_eq_true_eq]
    exact ⟨fun hsegs => ⟨hover.1,hover.2,hsegs⟩,fun h => h.2.2⟩

/-- blk_rq_check_limits compares with a limit in bytes if its own limit is that one, or if
max_sectors refuses what is between them. -/
theorem blkRqCheckLimits_exact_iff (hsegs : 1≤q.maxSegments) (hle : hwBytes q.maxHwSectors ≤ max*512) :
    (∀ r, (blkRqCheckLimits q r false).1=true ↔ blkRqSectors r≤q.maxSectors ∧ blkRqBytes r ≤ max*512 ∧
      (blkRecalcRqSegments q r).nrPhysSegments≤q.maxSegments) ↔
      hwBytes q.maxHwSectors=max*512 ∨ q.maxSectors<q.maxHwSectors%2^23 := by
  have hbytes : hwBytes q.maxHwSectors=q.maxHwSectors%2^23*512 := by unfold hwBytes; omega
  constructor
  · intro h
    have hn := (blkRqCheckLimits_eq_true (q := q) (r := pieceRequest (hwBytes q.maxHwSectors+1) false)).symm.trans (h _)
    simp only [blkRqSectors_pieceRequest,blkRqBytes_pieceRequest,nrPhysSegments_pieceRequest] at hn
    omega
  · intro h r
    have hsectors : blkRqSectors r=blkRqBytes r/512 := rfl
    rw [blkRqCheckLimits_eq_true,hsectors]
    omega

/-- When the size checks are exact: those of the merge functions if the limit that applies fits in an
unsigned short, those of a length if max_hw_sectors in bytes fits in an unsigned int, and
blk_rq_check_limits also if max_sectors refuses what its 32 bits let through. -/
theorem size_limits_exact (h : Configured q max q') (hmin : 2^q.pageShift ≤ max*512) :
    ((∀ r b, r.blockPc=true → (mergeTooLarge q' r b=false ↔ blkRqSectors r+bioSectors b ≤ max)) ↔ max<2^16) ∧
    ((∀ r b, r.blockPc=false → (mergeTooLarge q' r b=false ↔ blkRqSectors r+bioSectors b≤q'.maxSectors)) ↔
      q'.maxSectors<2^16) ∧
    ((∀ len, lengthTooLarge q' len=true ↔ max*512<len) ↔ max<2^23) ∧
    (1≤q'.maxSegments → ((∀ r, (blkRqCheckLimits q' r false).1=true ↔ blkRqSectors r≤q'.maxSectors ∧
        blkRqBytes r ≤ max*512 ∧ (blkRecalcRqSegments q' r).nrPhysSegments≤q'.maxSegments) ↔
      max<2^23 ∨ q'.maxSectors<q'.maxHwSectors%2^23)) := by
  obtain ⟨hle,hhw⟩ := h.maxHwSectors hmin
  have hbytes : hwBytes q'.maxHwSectors=max*512 ↔ max<2^23 := by
    refine ⟨fun heq => ?_,fun hmax => by rw [hhw hmax,hwBytes_eq hmax]⟩
    have hlt : hwBytes q'.maxHwSectors<2^32 := Nat.mod_lt _ (by decide)
    omega
  refine ⟨?_,?_,?_,fun hsegs => ?_⟩
  · rw [mergeTooLarge_exact_iff,if_pos rfl]
    omega
  · rw [mergeTooLarge_exact_iff,if_neg Bool.false_ne_true]
    omega
  · rw [← hbytes]
    refine ⟨fun hall => eq_of_forall_gt_iff (fun len => ?_),fun heq len => ?_⟩
    · rw [← hall len,lengthTooLarge,decide_eq_true_eq]
    · rw [lengthTooLarge,decide_eq_true_eq,heq]
  · rw [blkRqCheckLimits_exact_iff hsegs ((Nat.mod_le _ _).trans (Nat.mul_le_mul_right 512 hle)),hbytes]

/-- The limits of the example before the driver sets the sizes. -/
def plainLimits : Limits := ⟨true,65536,128,2^32-1,1024,1024,1000,12⟩

theorem size_limits_exact_large : ∃ q', Configured plainLimits 65536 q' ∧
    (lengthTooLarge q' 33554432=true ↔ 65536*512<33554432) :=
  ⟨_,.driver,(size_limits_exact .driver (by decide)).2.2.1.mpr (by decide) _⟩

/-- With a limit of 65536 sectors no bio can be merged to a packet request, and with 2^23+8
sectors a length of 8192 bytes is too large. -/
theorem size_limits_wrap :
    (∃ q', Configured plainLimits 65536 q' ∧ mergeTooLarge q' (pieceRequest 4096 true) (pieceBio 4096)=true ∧
      blkRqSectors (pieceRequest 4096 true)+bioSectors (pieceBio 4096)≤65536) ∧
    ∃ q', Configured plainLimits (2^23+8) q' ∧ lengthTooLarge q' 8192=true ∧
      (blkRqCheckLimits q' (pieceRequest 8192 false) false).1=false ∧ 8192≤(2^23+8)*512 :=
  ⟨⟨_,.driver,by decide,by decide⟩,_,.driver,by decide,by decide,by decide⟩

end BlockIpc.SizeLimits
