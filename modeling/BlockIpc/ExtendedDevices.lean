import BlockIpc.KernelNumbers
import BlockIpc.TransitionRuns
import BlockIpc.SlotTable

/-!
# Device numbers of partitions

A partition within the consecutive minors of its disk has a number of the driver's range. Every
other one gets an index of ext_devt_idr, with its bits mirrored when CONFIG_DEBUG_BLOCK_EXT_DEVT
is set. The limit of the allocator lets one index too many through: its number is the one of
index zero. idr_get_new uses the smallest free index or fails.
-/

namespace BlockIpc.ExtendedDevices

open Function KernelNumbers TransitionRuns SlotTable

/-- MINORBITS. -/
def minorBits : ℕ := 20

def maxExtDevt : ℕ := 2^minorBits

def blockExtMajor : ℕ := 259

/-- MKDEV, on thirty-two bits. -/
def mkdev (ma mi : ℕ) : ℕ := (ma <<< minorBits ||| mi)%2^32

/-- MAJOR. -/
def majorOf (devt : ℕ) : ℕ := devt >>> minorBits

/-- MINOR. -/
def minorOf (devt : ℕ) : ℕ := devt &&& (2^minorBits-1)

/-- The body of the loop of blk_mangle_minor. -/
def mangleStep (minor i : ℕ) : ℕ :=
  let low := minor &&& 1 <<< i
  let high := minor &&& 1 <<< (minorBits-1-i)
  let distance := minorBits-1-2*i
  (minor ^^^ (low ||| high)) ||| (low <<< distance ||| high >>> distance)

/-- The first turns of the loop of blk_mangle_minor. -/
def mangleLoop (minor : ℕ) : ℕ → ℕ
  | 0 => minor
  | n+1 => mangleStep (mangleLoop minor n) n

/-- blk_mangle_minor; debug is CONFIG_DEBUG_BLOCK_EXT_DEVT. -/
def blkMangleMinor (debug : Bool) (minor : ℕ) : ℕ := if debug then mangleLoop minor (minorBits/2) else minor

structure Gendisk where
  major : ℕ
  firstMinor : ℕ
  minors : ℕ

/-- The disks of all drivers: their ranges are device numbers, are disjoint and
are not those of extended numbers. -/
structure Drivers where
  disk : ℕ → Gendisk
  /-- A major number has twelve bits. -/
  major_lt : ∀ d, (disk d).major<2^12
  /-- A range ends within the minors. -/
  range_le : ∀ d, (disk d).firstMinor+(disk d).minors≤2^minorBits
  /-- No range is of extended numbers. -/
  major_ne : ∀ d, (disk d).major≠blockExtMajor
  /-- Two disks share no number. -/
  disjoint : ∀ d e, d≠e → (disk d).major=(disk e).major → ∀ i j, i<(disk d).minors → j<(disk e).minors →
    (disk d).firstMinor+i≠(disk e).firstMinor+j

/-- A partition of a disk. -/
structure Part where
  /-- part_to_disk. -/
  disk : ℕ
  partno : ℕ
  deriving DecidableEq

/-- ext_devt_idr, and the numbers of the partitions that are alive. -/
structure Devices where
  /-- ext_devt_idr. -/
  idr : Table Part
  /-- The number of a partition that is alive. -/
  devt : Part → Option ℕ

/-- The number is in the consecutive range of the disk. -/
def Drivers.inRange (drv : Drivers) (p : Part) : Prop := p.partno<(drv.disk p.disk).minors

/-- Membership in the range is a comparison. -/
instance (drv : Drivers) (p : Part) : Decidable (drv.inRange p) := inferInstanceAs (Decidable (_<_))

/-- The number of a partition in the consecutive range. -/
def Drivers.plainDevt (drv : Drivers) (p : Part) : ℕ :=
  mkdev (drv.disk p.disk).major ((drv.disk p.disk).firstMinor+p.partno)

/-- blk_alloc_devt; failure is what idr_pre_get or idr_get_new report. -/
def blkAllocDevt (debug : Bool) (drv : Drivers) (idr : Table Part) (p : Part) (failure : Option ℤ) :
    Table Part × Except ℤ ℕ :=
  if drv.inRange p then (idr,.ok (drv.plainDevt p))
  else match failure with
    | some error => (idr,.error error)
    | none =>
      let idx := idr.firstFree
      if maxExtDevt < idx then ((idr.insert p).erase idx,.error (-ebusy))
      else (idr.insert p,.ok (mkdev blockExtMajor (blkMangleMinor debug idx)))

def blkFreeDevt (debug : Bool) (idr : Table Part) (devt : ℕ) : Table Part :=
  if devt=mkdev 0 0 then idr
  else if majorOf devt=blockExtMajor then idr.erase (blkMangleMinor debug (minorOf devt))
  else idr

/-- get_gendisk for an extended number, when the disk can be pinned: the disk
and the partition number. -/
def getGendisk (debug : Bool) (idr : Table Part) (devt : ℕ) : Option (ℕ × ℕ) :=
  (idr.find (blkMangleMinor debug (minorOf devt))).map (fun p => (p.disk,p.partno))

inductive Event where
  /-- blk_alloc_devt for a partition without number. -/
  | alloc (p : Part) (failure : Option ℤ)
  /-- blk_free_devt for a partition that is alive. -/
  | free (p : Part)

/-- One call. -/
def step (debug : Bool) (drv : Drivers) (s : Devices) : Event → Option Devices
  | .alloc p failure =>
    if s.devt p=none then
      let r := blkAllocDevt debug drv s.idr p failure
      match r.2 with
      | .ok devt => some ⟨r.1,update s.devt p (some devt)⟩
      | .error _ => some ⟨r.1,s.devt⟩
    else none
  | .free p =>
    match s.devt p with
    | some devt => some ⟨blkFreeDevt debug s.idr devt,update s.devt p none⟩
    | none => none

/-- No partition has a number. -/
def newDevices : Devices := ⟨Table.empty,fun _ => none⟩

/-- A call that leaves the limit alone: fewer than MAX_EXT_DEVT extended
numbers are in use when another one is asked for. -/
def Event.Fits (drv : Drivers) (s : Devices) : Event → Prop
  | .alloc p _ => drv.inRange p ∨ s.idr.used < maxExtDevt
  | .free _ => True

instance (drv : Drivers) (s : Devices) : (e : Event) → Decidable (e.Fits drv s)
  | .alloc _ _ => inferInstanceAs (Decidable (_ ∨ _))
  | .free _ => instDecidableTrue

section

variable {ma mi n i j : ℕ}

/-- A number is its major and its minor. -/
theorem mkdev_eq (hma : ma<2^12) (hmi : mi<2^minorBits) : mkdev ma mi=ma*2^minorBits+mi := by
  unfold mkdev
  rw [← Nat.shiftLeft_add_eq_or_of_lt hmi,Nat.shiftLeft_eq]
  unfold minorBits at *
  omega

theorem majorOf_mkdev (hma : ma<2^12) (hmi : mi<2^minorBits) : majorOf (mkdev ma mi)=ma := by
  rw [mkdev_eq hma hmi]
  unfold majorOf
  rw [Nat.shiftRight_eq_div_pow]
  unfold minorBits at *
  omega

theorem minorOf_mkdev (hma : ma<2^12) (hmi : mi<2^minorBits) : minorOf (mkdev ma mi)=mi := by
  rw [mkdev_eq hma hmi]
  unfold minorOf
  rw [Nat.and_two_pow_sub_one_eq_mod]
  unfold minorBits at *
  omega

/-- Two bits of a number are cleared and set at each other's place. -/
theorem testBit_exchange {a b : ℕ} (hab : a<b) :
    ((n ^^^ (n &&& 2^a ||| n &&& 2^b)) ||| ((n &&& 2^a) <<< (b-a) ||| (n &&& 2^b) >>> (b-a))).testBit j=
      if j=a then n.testBit b else if j=b then n.testBit a else n.testBit j := by
  simp only [Nat.testBit_or,Nat.testBit_xor,Nat.testBit_and,Nat.testBit_shiftLeft,Nat.testBit_shiftRight,
    Nat.testBit_two_pow]
  by_cases hja : j=a
  · have hb : b-a+j=b := by omega
    have hne : ¬b=j := by omega
    rw [if_pos hja,hb]
    simp only [decide_eq_true hja.symm,decide_eq_false hne,Bool.and_true,Bool.and_false,Bool.or_false,Bool.xor_self,
      Bool.false_or,decide_true]
    simp only [Bool.or_eq_right_iff_imp,Bool.and_eq_true,decide_eq_true_eq]
    omega
  · rw [if_neg hja]
    have hna : ¬a=j := fun h => hja h.symm
    by_cases hjb : j=b
    · have ha : j-(b-a)=a := by omega
      have hle : b-a≤j := by omega
      have hne : ¬b=b-a+j := by omega
      rw [if_pos hjb,ha]
      simp only [decide_eq_true hjb.symm,decide_eq_true hle,decide_eq_false hna,decide_eq_false hne,Bool.and_true,
        Bool.and_false,Bool.or_false,Bool.xor_self,Bool.false_or,decide_true,Bool.true_and]
    · have hnb : ¬b=j := fun h => hjb h.symm
      have hne : ¬b=b-a+j := by omega
      rw [if_neg hjb]
      simp only [decide_eq_false hna,decide_eq_false hnb,decide_eq_false hne,Bool.and_false,Bool.or_false,
        Bool.xor_false]
      simp only [Bool.or_eq_left_iff_imp,Bool.and_eq_true,decide_eq_true_eq]
      omega

/-- One turn of the loop exchanges two bits. -/
theorem testBit_mangleStep (hi : i<10) : (mangleStep n i).testBit j=
    if j=i then n.testBit (19-i) else if j=19-i then n.testBit i else n.testBit j := by
  have hd : minorBits-1-2*i=19-i-i := by
    unfold minorBits
    omega
  have hk : minorBits-1-i=19-i := by
    unfold minorBits
    omega
  unfold mangleStep
  dsimp only
  rw [hd,hk,Nat.one_shiftLeft,Nat.one_shiftLeft]
  exact testBit_exchange (by omega)

/-- The first turns mirror the outer bits. -/
theorem testBit_mangleLoop {k : ℕ} (hk : k≤10) : (mangleLoop n k).testBit j=
    if j<k ∨ (20-k≤j ∧ j<20) then n.testBit (19-j) else n.testBit j := by
  induction k generalizing j with
  | zero =>
    have hno : ¬(j<0 ∨ (20-0≤j ∧ j<20)) := by omega
    rw [if_neg hno]
    rfl
  | succ k ih =>
    have hle : k≤10 := by omega
    rw [mangleLoop,testBit_mangleStep (by omega),ih hle,ih hle,ih hle]
    by_cases hjk : j=k
    · have h1 : ¬(19-k<k ∨ (20-k≤19-k ∧ 19-k<20)) := by omega
      have h2 : j<k+1 ∨ (20-(k+1)≤j ∧ j<20) := by omega
      rw [if_pos hjk,if_neg h1,if_pos h2,hjk]
    · rw [if_neg hjk]
      by_cases hj : j=19-k
      · have h1 : ¬(k<k ∨ (20-k≤k ∧ k<20)) := by omega
        have h2 : j<k+1 ∨ (20-(k+1)≤j ∧ j<20) := by omega
        have h3 : 19-j=k := by omega
        rw [if_pos hj,if_neg h1,if_pos h2,h3]
      · have h1 : (j<k+1 ∨ (20-(k+1)≤j ∧ j<20)) ↔ (j<k ∨ (20-k≤j ∧ j<20)) := by omega
        rw [if_neg hj]
        simp only [h1]

/-- blk_mangle_minor mirrors the bits of a minor or leaves them. -/
theorem testBit_blkMangleMinor (debug : Bool) : (blkMangleMinor debug n).testBit j=
    if debug=true ∧ j<20 then n.testBit (19-j) else n.testBit j := by
  unfold blkMangleMinor
  cases debug with
  | false => simp
  | true =>
    have hiff : (j<10 ∨ (20-10≤j ∧ j<20)) ↔ j<20 := by omega
    change (mangleLoop n 10).testBit j=_
    rw [testBit_mangleLoop (le_refl 10)]
    simp only [hiff,true_and]

/-- It is its own inverse. -/
theorem blkMangleMinor_involutive (debug : Bool) (n : ℕ) : blkMangleMinor debug (blkMangleMinor debug n)=n := by
  refine Nat.eq_of_testBit_eq (fun j => ?_)
  rw [testBit_blkMangleMinor]
  split
  case isTrue h =>
    have hlt : 19-j<20 := by omega
    have hback : 19-(19-j)=j := by omega
    rw [testBit_blkMangleMinor,if_pos ⟨h.1,hlt⟩,hback]
  case isFalse h => rw [testBit_blkMangleMinor,if_neg h]

theorem blkMangleMinor_lt (debug : Bool) (hn : n<2^minorBits) : blkMangleMinor debug n<2^minorBits := by
  refine Nat.lt_pow_two_of_testBit _ (fun j hj => ?_)
  have hno : ¬(debug=true ∧ j<20) := fun h => absurd hj (not_le.mpr h.2)
  rw [testBit_blkMangleMinor,if_neg hno]
  exact Nat.testBit_lt_two_pow (lt_of_lt_of_le hn (Nat.pow_le_pow_right (by decide) hj))

end

section

variable {debug : Bool} {drv : Drivers} {s t : Devices} {p q : Part} {i d : ℕ}

/-- The number of an index. -/
def extDevt (debug : Bool) (i : ℕ) : ℕ := mkdev blockExtMajor (blkMangleMinor debug i)

/-- The major and the index of an extended number. -/
theorem extDevt_spec (debug : Bool) (hi : i < maxExtDevt) :
    majorOf (extDevt debug i)=blockExtMajor ∧ blkMangleMinor debug (minorOf (extDevt debug i))=i := by
  have hlt := blkMangleMinor_lt debug hi
  refine ⟨majorOf_mkdev (by decide) hlt,?_⟩
  unfold extDevt
  rw [minorOf_mkdev (by decide) hlt,blkMangleMinor_involutive]

/-- A number of a driver's range. -/
theorem plainDevt_spec (hp : drv.inRange p) : majorOf (drv.plainDevt p)=(drv.disk p.disk).major ∧
    minorOf (drv.plainDevt p)=(drv.disk p.disk).firstMinor+p.partno := by
  have hlt : (drv.disk p.disk).firstMinor+p.partno<2^minorBits := by
    have hrange := drv.range_le p.disk
    unfold Drivers.inRange at hp
    omega
  exact ⟨majorOf_mkdev (drv.major_lt _) hlt,minorOf_mkdev (drv.major_lt _) hlt⟩

/-- Partitions in the ranges of their disks have different numbers. -/
theorem plainDevt_inj (hp : drv.inRange p) (hq : drv.inRange q) (h : drv.plainDevt p=drv.plainDevt q) : p=q := by
  obtain ⟨hpa,hpi⟩ := plainDevt_spec hp
  obtain ⟨hqa,hqi⟩ := plainDevt_spec hq
  rw [h] at hpa hpi
  have hmajor : (drv.disk p.disk).major=(drv.disk q.disk).major := hpa.symm.trans hqa
  have hminor : (drv.disk p.disk).firstMinor+p.partno=(drv.disk q.disk).firstMinor+q.partno := hpi.symm.trans hqi
  have hdisk : p.disk=q.disk := by
    by_contra hne
    exact drv.disjoint p.disk q.disk hne hmajor p.partno q.partno hp hq hminor
  have hpart : p.partno=q.partno := by
    rw [hdisk] at hminor
    omega
  cases p with
  | mk pd pn =>
    cases q with
    | mk qd qn =>
      dsimp only at hdisk hpart
      rw [hdisk,hpart]

/-- The entries of the idr are the partitions with extended numbers. -/
structure DevInv (debug : Bool) (drv : Drivers) (s : Devices) : Prop where
  /-- A number of a driver's range. -/
  plain : ∀ p d, s.devt p=some d → drv.inRange p → d=drv.plainDevt p
  /-- An extended number has its entry. -/
  extended : ∀ p d, s.devt p=some d → ¬drv.inRange p → ∃ i, i < maxExtDevt ∧ s.idr.find i=some p ∧ d=extDevt debug i
  /-- An entry is of a partition that is alive. -/
  entry : ∀ i p, s.idr.find i=some p → i < maxExtDevt ∧ ¬drv.inRange p ∧ s.devt p=some (extDevt debug i)

/-- The extended number of a partition and its entry. -/
theorem DevInv.find_iff (h : DevInv debug drv s) (hi : i < maxExtDevt) (hp : s.idr.find i=some p) (j : ℕ) :
    s.idr.find j=some p ↔ j=i := by
  refine ⟨fun hj => ?_,fun hj => hj ▸ hp⟩
  obtain ⟨hjlt,_,hjd⟩ := h.entry j p hj
  obtain ⟨_,_,hid⟩ := h.entry i p hp
  have he : extDevt debug j=extDevt debug i := Option.some.inj (hjd.symm.trans hid)
  rw [← (extDevt_spec debug hjlt).2,← (extDevt_spec debug hi).2,he]

/-- A failed allocation leaves the idr as it was. -/
theorem blkAllocDevt_failed {idr : Table Part} {failure : Option ℤ} {e : ℤ}
    (h : (blkAllocDevt debug drv idr p failure).2=.error e) (i : ℕ) :
    (blkAllocDevt debug drv idr p failure).1.find i=idr.find i := by
  unfold blkAllocDevt at h ⊢
  split at h
  case isTrue => cases h
  case isFalse hr =>
    rw [if_neg hr]
    cases failure with
    | some error => rfl
    | none =>
      dsimp only at h ⊢
      split at h
      case isTrue hlt =>
        rw [if_pos hlt,find_erase,find_insert]
        split
        case isTrue hi => rw [hi,find_firstFree]
        case isFalse => rfl
      case isFalse => cases h

/-- blk_free_devt for an extended number. -/
theorem blkFreeDevt_ext (debug : Bool) (idr : Table Part) (hi : i < maxExtDevt) :
    blkFreeDevt debug idr (extDevt debug i)=idr.erase i := by
  obtain ⟨hmajor,hminor⟩ := extDevt_spec debug hi
  have hne : extDevt debug i≠mkdev 0 0 := by
    intro h
    rw [h] at hmajor
    exact absurd hmajor (by decide)
  unfold blkFreeDevt
  rw [if_neg hne,if_pos hmajor,hminor]

/-- blk_free_devt for a number of a driver's range. -/
theorem blkFreeDevt_plain (debug : Bool) (idr : Table Part) (hp : drv.inRange p) :
    blkFreeDevt debug idr (drv.plainDevt p)=idr := by
  have hmajor : majorOf (drv.plainDevt p)≠blockExtMajor := by
    rw [(plainDevt_spec hp).1]
    exact drv.major_ne p.disk
  unfold blkFreeDevt
  rw [if_neg hmajor,ite_self]

/-- An allocation below the limit. -/
theorem DevInv.alloc (h : DevInv debug drv s) (hp : s.devt p=none) {failure : Option ℤ}
    (hfit : drv.inRange p ∨ s.idr.used < maxExtDevt) (hs : step debug drv s (.alloc p failure)=some t) :
    DevInv debug drv t := by
  have hnot : ∀ i, s.idr.find i≠some p := fun i hi => by
    rw [(h.entry i p hi).2.2] at hp
    cases hp
  unfold step at hs
  dsimp only at hs
  rw [if_pos hp] at hs
  unfold blkAllocDevt at hs
  by_cases hr : drv.inRange p
  · rw [if_pos hr] at hs
    cases hs
    refine ⟨fun q d hq hqr => ?_,fun q d hq hqr => ?_,fun i q hi => ?_⟩
    · dsimp only at hq
      by_cases hqp : q=p
      · rw [hqp,update_self] at hq
        rw [hqp]
        exact (Option.some.inj hq).symm
      · rw [update_of_ne hqp] at hq
        exact h.plain q d hq hqr
    · have hqp : q≠p := fun he => hqr (he ▸ hr)
      dsimp only at hq
      rw [update_of_ne hqp] at hq
      exact h.extended q d hq hqr
    · have hqp : q≠p := fun he => hnot i (he ▸ hi)
      refine ⟨(h.entry i q hi).1,(h.entry i q hi).2.1,?_⟩
      exact (update_of_ne hqp ..).trans (h.entry i q hi).2.2
  · rw [if_neg hr] at hs
    cases failure with
    | some error =>
      cases hs
      exact h
    | none =>
      have hfree : s.idr.firstFree < maxExtDevt := lt_of_le_of_lt firstFree_le_used (hfit.resolve_left hr)
      dsimp only at hs
      rw [if_neg (not_lt.mpr hfree.le)] at hs
      cases hs
      refine ⟨fun q d hq hqr => ?_,fun q d hq hqr => ?_,fun i q hi => ?_⟩
      · have hqp : q≠p := fun he => hr (he ▸ hqr)
        dsimp only at hq
        rw [update_of_ne hqp] at hq
        exact h.plain q d hq hqr
      · dsimp only at hq
        by_cases hqp : q=p
        · rw [hqp,update_self] at hq
          refine ⟨s.idr.firstFree,hfree,?_,(Option.some.inj hq).symm⟩
          rw [find_insert,if_pos rfl,hqp]
        · rw [update_of_ne hqp] at hq
          obtain ⟨i,hi,hfind,hd⟩ := h.extended q d hq hqr
          refine ⟨i,hi,?_,hd⟩
          rw [find_insert,if_neg (ne_firstFree hfind)]
          exact hfind
      · dsimp only at hi
        rw [find_insert] at hi
        split at hi
        case isTrue hif =>
          have hqp : p=q := Option.some.inj hi
          rw [← hqp,hif]
          exact ⟨hfree,hr,update_self ..⟩
        case isFalse =>
          have hqp : q≠p := fun he => hnot i (he ▸ hi)
          refine ⟨(h.entry i q hi).1,(h.entry i q hi).2.1,?_⟩
          exact (update_of_ne hqp ..).trans (h.entry i q hi).2.2

/-- A partition gives its number back. -/
theorem DevInv.free (h : DevInv debug drv s) (hs : step debug drv s (.free p)=some t) : DevInv debug drv t := by
  unfold step at hs
  dsimp only at hs
  split at hs
  case h_2 => cases hs
  case h_1 d hd =>
    cases hs
    have hdevt : ∀ q e, update s.devt p none q=some e → q≠p ∧ s.devt q=some e := by
      intro q e hq
      by_cases hqp : q=p
      · rw [hqp,update_self] at hq
        cases hq
      · rw [update_of_ne hqp] at hq
        exact ⟨hqp,hq⟩
    by_cases hr : drv.inRange p
    · rw [h.plain p d hd hr,blkFreeDevt_plain debug s.idr hr]
      refine ⟨fun q e hq hqr => h.plain q e (hdevt q e hq).2 hqr,fun q e hq hqr => h.extended q e (hdevt q e hq).2 hqr,
        fun i q hi => ?_⟩
      have hqp : q≠p := fun he => (h.entry i q hi).2.1 (he ▸ hr)
      refine ⟨(h.entry i q hi).1,(h.entry i q hi).2.1,?_⟩
      exact (update_of_ne hqp ..).trans (h.entry i q hi).2.2
    · obtain ⟨i,hi,hfind,he⟩ := h.extended p d hd hr
      rw [he,blkFreeDevt_ext debug s.idr hi]
      refine ⟨fun q e hq hqr => h.plain q e (hdevt q e hq).2 hqr,fun q e hq hqr => ?_,fun j q hj => ?_⟩
      · obtain ⟨hqp,hqe⟩ := hdevt q e hq
        obtain ⟨j,hj,hfindj,hje⟩ := h.extended q e hqe hqr
        have hne : j≠i := fun hji => by
          rw [hji,hfind] at hfindj
          exact hqp (Option.some.inj hfindj).symm
        refine ⟨j,hj,?_,hje⟩
        rw [find_erase,if_neg hne]
        exact hfindj
      · rw [find_erase] at hj
        split at hj
        case isTrue => cases hj
        case isFalse hne =>
          have hqp : q≠p := fun heq => hne ((h.find_iff hi hfind j).mp (heq ▸ hj))
          refine ⟨(h.entry j q hj).1,(h.entry j q hj).2.1,?_⟩
          exact (update_of_ne hqp ..).trans (h.entry j q hj).2.2

/-- No call comes when MAX_EXT_DEVT extended numbers are in use. -/
theorem Reachable.devInv (h : Reachable (· = newDevices) (fun s e t => e.Fits drv s ∧ step debug drv s e=some t) s) :
    DevInv debug drv s := by
  refine Reachable.invariant (I := DevInv debug drv) ?_ ?_ h
  · rintro _ rfl
    exact ⟨nofun,nofun,fun i p hi => by rw [show newDevices.idr.find i=none from find_empty] at hi; cases hi⟩
  · rintro s e t _ hinv ⟨hfit,hs⟩
    cases e with
    | alloc p failure =>
      have hp : s.devt p=none := by
        by_contra hne
        unfold step at hs
        dsimp only at hs
        rw [if_neg hne] at hs
        cases hs
      exact hinv.alloc hp hfit hs
    | free p => exact hinv.free hs

/-- Device numbers of live partitions are distinct and resolvable as long as
no extended number is asked for while MAX_EXT_DEVT of them are in use. -/
theorem devt_unique_of_fits (debug : Bool) (drv : Drivers) (s : Devices)
    (h : Reachable (· = newDevices) (fun s e t => e.Fits drv s ∧ step debug drv s e=some t) s) :
    (∀ p q d, s.devt p=some d → s.devt q=some d → p=q) ∧
      (∀ p d, s.devt p=some d → ¬drv.inRange p →
        majorOf d=blockExtMajor ∧ getGendisk debug s.idr d=some (p.disk,p.partno) ∧
          ∀ i, (blkFreeDevt debug s.idr d).find i=if s.idr.find i=some p then none else s.idr.find i) ∧
      (∀ p failure e, (blkAllocDevt debug drv s.idr p failure).2=.error e →
        ∀ i, (blkAllocDevt debug drv s.idr p failure).1.find i=s.idr.find i) := by
  have hinv := Reachable.devInv h
  refine ⟨fun p q d hp hq => ?_,fun p d hp hr => ?_,fun p failure e he i => blkAllocDevt_failed he i⟩
  · by_cases hpr : drv.inRange p
    · have hpd := hinv.plain p d hp hpr
      by_cases hqr : drv.inRange q
      · exact plainDevt_inj hpr hqr (hpd.symm.trans (hinv.plain q d hq hqr))
      · obtain ⟨i,hi,_,hqd⟩ := hinv.extended q d hq hqr
        have hmajor := (plainDevt_spec hpr).1
        rw [← hpd,hqd,(extDevt_spec debug hi).1] at hmajor
        exact absurd hmajor.symm (drv.major_ne _)
    · obtain ⟨i,hi,hpi,hpd⟩ := hinv.extended p d hp hpr
      by_cases hqr : drv.inRange q
      · have hmajor := (plainDevt_spec hqr).1
        rw [← hinv.plain q d hq hqr,hpd,(extDevt_spec debug hi).1] at hmajor
        exact absurd hmajor.symm (drv.major_ne _)
      · obtain ⟨j,hj,hqj,hqd⟩ := hinv.extended q d hq hqr
        have hij : i=j := by
          rw [← (extDevt_spec debug hi).2,← (extDevt_spec debug hj).2,← hpd,← hqd]
        rw [hij,hqj] at hpi
        exact (Option.some.inj hpi).symm
  · obtain ⟨i,hi,hfind,hd⟩ := hinv.extended p d hp hr
    obtain ⟨hmajor,hminor⟩ := extDevt_spec debug hi
    rw [hd]
    refine ⟨hmajor,?_,fun j => ?_⟩
    · unfold getGendisk
      rw [hminor,hfind]
      rfl
    · rw [blkFreeDevt_ext debug s.idr hi,find_erase]
      simp only [hinv.find_iff hi hfind j]

/-- Disks without consecutive minors: all their numbers are extended ones. -/
def extOnly : Drivers where
  disk := fun _ => ⟨8,0,0⟩
  major_lt := fun _ => by decide
  range_le := fun _ => by decide
  major_ne := fun _ => by decide
  disjoint := fun _ _ _ _ _ _ hi => absurd hi (Nat.not_lt_zero _)

/-- Two partitions get extended numbers, the first one is freed, and a partition of another disk gets its
number. -/
theorem devt_unique_first :
    ∃ s, Reachable (· = newDevices) (fun s e t => e.Fits extOnly s ∧ step true extOnly s e=some t) s ∧
    s.devt ⟨0,1⟩=none ∧ s.devt ⟨0,2⟩=some (259*2^20+2^19) ∧ s.devt ⟨1,1⟩=some (259*2^20) ∧
    getGendisk true s.idr (259*2^20+2^19)=some (0,2) ∧ getGendisk true s.idr (259*2^20)=some (1,1) := by
  obtain ⟨s,hreach,h1,h2,h3⟩ : ∃ s, Reachable (· = newDevices)
      (fun s e t => e.Fits extOnly s ∧ step true extOnly s e=some t) s ∧
      s.devt ⟨0,1⟩=none ∧ s.devt ⟨0,2⟩=some (259*2^20+2^19) ∧ s.devt ⟨1,1⟩=some (259*2^20) := by
    refine exists_run (f := fun s e => if e.Fits extOnly s then step true extOnly s e else none)
      (fun _ _ _ => Option.ite_none_right_eq_some.mp) rfl
      [.alloc ⟨0,1⟩ none,.alloc ⟨0,2⟩ none,.free ⟨0,1⟩,.alloc ⟨1,1⟩ none] ?_
    decide
  have hget := (devt_unique_of_fits true extOnly s hreach).2.1
  exact ⟨s,hreach,h1,h2,h3,(hget _ _ h2 (Nat.not_lt_zero _)).2.1,(hget _ _ h3 (Nat.not_lt_zero _)).2.1⟩

/-- The first partitions of a disk got their numbers one after the other. -/
structure Numbered (debug : Bool) (n : ℕ) (s : Devices) : Prop where
  /-- The idr holds them in order. -/
  slots : s.idr.slots=(List.range n).map (fun k => some ⟨0,k⟩)
  devt : ∀ k, k<n → s.devt ⟨0,k⟩=some (extDevt debug k)
  others : ∀ k, n≤k → s.devt ⟨0,k⟩=none

/-- The next index of a table without gaps. -/
theorem Numbered.firstFree {n : ℕ} (h : Numbered debug n s) : s.idr.firstFree=n := by
  unfold Table.firstFree
  rw [h.slots,List.findIdx_eq_length_of_false]
  · simp
  · intro x hx
    obtain ⟨k,_,rfl⟩ := List.mem_map.mp hx
    rfl

/-- One more partition gets a number, up to the index MAX_EXT_DEVT. -/
theorem Numbered.next {n : ℕ} (h : Numbered debug n s) (hn : n ≤ maxExtDevt) :
    ∃ t, step debug extOnly s (.alloc ⟨0,n⟩ none)=some t ∧ Numbered debug (n+1) t := by
  have hfree := h.firstFree
  have hlen : s.idr.slots.length=n := by
    rw [h.slots]
    simp
  have halloc : blkAllocDevt debug extOnly s.idr ⟨0,n⟩ none=(s.idr.insert ⟨0,n⟩,.ok (extDevt debug n)) := by
    have hno : ¬extOnly.inRange ⟨0,n⟩ := Nat.not_lt_zero n
    unfold blkAllocDevt
    rw [if_neg hno]
    dsimp only
    rw [hfree,if_neg (not_lt.mpr hn)]
    rfl
  have hstep : step debug extOnly s (.alloc ⟨0,n⟩ none)=
      some ⟨s.idr.insert ⟨0,n⟩,update s.devt ⟨0,n⟩ (some (extDevt debug n))⟩ := by
    unfold step
    dsimp only
    rw [if_pos (h.others n (le_refl n)),halloc]
  have hne : ∀ k, k≠n → (⟨0,k⟩ : Part)≠⟨0,n⟩ := fun k hk he => hk (congrArg Part.partno he)
  refine ⟨_,hstep,?_,fun k hk => ?_,fun k hk => ?_⟩
  · unfold Table.insert
    rw [hfree,hlen,if_neg (lt_irrefl n),List.range_succ,List.map_append,h.slots]
    rfl
  · by_cases hkn : k=n
    · rw [hkn]
      exact update_self ..
    · exact (update_of_ne (hne k hkn) ..).trans (h.devt k (by omega))
  · exact (update_of_ne (hne k (by omega)) ..).trans (h.others k (by omega))

/-- As many partitions as the limit lets through get numbers. -/
theorem exists_numbered (debug : Bool) (n : ℕ) (hn : n ≤ maxExtDevt+1) :
    ∃ s, Reachable (· = newDevices) (fun s e t => step debug extOnly s e=some t) s ∧ Numbered debug n s := by
  induction n with
  | zero => exact ⟨newDevices,Reachable.start rfl,rfl,fun k hk => absurd hk (Nat.not_lt_zero k),fun _ _ => rfl⟩
  | succ n ih =>
    obtain ⟨s,hs,hnum⟩ := ih (by omega)
    obtain ⟨t,ht,hnext⟩ := hnum.next (by omega)
    exact ⟨t,Reachable.next hs ht,hnext⟩

/-- The index MAX_EXT_DEVT is accepted: its partition has the number of the
one with index zero, and get_gendisk leads to that one. -/
theorem exists_shared_devt (debug : Bool) :
    ∃ s, Reachable (· = newDevices) (fun s e t => step debug extOnly s e=some t) s ∧
      ∃ d, s.devt ⟨0,0⟩=some d ∧ s.devt ⟨0,2^20⟩=some d ∧ getGendisk debug s.idr d=some (0,0) := by
  obtain ⟨s,hs,hnum⟩ := exists_numbered debug (maxExtDevt+1) (le_refl _)
  have hsame : extDevt debug (2^20)=extDevt debug 0 := by
    cases debug with
    | false | true => decide
  refine ⟨s,hs,extDevt debug 0,hnum.devt 0 (Nat.succ_pos _),?_,?_⟩
  · rw [← hsame]
    exact hnum.devt (2^20) (Nat.lt_succ_self _)
  · unfold getGendisk
    rw [(extDevt_spec debug (by decide)).2]
    unfold Table.find
    rw [hnum.slots]
    have hpos : 0<((List.range (maxExtDevt+1)).map (fun k => some (⟨0,k⟩ : Part))).length := by simp
    rw [List.getElem?_eq_getElem hpos,List.getElem_map,List.getElem_range]
    rfl

end

/-- Without CONFIG_DEBUG_BLOCK_EXT_DEVT two partitions share a number. -/
theorem devt_of_index_limit : ∃ s, Reachable (· = newDevices) (fun s e t => step false extOnly s e=some t) s ∧
      ∃ d, s.devt ⟨0,0⟩=some d ∧ s.devt ⟨0,2^20⟩=some d ∧ getGendisk false s.idr d=some (0,0) :=
  exists_shared_devt false

end BlockIpc.ExtendedDevices
