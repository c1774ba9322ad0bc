import BlockIpc.TransitionRuns
import BlockIpc.KernelNumbers

/-!
# Partitions added by user space

BLKPG_ADD_PARTITION takes a signed byte range, turns it into sectors, and compares it with every
partition in the table. The comparison is one of C: where sector_t has 64 bits, signed values are
read as unsigned ones and sums wrap. A check that the values fit is compiled in for one
combination of widths only. add_partition installs what it is given or fails.
-/

namespace BlockIpc.PartitionRanges

open Function List TransitionRuns KernelNumbers

/-- The widths of long and sector_t. -/
inductive Widths where
  /-- long and sector_t have 64 bits. -/
  | long64
  /-- long and sector_t have 32 bits. -/
  | long32
  /-- long has 32 bits and sector_t has 64. -/
  | long32Sector64
  deriving DecidableEq

def Widths.sizeofLong : Widths → ℕ
  | .long64 => 8
  | .long32 => 4
  | .long32Sector64 => 4

/-- sizeof(sector_t). -/
def Widths.sizeofSector : Widths → ℕ
  | .long64 => 8
  | .long32 => 4
  | .long32Sector64 => 8

def sizeofLongLong : ℕ := 8

/-- The bits of a sector_t. -/
def Widths.sectorBits (w : Widths) : ℕ := 8*w.sizeofSector

/-- hd_struct. -/
structure Part where
  startSect : ℕ
  nrSects : ℕ
  deriving DecidableEq

/-- part_tbl, with part0 in the first entry. -/
abbrev PartTbl := List (Option Part)

/-- An entry of the table, if the index is within it. -/
def PartTbl.part (tbl : PartTbl) (i : ℕ) : Option Part := (tbl[i]?).join

/-- DISK_PITER_* flags. -/
structure IterFlags where
  /-- DISK_PITER_REVERSE. -/
  reverse : Bool
  /-- DISK_PITER_INCL_EMPTY. -/
  inclEmpty : Bool
  /-- DISK_PITER_INCL_PART0. -/
  inclPart0 : Bool
  /-- DISK_PITER_INCL_EMPTY_PART0. -/
  inclEmptyPart0 : Bool

/-- disk_part_iter_init: the first index. -/
def diskPartIterInit (tbl : PartTbl) (flags : IterFlags) : ℤ :=
  if flags.reverse then tbl.length-1
  else if flags.inclPart0 || flags.inclEmptyPart0 then 0
  else 1

/-- inc of disk_part_iter_next. -/
def iterInc (flags : IterFlags) : ℤ := if flags.reverse then -1 else 1

/-- end of disk_part_iter_next. -/
def iterEnd (tbl : PartTbl) (flags : IterFlags) : ℤ :=
  if flags.reverse then
    if flags.inclPart0 || flags.inclEmptyPart0 then -1 else 0
  else tbl.length

/-- The loop of disk_part_iter_next, with the entries left. -/
def iterLoop (tbl : PartTbl) (flags : IterFlags) : ℕ → ℤ → Option Part × ℤ
  | 0,idx => (none,idx)
  | n+1,idx =>
    if idx=iterEnd tbl flags then (none,idx)
    else
      match tbl.part idx.toNat with
      | none => iterLoop tbl flags n (idx+iterInc flags)
      | some part =>
        if part.nrSects=0 ∧ flags.inclEmpty=false ∧ ¬(flags.inclEmptyPart0=true ∧ idx=0) then
          iterLoop tbl flags n (idx+iterInc flags)
        else (some part,idx+iterInc flags)

/-- disk_part_iter_next: the next partition and the next index. -/
def diskPartIterNext (tbl : PartTbl) (flags : IterFlags) (idx : ℤ) : Option Part × ℤ :=
  iterLoop tbl flags tbl.length idx

/-- The value of a sector_t that a long long is assigned to. -/
def toSector (w : Widths) (x : ℤ) : ℕ := (x%2^w.sectorBits).toNat

/-- The value of a sum of two sector_t. -/
def sectorAdd (w : Widths) (x y : ℕ) : ℕ := (x+y)%2^w.sectorBits

/-- A long long as it is compared with a sector_t: an unsigned value if that has 64 bits. -/
def promote (w : Widths) (x : ℤ) : ℤ := if w.sizeofSector=sizeofLongLong then x%2^64 else x

/-- The test for one partition: the new range ends before it or starts behind it. -/
def apart (w : Widths) (start length : ℤ) (part : Part) : Bool :=
  decide (promote w (start+length)≤part.startSect) ||
    decide (sectorAdd w part.startSect part.nrSects≤promote w start)

/-- The flags of the overlap check. -/
def checkFlags : IterFlags := ⟨false,true,false,false⟩

/-- The overlap check: whether some partition is in the way. -/
def overlapLoop (w : Widths) (tbl : PartTbl) (start length : ℤ) : ℕ → ℤ → Bool
  | 0,_ => false
  | n+1,idx =>
    match diskPartIterNext tbl checkFlags idx with
    | (none,_) => false
    | (some part,idx') => if apart w start length part then overlapLoop w tbl start length n idx' else true

/-- Whether the values do not fit in a hd_struct, where that is checked. -/
def badRange (w : Widths) (start length : ℤ) : Bool :=
  decide (w.sizeofSector=w.sizeofLong ∧ w.sizeofLong<sizeofLongLong) &&
    decide (start.bmod (2^(8*w.sizeofLong))≠start ∨ length.bmod (2^(8*w.sizeofLong))≠length ∨
      start.bmod (2^(8*w.sizeofLong))<0 ∨ length.bmod (2^(8*w.sizeofLong))<0)

/-- Put a partition into the table, which grows as needed. -/
def PartTbl.install (tbl : PartTbl) (i : ℕ) (part : Part) : PartTbl :=
  if i<tbl.length then tbl.set i (some part) else tbl++List.replicate (i-tbl.length) none++[some part]

structure BlkpgPartition where
  start : BitVec 64
  length : BitVec 64
  pno : BitVec 32

/-- op of blkpg_ioctl_arg, with what the called functions answer. -/
inductive Op where
  /-- BLKPG_ADD_PARTITION; add_partition may fail. -/
  | add (failure : Option Errno)
  /-- BLKPG_DEL_PARTITION; bdget may fail, and the partition may be open. -/
  | del (noBdev opened : Bool)
  | other

/-- A call of blkpg_ioctl. -/
structure Call where
  /-- CAP_SYS_ADMIN. -/
  capable : Bool
  /-- One of the copies from user space fails. -/
  fault : Bool
  /-- bdev is bd_contains. -/
  whole : Bool
  op : Op
  p : BlkpgPartition

/-- The table, and for each entry the byte range that was asked for. -/
structure State where
  tbl : PartTbl
  /-- start and length of the call that installed an entry. -/
  asked : ℕ → BitVec 64 × BitVec 64

/-- A number of bytes, shifted right by nine. -/
def inSectors (x : BitVec 64) : ℤ := x.toInt>>>(9 : ℕ)

/-- BLKPG_ADD_PARTITION. -/
def addPartition (w : Widths) (s : State) (p : BlkpgPartition) (partno : ℕ) (failure : Option Errno) : ℤ × State :=
  let start := inSectors p.start
  let length := inSectors p.length
  if badRange w start length then (-einval,s)
  else if overlapLoop w s.tbl start length s.tbl.length (diskPartIterInit s.tbl checkFlags) then (-ebusy,s)
  else
    match failure with
    | some e => (e.code,s)
    | none => (0,⟨s.tbl.install partno ⟨toSector w start,toSector w length⟩,
        update s.asked partno (p.start,p.length)⟩)

/-- BLKPG_DEL_PARTITION. -/
def delPartition (s : State) (partno : ℕ) (noBdev opened : Bool) : ℤ × State :=
  match s.tbl.part partno with
  | none => (-enxio,s)
  | some _ =>
    if noBdev then (-enomem,s)
    else if opened then (-ebusy,s)
    else (0,{s with tbl := s.tbl.set partno none})

def blkpgIoctl (w : Widths) (s : State) (c : Call) : ℤ × State :=
  if c.capable=false then (-eacces,s)
  else if c.fault then (-efault,s)
  else if c.whole=false then (-einval,s)
  else if c.p.pno.toInt≤0 then (-einval,s)
  else
    match c.op with
    | .add failure => addPartition w s c.p c.p.pno.toInt.toNat failure
    | .del noBdev opened => delPartition s c.p.pno.toInt.toNat noBdev opened
    | .other => (-einval,s)

/-- A table with part0 only. -/
def noPartitions (part0 : Part) : State := ⟨[some part0],fun _ => (0,0)⟩

/-- A range that is added does not begin before the device and has no negative length. -/
def Call.NonNeg (c : Call) : Prop := ∀ failure, c.op=.add failure → 0 ≤ c.p.start.toInt ∧ 0 ≤ c.p.length.toInt

section

variable {w : Widths} {tbl : PartTbl}

variable {i : ℕ} {start length : ℤ} {p : Part} {a b : BitVec 64} {s : State}

theorem part_of_length_le (h : tbl.length ≤ i) : tbl.part i=none := by
  unfold PartTbl.part
  rw [getElem?_eq_none h]
  rfl

/-- The table after a partition is installed. -/
theorem part_install (tbl : PartTbl) (i : ℕ) (p : Part) (j : ℕ) :
    (tbl.install i p).part j=if j=i then some p else tbl.part j := by
  unfold PartTbl.install PartTbl.part
  by_cases hi : i<tbl.length
  · rw [if_pos hi,getElem?_set]
    by_cases hj : j=i
    · simp [hj,hi]
    · simp [hj,Ne.symm hj]
  · have hlen : (tbl++List.replicate (i-tbl.length) none).length=i := by
      rw [length_append,length_replicate]
      omega
    rw [if_neg hi]
    by_cases hj : j=i
    · rw [if_pos hj,hj,getElem?_append_right hlen.le,hlen,Nat.sub_self]
      rfl
    · rw [if_neg hj]
      rcases Nat.lt_or_gt_of_ne hj with hlt|hgt
      · rw [getElem?_append_left (by rw [hlen]; exact hlt),getElem?_append]
        split
        case isTrue => rfl
        case isFalse hge =>
          rw [getElem?_eq_none (not_lt.mp hge),getElem?_replicate]
          split
          case isTrue => rfl
          case isFalse => rfl
      · rw [getElem?_eq_none (by rw [length_append,hlen]; exact hgt),getElem?_eq_none (by omega)]

/-- The table after a partition is removed. -/
theorem part_remove (tbl : PartTbl) (i j : ℕ) :
    PartTbl.part (tbl.set i none) j=if j=i then none else tbl.part j := by
  unfold PartTbl.part
  rw [getElem?_set]
  by_cases hj : j=i
  · rw [if_pos hj,if_pos hj.symm]
    split
    case isTrue => rfl
    case isFalse => rfl
  · rw [if_neg hj,if_neg (Ne.symm hj)]

/-- The iterator of the check finds the next partition, empty or not, or there is none. -/
theorem iterLoop_spec (n : ℕ) (hi : i≤tbl.length) (hn : tbl.length ≤ i+n) :
    ((iterLoop tbl checkFlags n i).1=none ∧ ∀ j, i≤j → tbl.part j=none) ∨
      ∃ p j, iterLoop tbl checkFlags n i=(some p,((j+1 : ℕ) : ℤ)) ∧ j<tbl.length ∧ i≤j ∧ tbl.part j=some p ∧
        ∀ k, i≤k → k<j → tbl.part k=none := by
  induction n generalizing i with
  | zero => exact .inl ⟨rfl,fun j hj => part_of_length_le (by omega)⟩
  | succ n ih =>
    have hend : iterEnd tbl checkFlags=tbl.length := rfl
    have hnext : (i : ℤ)+iterInc checkFlags=((i+1 : ℕ) : ℤ) := by
      push_cast
      rfl
    unfold iterLoop
    rw [hend,hnext,Int.toNat_natCast]
    by_cases hlast : i=tbl.length
    · rw [if_pos (congrArg Nat.cast hlast)]
      exact .inl ⟨rfl,fun j hj => part_of_length_le (by omega)⟩
    · have hne : ¬(i : ℤ)=tbl.length := by omega
      rw [if_neg hne]
      cases hp : tbl.part i with
      | none =>
        have hsplit : ∀ k, i≤k → k=i ∨ i+1≤k := fun k hk => by omega
        rcases ih (i := i+1) (by omega) (by omega) with ⟨hnone,hrest⟩|⟨p,j,heq,hlt,hij,hj,hrest⟩
        · refine .inl ⟨hnone,fun j hj => ?_⟩
          rcases hsplit j hj with hj|hj
          · rw [hj]
            exact hp
          · exact hrest j hj
        · refine .inr ⟨p,j,heq,hlt,by omega,hj,fun k hk hkj => ?_⟩
          rcases hsplit k hk with hk|hk
          · rw [hk]
            exact hp
          · exact hrest k hk hkj
      | some p =>
        have hkeep : ¬(p.nrSects=0 ∧ checkFlags.inclEmpty=false ∧ ¬(checkFlags.inclEmptyPart0=true ∧ (i : ℤ)=0)) :=
          fun h => Bool.noConfusion h.2.1
        refine .inr ⟨p,i,?_,by omega,le_refl i,hp,fun k hk hki => absurd hk (by omega)⟩
        dsimp only
        rw [if_neg hkeep]

/-- A range that passes the check is apart from every partition. -/
theorem overlapLoop_false (n : ℕ) (hi : i≤tbl.length) (hn : tbl.length ≤ i+n)
    (h : overlapLoop w tbl start length n i=false) {j : ℕ} (hij : i≤j) (hp : tbl.part j=some p) :
    apart w start length p=true := by
  induction n generalizing i with
  | zero =>
    rw [part_of_length_le (by omega)] at hp
    cases hp
  | succ n ih =>
    have hnext := iterLoop_spec tbl.length hi (Nat.le_add_left tbl.length i)
    unfold overlapLoop diskPartIterNext at h
    rcases hnext with ⟨-,hnone⟩|⟨p',k,heq,hlt,hik,hk,hnone⟩
    · rw [hnone j hij] at hp
      cases hp
    · rw [heq] at h
      dsimp only at h
      split at h
      case isFalse => cases h
      case isTrue hap =>
        rcases Nat.lt_trichotomy j k with hjk|hjk|hjk
        · rw [hnone j hij hjk] at hp
          cases hp
        · rw [hjk,hk] at hp
          cases hp
          exact hap
        · exact ih (by omega) (by omega) h (by omega)

/-- A value that is stored in a sector_t without change, and whose sum with another such value
does not wrap. -/
def Small (w : Widths) (x : ℤ) : Prop := 0≤x ∧ x<2^(w.sectorBits-1)

/-- Small values are stored without change. -/
theorem toSector_of_small {x : ℤ} (h : Small w x) : (toSector w x : ℤ)=x := by
  have hlt : x<2^w.sectorBits := by
    refine h.2.trans ?_
    cases w <;> decide
  unfold toSector
  rw [Int.emod_eq_of_lt h.1 hlt]
  exact Int.toNat_of_nonneg h.1

/-- Comparisons with small values are exact. -/
theorem apart_iff (hs : Small w start) (hl : Small w length) (hps : Small w p.startSect) (hpl : Small w p.nrSects) :
    apart w start length p=true ↔ start+length≤p.startSect ∨ (p.startSect+p.nrSects : ℤ) ≤ start := by
  unfold Small at hs hl hps hpl
  unfold apart sectorAdd promote
  rw [Bool.or_eq_true,decide_eq_true_eq,decide_eq_true_eq]
  cases w with
  | long64 | long32 | long32Sector64 =>
    simp only [Widths.sectorBits,Widths.sizeofSector,sizeofLongLong] at hs hl hps hpl ⊢
    omega

theorem inSectors_eq (x : BitVec 64) : inSectors x=x.toInt/512 := Int.shiftRight_eq_div_pow x.toInt 9

/-- What is asked for is small, where it is checked or not negative. -/
theorem small_of_range (h : badRange w (inSectors a) (inSectors b)=false) (hc : w=.long32 ∨ 0≤a.toInt ∧ 0≤b.toInt) :
    Small w (inSectors a) ∧ Small w (inSectors b) := by
  have ha := a.toInt_lt
  have hb := b.toInt_lt
  have hwide : 0≤a.toInt ∧ 0≤b.toInt → w.sectorBits=64 → Small w (inSectors a) ∧ Small w (inSectors b) := by
    rintro ⟨ha0,hb0⟩ hw
    unfold Small
    rw [hw,inSectors_eq,inSectors_eq]
    omega
  cases w with
  | long64 | long32Sector64 => exact hwide (hc.resolve_left nofun) rfl
  | long32 =>
    have hchecked : decide (Widths.long32.sizeofSector=Widths.long32.sizeofLong ∧
        Widths.long32.sizeofLong<sizeofLongLong)=true := rfl
    have hla := Int.bmod_lt (x := inSectors a) (m := 2^32) (by decide)
    have hlb := Int.bmod_lt (x := inSectors b) (m := 2^32) (by decide)
    unfold badRange at h
    rw [hchecked,Bool.true_and,decide_eq_false_iff_not] at h
    simp only [not_or,not_not,not_lt] at h
    obtain ⟨hea,heb,ha0,hb0⟩ := h
    change (inSectors a).bmod (2^32)=inSectors a at hea
    change (inSectors b).bmod (2^32)=inSectors b at heb
    change 0≤(inSectors a).bmod (2^32) at ha0
    change 0≤(inSectors b).bmod (2^32) at hb0
    rw [hea] at hla ha0
    rw [heb] at hlb hb0
    exact ⟨⟨ha0,hla⟩,⟨hb0,hlb⟩⟩

/-- A partition is the byte range that was asked for. -/
structure Exact (w : Widths) (p : Part) (a : BitVec 64 × BitVec 64) : Prop where
  /-- It does not begin before the device. -/
  startNonneg : 0≤a.1.toInt
  lengthNonneg : 0≤a.2.toInt
  /-- Its first sector. -/
  start : (p.startSect : ℤ)=a.1.toInt/512
  length : (p.nrSects : ℤ)=a.2.toInt/512
  /-- Its first sector is small. -/
  startSmall : Small w p.startSect
  /-- The number of its sectors is small. -/
  lengthSmall : Small w p.nrSects

/-- A partition that is installed for a small range. -/
theorem exact_of_small (ha : Small w (inSectors a)) (hb : Small w (inSectors b)) :
    Exact w ⟨toSector w (inSectors a),toSector w (inSectors b)⟩ (a,b) := by
  have ha0 := ha.1
  have hb0 := hb.1
  have hsa := toSector_of_small ha
  have hsb := toSector_of_small hb
  rw [inSectors_eq] at ha0 hb0
  refine ⟨by dsimp only; omega,by dsimp only; omega,hsa.trans (inSectors_eq a),hsb.trans (inSectors_eq b),?_,?_⟩
  · dsimp only
    rw [hsa]
    exact ha
  · dsimp only
    rw [hsb]
    exact hb

/-- One partition ends before another one starts, or the other way round. -/
def Part.Apart (p p' : Part) : Prop := p.startSect+p.nrSects≤p'.startSect ∨ p'.startSect+p'.nrSects≤p.startSect

/-- What holds of the table after any calls. -/
structure Inv (w : Widths) (s : State) : Prop where
  part0 : 1 ≤ s.tbl.length
  isAsked : ∀ i p, 1 ≤ i → s.tbl.part i=some p → Exact w p (s.asked i)
  /-- Partitions are apart. -/
  disjoint : ∀ i j p p', 1 ≤ i → 1≤j → i≠j → s.tbl.part i=some p → s.tbl.part j=some p' → p.Apart p'

/-- The table does not become shorter. -/
theorem length_install (tbl : PartTbl) (i : ℕ) (p : Part) : tbl.length≤(tbl.install i p).length := by
  unfold PartTbl.install
  split
  case isTrue => rw [length_set]
  case isFalse =>
    rw [length_append,length_append]
    omega

/-- A new partition that is apart from the others. -/
theorem Inv.install (h : Inv w s) {n : ℕ} {a : BitVec 64 × BitVec 64} (ha : Exact w p a)
    (hp : ∀ j p', 1≤j → s.tbl.part j=some p' → p.Apart p') : Inv w ⟨s.tbl.install n p,update s.asked n a⟩ := by
  refine ⟨h.part0.trans (length_install s.tbl n p),?_,?_⟩
  · intro i x hi hx
    dsimp only at hx ⊢
    rw [part_install] at hx
    by_cases hin : i=n
    · rw [if_pos hin] at hx
      cases hx
      rw [hin,update_self]
      exact ha
    · rw [if_neg hin] at hx
      rw [update_of_ne hin]
      exact h.isAsked i x hi hx
  · intro i j x y hi hj hij hx hy
    dsimp only at hx hy
    rw [part_install] at hx hy
    by_cases hin : i=n
    · rw [if_pos hin] at hx
      rw [if_neg (fun hjn => hij (hin.trans hjn.symm))] at hy
      cases hx
      exact hp j y hj hy
    · rw [if_neg hin] at hx
      by_cases hjn : j=n
      · rw [if_pos hjn] at hy
        cases hy
        exact (hp i x hi hx).symm
      · rw [if_neg hjn] at hy
        exact h.disjoint i j x y hi hj hij hx hy

theorem Inv.remove (h : Inv w s) (n : ℕ) : Inv w {s with tbl := s.tbl.set n none} := by
  have hkeep : ∀ i x, PartTbl.part (s.tbl.set n none) i=some x → s.tbl.part i=some x := by
    intro i x hx
    rw [part_remove] at hx
    exact (Option.ite_none_left_eq_some.mp hx).2
  refine ⟨?_,fun i x hi hx => h.isAsked i x hi (hkeep i x hx),
    fun i j x y hi hj hij hx hy => h.disjoint i j x y hi hj hij (hkeep i x hx) (hkeep j y hy)⟩
  dsimp only
  rw [length_set]
  exact h.part0

theorem addPartition_inv (h : Inv w s) {p : BlkpgPartition} (n : ℕ) (failure : Option Errno)
    (hc : w=.long32 ∨ 0≤p.start.toInt ∧ 0≤p.length.toInt) : Inv w (addPartition w s p n failure).2 := by
  unfold addPartition
  dsimp only
  split
  case isTrue => exact h
  case isFalse hrange =>
    split
    case isTrue => exact h
    case isFalse hover =>
      cases failure with
      | some e => exact h
      | none =>
        obtain ⟨hs,hl⟩ := small_of_range (Bool.eq_false_iff.mpr hrange) hc
        refine h.install (exact_of_small hs hl) (fun j p' hj hp' => ?_)
        have hex := h.isAsked j p' hj hp'
        have hap : apart w (inSectors p.start) (inSectors p.length) p'=true := by
          refine overlapLoop_false s.tbl.length (i := 1) h.part0 (by omega) ?_ hj hp'
          exact Bool.eq_false_iff.mpr hover
        have hsep := (apart_iff hs hl hex.startSmall hex.lengthSmall).mp hap
        have hes := toSector_of_small hs
        have hel := toSector_of_small hl
        unfold Part.Apart
        dsimp only
        omega

theorem delPartition_inv (h : Inv w s) (n : ℕ) (noBdev opened : Bool) :
    Inv w (delPartition s n noBdev opened).2 := by
  unfold delPartition
  split
  case h_1 => exact h
  case h_2 =>
    split_ifs
    · exact h
    · exact h
    · exact h.remove n

theorem blkpgIoctl_inv (h : Inv w s) {c : Call} (hc : w=.long32 ∨ c.NonNeg) : Inv w (blkpgIoctl w s c).2 := by
  unfold blkpgIoctl
  split_ifs
  -- the first four checks refuse the call
  iterate 4 exact h
  cases hop : c.op with
  | add failure => exact addPartition_inv h _ failure (hc.imp_right (fun hn => hn failure hop))
  | del noBdev opened => exact delPartition_inv h _ noBdev opened
  | other => exact h

end

/-- Partitions are the byte ranges that were asked for, fit in a sector_t, and are disjoint after
any calls, if the widths are those with a check or no call adds a negative range. -/
theorem blkpg_partitions_disjoint {w : Widths} {part0 : Part} {s : State}
    (h : Reachable (fun s => s=noPartitions part0)
      (fun s c t => t=(blkpgIoctl w s c).2 ∧ (w=.long32 ∨ Call.NonNeg c)) s) :
    (∀ i p, 1 ≤ i → s.tbl.part i=some p → p.startSect+p.nrSects≤2^w.sectorBits-1 ∧
      0≤(s.asked i).1.toInt ∧ 0≤(s.asked i).2.toInt ∧
      (p.startSect : ℤ)=(s.asked i).1.toInt/512 ∧ (p.nrSects : ℤ)=(s.asked i).2.toInt/512) ∧
    ∀ i j p p', 1 ≤ i → 1≤j → i≠j → s.tbl.part i=some p → s.tbl.part j=some p' →
      p.startSect+p.nrSects≤p'.startSect ∨ p'.startSect+p'.nrSects≤p.startSect := by
  have hinv : Inv w s := by
    refine Reachable.invariant (I := Inv w) ?_ ?_ h
    · rintro s rfl
      have hnone : ∀ i x, 1 ≤ i → ¬(noPartitions part0).tbl.part i=some x := by
        intro i x hi hx
        rw [part_of_length_le hi] at hx
        cases hx
      exact ⟨le_refl 1,fun i x hi hx => absurd hx (hnone i x hi),fun i j x y hi _ _ hx => absurd hx (hnone i x hi)⟩
    · rintro s c t _ hI ⟨rfl,hc⟩
      exact blkpgIoctl_inv hI hc
  refine ⟨fun i p hi hp => ?_,hinv.disjoint⟩
  have hex := hinv.isAsked i p hi hp
  have hsmall := hex.startSmall.2
  have hsmall' := hex.lengthSmall.2
  have hfits : p.startSect+p.nrSects≤2^w.sectorBits-1 := by
    cases w <;> simp only [Widths.sectorBits,Widths.sizeofSector] at hsmall hsmall' ⊢ <;> omega
  exact ⟨hfits,hex.startNonneg,hex.lengthNonneg,hex.start,hex.length⟩

/-- A successful call for a range in sectors. -/
def addCall (pno : BitVec 32) (start length : BitVec 64) : Call :=
  ⟨true,false,true,.add none,⟨start*512,length*512,pno⟩⟩

/-- The table after two calls on a disk of 1000 sectors. -/
def addTwo (w : Widths) (c c' : Call) : State := (blkpgIoctl w (blkpgIoctl w (noPartitions ⟨0,1000⟩) c).2 c').2

/-- Two adjacent partitions. -/
theorem blkpg_partitions_disjoint_adjacent :
    (addTwo .long64 (addCall 1 0 8) (addCall 2 8 16)).tbl=[some ⟨0,1000⟩,some ⟨0,8⟩,some ⟨8,16⟩] ∧
    ∀ i j p p', 1 ≤ i → 1≤j → i≠j → (addTwo .long64 (addCall 1 0 8) (addCall 2 8 16)).tbl.part i=some p →
      (addTwo .long64 (addCall 1 0 8) (addCall 2 8 16)).tbl.part j=some p' →
      p.startSect+p.nrSects≤p'.startSect ∨ p'.startSect+p'.nrSects≤p.startSect := by
  have hfirst : (addCall 1 0 8).NonNeg := fun _ _ => ⟨by decide,by decide⟩
  have hsecond : (addCall 2 8 16).NonNeg := fun _ _ => ⟨by decide,by decide⟩
  have hrun : Reachable (fun s => s=noPartitions ⟨0,1000⟩)
      (fun s c t => t=(blkpgIoctl .long64 s c).2 ∧ (Widths.long64=.long32 ∨ Call.NonNeg c))
      (addTwo .long64 (addCall 1 0 8) (addCall 2 8 16)) :=
    .next (.next (.start rfl) ⟨rfl,.inr hfirst⟩) ⟨rfl,.inr hsecond⟩
  exact ⟨by decide,(blkpg_partitions_disjoint hrun).2⟩

/-- The first partition was asked for at a negative offset and goes beyond the last sector number,
and the second one is inside it. -/
def Overlapping (w : Widths) (s : State) : Prop :=
  s.tbl=[some ⟨0,1000⟩,some ⟨2^64-8,16⟩,some ⟨2^64-4,2⟩] ∧ s.asked 1=(-4096,8192) ∧ 2^w.sectorBits-1<2^64-8+16 ∧
    ¬(2^64-8+16≤2^64-4 ∨ 2^64-4+2≤2^64-8)

instance (w : Widths) (s : State) : Decidable (Overlapping w s) := inferInstanceAs (Decidable (_ ∧ _))

/-- Where sector_t has 64 bits, a range that begins eight sectors before the device is installed
at the end of the sector numbers, and then a second one inside the first. -/
theorem negative_ranges_overlap :
    (∃ s, Reachable (fun s => s=noPartitions ⟨0,1000⟩) (fun s c t => t=(blkpgIoctl .long64 s c).2) s ∧
      Overlapping .long64 s) ∧
    ∃ s, Reachable (fun s => s=noPartitions ⟨0,1000⟩) (fun s c t => t=(blkpgIoctl .long32Sector64 s c).2) s ∧
      Overlapping .long32Sector64 s := by
  refine ⟨⟨addTwo .long64 (addCall 1 (-8) 16) (addCall 2 (-4) 2),?_,by decide⟩,
    addTwo .long32Sector64 (addCall 1 (-8) 16) (addCall 2 (-4) 2),?_,by decide⟩
  · exact Reachable.next (Reachable.next (Reachable.start rfl) rfl) rfl
  · exact Reachable.next (Reachable.next (Reachable.start rfl) rfl) rfl

end BlockIpc.PartitionRanges
