import Mathlib

/-!
# Vectors of user memory

sg_io copies a vector from the user, sums its lengths, shortens it to the length of the transfer
and hands it to blk_rq_map_user_iov. That tests the length of each entry only as far as the first
one that is not aligned. A size_t has a given number of bits; an unsigned int has 32.
-/

namespace BlockIpc.UserVectors

/-- iovec and sg_iovec. -/
structure IoVec where
  base : ℕ
  len : ℕ
  deriving DecidableEq

/-- The exact sum of the lengths. -/
def total (iov : List IoVec) : ℕ := (iov.map IoVec.len).sum

/-- The loop of sg_io that sums the lengths, and none if a sum overflows. -/
def sumLoop (bits : ℕ) : ℕ → List IoVec → Option ℕ
  | sum,[] => some sum
  | sum,v::vs => if (sum+v.len)%2^bits<sum then none else sumLoop bits ((sum+v.len)%2^bits) vs

/-- iov_shorten: the shortest prefix that covers some bytes, with its last entry cut. -/
def iovShorten : List IoVec → ℕ → List IoVec
  | [],_ => []
  | v::vs,n => if n≤v.len then [{v with len := n}] else v::iovShorten vs (n-v.len)

/-- The loop of blk_rq_map_user_iov: none for an empty entry, and whether one is not aligned. -/
def checkLoop (dmaAlignment : ℕ) : List IoVec → Option Bool
  | [] => some false
  | v::vs =>
    if v.len=0 then none
    else if v.base &&& dmaAlignment≠0 then some true
    else checkLoop dmaAlignment vs

/-- What the vector is passed on to. -/
inductive Target where
  /-- bio_copy_user_iov. -/
  | copy
  /-- bio_map_user_iov. -/
  | map
  deriving DecidableEq

structure Masks where
  dmaAlignment : ℕ
  dmaPadMask : ℕ

/-- blk_rq_map_user_iov without map_data, up to the call that maps the vector; none is -EINVAL. -/
def blkRqMapUserIov (q : Masks) (iov : List IoVec) (len : ℕ) : Option (Target × List IoVec × ℕ) :=
  if iov=[] then none
  else (checkLoop q.dmaAlignment iov).map
    (fun unaligned => (if unaligned || decide (q.dmaPadMask &&& len≠0) then .copy else .map,iov,len))

/-- The part of sg_io for a vector; len is assigned from a size_t. -/
def sgIoVector (bits : ℕ) (q : Masks) (dxferLen : ℕ) (iov : List IoVec) : Option (Target × List IoVec × ℕ) :=
  match sumLoop bits 0 iov with
  | none => none
  | some sum =>
    if dxferLen<sum then blkRqMapUserIov q (iovShorten iov dxferLen) (dxferLen%2^32)
    else blkRqMapUserIov q iov (sum%2^32)

variable {bits sum : ℕ} {iov : List IoVec} {q : Masks}

/-- The loop that sums stops for a sum that does not fit, and is exact otherwise. -/
theorem sumLoop_eq (hsum : sum<2^bits) (hlen : ∀ v∈iov, v.len<2^bits) :
    sumLoop bits sum iov=if sum+total iov<2^bits then some (sum+total iov) else none := by
  induction iov generalizing sum with
  | nil => simp [sumLoop,total,hsum]
  | cons v vs ih =>
    have hv := hlen v List.mem_cons_self
    have htotal : total (v::vs)=v.len+total vs := rfl
    unfold sumLoop
    rw [htotal]
    by_cases hfit : sum+v.len<2^bits
    · rw [Nat.mod_eq_of_lt hfit,if_neg (by omega),ih hfit (fun w hw => hlen w (List.mem_cons_of_mem v hw)),
        Nat.add_assoc]
    · have hmod : (sum+v.len)%2^bits=sum+v.len-2^bits := by
        rw [Nat.mod_eq_sub_mod (not_lt.mp hfit),Nat.mod_eq_of_lt (by omega)]
      rw [hmod,if_pos (by omega),if_neg (by omega)]

/-- A vector that is shortened has the given length. -/
theorem total_iovShorten {n : ℕ} (h : n≤total iov) (hne : iov≠[]) : total (iovShorten iov n)=n := by
  induction iov generalizing n with
  | nil => exact absurd rfl hne
  | cons v vs ih =>
    have htotal : total (v::vs)=v.len+total vs := rfl
    rw [htotal] at h
    unfold iovShorten
    by_cases hv : n≤v.len
    · rw [if_pos hv]
      simp [total]
    · have hrest : vs≠[] := by
        rintro rfl
        simp [total] at h
        omega
      rw [if_neg hv]
      change v.len+total (iovShorten vs (n-v.len))=n
      rw [ih (by omega) hrest]
      omega

/-- The vector for a length of the transfer. -/
def shortened (dxferLen : ℕ) (iov : List IoVec) : List IoVec :=
  if dxferLen<total iov then iovShorten iov dxferLen else iov

/-- It has the shorter one of the two lengths. -/
theorem total_shortened {n : ℕ} (hne : shortened n iov≠[]) : total (shortened n iov)=min n (total iov) := by
  unfold shortened at hne ⊢
  split_ifs at hne ⊢ with hshort
  · rw [min_eq_left hshort.le,total_iovShorten hshort.le]
    rintro rfl
    exact hne rfl
  · rw [min_eq_right (not_lt.mp hshort)]

/-- An entry is empty behind the first one that is not aligned, and none is up to that one. -/
def HidesEmpty (dmaAlignment : ℕ) : List IoVec → Prop
  | [] => False
  | v::vs =>
    v.len≠0 ∧ if v.base &&& dmaAlignment≠0 then ∃ w∈vs, w.len=0 else HidesEmpty dmaAlignment vs

/-- These are the vectors with an empty entry that the loop lets through. -/
theorem hidesEmpty_iff (mask : ℕ) : HidesEmpty mask iov ↔ (checkLoop mask iov).isSome=true ∧ ∃ v∈iov, v.len=0 := by
  induction iov with
  | nil => simp [HidesEmpty]
  | cons v vs ih =>
    unfold HidesEmpty checkLoop
    by_cases hv : v.len=0
    · simp [hv]
    · by_cases halign : v.base &&& mask≠0
      · simp [hv,halign]
      · simp [hv,halign,ih]

/-- blk_rq_map_user_iov passes the vector on if its loop lets it through. -/
theorem blkRqMapUserIov_eq_some {mapped : List IoVec} {len n : ℕ} :
    (∃ target, blkRqMapUserIov q iov n=some (target,mapped,len)) ↔
      iov≠[] ∧ (checkLoop q.dmaAlignment iov).isSome=true ∧ mapped=iov ∧ len=n := by
  unfold blkRqMapUserIov
  cases checkLoop q.dmaAlignment iov with
  | none => simp
  | some unaligned =>
    simp only [Option.ite_none_left_eq_some,Option.map_some,Option.some.injEq,Prod.mk.injEq,Option.isSome_some]
    exact ⟨fun ⟨_,hne,_,hm,hl⟩ => ⟨hne,trivial,hm.symm,hl.symm⟩,fun ⟨hne,_,hm,hl⟩ => ⟨_,hne,rfl,hm.symm,hl.symm⟩⟩

/-- sg_io passes the vector for the length on, unless the sum overflows. -/
theorem sgIoVector_eq (hlen : ∀ v∈iov, v.len<2^bits) (dxferLen : ℕ) :
    sgIoVector bits q dxferLen iov=if total iov<2^bits then
      blkRqMapUserIov q (shortened dxferLen iov) (min dxferLen (total iov)%2^32) else none := by
  unfold sgIoVector shortened
  rw [sumLoop_eq (Nat.two_pow_pos bits) hlen,Nat.zero_add]
  split_ifs with hfit hshort
  · dsimp only
    rw [if_pos hshort,min_eq_left hshort.le]
  · dsimp only
    rw [if_neg hshort,min_eq_right (not_lt.mp hshort)]
  · rfl

/-- The lengths of a vector that is mapped sum to the length that is passed on, which is the shorter
one of the two, and a vector whose sum overflows is not mapped. No entry is empty if and only if the
vector for the length hides no empty entry. -/
theorem user_vector_valid {dxferLen : ℕ} (hdxfer : dxferLen<2^32) (hlen : ∀ v∈iov, v.len<2^bits) :
    (∀ target mapped len, sgIoVector bits q dxferLen iov=some (target,mapped,len) →
      total iov<2^bits ∧ total mapped=len ∧ len=min dxferLen (total iov) ∧ len<2^32) ∧
    ((∀ target mapped len, sgIoVector bits q dxferLen iov=some (target,mapped,len) → ∀ v∈mapped, v.len≠0) ↔
      ¬(total iov<2^bits ∧ HidesEmpty q.dmaAlignment (shortened dxferLen iov))) := by
  have hmapped {mapped : List IoVec} {len : ℕ} : (∃ target, sgIoVector bits q dxferLen iov=some (target,mapped,len)) ↔
      total iov<2^bits ∧ shortened dxferLen iov≠[] ∧ (checkLoop q.dmaAlignment (shortened dxferLen iov)).isSome=true ∧
        mapped=shortened dxferLen iov ∧ len=min dxferLen (total iov) := by
    rw [sgIoVector_eq hlen,Nat.mod_eq_of_lt ((min_le_left dxferLen (total iov)).trans_lt hdxfer)]
    split_ifs with hfit
    · rw [blkRqMapUserIov_eq_some,and_iff_right hfit]
    · simp [hfit]
  refine ⟨fun target mapped len h => ?_,?_⟩
  · obtain ⟨hfit,hne,-,rfl,rfl⟩ := hmapped.mp ⟨target,h⟩
    exact ⟨hfit,total_shortened hne,rfl,(min_le_left _ _).trans_lt hdxfer⟩
  · rw [hidesEmpty_iff]
    constructor
    · rintro hall ⟨hfit,hcheck,v,hv,hzero⟩
      obtain ⟨target,h⟩ := hmapped.mpr ⟨hfit,List.ne_nil_of_mem hv,hcheck,rfl,rfl⟩
      exact hall _ _ _ h v hv hzero
    · intro hnot target mapped len h v hv hzero
      obtain ⟨hfit,-,hcheck,rfl,-⟩ := hmapped.mp ⟨target,h⟩
      exact hnot ⟨hfit,hcheck,v,hv,hzero⟩

theorem user_vector_valid_cut :
    sgIoVector 64 ⟨511,0⟩ 700 [⟨512,512⟩,⟨1024,512⟩]=some (.map,[⟨512,512⟩,⟨1024,188⟩],700) ∧
    total [⟨512,512⟩,⟨1024,188⟩]=700 :=
  ⟨by decide,((user_vector_valid (by decide) (by decide)).1 _ _ _
    (show sgIoVector 64 ⟨511,0⟩ 700 [⟨512,512⟩,⟨1024,512⟩]=some (.map,[⟨512,512⟩,⟨1024,188⟩],700) by decide)).2.1⟩

/-- The entry behind one that is not aligned is not tested: an empty entry is passed on. -/
theorem empty_entry_copied : sgIoVector 64 ⟨511,0⟩ 700 [⟨1,700⟩,⟨512,0⟩]=some (.copy,[⟨1,700⟩,⟨512,0⟩],700) := by decide

end BlockIpc.UserVectors
