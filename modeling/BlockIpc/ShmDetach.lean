import BlockIpc.KernelNumbers

/-!
# The mappings that shmdt removes

shmdt walks the mappings of the process from find_vma on. A mapping of shared memory
matches if it would start at shmaddr, were the whole segment mapped there. The first one
gives the size of the segment; the second loop removes the others up to that size and
does not compare the files.
-/

namespace BlockIpc.ShmDetach

open List KernelNumbers

def pageSize : ℕ := 4096

/-- One vm_area_struct. -/
structure Vma where
  vmStart : ℕ
  vmEnd : ℕ
  vmPgoff : ℕ
  /-- Whether vm_ops is shm_vm_ops. -/
  shm : Bool
  /-- vm_file, by the number of its inode. -/
  vmFile : ℕ
deriving DecidableEq

/-- The mappings of one process. -/
structure AddressSpace where
  /-- The list through vm_next. -/
  mmap : List Vma
  /-- The mappings are disjoint and in the order of their addresses. -/
  ordered : mmap.Pairwise (fun v w => v.vmEnd≤w.vmStart)
  /-- No mapping is empty and all end within the unsigned long. -/
  proper : ∀ v∈mmap, v.vmStart<v.vmEnd ∧ v.vmEnd<2^64

/-- The list from find_vma on: the first mapping that ends above the address, and its successors. -/
def findVma (mmap : List Vma) (addr : ℕ) : List Vma := mmap.dropWhile (fun v => decide (v.vmEnd≤addr))

/-- The difference of two values of type unsigned long. -/
def ulongSub (a b : ℕ) : ℕ := (a+2^64-b)%2^64

/-- The conversion of an unsigned long to loff_t. -/
def toLoff (a : ℕ) : ℤ := if a<2^63 then a else a-2^64

def pageAlign (size : ℕ) : ℕ := (size+(pageSize-1))/pageSize*pageSize

/-- The test of both loops of shmdt. -/
def startsAt (addr : ℕ) (v : Vma) : Bool := v.shm && decide (ulongSub v.vmStart addr/pageSize=v.vmPgoff)

/-- What is left after do_munmap of one whole mapping. -/
def doMunmap (mmap : List Vma) (v : Vma) : List Vma :=
  mmap.filter (fun u => decide (u.vmEnd≤v.vmStart ∨ v.vmEnd≤u.vmStart))

/-- The first loop of shmdt: the first match, and the mappings after it. -/
def firstLoop (addr : ℕ) : List Vma → Option (Vma × List Vma)
  | [] => none
  | v::next => if startsAt addr v=true then some (v,next) else firstLoop addr next

/-- The second loop of shmdt: the mappings that it removes. -/
def secondLoop (addr size : ℕ) : List Vma → List Vma
  | [] => []
  | v::next =>
    if toLoff (ulongSub v.vmEnd addr) ≤ size then
      if startsAt addr v=true then v::secondLoop addr size next else secondLoop addr size next
    else []

/-- The mappings that shmdt hands to do_munmap, in that order; iSize gives the size of each inode. -/
def unmapped (iSize : ℕ → ℕ) (addr : ℕ) (mmap : List Vma) : List Vma :=
  match firstLoop addr (findVma mmap addr) with
  | none => []
  | some (v,next) => v::secondLoop addr (pageAlign (iSize v.vmFile)) next

/-- The return value of shmdt and the mappings afterwards. -/
def shmdt (iSize : ℕ → ℕ) (addr : ℕ) (mmap : List Vma) : ℤ × List Vma :=
  if addr%pageSize≠0 then (-einval,mmap)
  else
    (if (firstLoop addr (findVma mmap addr)).isSome=true then 0 else -einval,
      (unmapped iSize addr mmap).foldl doMunmap mmap)

/-- Whether a mapping belongs to the segment of another one, satisfies the relation of shmdt and ends
within the size of the segment from the address. -/
def ofSegment (iSize : ℕ → ℕ) (addr : ℕ) (first v : Vma) : Bool :=
  decide (v.vmFile=first.vmFile) && startsAt addr v &&
    decide (addr<v.vmEnd ∧ v.vmEnd-addr≤pageAlign (iSize first.vmFile))

/-- The layouts in which the test by position is enough: the first match ends within the size of its
segment, what matches within that size belongs to the segment, and the second loop reaches no match
that ends 2^63 bytes or more above the address. -/
structure OneSegment (iSize : ℕ → ℕ) (addr : ℕ) (mmap : List Vma) (first : Vma) : Prop where
  /-- The first match ends within the segment. -/
  within : first.vmEnd-addr≤pageAlign (iSize first.vmFile)
  /-- No mapping of another file matches within the segment. -/
  own : ∀ v∈findVma mmap addr, startsAt addr v=true →
    v.vmEnd-addr≤pageAlign (iSize first.vmFile) → v.vmFile=first.vmFile
  /-- In front of a match whose end is negative as loff_t, a mapping stops the loop. -/
  low : ∀ v∈findVma mmap addr, startsAt addr v=true → pageAlign (iSize first.vmFile)<v.vmEnd-addr →
    2^63≤v.vmEnd-addr → ∃ w∈findVma mmap addr, pageAlign (iSize first.vmFile)<w.vmEnd-addr ∧ w.vmEnd-addr<2^63

variable {iSize : ℕ → ℕ} {addr size : ℕ} {l mmap next : List Vma} {v : Vma}

/-- The list from find_vma on has the mappings that end above the address. -/
theorem mem_findVma (addr : ℕ) (hm : mmap.Pairwise (fun v w => v.vmEnd≤w.vmStart))
    (hp : ∀ v∈mmap, v.vmStart<v.vmEnd) (v : Vma) : v∈findVma mmap addr ↔ v∈mmap ∧ addr<v.vmEnd := by
  induction mmap with
  | nil => simp [findVma]
  | cons u mmap ih =>
    obtain ⟨hu,hm⟩ := pairwise_cons.mp hm
    have hp' := forall_mem_cons.mp hp
    unfold findVma
    rw [dropWhile_cons]
    by_cases h : u.vmEnd≤addr
    · rw [if_pos (decide_eq_true h)]
      refine (ih hm hp'.2).trans ⟨fun hv => ⟨mem_cons_of_mem u hv.1,hv.2⟩,fun hv => ⟨?_,hv.2⟩⟩
      rcases mem_cons.mp hv.1 with rfl | hv'
      · omega
      · exact hv'
    · rw [if_neg (by simpa using h)]
      refine ⟨fun hv => ⟨hv,?_⟩,fun hv => hv.1⟩
      rcases mem_cons.mp hv with rfl | hv
      · omega
      · have h1 := hu v hv
        have h2 := hp'.2 v hv
        omega

/-- Above the address the loop goes on within the size, and where the end is negative as loff_t. -/
theorem toLoff_end_le_iff (hv : addr<v.vmEnd) (hmax : v.vmEnd<2^64) (size : ℕ) :
    toLoff (ulongSub v.vmEnd addr) ≤ size ↔ v.vmEnd-addr ≤ size ∨ 2^63≤v.vmEnd-addr := by
  have hs : ulongSub v.vmEnd addr=v.vmEnd-addr := by
    rw [ulongSub,Nat.sub_add_comm (Nat.le_of_lt hv),Nat.add_mod_right,Nat.mod_eq_of_lt (by omega)]
  rw [hs,toLoff]
  split <;> omega

/-- The first loop finds the first match. -/
theorem firstLoop_eq_some (h : firstLoop addr l=some (v,next)) :
    ∃ before, l=before++v::next ∧ startsAt addr v=true ∧ ∀ u∈before, startsAt addr u=false := by
  induction l with
  | nil => cases h
  | cons u l ih =>
    unfold firstLoop at h
    by_cases hu : startsAt addr u=true
    · rw [if_pos hu] at h
      cases h
      exact ⟨[],rfl,hu,nofun⟩
    · rw [if_neg hu] at h
      obtain ⟨before,hl,hv,hb⟩ := ih h
      exact ⟨u::before,congrArg (u::·) hl,hv,forall_mem_cons.mpr ⟨Bool.eq_false_iff.mpr hu,hb⟩⟩

/-- The first loop finds something if there is a match. -/
theorem firstLoop_isSome (addr : ℕ) (l : List Vma) : (firstLoop addr l).isSome=true ↔ ∃ v∈l, startsAt addr v=true := by
  induction l with
  | nil => simp [firstLoop]
  | cons u l ih =>
    unfold firstLoop
    simp only [mem_cons,exists_eq_or_imp,← ih]
    by_cases hu : startsAt addr u=true
    · rw [if_pos hu]
      exact ⟨fun _ => .inl hu,fun _ => rfl⟩
    · rw [if_neg hu]
      exact ⟨.inr,fun h => h.resolve_left hu⟩

/-- What the second loop removes: the matches within the size, for the mappings are in the order of
their ends, and those with a negative end unless a mapping in front of them stops the loop. -/
theorem mem_secondLoop (hm : l.Pairwise (fun v w => v.vmEnd≤w.vmStart)) (hp : ∀ v∈l, v.vmStart<v.vmEnd ∧ v.vmEnd<2^64)
    (ha : ∀ v∈l, addr<v.vmEnd) : v∈secondLoop addr size l ↔ v∈l ∧ startsAt addr v=true ∧
      (v.vmEnd-addr ≤ size ∨ 2^63≤v.vmEnd-addr ∧ ∀ w∈l, size<w.vmEnd-addr → 2^63≤w.vmEnd-addr) := by
  induction l with
  | nil => simp [secondLoop]
  | cons u l ih =>
    obtain ⟨hu,hm⟩ := pairwise_cons.mp hm
    obtain ⟨hpu,hp⟩ := forall_mem_cons.mp hp
    obtain ⟨hau,ha⟩ := forall_mem_cons.mp ha
    have hlater : ∀ w∈l, u.vmEnd<w.vmEnd := fun w hw => (hu w hw).trans_lt (hp w hw).1
    have hgo := toLoff_end_le_iff hau hpu.2 size
    unfold secondLoop
    by_cases hs : toLoff (ulongSub u.vmEnd addr) ≤ size
    · have hstop : (∀ w∈u::l, size<w.vmEnd-addr → 2^63≤w.vmEnd-addr) ↔
          ∀ w∈l, size<w.vmEnd-addr → 2^63≤w.vmEnd-addr := by
        rw [forall_mem_cons,and_iff_right (fun h => (hgo.mp hs).resolve_left (not_le.mpr h))]
      have hmem : v∈(if startsAt addr u=true then u::secondLoop addr size l else secondLoop addr size l) ↔
          v=u ∧ startsAt addr u=true ∨ v∈secondLoop addr size l := by
        split <;> simp [*]
      rw [if_pos hs,hmem,ih hm hp ha,hstop,mem_cons,or_and_right]
      refine or_congr_left (and_congr_right (fun hv => ?_))
      subst hv
      refine (and_iff_left ((hgo.mp hs).imp_right (fun h => ⟨h,fun w hw _ => ?_⟩))).symm
      have := hlater w hw
      omega
    · rw [if_neg hs]
      refine iff_of_false not_mem_nil (fun ⟨hv,_,hd⟩ => ?_)
      have hle : u.vmEnd≤v.vmEnd := (mem_cons.mp hv).elim (fun h => h ▸ le_rfl) (fun h => (hlater v h).le)
      rcases hd with hd | ⟨_,hd⟩
      · omega
      · have := hd u mem_cons_self
        omega

/-- In an address space the range of one mapping is that of no other one. -/
theorem doMunmap_filter (space : AddressSpace) (hv : v∈space.mmap) (keep : Vma → Bool) :
    doMunmap (space.mmap.filter keep) v=space.mmap.filter (fun u => decide (u≠v) && keep u) := by
  rw [doMunmap,filter_filter]
  refine filter_congr (fun u hu => congrArg (· && keep u) (decide_eq_decide.mpr ?_))
  constructor
  · rintro h rfl
    have hp := (space.proper u hu).1
    omega
  · intro hne
    have hsym : Std.Symm (fun u v : Vma => u.vmEnd≤v.vmStart ∨ v.vmEnd≤u.vmStart) :=
      ⟨fun _ _ h => h.symm⟩
    exact (space.ordered.imp (fun h => .inl h) :
      space.mmap.Pairwise (fun u v => u.vmEnd≤v.vmStart ∨ v.vmEnd≤u.vmStart)).forall hu hv hne

/-- Removing mappings one after the other leaves all the others. -/
theorem foldl_doMunmap (space : AddressSpace) (hl : ∀ v∈l, v∈space.mmap) (keep : Vma → Bool) :
    l.foldl doMunmap (space.mmap.filter keep)=space.mmap.filter (fun u => decide (u∉l) && keep u) := by
  induction l generalizing keep with
  | nil => exact filter_congr (fun u _ => by simp)
  | cons v l ih =>
    obtain ⟨hv,hl⟩ := forall_mem_cons.mp hl
    rw [foldl_cons,doMunmap_filter space hv,ih hl]
    refine filter_congr (fun u _ => ?_)
    rw [← Bool.and_assoc,← Bool.decide_and]
    refine congrArg (· && keep u) (decide_eq_decide.mpr ?_)
    rw [mem_cons,not_or,and_comm]

/-- What shmdt takes: the first match, and what its second loop removes. -/
theorem mem_unmapped (space : AddressSpace) (hf : firstLoop addr (findVma space.mmap addr)=some (v,next)) (u : Vma) :
    u∈unmapped iSize addr space.mmap ↔ u=v ∨ u∈findVma space.mmap addr ∧ startsAt addr u=true ∧
      (u.vmEnd-addr≤pageAlign (iSize v.vmFile) ∨
        2^63≤u.vmEnd-addr ∧ ∀ w∈next, pageAlign (iSize v.vmFile)<w.vmEnd-addr → 2^63≤w.vmEnd-addr) := by
  have hmem := mem_findVma addr space.ordered (fun w hw => (space.proper w hw).1)
  obtain ⟨before,hl,hv,hb⟩ := firstLoop_eq_some hf
  have hsub : (findVma space.mmap addr).Pairwise (fun v w => v.vmEnd≤w.vmStart) :=
    space.ordered.sublist (dropWhile_suffix _).sublist
  have htail := (pairwise_cons.mp (pairwise_append.mp (hl ▸ hsub)).2.1).2
  have hnext : ∀ w∈next, w∈space.mmap ∧ addr<w.vmEnd := fun w hw =>
    (hmem w).mp (hl ▸ mem_append_right before (mem_cons_of_mem v hw))
  simp only [unmapped,hf,mem_cons]
  rw [mem_secondLoop htail (fun w hw => space.proper w (hnext w hw).1) (fun w hw => (hnext w hw).2),hl]
  refine or_congr_right' (fun hne => and_congr_left (fun hs => ?_))
  -- no mapping in front of the first match matches
  refine ⟨fun h => mem_append_right before (mem_cons_of_mem v h),fun h => ?_⟩
  rcases mem_append.mp h with h | h
  · exact absurd hs.1 (by rw [hb u h]; exact Bool.false_ne_true)
  · exact (mem_cons.mp h).resolve_left hne

/-- A mapping that ends above the first match comes after it. -/
theorem mem_next (space : AddressSpace) (hf : firstLoop addr (findVma space.mmap addr)=some (v,next)) {w : Vma}
    (hw : w∈findVma space.mmap addr) (hlt : v.vmEnd<w.vmEnd) : w∈next := by
  obtain ⟨before,hl,-,-⟩ := firstLoop_eq_some hf
  have hsub : (before++v::next).Pairwise (fun v w => v.vmEnd≤w.vmStart) :=
    hl ▸ space.ordered.sublist (dropWhile_suffix _).sublist
  have hproper : v.vmStart<v.vmEnd :=
    (space.proper v ((dropWhile_suffix _).subset (show v∈findVma space.mmap addr by simp [hl]))).1
  rw [hl] at hw
  rcases mem_append.mp hw with h | h
  · have := (pairwise_append.mp hsub).2.2 w h v mem_cons_self
    omega
  · rcases mem_cons.mp h with rfl | h
    · omega
    · exact h

/-- It takes exactly the mappings of the segment of the first match if and only if the position tells
the segment. -/
theorem unmapped_iff_oneSegment (space : AddressSpace) (hf : firstLoop addr (findVma space.mmap addr)=some (v,next)) :
    (∀ u∈space.mmap, u∈unmapped iSize addr space.mmap ↔ ofSegment iSize addr v u=true) ↔
      OneSegment iSize addr space.mmap v := by
  have hmem := mem_findVma addr space.ordered (fun w hw => (space.proper w hw).1)
  obtain ⟨before,hl,hv,-⟩ := firstLoop_eq_some hf
  have hin : v∈findVma space.mmap addr := hl ▸ mem_append_right before mem_cons_self
  simp only [mem_unmapped space hf,ofSegment,Bool.and_eq_true,decide_eq_true_eq]
  constructor
  · intro h
    have hseg := fun u (hu : u∈findVma space.mmap addr) => (h u ((hmem u).mp hu).1).mp
    refine ⟨(hseg v hin (.inl rfl)).2.2,fun u hu hs hd => (hseg u hu (.inr ⟨hu,hs,.inl hd⟩)).1.1,
      fun u hu hs hd hneg => ?_⟩
    by_contra hnone
    have hreach : ∀ w∈next, pageAlign (iSize v.vmFile)<w.vmEnd-addr → 2^63≤w.vmEnd-addr := fun w hw hlt =>
      not_lt.mp (fun hlow => hnone ⟨w,hl ▸ mem_append_right before (mem_cons_of_mem v hw),hlt,hlow⟩)
    have := (hseg u hu (.inr ⟨hu,hs,.inr ⟨hneg,hreach⟩⟩)).2.2
    omega
  · rintro ho u hu
    constructor
    · rintro (rfl | ⟨hu,hs,hd⟩)
      · exact ⟨⟨rfl,hv⟩,((hmem u).mp hin).2,ho.within⟩
      · by_cases hsize : u.vmEnd-addr≤pageAlign (iSize v.vmFile)
        · exact ⟨⟨ho.own u hu hs hsize,hs⟩,((hmem u).mp hu).2,hsize⟩
        · obtain ⟨hneg,hreach⟩ := hd.resolve_left hsize
          obtain ⟨w,hw,hlt,hlow⟩ := ho.low u hu hs (not_le.mp hsize) hneg
          have hwithin := ho.within
          exact absurd (hreach w (mem_next space hf hw (by omega)) hlt) (not_le.mpr hlow)
    · rintro ⟨⟨-,hs⟩,ha,hd⟩
      exact .inr ⟨(hmem u).mpr ⟨hu,ha⟩,hs,.inl hd⟩

/-- shmdt of an aligned address succeeds exactly when a mapping at or after find_vma matches; it then
removes exactly the mappings of the segment of the first match that satisfy the relation within the
size of the segment, if and only if the position tells the segment. -/
theorem shmdt_detaches_segment (iSize : ℕ → ℕ) (space : AddressSpace) (addr : ℕ) (ha : addr%pageSize=0) :
    ((shmdt iSize addr space.mmap).1=0 ↔ ∃ v∈space.mmap, addr<v.vmEnd ∧ startsAt addr v=true) ∧
    match (findVma space.mmap addr).find? (startsAt addr) with
    | none => (shmdt iSize addr space.mmap).2=space.mmap
    | some first => (shmdt iSize addr space.mmap).2=space.mmap.filter (fun v => !ofSegment iSize addr first v) ↔
        OneSegment iSize addr space.mmap first := by
  have hmem := mem_findVma addr space.ordered (fun w hw => (space.proper w hw).1)
  have hfirst := firstLoop_isSome addr (findVma space.mmap addr)
  rw [shmdt,if_neg (not_not_intro ha)]
  dsimp only
  constructor
  · rw [ite_eq_left_iff,show (-einval=0)=False from eq_false (by decide),imp_false,not_not,hfirst]
    exact ⟨fun ⟨v,hv,hs⟩ => ⟨v,((hmem v).mp hv).1,((hmem v).mp hv).2,hs⟩,
      fun ⟨v,hv,he,hs⟩ => ⟨v,(hmem v).mpr ⟨hv,he⟩,hs⟩⟩
  · cases hf : firstLoop addr (findVma space.mmap addr) with
    | none =>
      rw [hf] at hfirst
      rw [find?_eq_none.mpr (fun v hv hs => absurd (hfirst.mpr ⟨v,hv,hs⟩) Bool.false_ne_true)]
      simp [unmapped,hf]
    | some found =>
      obtain ⟨first,next⟩ := found
      obtain ⟨before,hl,hv,hb⟩ := firstLoop_eq_some hf
      have hfind : (findVma space.mmap addr).find? (startsAt addr)=some first :=
        find?_eq_some_iff_append.mpr ⟨hv,before,next,hl,fun u hu => by simp [hb u hu]⟩
      have hsub : ∀ u∈unmapped iSize addr space.mmap, u∈space.mmap := fun u hu => ((hmem u).mp
        (((mem_unmapped space hf u).mp hu).elim (fun h => h ▸ hl ▸ mem_append_right before mem_cons_self) (·.1))).1
      have hall := foldl_doMunmap space hsub (fun _ => true)
      rw [filter_eq_self.mpr (fun _ _ => rfl)] at hall
      rw [hfind]
      dsimp only
      rw [hall,← unmapped_iff_oneSegment space hf]
      refine ⟨fun h u hu => ?_,fun h => filter_congr (fun u hu => ?_)⟩
      · have hiff := congrArg (u∈·) h
        simp only [mem_filter,hu,true_and,Bool.and_true,decide_eq_true_eq,Bool.not_eq_true',eq_iff_iff] at hiff
        rw [← not_iff_not,hiff,Bool.not_eq_true]
      · rw [Bool.and_true,Bool.eq_iff_iff,decide_eq_true_iff,h u hu,Bool.not_eq_true',Bool.not_eq_true]

/-- A segment of two pages of which the second one was unmapped, and another segment behind it. -/
def separateSegments : AddressSpace where
  mmap := [⟨4096,8192,0,true,1⟩,⟨8192,12288,0,true,2⟩]
  ordered := by decide
  proper := by decide

/-- Detaching the first segment leaves the second one. -/
theorem shmdt_detaches_segment_first : (shmdt (fun _ => 8192) 4096 separateSegments.mmap).2=
      separateSegments.mmap.filter (fun v => !ofSegment (fun _ => 8192) 4096 ⟨4096,8192,0,true,1⟩ v) := by
  have h := (shmdt_detaches_segment (fun _ => 8192) separateSegments 4096 rfl).2
  rw [show (findVma separateSegments.mmap 4096).find? (startsAt 4096)=some ⟨4096,8192,0,true,1⟩ by decide] at h
  exact h.mpr ⟨by decide,by decide,by decide⟩

/-- A segment of two pages of which the second one was unmapped, and in its place the second page of
another segment. -/
def interleavedSegments : AddressSpace where
  mmap := [⟨4096,8192,0,true,1⟩,⟨8192,12288,1,true,2⟩]
  ordered := by decide
  proper := by decide

/-- shmdt of the first segment also removes the page of the other segment. -/
theorem shmdt_removes_other_segment : shmdt (fun _ => 8192) 4096 interleavedSegments.mmap=(0,[]) ∧
    interleavedSegments.mmap.filter (fun v => !ofSegment (fun _ => 8192) 4096 ⟨4096,8192,0,true,1⟩ v)=
      [⟨8192,12288,1,true,2⟩] := by
  decide

end BlockIpc.ShmDetach
