import BlockIpc.CheckedMath
import BlockIpc.KernelNumbers
import BlockIpc.TransitionRuns

/-!
# Reference-counted storage of IPC objects

ipc_rcu_alloc puts a header in front of the object. The header holds the reference
count while the object is in use, the RCU callback during the grace period and, for
storage from vmalloc, the work item that frees it. Each of the three computes the
address of the next from its own, by the sizes of the structures.
-/

namespace BlockIpc.IpcStorage

open CheckedMath KernelNumbers TransitionRuns

/-- The machine that the structures are laid out for. -/
structure Machine where
  /-- Whether pointers and size_t have 64 bits; they have 32 otherwise. -/
  wide : Bool
  /-- Bytes of the debugging fields of work_struct. -/
  lockdep : ℕ
  pageSize : ℕ
  /-- A page has 4096 bytes at least. -/
  page : 4096≤pageSize

variable (m : Machine)

/-- The bits of size_t. -/
def sizeBits : ℕ := if m.wide=true then 64 else 32

/-- The bytes of a pointer, and of a long. -/
def pointerBytes : ℕ := if m.wide=true then 8 else 4

/-- sizeof(struct ipc_rcu_hdr): two ints. -/
def sizeofHdr : ℕ := 4+4

/-- sizeof(struct ipc_rcu_grace): an rcu_head, that is two pointers. -/
def sizeofGrace : ℕ := 2*pointerBytes m

/-- sizeof(struct ipc_rcu_sched): a work_struct, that is a long, a list_head and a pointer. -/
def sizeofSched : ℕ := 4*pointerBytes m+m.lockdep

def hdrlenKmalloc : ℕ := if sizeofGrace m > sizeofHdr then sizeofGrace m else sizeofHdr

def hdrlenVmalloc : ℕ := if sizeofSched m > hdrlenKmalloc m then sizeofSched m else hdrlenKmalloc m

inductive Allocator
  | kmalloc
  | vmalloc
deriving DecidableEq

/-- The test of ipc_rcu_use_vmalloc. -/
def ipcRcuUseVmalloc (size : ℕ) : Bool := decide (size > m.pageSize-hdrlenKmalloc m)

/-- The bytes in front of the object. -/
def ipcRcuHeaderSize (useVmalloc : Bool) : ℕ := if useVmalloc=true then hdrlenVmalloc m else hdrlenKmalloc m

/-- The header in the storage; writing one destroys the one before. -/
inductive Header
  /-- struct ipc_rcu_hdr at an address, with refcount and is_vmalloc. -/
  | hdr (address refcount : ℤ) (isVmalloc : Bool)
  /-- struct ipc_rcu_grace at an address. -/
  | grace (address : ℤ)
  /-- struct ipc_rcu_sched at an address. -/
  | sched (address : ℤ)
deriving DecidableEq

/-- Where a header starts. -/
def Header.start : Header → ℤ
  | .hdr address _ _ => address
  | .grace address => address
  | .sched address => address

def Header.bytes : Header → ℕ
  | .hdr _ _ _ => sizeofHdr
  | .grace _ => sizeofGrace m
  | .sched _ => sizeofSched m

/-- The callbacks handed to call_rcu. -/
inductive Callback
  | scheduleFree
  | immediateFree
deriving DecidableEq

/-- What kmalloc or vmalloc returned. -/
structure Block where
  allocator : Allocator
  /-- The returned pointer. -/
  base : ℤ
  bytes : ℕ
deriving DecidableEq

/-- One object and what is under way for it. -/
structure State where
  /-- The pointer that ipc_rcu_alloc returned. -/
  object : ℤ
  header : Header
  /-- The rcu_head and the function of a call_rcu whose grace period is not over. -/
  rcu : Option (ℤ × Callback)
  /-- The work item that is scheduled. -/
  work : Option ℤ
  /-- The calls of kfree and vfree. -/
  freed : List (Allocator × ℤ)
  /-- The calls of ipc_rcu_getref. -/
  gets : ℕ
  /-- The calls of ipc_rcu_putref. -/
  puts : ℕ
deriving DecidableEq

/-- ipc_rcu_alloc, with the answers of the allocators: the block and the object in it. -/
def ipcRcuAlloc (kmalloc vmalloc : ℕ → Option ℤ) (size : ℕ) : Option (Block × State) :=
  let useVmalloc := ipcRcuUseVmalloc m size
  let headerSize := ipcRcuHeaderSize m useVmalloc
  match l30SizeAddOverflow (sizeBits m) headerSize size with
  | none => none
  | some allocationSize =>
    match if useVmalloc=true then vmalloc allocationSize else kmalloc allocationSize with
    | none => none
    | some base =>
      let object := base+headerSize
      some (⟨if useVmalloc=true then .vmalloc else .kmalloc,base,allocationSize⟩,
        ⟨object,.hdr (object-sizeofHdr) 1 useVmalloc,none,none,[],0,0⟩)

/-- What happens to the object. -/
inductive Event
  /-- ipc_rcu_getref by a holder of a reference. -/
  | getref
  /-- ipc_rcu_putref by a holder of a reference. -/
  | putref
  /-- The end of the grace period runs the callback. -/
  | gracePeriod
  /-- A worker runs ipc_do_vfree. -/
  | worker
deriving DecidableEq

/-- One event; none if the callers have no reference left or nothing is to run. -/
def step (s : State) : Event → Option State
  | .getref =>
    match s.header with
    | .hdr address refcount isVmalloc =>
      if s.puts<1+s.gets then
        some {s with header := .hdr address (toInt (refcount+1)) isVmalloc, gets := s.gets+1}
      else none
    | _ => none
  | .putref =>
    match s.header with
    | .hdr address refcount isVmalloc =>
      if s.puts<1+s.gets then
        if toInt (refcount-1) > 0 then
          some {s with header := .hdr address (toInt (refcount-1)) isVmalloc, puts := s.puts+1}
        else
          let grace := s.object-sizeofGrace m
          some {s with
            header := .grace grace
            rcu := some (grace,if isVmalloc=true then .scheduleFree else .immediateFree)
            puts := s.puts+1}
      else none
    | _ => none
  | .gracePeriod =>
    match s.rcu with
    | some (head,.immediateFree) => some {s with rcu := none, freed := s.freed++[(.kmalloc,head)]}
    | some (head,.scheduleFree) =>
      let sched := head+sizeofGrace m-sizeofSched m
      some {s with header := .sched sched, rcu := none, work := some sched}
    | none => none
  | .worker =>
    match s.work with
    | some work => some {s with work := none, freed := s.freed++[(.vmalloc,work)]}
    | none => none

/-- The states of an object with at most 2^31 references at a time. -/
def Counted (start : State) : State → Prop :=
  Reachable (· = start) (fun s e t => step m s e=some t ∧ 1+t.gets≤t.puts+2^31)

def Block.headerSize (b : Block) : ℕ := ipcRcuHeaderSize m (decide (b.allocator=.vmalloc))

/-- The stages of the object in a block, from the first reference to the release. -/
inductive Stage (b : Block) : State → Prop
  /-- The object is in use. -/
  | live (gets puts : ℕ) (h : puts<1+gets) (hc : 1+gets≤puts+2^31) :
    Stage b ⟨b.base+b.headerSize m,.hdr (b.base+b.headerSize m-sizeofHdr) (toInt (1+gets-puts))
      (decide (b.allocator=.vmalloc)),none,none,[],gets,puts⟩
  /-- The last reference is gone. -/
  | grace (gets : ℕ) : Stage b ⟨b.base+b.headerSize m,.grace (b.base+b.headerSize m-sizeofGrace m),
      some (b.base+b.headerSize m-sizeofGrace m,
        if decide (b.allocator=.vmalloc)=true then .scheduleFree else .immediateFree),none,[],gets,1+gets⟩
  /-- The work item is scheduled. -/
  | sched (gets : ℕ) (hv : b.allocator=.vmalloc) : Stage b ⟨b.base+b.headerSize m,.sched b.base,none,
      some b.base,[],gets,1+gets⟩
  /-- The storage was given back. -/
  | freed (gets : ℕ) (header : Header) (hh : header=.grace b.base ∨ header=.sched b.base ∧ b.allocator=.vmalloc) :
    Stage b ⟨b.base+b.headerSize m,header,none,none,[(b.allocator,b.base)],gets,1+gets⟩

/-- The header from kmalloc is as long as ipc_rcu_grace: that structure is not shorter than
ipc_rcu_hdr. -/
theorem hdrlenKmalloc_eq : hdrlenKmalloc m=sizeofGrace m ∧ sizeofHdr ≤ sizeofGrace m := by
  unfold hdrlenKmalloc sizeofGrace sizeofHdr pointerBytes
  cases m.wide <;> decide

/-- The header from vmalloc is as long as ipc_rcu_sched, which is the longest structure. -/
theorem hdrlenVmalloc_eq : hdrlenVmalloc m=sizeofSched m ∧ sizeofGrace m ≤ sizeofSched m := by
  have hle : sizeofGrace m ≤ sizeofSched m := by
    unfold sizeofGrace sizeofSched
    omega
  rw [hdrlenVmalloc,(hdrlenKmalloc_eq m).1]
  split
  · exact ⟨rfl,hle⟩
  · next h => exact ⟨by omega,hle⟩

variable {m} {b : Block} {s t : State} {e : Event}

theorem headerSize_vmalloc (hb : b.allocator=.vmalloc) : b.headerSize m=sizeofSched m := by
  rw [Block.headerSize,hb]
  exact (hdrlenVmalloc_eq m).1

theorem headerSize_kmalloc (hb : b.allocator≠.vmalloc) : b.headerSize m=sizeofGrace m := by
  rw [Block.headerSize,decide_eq_false hb]
  exact (hdrlenKmalloc_eq m).1

/-- Up to 2^31 references the count is exact when it is decremented. -/
theorem toInt_decrement {gets puts : ℕ} (h : puts<1+gets) (hc : 1+gets≤puts+2^31) :
    toInt (toInt (1+gets-puts)-1)=1+gets-(puts+1) := by
  rw [toInt_toInt_sub,show (1+gets-puts-1 : ℤ)=1+gets-(puts+1) by omega]
  exact toInt_of_range (by omega) (by unfold intMax; omega)

/-- Each event takes the object to the same or a later stage. -/
theorem Stage.step (h : Stage m b s) (hs : step m s e=some t) (hc : 1+t.gets≤t.puts+2^31) : Stage m b t := by
  cases h with
  | live gets puts hp hl =>
    cases e with
    | getref =>
      simp only [IpcStorage.step,if_pos hp,Option.some.injEq] at hs
      subst hs
      have hcount : toInt (toInt (1+gets-puts)+1)=toInt (1+(gets+1 : ℕ)-puts) := by
        rw [toInt_toInt_add]
        exact congrArg toInt (by omega)
      rw [hcount]
      exact .live (gets+1) puts (by omega) hc
    | putref =>
      simp only [IpcStorage.step,if_pos hp,toInt_decrement hp hl] at hs
      by_cases hlast : (1+gets-(puts+1) : ℤ) > 0
      · rw [if_pos hlast,Option.some.injEq] at hs
        subst hs
        rw [← toInt_of_range (by omega) (by unfold intMax; omega : (1+gets-(puts+1) : ℤ) ≤ intMax)]
        exact .live gets (puts+1) (by omega) hc
      · rw [if_neg hlast,Option.some.injEq] at hs
        subst hs
        obtain rfl : puts=gets := by omega
        rw [Nat.add_comm puts 1]
        exact .grace puts
    | gracePeriod | worker => cases hs
  | grace gets =>
    cases e with
    | getref | putref => cases hs
    | gracePeriod =>
      by_cases hb : b.allocator=.vmalloc
      · simp only [IpcStorage.step,decide_eq_true hb,if_true,Option.some.injEq,headerSize_vmalloc hb,sub_add_cancel,
          add_sub_cancel_right] at hs
        subst hs
        rw [← headerSize_vmalloc hb]
        exact .sched gets hb
      · have hk : b.allocator=.kmalloc := by
          cases ha : b.allocator with
          | kmalloc => rfl
          | vmalloc => exact absurd ha hb
        simp only [IpcStorage.step,decide_eq_false hb,if_neg Bool.false_ne_true,Option.some.injEq,headerSize_kmalloc hb,
          add_sub_cancel_right,List.nil_append] at hs
        subst hs
        rw [← headerSize_kmalloc hb,← hk]
        exact .freed gets _ (.inl rfl)
    | worker => cases hs
  | sched gets hv =>
    cases e with
    | getref | putref | gracePeriod => cases hs
    | worker =>
      cases hs
      rw [List.nil_append,← hv]
      exact .freed gets _ (.inr ⟨rfl,hv⟩)
  | freed gets header hh =>
    cases e with
    | getref | putref => rcases hh with rfl | ⟨rfl,-⟩ <;> cases hs
    | gracePeriod | worker => cases hs

/-- What ipc_rcu_alloc returns: a block of exactly the bytes of the header and the object, from the
allocator that the size asks for, with the first reference. -/
theorem ipcRcuAlloc_eq_some {kmalloc vmalloc : ℕ → Option ℤ} {size : ℕ} (hz : size<2^sizeBits m)
    (h : ipcRcuAlloc m kmalloc vmalloc size=some (b,s)) : b.bytes=b.headerSize m+size ∧ b.bytes<2^sizeBits m ∧
    (b.allocator=.kmalloc → kmalloc b.bytes=some b.base ∧ b.bytes ≤ m.pageSize) ∧
    (b.allocator=.vmalloc → vmalloc b.bytes=some b.base) ∧ Stage m b s := by
  unfold ipcRcuAlloc at h
  dsimp only at h
  split at h
  · cases h
  · next bytes hsum =>
    obtain ⟨hlt,hbytes⟩ := (l30SizeAddOverflow_eq_some hz).mp hsum
    split at h
    · cases h
    · next base hbase =>
      cases h
      have hlive := fun b : Block => Stage.live (m := m) (b := b) 0 0 (by decide) (by decide)
      cases hv : ipcRcuUseVmalloc m size with
      | true =>
        rw [hv] at hbase hbytes hlt
        exact ⟨hbytes,hbytes ▸ hlt,nofun,fun _ => hbase,hlive ⟨.vmalloc,base,bytes⟩⟩
      | false =>
        rw [hv] at hbase hbytes hlt
        have hpage : hdrlenKmalloc m+size ≤ m.pageSize := by
          have hsize := of_decide_eq_false hv
          have hmin := m.page
          have hhdr : hdrlenKmalloc m≤16 := by
            rw [(hdrlenKmalloc_eq m).1,sizeofGrace,pointerBytes]
            cases m.wide <;> decide
          omega
        exact ⟨hbytes,hbytes ▸ hlt,fun _ => ⟨hbase,hbytes ▸ hpage⟩,nofun,hlive ⟨.kmalloc,base,bytes⟩⟩

/-- In every stage the header lies in the block, in front of the object. -/
theorem Stage.header_within (h : Stage m b s) :
    b.base ≤ s.header.start ∧ s.header.start+s.header.bytes m ≤ s.object := by
  have hk := hdrlenKmalloc_eq m
  have hv := hdrlenVmalloc_eq m
  have hsize : sizeofGrace m≤b.headerSize m := by
    by_cases hb : b.allocator=.vmalloc
    · rw [headerSize_vmalloc hb]
      exact hv.2
    · rw [headerSize_kmalloc hb]
  cases h with
  | live | grace => dsimp only [Header.start,Header.bytes]; omega
  | sched gets hb =>
    dsimp only [Header.start,Header.bytes]
    rw [headerSize_vmalloc hb]
    omega
  | freed gets header hh =>
    rcases hh with rfl | ⟨rfl,hb⟩
    · dsimp only [Header.start,Header.bytes]
      omega
    · dsimp only [Header.start,Header.bytes]
      rw [headerSize_vmalloc hb]
      omega

/-- The storage of a reference-counted object, while at most 2^31 references are held at a time: it has
room for the header and the object; the release starts exactly when the last reference is put;
the header always lies in the block in front of the object; and what is freed is the block, once, by its
own allocator, as soon as the callback and the work item have run. -/
theorem ipc_rcu_storage_freed_once (m : Machine) (kmalloc vmalloc : ℕ → Option ℤ) (size : ℕ)
    (hz : size<2^sizeBits m) (b : Block) (start : State) (ha : ipcRcuAlloc m kmalloc vmalloc size=some (b,start)) :
    b.bytes=b.headerSize m+size ∧ start.object=b.base+b.headerSize m ∧
    (b.allocator=.kmalloc → kmalloc b.bytes=some b.base ∧ b.bytes ≤ m.pageSize) ∧
    (b.allocator=.vmalloc → vmalloc b.bytes=some b.base) ∧ ∀ s, Counted m start s →
      s.object=start.object ∧
      s.puts≤1+s.gets ∧
      (s.puts=1+s.gets ↔ s.rcu.isSome=true ∨ s.work.isSome=true ∨ s.freed≠[]) ∧
      (s.puts<1+s.gets → (step m s .getref).isSome=true ∧ (step m s .putref).isSome=true) ∧
      b.base ≤ s.header.start ∧ s.header.start+s.header.bytes m ≤ s.object ∧
      (s.freed=[] ∨ s.freed=[(b.allocator,b.base)]) ∧
      (s.puts=1+s.gets → s.rcu=none → s.work=none → s.freed=[(b.allocator,b.base)]) := by
  obtain ⟨hbytes,-,hk,hv,hstart⟩ := ipcRcuAlloc_eq_some hz ha
  have hobject : ∀ {s}, Stage m b s → s.object=b.base+b.headerSize m := fun h => by cases h <;> rfl
  refine ⟨hbytes,hobject hstart,hk,hv,fun s hr => ?_⟩
  have hs : Stage m b s := by
    refine Reachable.invariant (I := Stage m b) ?_ (fun _ _ _ _ h hs => h.step hs.1 hs.2) hr
    rintro _ rfl
    exact hstart
  refine ⟨(hobject hs).trans (hobject hstart).symm,?_⟩
  obtain ⟨hlow,hhigh⟩ := hs.header_within
  cases hs with
  | live gets puts h hc =>
    refine ⟨h.le,⟨fun he => absurd he h.ne,by simp⟩,fun _ => ?_,hlow,hhigh,.inl rfl,fun he => absurd he h.ne⟩
    simp only [step,if_pos h,Option.isSome_some,true_and]
    split <;> rfl
  | grace gets =>
    exact ⟨le_rfl,⟨fun _ => .inl rfl,fun _ => rfl⟩,fun h => absurd h (lt_irrefl _),hlow,hhigh,.inl rfl,nofun⟩
  | sched gets hv =>
    exact ⟨le_rfl,⟨fun _ => .inr (.inl rfl),fun _ => rfl⟩,fun h => absurd h (lt_irrefl _),hlow,hhigh,.inl rfl,
      fun _ _ => nofun⟩
  | freed gets header hh =>
    exact ⟨le_rfl,⟨fun _ => .inr (.inr (List.cons_ne_nil _ _)),fun _ => rfl⟩,fun h => absurd h (lt_irrefl _),hlow,hhigh,
      .inr rfl,fun _ _ _ => rfl⟩

/-- A machine with 64 bits and pages of 4096 bytes. -/
def machine64 : Machine := ⟨true,0,4096,le_rfl⟩

/-- The state of an object with its first reference. -/
def firstState (object : ℤ) (isVmalloc : Bool) : State :=
  ⟨object,.hdr (object-sizeofHdr) 1 isVmalloc,none,none,[],0,0⟩

/-- An object of 5000 bytes comes from vmalloc. -/
theorem ipcRcuAlloc_large : ipcRcuAlloc machine64 (fun _ => none) (fun _ => some 65536) 5000=
      some (⟨.vmalloc,65536,5032⟩,firstState 65568 true) := by
  decide

/-- An object of 5000 bytes with two references is released once, at the address that vmalloc
returned. -/
theorem ipc_rcu_storage_freed_once_vmalloc :
    ∃ s, Counted machine64 (firstState 65568 true) s ∧ s.puts=1+s.gets ∧ s.freed=[(.vmalloc,65536)] := by
  obtain ⟨s,hr,hputs,hrcu,hwork⟩ : ∃ s, Counted machine64 (firstState 65568 true) s ∧ s.puts=1+s.gets ∧
      s.rcu=none ∧ s.work=none := by
    refine exists_run (f := fun s e => (step machine64 s e).filter (fun t => decide (1+t.gets≤t.puts+2^31)))
      (fun _ _ _ h => ?_) rfl [.getref,.putref,.putref,.gracePeriod,.worker] (by decide)
    obtain ⟨hstep,hle⟩ := Option.filter_eq_some_iff.mp h
    exact ⟨hstep,of_decide_eq_true hle⟩
  have h := ipc_rcu_storage_freed_once machine64 (fun _ => none) (fun _ => some 65536) 5000 (by decide)
    ⟨.vmalloc,65536,5032⟩ (firstState 65568 true) ipcRcuAlloc_large
  exact ⟨s,hr,hputs,(h.2.2.2.2 s hr).2.2.2.2.2.2.2 hputs hrcu hwork⟩

/-- After any number of calls of ipc_rcu_getref the count is their number, in an int. -/
theorem getrefs_reachable (object : ℤ) (v : Bool) (n : ℕ) :
    Reachable (· = firstState object v) (fun s e t => step m s e=some t)
      ⟨object,.hdr (object-sizeofHdr) (toInt (1+n)) v,none,none,[],n,0⟩ := by
  induction n with
  | zero => exact .start rfl
  | succ n ih =>
    refine .next (a := .getref) ih ?_
    simp only [step,if_pos (by omega : 0<1+n),toInt_toInt_add]
    push_cast
    rw [add_assoc]

/-- With 2^31 references beyond the first one the int wraps: a single ipc_rcu_putref then starts the
release while 2^31 references are held. In front of an object from kmalloc there is no room for an
ipc_rcu_sched. -/
theorem wrapped_refcount_released_early :
    (∃ b s, ipcRcuAlloc machine64 (fun _ => some 4096) (fun _ => none) 100=some (b,s) ∧ b.allocator=.kmalloc ∧
      s.object-sizeofSched machine64<b.base) ∧
    ipcRcuAlloc machine64 (fun _ => none) (fun _ => some 65536) 5000=
      some (⟨.vmalloc,65536,5032⟩,firstState 65568 true) ∧
    ∃ s, Reachable (· = firstState 65568 true) (fun s e t => step machine64 s e=some t) s ∧
      s.gets=2^31 ∧ s.puts=1 ∧ s.rcu=some (65552,.scheduleFree) := by
  have hwrap : ¬toInt (toInt (1+(2^31 : ℕ))-1) > 0 := by decide
  refine ⟨⟨⟨.kmalloc,4096,116⟩,firstState 4112 false,by decide⟩,ipcRcuAlloc_large,?_⟩
  generalize 2^31=n at hwrap ⊢
  refine ⟨⟨65568,.grace 65552,some (65552,.scheduleFree),none,[],n,1⟩,
    .next (a := .putref) (getrefs_reachable 65568 true n) ?_,rfl,rfl,rfl⟩
  simp only [step,if_pos (by omega : 0<1+n),if_neg hwrap]
  rfl

end BlockIpc.IpcStorage
