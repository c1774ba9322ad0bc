import BlockIpc.KernelNumbers
import BlockIpc.TransitionRuns
import BlockIpc.CheckedMath

/-!
# Inodes of POSIX message queues

A queue is an inode of a file system that belongs to an ipc namespace. Its creation counts the
queue, takes an inode object from a cache, allocates the table of messages and charges the user;
each step may fail. The eviction of an inode frees the table and takes the charge back. A failed
creation evicts an inode that is only partly initialised. Creations and evictions interleave, the
limits may change at any time, and objects of the cache are reused as they are.
-/

namespace BlockIpc.MqueueInodes

open Function KernelNumbers TransitionRuns CheckedMath

/-- The word size of the machine. -/
structure Platform where
  /-- Bytes of a pointer, which are also those of a long and of a size_t. -/
  pointerSize : ℕ
  /-- The machine has 32 or 64 bits. -/
  known : pointerSize=4 ∨ pointerSize=8

/-- Bits of a size_t. -/
def Platform.width (pf : Platform) : ℕ := 8*pf.pointerSize

def Platform.hardMsgmax (pf : Platform) : ℕ := 131072/pf.pointerSize

/-- The value range of a C long. -/
def Platform.IsLong (pf : Platform) (x : ℤ) : Prop := -2^(pf.width-1)≤x ∧ x<2^(pf.width-1)

/-- Conversion of a long to a size_t. -/
def Platform.toSize (pf : Platform) (x : ℤ) : ℕ := (x%2^pf.width).toNat

def minMsgsizemax : ℕ := 128

def maxMsgsizemax : ℕ := 8192*128

variable {pf : Platform}

/-- The fields of struct mq_attr that a creation reads. -/
structure MqAttr (pf : Platform) where
  /-- Number of messages the queue may hold. -/
  maxmsg : ℤ
  /-- Largest size of a message. -/
  msgsize : ℤ
  /-- Both fields are longs. -/
  longs : pf.IsLong maxmsg ∧ pf.IsLong msgsize

/-- The limits of a namespace that the sysctl files show. -/
structure MqLimits (pf : Platform) where
  queuesMax : ℕ
  msgMax : ℕ
  msgsizeMax : ℕ
  /-- The ranges that the sysctl handlers admit. -/
  admitted : (1 ≤ msgMax ∧ msgMax≤pf.hardMsgmax) ∧ minMsgsizemax ≤ msgsizeMax ∧ msgsizeMax ≤ maxMsgsizemax

/-- A write to one of the sysctl files. -/
inductive MqSysctl where
  | queuesMax (value : ℕ)
  | msgMax (value : ℕ)
  | msgsizeMax (value : ℕ)

/-- The handlers proc_mq_dointvec and proc_mq_dointvec_minmax; a value out of
range is not stored. -/
def procMqDointvec (lim : MqLimits pf) : MqSysctl → MqLimits pf
  | .queuesMax value => ⟨value,lim.msgMax,lim.msgsizeMax,lim.admitted⟩
  | .msgMax value =>
    if h : 1≤value ∧ value≤pf.hardMsgmax then ⟨lim.queuesMax,value,lim.msgsizeMax,h,lim.admitted.2⟩
    else lim
  | .msgsizeMax value =>
    if h : minMsgsizemax≤value ∧ value ≤ maxMsgsizemax then
      ⟨lim.queuesMax,lim.msgMax,value,lim.admitted.1,h⟩
    else lim

/-- The default limits lie in the admitted ranges. -/
theorem default_admitted (pf : Platform) :
    (1≤10 ∧ 10≤pf.hardMsgmax) ∧ minMsgsizemax≤8192 ∧ 8192 ≤ maxMsgsizemax := by
  unfold Platform.hardMsgmax
  rcases pf.known with h|h
  · rw [h]
    decide
  · rw [h]
    decide

/-- The limits after mq_init_ns: DFLT_QUEUESMAX, DFLT_MSGMAX and DFLT_MSGSIZEMAX. -/
def mqInitLimits (pf : Platform) : MqLimits pf := ⟨256,10,8192,default_admitted pf⟩

/-- An admitted limit is a small long. -/
theorem isLong_natCast {x : ℕ} (h : x ≤ maxMsgsizemax) : pf.IsLong x := by
  have hp : (2 : ℤ)^31≤2^(pf.width-1) := by
    unfold Platform.width
    rcases pf.known with h|h
    · rw [h]
    · rw [h]
      decide
  unfold maxMsgsizemax at h
  unfold Platform.IsLong
  constructor
  · omega
  · omega

theorem hardMsgmax_le (pf : Platform) : pf.hardMsgmax ≤ maxMsgsizemax := by
  unfold Platform.hardMsgmax
  rcases pf.known with h|h
  · rw [h]
    decide
  · rw [h]
    decide

/-- The limit on the number of messages is small. -/
theorem MqLimits.msgMax_le (lim : MqLimits pf) : lim.msgMax ≤ maxMsgsizemax := by
  exact le_trans lim.admitted.1.2 (hardMsgmax_le pf)

/-- The attributes of a queue that is created without any. -/
def MqLimits.attr (lim : MqLimits pf) : MqAttr pf :=
  ⟨lim.msgMax,lim.msgsizeMax,isLong_natCast lim.msgMax_le,isLong_natCast lim.admitted.2.2⟩

/-- Bytes of the table and bytes charged for a queue; none on overflow. -/
def mqCalculateSizes (attr : MqAttr pf) : Option (ℕ×ℕ) :=
  match l30SizeArrayBytes pf.width (pf.toSize attr.maxmsg) pf.pointerSize with
  | none => none
  | some tableBytes =>
    match l30SizeRecordsBytes pf.width (pf.toSize attr.maxmsg) (pf.toSize attr.msgsize) pf.pointerSize with
    | none => none
    | some queueBytes => some (tableBytes,queueBytes)

/-- The exact size of a queue: a pointer and the largest message for each place. -/
def queueBytes (attr : MqAttr pf) : ℤ := attr.maxmsg*(attr.msgsize+pf.pointerSize)

/-- A positive long is converted to a size_t without change. -/
theorem toSize_of_pos {x : ℤ} (h0 : 0<x) (h : pf.IsLong x) : (pf.toSize x : ℤ)=x := by
  have hlt : x<2^pf.width :=
    lt_of_lt_of_le h.2 (pow_le_pow_right₀ (by decide) (Nat.sub_le _ _))
  unfold Platform.toSize
  rw [Int.emod_eq_of_lt (le_of_lt h0) hlt]
  omega

theorem pointerSize_lt (pf : Platform) : pf.pointerSize<2^pf.width := by
  unfold Platform.width
  rcases pf.known with h|h
  · rw [h]
    decide
  · rw [h]
    decide

/-- The sizes of positive attributes are calculated exactly if the size of the
queue is a word. -/
theorem mqCalculateSizes_eq_some {attr : MqAttr pf} (h0 : 0<attr.maxmsg) (h1 : 0<attr.msgsize)
    {tableBytes bytes : ℕ} : mqCalculateSizes attr=some (tableBytes,bytes) ↔
      queueBytes attr<2^pf.width ∧ (tableBytes : ℤ)=attr.maxmsg*pf.pointerSize ∧
        (bytes : ℤ)=queueBytes attr := by
  have hp := pointerSize_lt pf
  have hmax := toSize_of_pos h0 attr.longs.1
  have hsize := toSize_of_pos h1 attr.longs.2
  have hpos : 0<pf.toSize attr.maxmsg := by omega
  have htables : attr.maxmsg*pf.pointerSize=((pf.toSize attr.maxmsg*pf.pointerSize : ℕ) : ℤ) := by
    push_cast
    rw [hmax]
  have hqueue : queueBytes attr=((pf.toSize attr.maxmsg*(pf.toSize attr.msgsize+pf.pointerSize) : ℕ) : ℤ) := by
    push_cast
    rw [hmax,hsize]
    rfl
  rw [htables,hqueue]
  unfold mqCalculateSizes
  constructor
  · intro h
    split at h
    · cases h
    · next harray =>
      split at h
      · cases h
      · next hrecords =>
        cases h
        obtain ⟨_,ht⟩ := l30SizeMulOverflow_eq_some.mp harray
        obtain ⟨_,hlt,hb⟩ := (l30SizeRecordsBytes_eq_some hp).mp hrecords
        rw [ht,hb]
        exact ⟨by exact_mod_cast hlt,rfl,rfl⟩
  · rintro ⟨hlt,ht,hb⟩
    have hlt : pf.toSize attr.maxmsg*(pf.toSize attr.msgsize+pf.pointerSize)<2^pf.width := by
      exact_mod_cast hlt
    have hone : pf.toSize attr.msgsize+pf.pointerSize<2^pf.width :=
      lt_of_le_of_lt (Nat.le_mul_of_pos_left _ hpos) hlt
    have htable : pf.toSize attr.maxmsg*pf.pointerSize<2^pf.width :=
      lt_of_le_of_lt (Nat.mul_le_mul_left _ (Nat.le_add_left _ _)) hlt
    have harray : l30SizeArrayBytes pf.width (pf.toSize attr.maxmsg) pf.pointerSize=some tableBytes :=
      l30SizeMulOverflow_eq_some.mpr ⟨htable,by exact_mod_cast ht⟩
    have hrecords := (l30SizeRecordsBytes_eq_some hp).mpr ⟨hone,hlt,show bytes=_ by exact_mod_cast hb⟩
    rw [harray,hrecords]

/-- The check of attributes that a user passes. -/
def mqAttrOk (lim : MqLimits pf) (capable : Bool) (attr : MqAttr pf) : Bool :=
  if attr.maxmsg≤0 ∨ attr.msgsize≤0 then false
  else if capable=true ∧ pf.hardMsgmax<attr.maxmsg then false
  else if capable=false ∧ (lim.msgMax<attr.maxmsg ∨ lim.msgsizeMax<attr.msgsize) then false
  else (mqCalculateSizes attr).isSome

/-- An ipc namespace as its queues see it. -/
structure MqNs (pf : Platform) where
  queuesCount : ℤ
  limits : MqLimits pf
  /-- Whether s_fs_info of the superblock still points at the namespace. -/
  sbinfo : Bool

/-- An object of the inode cache, struct mqueue_inode_info. -/
structure MqInfo (pf : Platform) where
  /-- The namespace of the superblock. -/
  sb : ℕ
  user : Option ℕ
  attr : MqAttr pf
  /-- The table of messages; NULL is none. -/
  messages : Option ℕ
  /-- Whether the table was assigned since the object became this inode. -/
  assigned : Bool

/-- Progress of a call that creates a queue. -/
inductive CreatePc (pf : Platform) where
  /-- Not called yet. -/
  | idle
  /-- In do_create after the check of the attributes. -/
  | opened (ns user : ℕ) (attr : Option (MqAttr pf))
  /-- In mqueue_create after the queue was counted. -/
  | counted (ns user : ℕ) (attr : Option (MqAttr pf))
  /-- In mqueue_get_inode after the sizes were calculated. -/
  | sized (ns user inode bytes : ℕ)
  /-- In mqueue_get_inode after the table was allocated. -/
  | tabled (ns user inode bytes : ℕ)
  /-- In mqueue_get_inode at the label out_inode. -/
  | outInode (ns inode : ℕ)
  /-- In mqueue_create after mqueue_get_inode returned NULL. -/
  | failed (ns : ℕ)
  | done (code : ℤ)

/-- All queues of the machine. -/
structure MqState (pf : Platform) where
  ns : ℕ → MqNs pf
  mqBytes : ℕ → ℕ
  /-- The objects of the inode cache. -/
  objs : ℕ → MqInfo pf
  /-- Whether an object is an inode now. -/
  allocated : ℕ → Bool
  /-- The inode for which each allocated table was allocated. -/
  tables : ℕ → Option ℕ
  /-- The inodes of live queues. -/
  queues : List ℕ
  /-- Progress of every call. -/
  pc : ℕ → CreatePc pf
  /-- Whether an eviction freed a table that did not belong to the inode. -/
  badFree : Bool

/-- Advance a call. -/
def MqState.go (s : MqState pf) (c : ℕ) (pc : CreatePc pf) : MqState pf := {s with pc := update s.pc c pc}

/-- Write a namespace. -/
def MqState.setNs (s : MqState pf) (n : ℕ) (ns : MqNs pf) : MqState pf := {s with ns := update s.ns n ns}

/-- Write an object of the inode cache. -/
def MqState.setInfo (s : MqState pf) (o : ℕ) (info : MqInfo pf) : MqState pf :=
  {s with objs := update s.objs o info}

/-- Add to the number of queues of a namespace. -/
def MqState.addCount (s : MqState pf) (n : ℕ) (k : ℤ) : MqState pf :=
  s.setNs n {s.ns n with queuesCount := (s.ns n).queuesCount+k}

/-- The attributes an inode gets. -/
def chosenAttr (lim : MqLimits pf) : Option (MqAttr pf) → MqAttr pf
  | none => lim.attr
  | some attr => attr

/-- The first part of mqueue_get_inode: a cached object becomes an inode. The
pointer to the table is left as it was. -/
def MqState.initInode (s : MqState pf) (o n : ℕ) (attr : Option (MqAttr pf)) : MqState pf :=
  {s.setInfo o ⟨n,none,chosenAttr (s.ns n).limits attr,(s.objs o).messages,false⟩ with
    allocated := update s.allocated o true}

/-- The table pointer of an inode is freed; it should be NULL or a table that was
allocated for this inode. -/
def MqState.kfreeMessages (s : MqState pf) (o : ℕ) : MqState pf :=
  match (s.objs o).messages with
  | none => s
  | some t =>
    {s with tables := update s.tables t none, badFree := s.badFree || decide (s.tables t≠some o)}

/-- The bytes that an eviction takes back. -/
def refundBytes (attr : MqAttr pf) : ℕ :=
  match mqCalculateSizes attr with
  | none => 0
  | some (_,queueBytes) => queueBytes

/-- The accounting part of mqueue_evict_inode. -/
def MqState.refund (s : MqState pf) (o : ℕ) : MqState pf :=
  match (s.objs o).user with
  | none => s
  | some u =>
    let left := (s.mqBytes u+2^pf.width-refundBytes (s.objs o).attr)%2^pf.width
    let s := {s with mqBytes := update s.mqBytes u left}
    if (s.ns (s.objs o).sb).sbinfo=true then s.addCount (s.objs o).sb (-1) else s

/-- Evict an inode. Its object goes back to the cache. -/
def mqueueEvictInode (s : MqState pf) (o : ℕ) : MqState pf :=
  let s := (s.kfreeMessages o).refund o
  {s with allocated := update s.allocated o false}

/-- The charged queue becomes live. -/
def MqState.charged (s : MqState pf) (u o total : ℕ) : MqState pf :=
  {s.setInfo o {s.objs o with user := some u} with
    mqBytes := update s.mqBytes u total
    queues := o::s.queues}

/-- What happens to the queues. -/
inductive MqEvent (pf : Platform) where
  | sysctl (ns : ℕ) (write : MqSysctl)
  /-- The namespace exits: mq_clear_sbinfo. -/
  | clearSbinfo (ns : ℕ)
  /-- do_create, or a plain open of a file that passes no attributes. -/
  | doCreate (c ns user : ℕ) (capable : Bool) (attr : Option (MqAttr pf))
  /-- The first critical section of mqueue_create. -/
  | create (c : ℕ) (capable : Bool)
  /-- The allocation of the inode, none if it fails, up to the calculation of the sizes. -/
  | newInode (c : ℕ) (inode : Option ℕ)
  /-- The allocation of the table, none if it fails. -/
  | kmalloc (c : ℕ) (table : Option ℕ)
  /-- The check of RLIMIT_MSGQUEUE and the charge. -/
  | charge (c rlimit : ℕ)
  | dropInode (c : ℕ)
  /-- The failure path of mqueue_create. -/
  | rollback (c : ℕ)
  /-- The last reference to a live queue is dropped. -/
  | evict (inode : ℕ)

def mqStep (s : MqState pf) : MqEvent pf → Option (MqState pf)
  | .sysctl n write => some (s.setNs n {s.ns n with limits := procMqDointvec (s.ns n).limits write})
  | .clearSbinfo n => some (s.setNs n {s.ns n with sbinfo := false})
  | .doCreate c n u capable attr =>
    match s.pc c with
    | .idle =>
      match attr with
      | none => some (s.go c (.opened n u none))
      | some a =>
        if mqAttrOk (s.ns n).limits capable a then some (s.go c (.opened n u (some a)))
        else some (s.go c (.done (-einval)))
    | _ => none
  | .create c capable =>
    match s.pc c with
    | .opened n u attr =>
      if (s.ns n).sbinfo=false then some (s.go c (.done (-eacces)))
      else if (s.ns n).limits.queuesMax≤(s.ns n).queuesCount ∧ capable=false then
        some (s.go c (.done (-enospc)))
      else some ((s.addCount n 1).go c (.counted n u attr))
    | _ => none
  | .newInode c inode =>
    match s.pc c with
    | .counted n u attr =>
      match inode with
      | none => some (s.go c (.failed n))
      | some o =>
        if s.allocated o=true then none
        else
          match mqCalculateSizes (chosenAttr (s.ns n).limits attr) with
          | none => some ((s.initInode o n attr).go c (.outInode n o))
          | some (_,bytes) => some ((s.initInode o n attr).go c (.sized n u o bytes))
    | _ => none
  | .kmalloc c table =>
    match s.pc c with
    | .sized n u o bytes =>
      match table with
      | none => some ((s.setInfo o {s.objs o with messages := none, assigned := true}).go c (.outInode n o))
      | some t =>
        if (s.tables t).isSome then none
        else
          some ({s.setInfo o {s.objs o with messages := some t, assigned := true} with
            tables := update s.tables t (some o)}.go c (.tabled n u o bytes))
    | _ => none
  | .charge c rlimit =>
    match s.pc c with
    | .tabled n u o bytes =>
      match l30SizeAddOverflow pf.width (s.mqBytes u) bytes with
      | none => some (s.go c (.outInode n o))
      | some total =>
        if rlimit<total then some (s.go c (.outInode n o))
        else some ((s.charged u o total).go c (.done 0))
    | _ => none
  | .dropInode c =>
    match s.pc c with
    | .outInode n o => some ((mqueueEvictInode s o).go c (.failed n))
    | _ => none
  | .rollback c =>
    match s.pc c with
    | .failed n => some ((s.addCount n (-1)).go c (.done (-enomem)))
    | _ => none
  | .evict o =>
    if o∈s.queues then some {mqueueEvictInode s o with queues := s.queues.erase o} else none

/-- One step as a relation. -/
def MqNext (s : MqState pf) (e : MqEvent pf) (s' : MqState pf) : Prop := mqStep s e=some s'

/-- Initially there are no queues. What the cached objects hold is arbitrary. -/
structure MqStart (s : MqState pf) : Prop where
  count : ∀ n, (s.ns n).queuesCount=0
  /-- Nobody is charged. -/
  bytes : ∀ u, s.mqBytes u=0
  /-- No object is an inode. -/
  unallocated : ∀ o, s.allocated o=false
  queues : s.queues=[]
  /-- No call has started. -/
  idle : ∀ c, s.pc c=.idle
  badFree : s.badFree=false

/-- States of all runs. -/
def MqReachable (s : MqState pf) : Prop := Reachable MqStart MqNext s

inductive MqCase (s : MqState pf) : MqEvent pf → MqState pf → Prop
  | limits {n : ℕ} {write : MqSysctl} :
    MqCase s (.sysctl n write) (s.setNs n {s.ns n with limits := procMqDointvec (s.ns n).limits write})
  /-- A superblock loses its namespace. -/
  | cleared {n : ℕ} : MqCase s (.clearSbinfo n) (s.setNs n {s.ns n with sbinfo := false})
  /-- Attributes pass the check, or there are none. -/
  | opened {c n u : ℕ} {capable : Bool} {attr : Option (MqAttr pf)} (hp : s.pc c=.idle)
    (ha : ∀ a, attr=some a → mqAttrOk (s.ns n).limits capable a=true) :
    MqCase s (.doCreate c n u capable attr) (s.go c (.opened n u attr))
  | refused {c n u : ℕ} {capable : Bool} {attr : Option (MqAttr pf)} (hp : s.pc c=.idle) :
    MqCase s (.doCreate c n u capable attr) (s.go c (.done (-einval)))
  /-- There is no namespace, or it has too many queues. -/
  | rejected {c n u : ℕ} {capable : Bool} {attr : Option (MqAttr pf)} {code : ℤ}
    (hp : s.pc c=.opened n u attr) : MqCase s (.create c capable) (s.go c (.done code))
  | counted {c n u : ℕ} {capable : Bool} {attr : Option (MqAttr pf)} (hp : s.pc c=.opened n u attr) :
    MqCase s (.create c capable) ((s.addCount n 1).go c (.counted n u attr))
  | noInode {c n u : ℕ} {attr : Option (MqAttr pf)} (hp : s.pc c=.counted n u attr) :
    MqCase s (.newInode c none) (s.go c (.failed n))
  /-- The sizes overflow. -/
  | oversize {c n u o : ℕ} {attr : Option (MqAttr pf)} (hp : s.pc c=.counted n u attr)
    (hfree : s.allocated o=false) (hsize : mqCalculateSizes (chosenAttr (s.ns n).limits attr)=none) :
    MqCase s (.newInode c (some o)) ((s.initInode o n attr).go c (.outInode n o))
  | sized {c n u o tableBytes bytes : ℕ} {attr : Option (MqAttr pf)} (hp : s.pc c=.counted n u attr)
    (hfree : s.allocated o=false)
    (hsize : mqCalculateSizes (chosenAttr (s.ns n).limits attr)=some (tableBytes,bytes)) :
    MqCase s (.newInode c (some o)) ((s.initInode o n attr).go c (.sized n u o bytes))
  | noTable {c n u o bytes : ℕ} (hp : s.pc c=.sized n u o bytes) :
    MqCase s (.kmalloc c none)
      ((s.setInfo o {s.objs o with messages := none, assigned := true}).go c (.outInode n o))
  | tabled {c n u o bytes t : ℕ} (hp : s.pc c=.sized n u o bytes) (hfree : s.tables t=none) :
    MqCase s (.kmalloc c (some t))
      ({s.setInfo o {s.objs o with messages := some t, assigned := true} with
        tables := update s.tables t (some o)}.go c (.tabled n u o bytes))
  /-- The user may not be charged. -/
  | overQuota {c rlimit n u o bytes : ℕ} (hp : s.pc c=.tabled n u o bytes) :
    MqCase s (.charge c rlimit) (s.go c (.outInode n o))
  | charged {c rlimit n u o bytes total : ℕ} (hp : s.pc c=.tabled n u o bytes)
    (htotal : l30SizeAddOverflow pf.width (s.mqBytes u) bytes=some total) (hlimit : total ≤ rlimit) :
    MqCase s (.charge c rlimit) ((s.charged u o total).go c (.done 0))
  /-- A partly initialised inode is evicted. -/
  | dropped {c n o : ℕ} (hp : s.pc c=.outInode n o) :
    MqCase s (.dropInode c) ((mqueueEvictInode s o).go c (.failed n))
  /-- The queue is not counted any more. -/
  | rolledBack {c n : ℕ} (hp : s.pc c=.failed n) :
    MqCase s (.rollback c) ((s.addCount n (-1)).go c (.done (-enomem)))
  /-- A live queue is evicted. -/
  | evicted {o : ℕ} (ho : o∈s.queues) :
    MqCase s (.evict o) {mqueueEvictInode s o with queues := s.queues.erase o}

theorem mqStep_cases {s s' : MqState pf} {e : MqEvent pf} (h : MqNext s e s') : MqCase s e s' := by
  unfold MqNext at h
  cases e with
  | sysctl n write =>
    cases h
    exact .limits
  | clearSbinfo n =>
    cases h
    exact .cleared
  | doCreate c n u capable attr =>
    cases hp : s.pc c with
    | idle =>
      simp only [mqStep,hp] at h
      cases attr with
      | none =>
        cases h
        exact .opened hp nofun
      | some a =>
        dsimp only at h
        split at h
        · next hok =>
          cases h
          exact .opened hp (fun b hb => by cases hb; exact hok)
        · cases h
          exact .refused hp
    | _ => simp [mqStep,hp] at h
  | create c capable =>
    cases hp : s.pc c with
    | opened n u attr =>
      simp only [mqStep,hp] at h
      split at h
      · cases h
        exact .rejected hp
      · split at h
        · cases h
          exact .rejected hp
        · cases h
          exact .counted hp
    | _ => simp [mqStep,hp] at h
  | newInode c inode =>
    cases hp : s.pc c with
    | counted n u attr =>
      simp only [mqStep,hp] at h
      cases inode with
      | none =>
        cases h
        exact .noInode hp
      | some o =>
        obtain ⟨hfree,h⟩ := Option.ite_none_left_eq_some.mp h
        have hf : s.allocated o=false := by simpa using hfree
        split at h
        · next hsize =>
          cases h
          exact .oversize hp hf hsize
        · next hsize =>
          cases h
          exact .sized hp hf hsize
    | _ => simp [mqStep,hp] at h
  | kmalloc c table =>
    cases hp : s.pc c with
    | sized n u o bytes =>
      simp only [mqStep,hp] at h
      cases table with
      | none =>
        cases h
        exact .noTable hp
      | some t =>
        obtain ⟨hfree,h⟩ := Option.ite_none_left_eq_some.mp h
        cases h
        exact .tabled hp (by simpa using hfree)
    | _ => simp [mqStep,hp] at h
  | charge c rlimit =>
    cases hp : s.pc c with
    | tabled n u o bytes =>
      simp only [mqStep,hp] at h
      split at h
      · cases h
        exact .overQuota hp
      · next htotal =>
        split at h
        · cases h
          exact .overQuota hp
        · next hlimit =>
          cases h
          exact .charged hp htotal (not_lt.mp hlimit)
    | _ => simp [mqStep,hp] at h
  | dropInode c =>
    cases hp : s.pc c with
    | outInode n o =>
      simp only [mqStep,hp] at h
      cases h
      exact .dropped hp
    | _ => simp [mqStep,hp] at h
  | rollback c =>
    cases hp : s.pc c with
    | failed n =>
      simp only [mqStep,hp] at h
      cases h
      exact .rolledBack hp
    | _ => simp [mqStep,hp] at h
  | evict o =>
    obtain ⟨ho,rfl⟩ := of_guard h
    exact .evicted ho

/-- The inode that a call is building. -/
def CreatePc.inode : CreatePc pf → Option ℕ
  | .sized _ _ o _ => some o
  | .tabled _ _ o _ => some o
  | .outInode _ o => some o
  | _ => none

/-- The attributes that a call carries. -/
def CreatePc.attr : CreatePc pf → Option (MqAttr pf)
  | .opened _ _ attr => attr
  | .counted _ _ attr => attr
  | _ => none

/-- The inode that a call is going to charge, and the bytes. -/
def CreatePc.bill : CreatePc pf → Option (ℕ×ℕ)
  | .sized _ _ o bytes => some (o,bytes)
  | .tabled _ _ o bytes => some (o,bytes)
  | _ => none

/-- A bill is for the inode that the call is building. -/
theorem CreatePc.inode_of_bill {pc : CreatePc pf} {o bytes : ℕ} (h : pc.bill=some (o,bytes)) : pc.inode=some o := by
  cases pc with
  | sized n u o' b | tabled n u o' b =>
    cases h
    rfl
  | _ => cases h

/-- Attributes of which the sizes can be calculated. -/
structure MqAttr.Sized (attr : MqAttr pf) : Prop where
  /-- The queue holds messages. -/
  maxmsg : 0<attr.maxmsg
  /-- It does not hold more than HARD_MSGMAX of them. -/
  hard : attr.maxmsg≤pf.hardMsgmax
  /-- Messages have a size. -/
  msgsize : 0<attr.msgsize
  some : (mqCalculateSizes attr).isSome=true

/-- Attributes of a user that pass the check have sizes. -/
theorem mqAttrOk_sized {lim : MqLimits pf} {capable : Bool} {attr : MqAttr pf}
    (h : mqAttrOk lim capable attr=true) : attr.Sized := by
  unfold mqAttrOk at h
  split at h
  · cases h
  · next hpos =>
    split at h
    · cases h
    · next hcapable =>
      split at h
      · cases h
      · next hplain =>
        have hlimit := lim.admitted.1.2
        refine ⟨by omega,?_,by omega,h⟩
        cases capable with
        | true => exact not_lt.mp (fun hlt => hcapable ⟨rfl,hlt⟩)
        | false =>
          have hmax : attr.maxmsg≤lim.msgMax := not_lt.mp (fun hlt => hplain ⟨rfl,.inl hlt⟩)
          omega

/-- What holds of the inodes and the calls that build them. -/
structure InodeInv (s : MqState pf) : Prop where
  /-- Live queues are different. -/
  nodup : s.queues.Nodup
  live : ∀ o∈s.queues, s.allocated o=true
  /-- A live queue is charged to a user. -/
  user : ∀ o∈s.queues, (s.objs o).user.isSome=true
  /-- The sizes of a live queue can be calculated. -/
  sized : ∀ o∈s.queues, (s.objs o).attr.Sized
  /-- An inode that is being built is not live and not charged. -/
  building : ∀ c o, (s.pc c).inode=some o → s.allocated o=true ∧ o∉s.queues ∧ (s.objs o).user=none
  /-- Different calls build different inodes. -/
  distinct : ∀ c d o, (s.pc c).inode=some o → (s.pc d).inode=some o → c=d
  /-- A call carries attributes that passed the check. -/
  attrs : ∀ c a, (s.pc c).attr=some a → a.Sized
  /-- A call is going to charge what an eviction takes back. -/
  bills : ∀ c o bytes, (s.pc c).bill=some (o,bytes) →
    (s.objs o).attr.Sized ∧ bytes=refundBytes (s.objs o).attr

variable {s s' : MqState pf} {c d n u o x bytes : ℕ} {pc : CreatePc pf} {attr : Option (MqAttr pf)} {e : MqEvent pf}

theorem inodeInv_start (h : MqStart s) : InodeInv s := by
  refine ⟨by rw [h.queues]; exact List.nodup_nil,?_,?_,?_,?_,?_,?_,?_⟩
  · simp [h.queues]
  · simp [h.queues]
  · simp [h.queues]
  · simp [h.idle,CreatePc.inode]
  · simp [h.idle,CreatePc.inode]
  · simp [h.idle,CreatePc.attr]
  · simp [h.idle,CreatePc.bill]

/-- The invariant does not depend on namespaces, tables and charges. -/
theorem InodeInv.frame (hi : InodeInv s) (hqueues : s'.queues=s.queues)
    (hallocated : s'.allocated=s.allocated) (hpc : s'.pc=s.pc)
    (huser : ∀ o, (s'.objs o).user=(s.objs o).user) (hattr : ∀ o, (s'.objs o).attr=(s.objs o).attr) :
    InodeInv s' := by
  obtain ⟨nodup,live,user,sized,building,distinct,attrs,bills⟩ := hi
  simp only [← hqueues,← hallocated,← hpc,← huser,← hattr] at nodup live user sized building distinct attrs bills
  exact ⟨nodup,live,user,sized,building,distinct,attrs,bills⟩

/-- What an inode and its replacement have in common. -/
theorem objs_setInfo {β : Type*} (f : MqInfo pf → β) {info : MqInfo pf} (h : f info=f (s.objs o)) (x : ℕ) :
    f ((s.setInfo o info).objs x)=f (s.objs x) := by
  change f (update s.objs o info x)=f (s.objs x)
  by_cases hx : x=o
  · rw [hx,update_self,h]
  · rw [update_of_ne hx]

/-- The call that advances is where it went, and the others are where they were. -/
theorem go_cases {β : Type*} (f : CreatePc pf → β) {y : β}
    (h : f ((s.go c pc).pc d)=y) : (d=c ∧ f pc=y) ∨ (d≠c ∧ f (s.pc d)=y) := by
  change f (update s.pc c pc d)=y at h
  by_cases hd : d=c
  · rw [hd,update_self] at h
    exact .inl ⟨hd,h⟩
  · rw [update_of_ne hd] at h
    exact .inr ⟨hd,h⟩

/-- A call advances without taking an inode. -/
theorem InodeInv.go (hi : InodeInv s) (hinode : ∀ o, pc.inode=some o → (s.pc c).inode=some o)
    (hattr : ∀ a, pc.attr=some a → a.Sized) (hbill : ∀ o bytes, pc.bill=some (o,bytes) →
      (s.objs o).attr.Sized ∧ bytes=refundBytes (s.objs o).attr) : InodeInv (s.go c pc) := by
  have hold : ∀ d o, ((s.go c pc).pc d).inode=some o → (s.pc d).inode=some o := by
    intro d o h
    rcases go_cases CreatePc.inode h with ⟨hd,h⟩|⟨_,h⟩
    · rw [hd]
      exact hinode o h
    · exact h
  refine ⟨hi.nodup,hi.live,hi.user,hi.sized,fun d o h => hi.building d o (hold d o h),
    fun d e o hd he => hi.distinct d e o (hold d o hd) (hold e o he),fun d a h => ?_,fun d o bytes h => ?_⟩
  · rcases go_cases CreatePc.attr h with ⟨_,h⟩|⟨_,h⟩
    · exact hattr a h
    · exact hi.attrs d a h
  · rcases go_cases CreatePc.bill h with ⟨_,h⟩|⟨_,h⟩
    · exact hbill o bytes h
    · exact hi.bills d o bytes h

/-- A call advances to a point where it carries nothing. -/
theorem InodeInv.goBare (hi : InodeInv s)
    (hinode : pc.inode=none) (hattr : pc.attr=none) (hbill : pc.bill=none) : InodeInv (s.go c pc) :=
  hi.go (by simp [hinode]) (by simp [hattr]) (by simp [hbill])

/-- A call that fails keeps its inode for the eviction. -/
theorem InodeInv.goOut (hi : InodeInv s) (hinode : (s.pc c).inode=some o) : InodeInv (s.go c (.outInode n o)) := by
  refine hi.go (fun o' h => ?_) nofun nofun
  cases h
  exact hinode

/-- A free object becomes the inode of a call that builds none yet. -/
theorem InodeInv.init (hi : InodeInv s) (hnone : (s.pc c).inode=none) (hfree : s.allocated o=false)
    (hpc : pc.inode=some o) (hattr : pc.attr=none) (hbill : ∀ o' bytes, pc.bill=some (o',bytes) →
      (chosenAttr (s.ns n).limits attr).Sized ∧ bytes=refundBytes (chosenAttr (s.ns n).limits attr)) :
    InodeInv ((s.initInode o n attr).go c pc) := by
  have hnot : o∉s.queues := by
    intro ho
    have h := hi.live o ho
    rw [hfree] at h
    cases h
  have hobj : ∀ x, x≠o → ((s.initInode o n attr).go c pc).objs x=s.objs x :=
    fun x hx => update_of_ne hx _ _
  have halloc : ∀ x, s.allocated x=true → ((s.initInode o n attr).go c pc).allocated x=true := by
    intro x hx
    by_cases he : x=o
    · subst he
      exact update_self _ _ _
    · rw [← hx]
      exact update_of_ne he _ _
  have hinode : ∀ d x, (((s.initInode o n attr).go c pc).pc d).inode=some x →
      (d=c ∧ x=o) ∨ (d≠c ∧ x≠o ∧ (s.pc d).inode=some x) := by
    intro d x h
    rcases go_cases CreatePc.inode h with ⟨hd,h⟩|⟨hd,h⟩
    · rw [hpc] at h
      exact .inl ⟨hd,(Option.some.inj h).symm⟩
    · have hx : x≠o := by
        intro he
        subst he
        have ha := (hi.building d x h).1
        rw [hfree] at ha
        cases ha
      exact .inr ⟨hd,hx,h⟩
  refine ⟨hi.nodup,fun x hx => halloc x (hi.live x hx),fun x hx => ?_,fun x hx => ?_,fun d x h => ?_,
    fun d e x hd he => ?_,fun d a h => ?_,fun d x bytes h => ?_⟩
  · rw [hobj x (fun he => hnot (he ▸ hx))]
    exact hi.user x hx
  · rw [hobj x (fun he => hnot (he ▸ hx))]
    exact hi.sized x hx
  · rcases hinode d x h with ⟨_,hx⟩|⟨_,hx,hold⟩
    · subst hx
      refine ⟨update_self _ _ _,hnot,?_⟩
      simp [MqState.go,MqState.initInode,MqState.setInfo]
    · obtain ⟨ha,hq,hu⟩ := hi.building d x hold
      rw [hobj x hx]
      exact ⟨halloc x ha,hq,hu⟩
  · rcases hinode d x hd with ⟨hdc,hx⟩|⟨_,hx,hold⟩
    · rcases hinode e x he with ⟨hec,_⟩|⟨_,hx',_⟩
      · rw [hdc,hec]
      · exact absurd hx hx'
    · rcases hinode e x he with ⟨_,hx'⟩|⟨_,_,hold'⟩
      · exact absurd hx' hx
      · exact hi.distinct d e x hold hold'
  · rcases go_cases CreatePc.attr h with ⟨_,h⟩|⟨_,h⟩
    · rw [hattr] at h
      cases h
    · exact hi.attrs d a h
  · rcases hinode d x (CreatePc.inode_of_bill h) with ⟨hd,hx⟩|⟨hd,hx,_⟩
    · subst hd
      subst hx
      simp only [MqState.go,update_self] at h
      have hb := hbill x bytes h
      simpa [MqState.go,MqState.initInode,MqState.setInfo] using hb
    · simp only [MqState.go,update_of_ne hd] at h
      rw [hobj x hx]
      exact hi.bills d x bytes h

/-- Freeing a table leaves everything but the tables. -/
theorem kfreeMessages_frame (s : MqState pf) (o : ℕ) :
    ∃ tables badFree, s.kfreeMessages o={s with tables := tables, badFree := badFree} := by
  unfold MqState.kfreeMessages
  split
  · exact ⟨s.tables,s.badFree,rfl⟩
  · exact ⟨_,_,rfl⟩

/-- Taking a charge back changes namespaces and charges only. -/
theorem refund_frame (s : MqState pf) (o : ℕ) : ∃ ns mqBytes, s.refund o={s with ns := ns, mqBytes := mqBytes} := by
  unfold MqState.refund
  split
  · exact ⟨s.ns,s.mqBytes,rfl⟩
  · dsimp only
    split
    · exact ⟨_,_,rfl⟩
    · exact ⟨_,_,rfl⟩

/-- An eviction returns one object and leaves the others, the calls and the list
of queues. -/
theorem evict_eq (s : MqState pf) (o : ℕ) : ∃ ns mqBytes tables badFree, mqueueEvictInode s o={s with
      ns := ns, mqBytes := mqBytes, tables := tables, badFree := badFree, allocated := update s.allocated o false} := by
  obtain ⟨tables,badFree,hk⟩ := kfreeMessages_frame s o
  obtain ⟨ns,mqBytes,hr⟩ := refund_frame (s.kfreeMessages o) o
  unfold mqueueEvictInode
  rw [hr,hk]
  exact ⟨ns,mqBytes,tables,badFree,rfl⟩

theorem evict_frame (s : MqState pf) (o : ℕ) :
    (mqueueEvictInode s o).objs=s.objs ∧ (mqueueEvictInode s o).pc=s.pc ∧ (mqueueEvictInode s o).queues=s.queues := by
  obtain ⟨ns,mqBytes,tables,badFree,he⟩ := evict_eq s o
  rw [he]
  exact ⟨rfl,rfl,rfl⟩

/-- A call gives up its inode, which no other call builds. -/
theorem InodeInv.others (hi : InodeInv s) (hown : (s.pc c).inode=some o) (hs : s'.pc=s.pc) (hpc : pc.inode=none)
    (h : ((s'.go c pc).pc d).inode=some x) : d≠c ∧ x≠o ∧ (s.pc d).inode=some x := by
  rcases go_cases CreatePc.inode h with ⟨_,h⟩|⟨hd,h⟩
  · rw [hpc] at h
    cases h
  · rw [hs] at h
    exact ⟨hd,fun he => hd (hi.distinct d c x h (he ▸ hown)),h⟩

/-- The eviction of a partly initialised inode. -/
theorem InodeInv.dropped (hi : InodeInv s) (hp : s.pc c=.outInode n o) :
    InodeInv ((mqueueEvictInode s o).go c (.failed n)) := by
  obtain ⟨ns,mqBytes,tables,badFree,he⟩ := evict_eq s o
  rw [he]
  have hown : (s.pc c).inode=some o := by rw [hp]; rfl
  have hnot := (hi.building c o hown).2.1
  refine ⟨hi.nodup,fun x hx => ?_,hi.user,hi.sized,fun d x h => ?_,fun d e x hd he => ?_,fun d a h => ?_,
    fun d x bytes h => ?_⟩
  · exact (update_of_ne (show x≠o from fun he => hnot (he ▸ hx)) _ _).trans (hi.live x hx)
  · obtain ⟨_,hx,hold⟩ := hi.others hown rfl rfl h
    obtain ⟨ha,hq⟩ := hi.building d x hold
    exact ⟨(update_of_ne hx _ _).trans ha,hq⟩
  · exact hi.distinct d e x (hi.others hown rfl rfl hd).2.2 (hi.others hown rfl rfl he).2.2
  · rcases go_cases CreatePc.attr h with ⟨_,h⟩|⟨_,h⟩
    · cases h
    · exact hi.attrs d a h
  · obtain ⟨hd,_,_⟩ := hi.others hown rfl rfl (CreatePc.inode_of_bill h)
    simp only [MqState.go,update_of_ne hd] at h
    exact hi.bills d x bytes h

/-- The eviction of a live queue. -/
theorem InodeInv.evicted (hi : InodeInv s) (ho : o∈s.queues) :
    InodeInv {mqueueEvictInode s o with queues := s.queues.erase o} := by
  obtain ⟨ns,mqBytes,tables,badFree,he⟩ := evict_eq s o
  rw [he]
  have hmem : ∀ x, x∈s.queues.erase o → x≠o ∧ x∈s.queues :=
    fun x hx => (hi.nodup.mem_erase_iff).mp hx
  refine ⟨hi.nodup.erase o,fun x hx => ?_,fun x hx => hi.user x (hmem x hx).2,fun x hx => hi.sized x (hmem x hx).2,
    fun d x h => ?_,hi.distinct,hi.attrs,hi.bills⟩
  · obtain ⟨hne,hx⟩ := hmem x hx
    exact (update_of_ne hne _ _).trans (hi.live x hx)
  · obtain ⟨ha,hq,hu⟩ := hi.building d x h
    have hne : x≠o := fun he => hq (he ▸ ho)
    exact ⟨(update_of_ne hne _ _).trans ha,fun hx => hq (hmem x hx).2,hu⟩

/-- A charged inode becomes a live queue. -/
theorem InodeInv.charged (hi : InodeInv s) {total : ℕ}
    (hp : s.pc c=.tabled n u o bytes) : InodeInv ((s.charged u o total).go c (.done 0)) := by
  have hown : (s.pc c).inode=some o := by rw [hp]; rfl
  obtain ⟨ha,hnot,_⟩ := hi.building c o hown
  obtain ⟨hsized,_⟩ := hi.bills c o bytes (by rw [hp]; rfl)
  have hobj : ∀ x, x≠o → ((s.charged u o total).go c (.done 0)).objs x=s.objs x :=
    fun x hx => update_of_ne hx _ _
  have hattr : ∀ x, (((s.charged u o total).go c (.done 0)).objs x).attr=(s.objs x).attr :=
    objs_setInfo MqInfo.attr rfl
  have hinode : ∀ d x, (((s.charged u o total).go c (.done 0)).pc d).inode=some x →
      d≠c ∧ x≠o ∧ (s.pc d).inode=some x := fun d x h => hi.others hown rfl rfl h
  refine ⟨List.nodup_cons.mpr ⟨hnot,hi.nodup⟩,fun x hx => ?_,fun x hx => ?_,fun x hx => ?_,
    fun d x h => ?_,fun d e x hd he => hi.distinct d e x (hinode d x hd).2.2 (hinode e x he).2.2,
    fun d a h => ?_,fun d x b h => ?_⟩
  · rcases List.mem_cons.mp hx with he|hx
    · rw [he]
      exact ha
    · exact hi.live x hx
  · rcases List.mem_cons.mp hx with he|hx
    · subst he
      simp [MqState.go,MqState.charged,MqState.setInfo]
    · rw [hobj x (fun he => hnot (he ▸ hx))]
      exact hi.user x hx
  · rw [hattr]
    rcases List.mem_cons.mp hx with he|hx
    · rw [he]
      exact hsized
    · exact hi.sized x hx
  · obtain ⟨_,hx,hold⟩ := hinode d x h
    obtain ⟨hxa,hxq,hxu⟩ := hi.building d x hold
    rw [hobj x hx]
    exact ⟨hxa,fun hm => (List.mem_cons.mp hm).elim hx hxq,hxu⟩
  · rcases go_cases CreatePc.attr h with ⟨_,h⟩|⟨_,h⟩
    · cases h
    · exact hi.attrs d a h
  · obtain ⟨hd,_,_⟩ := hinode d x (CreatePc.inode_of_bill h)
    simp only [MqState.go,update_of_ne hd] at h
    rw [hattr]
    exact hi.bills d x b h

/-- The table pointer of an inode that a call builds is written. -/
theorem InodeInv.assign (hi : InodeInv s) (o : ℕ) (messages : Option ℕ) :
    InodeInv (s.setInfo o {s.objs o with messages := messages, assigned := true}) :=
  hi.frame rfl rfl rfl (objs_setInfo MqInfo.user rfl) (objs_setInfo MqInfo.attr rfl)

/-- Attributes that an inode gets are positive and bounded. -/
theorem InodeInv.chosen_sized (hi : InodeInv s) (hp : s.pc c=.counted n u attr)
    (hsome : (mqCalculateSizes (chosenAttr (s.ns n).limits attr)).isSome=true) :
    (chosenAttr (s.ns n).limits attr).Sized := by
  cases attr with
  | none =>
    have hlim := (s.ns n).limits.admitted
    unfold minMsgsizemax at hlim
    refine ⟨?_,?_,?_,hsome⟩
    · show (0 : ℤ)<(s.ns n).limits.msgMax
      omega
    · show ((s.ns n).limits.msgMax : ℤ)≤pf.hardMsgmax
      omega
    · show (0 : ℤ)<(s.ns n).limits.msgsizeMax
      omega
  | some a => exact hi.attrs c a (by rw [hp]; rfl)

theorem InodeInv.step (hi : InodeInv s) (h : MqNext s e s') : InodeInv s' := by
  cases mqStep_cases h with
  | limits | cleared => exact hi.frame rfl rfl rfl (fun _ => rfl) (fun _ => rfl)
  | opened hp ha =>
    exact hi.go (fun o h => by cases h) (fun a h => mqAttrOk_sized (ha a h)) (fun o b h => by cases h)
  | refused | rejected | noInode => exact hi.goBare rfl rfl rfl
  | @counted c n u _ attr hp =>
    have hframe : InodeInv (s.addCount n 1) := hi.frame rfl rfl rfl (fun _ => rfl) (fun _ => rfl)
    exact hframe.go (fun o h => by cases h) (fun a h => hi.attrs c a (by rw [hp]; exact h))
      (fun o b h => by cases h)
  | oversize hp hfree hsize =>
    exact hi.init (by rw [hp]; rfl) hfree rfl rfl (fun o b h => by cases h)
  | sized hp hfree hsize =>
    refine hi.init (by rw [hp]; rfl) hfree rfl rfl (fun o b h => ?_)
    cases h
    refine ⟨hi.chosen_sized hp (by rw [hsize]; rfl),?_⟩
    unfold refundBytes
    rw [hsize]
  | @noTable c n u o bytes hp =>
    refine (hi.assign o none).goOut ?_
    show (s.pc c).inode=some o
    rw [hp]
    rfl
  | @tabled c n u o bytes t hp hfree =>
    have hassign := hi.assign o (some t)
    have hframe : InodeInv {s.setInfo o {s.objs o with messages := some t, assigned := true} with
        tables := update s.tables t (some o)} :=
      hassign.frame rfl rfl rfl (fun _ => rfl) (fun _ => rfl)
    have hpc : s.pc c=CreatePc.sized n u o bytes := hp
    refine hframe.go (fun x h => ?_) (fun a h => by cases h) (fun x b h => ?_)
    · show (s.pc c).inode=some x
      rw [hpc]
      exact h
    · exact hassign.bills c x b (by show (s.pc c).bill=some (x,b); rw [hpc]; exact h)
  | overQuota hp => exact hi.goOut (by rw [hp]; rfl)
  | charged hp htotal hlimit => exact hi.charged hp
  | dropped hp => exact hi.dropped hp
  | @rolledBack c n hp =>
    have hframe : InodeInv (s.addCount n (-1)) := hi.frame rfl rfl rfl (fun _ => rfl) (fun _ => rfl)
    exact hframe.goBare rfl rfl rfl
  | evicted ho => exact hi.evicted ho

theorem inodeInv_of_reachable (hr : MqReachable s) : InodeInv s :=
  Reachable.invariant (I := InodeInv) (fun _ h => inodeInv_start h) (fun _ _ _ _ hi h => hi.step h) hr

/-- A machine that has just started. -/
def newMq (pf : Platform) : MqState pf :=
  ⟨fun _ => ⟨0,mqInitLimits pf,true⟩,fun _ => 0,fun _ => ⟨0,none,(mqInitLimits pf).attr,none,false⟩,
    fun _ => false,fun _ => none,[],fun _ => .idle,false⟩

theorem newMq_start (pf : Platform) : MqStart (newMq pf) :=
  ⟨fun _ => rfl,fun _ => rfl,fun _ => rfl,rfl,fun _ => rfl,rfl⟩

end BlockIpc.MqueueInodes
