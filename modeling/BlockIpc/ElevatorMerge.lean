import BlockIpc.KernelNumbers
import BlockIpc.DispatchSort
import BlockIpc.TransitionRuns
import BlockIpc.IntrusiveLists

/-!
# Merging in the elevator

A request that a scheduler holds is found for merging by its end in a hash table, as the request
of the last merge, and by the scheduler itself. It grows at either end while it is in the table.
A scheduler is any party that holds the requests it was given until it dispatches them or one is
merged into another; what it answers is part of the event.
-/

namespace BlockIpc.ElevatorMerge

open List hiding next
open Function TransitionRuns IntrusiveLists

inductive CmdType where
  /-- REQ_TYPE_FS. -/
  | fs
  /-- REQ_TYPE_BLOCK_PC. -/
  | blockPc
  | other
  deriving DecidableEq

/-- The fields of a request that merging reads. -/
structure Request where
  /-- __sector. -/
  pos : ℕ
  /-- __data_len. -/
  bytes : ℕ
  cmdType : CmdType
  /-- rq_data_dir. -/
  write : Bool
  discard : Bool
  secure : Bool
  /-- rq_disk. -/
  disk : ℕ
  special : Bool
  /-- blk_integrity_rq. -/
  integrity : Bool
  /-- nr_phys_segments. -/
  segments : ℕ
  nomerge : Bool
  started : Bool
  softbarrier : Bool
  /-- REQ_FLUSH or REQ_FUA. -/
  flushFua : Bool
  sorted : Bool
  elvpriv : Bool
  deriving DecidableEq

/-- The fields of a bio that merging reads. -/
structure Bio where
  sector : ℕ
  sectors : ℕ
  /-- bio_data_dir. -/
  write : Bool
  discard : Bool
  secure : Bool
  disk : ℕ
  integrity : Bool
  /-- bio_phys_segments. -/
  segments : ℕ
  deriving DecidableEq

/-- A request queue, as far as merging goes. -/
structure Queue where
  rqs : ℕ → Request
  /-- The requests the scheduler holds. -/
  held : List ℕ
  /-- The hash table of the elevator, of ELV_HASH_ENTRIES buckets. -/
  hash : Fin 64 → List ℕ
  lastMerge : Option ℕ
  nrSorted : ℤ
  queueHead : List ℕ
  /-- The requests the driver took. -/
  driver : List ℕ
  endSector : ℕ
  boundaryRq : Option ℕ
  /-- QUEUE_FLAG_NOMERGES. -/
  nomerges : Bool
  /-- QUEUE_FLAG_NOXMERGES. -/
  noxmerges : Bool
  maxSectors : ℕ
  maxHwSectors : ℕ
  maxSegments : ℕ
  bug : Bool
  /-- nr_sorted was decremented when it was not positive. -/
  wrapped : Bool

def Queue.bugOn (s : Queue) (b : Bool) : Queue := {s with bug := s.bug || b}

def Queue.setRq (s : Queue) (r : ℕ) (x : Request) : Queue := {s with rqs := update s.rqs r x}

def Queue.setHash (s : Queue) (h : Fin 64 → List ℕ) : Queue := {s with hash := h}

def Queue.setLast (s : Queue) (r : Option ℕ) : Queue := {s with lastMerge := r}

/-- The scheduler lets go of a request. -/
def Queue.release (s : Queue) (r : ℕ) : Queue := {s with held := s.held.erase r}

/-- The scheduler is given a request. -/
def Queue.hold (s : Queue) (r : ℕ) : Queue := {s with held := r::s.held}

/-- Increment nr_sorted. -/
def Queue.incSorted (s : Queue) : Queue := {s with nrSorted := s.nrSorted+1}

/-- Decrement nr_sorted. -/
def Queue.decSorted (s : Queue) : Queue :=
  {s with nrSorted := s.nrSorted-1, wrapped := s.wrapped || decide (s.nrSorted≤0)}

def blkRqSectors (rq : Request) : ℕ := rq.bytes/512

/-- rq_hash_key and rq_end_sector: the end of a request. -/
def rqHashKey (rq : Request) : ℕ := rq.pos+blkRqSectors rq

/-- The length of data in bytes after more is added to it, in an unsigned int. -/
def addBytes (a b : ℕ) : ℕ := (a+b)%4294967296

def rqMergeable (rq : Request) : Bool :=
  !(rq.nomerge || rq.started || rq.softbarrier || rq.flushFua) && (rq.discard || decide (rq.cmdType=.fs))

/-- ELV_ON_HASH. -/
def Queue.OnHash (s : Queue) (r : ℕ) : Prop := ∃ b, r∈s.hash b

/-- Being in the table is decidable. -/
instance (s : Queue) (r : ℕ) : Decidable (s.OnHash r) := inferInstanceAs (Decidable (∃ b, r∈s.hash b))

/-- elv_rqhash_del and __elv_rqhash_del. -/
def elvRqhashDel (s : Queue) (r : ℕ) : Queue := s.setHash (unlink s.hash r)

/-- The check of the table in __blk_put_request. -/
def blkPutRequest (s : Queue) (r : ℕ) : Queue := s.bugOn (decide (s.OnHash r))

/-- The scheduler lets go of a request, for either dispatch function. -/
def letGo (s : Queue) (r : ℕ) : Queue :=
  let s := if s.lastMerge=some r then s.setLast none else s
  ((elvRqhashDel s r).decSorted).release r

/-- A request of the dispatch list, as elv_dispatch_sort reads it. -/
def Queue.entry (s : Queue) (r : ℕ) : DispatchSort.Request :=
  ⟨r,(s.rqs r).pos,(s.rqs r).write,(s.rqs r).discard,(s.rqs r).softbarrier,(s.rqs r).started⟩

def elvDispatchSort (s : Queue) (r : ℕ) : Queue :=
  let s := letGo s r
  let l := DispatchSort.sortInto s.endSector (s.entry r) (s.queueHead.reverse.map s.entry)
  {s with queueHead := (l.map (·.id)).reverse}

def elvDispatchAddTail (s : Queue) (r : ℕ) : Queue :=
  let s := letGo s r
  {s with endSector := rqHashKey (s.rqs r), boundaryRq := some r, queueHead := s.queueHead++[r]}

/-- What ll_back_merge_fn and ll_front_merge_fn do when a bio does not fit. -/
def noMerge (s : Queue) (r : ℕ) : Queue :=
  let s := s.setRq r {s.rqs r with nomerge := true}
  if s.lastMerge=some r then s.setLast none else s

/-- ll_back_merge_fn and ll_front_merge_fn with ll_new_hw_segment: the limit is kept in an
unsigned short. The outcome of the integrity check is given. -/
def llMergeFn (s : Queue) (r : ℕ) (bio : Bio) (integrityOk : Bool) : Queue × Bool :=
  let maxSectors := (if (s.rqs r).cmdType=.blockPc then s.maxHwSectors else s.maxSectors)%65536
  if blkRqSectors (s.rqs r)+bio.sectors>maxSectors then (noMerge s r,false)
  else if (s.rqs r).segments+bio.segments>s.maxSegments then (noMerge s r,false)
  else if bio.integrity && !integrityOk then (noMerge s r,false)
  else (s.setRq r {s.rqs r with segments := (s.rqs r).segments+bio.segments},true)

def bioAttemptBackMerge (s : Queue) (r : ℕ) (bio : Bio) (integrityOk : Bool) : Queue × Bool :=
  let out := llMergeFn s r bio integrityOk
  if out.2 then
    (out.1.setRq r {out.1.rqs r with bytes := addBytes (out.1.rqs r).bytes (bio.sectors*512)},true)
  else (out.1,false)

def bioAttemptFrontMerge (s : Queue) (r : ℕ) (bio : Bio) (integrityOk : Bool) : Queue × Bool :=
  let out := llMergeFn s r bio integrityOk
  if out.2 then
    let rq := {out.1.rqs r with pos := bio.sector}
    (out.1.setRq r {rq with bytes := addBytes rq.bytes (bio.sectors*512)},true)
  else (out.1,false)

/-- What the scheduler and the checks outside the model answer to one call. -/
structure Answers where
  /-- elevator_allow_merge_fn, for each request. -/
  allow : ℕ → Bool
  /-- The request that elevator_merge_fn finds for a front merge. -/
  front : Option ℕ
  /-- elevator_latter_req_fn. -/
  latter : Option ℕ
  /-- elevator_former_req_fn. -/
  former : Option ℕ
  /-- The integrity data of a bio goes with that of a request. -/
  integrityBio : Bool
  /-- The segments of two requests are adjacent in memory. -/
  contiguous : Bool
  /-- The integrity data of two requests go together. -/
  integrityRq : Bool

def elvRqMergeOk (rq : Request) (bio : Bio) (allow : Bool) : Bool :=
  rqMergeable rq && bio.discard==rq.discard && bio.secure==rq.secure && bio.write==rq.write &&
    rq.disk==bio.disk && !rq.special && bio.integrity==rq.integrity && allow

/-- ELEVATOR_BACK_MERGE and ELEVATOR_FRONT_MERGE. -/
inductive MergeType where
  /-- The bio follows the request. -/
  | back
  /-- The bio precedes the request. -/
  | front
  deriving DecidableEq

def elvTryMerge (rq : Request) (bio : Bio) (allow : Bool) : Option MergeType :=
  if elvRqMergeOk rq bio allow then
    if rqHashKey rq=bio.sector then some .back
    else if bio.sector+bio.sectors=rq.pos then some .front
    else none
  else none

/-- ll_merge_requests_fn, with the segments the merged request has. -/
def llMergeRequestsFn (s : Queue) (req next : ℕ) (a : Answers) : Option ℕ :=
  if (s.rqs req).special || (s.rqs next).special then none
  else if blkRqSectors (s.rqs req)+blkRqSectors (s.rqs next)>s.maxSectors then none
  else
    let total := (s.rqs req).segments+(s.rqs next).segments-(if a.contiguous then 1 else 0)
    if total>s.maxSegments then none
    else if (s.rqs req).integrity && !a.integrityRq then none
    else some total

section

variable (hashLong : ℕ → Fin 64)

/-- ELV_HASH_FN, over any hash_long. -/
def elvHashFn (sec : ℕ) : Fin 64 := hashLong (sec/8)

/-- The bucket of the end of a request. -/
def Queue.bucket (s : Queue) (r : ℕ) : Fin 64 := elvHashFn hashLong (rqHashKey (s.rqs r))

def elvRqhashAdd (s : Queue) (r : ℕ) : Queue :=
  let s := s.bugOn (decide (s.OnHash r))
  s.setHash (addHead s.hash r (s.bucket hashLong r))

def elvRqhashReposition (s : Queue) (r : ℕ) : Queue := elvRqhashAdd hashLong (elvRqhashDel s r) r

/-- The loop of elv_rqhash_find over one bucket: entries that cannot be merged any more
are taken out. -/
def rqhashScan (offset : ℕ) (s : Queue) : List ℕ → Queue × Option ℕ
  | [] => (s,none)
  | r::rs =>
    if !rqMergeable (s.rqs r) then rqhashScan offset (elvRqhashDel s r) rs
    else if rqHashKey (s.rqs r)=offset then (s,some r)
    else rqhashScan offset s rs

def elvRqhashFind (s : Queue) (offset : ℕ) : Queue × Option ℕ :=
  rqhashScan offset s (s.hash (elvHashFn hashLong offset))

def elvMergedRequest (s : Queue) (r : ℕ) (type : MergeType) : Queue :=
  let s := if type=.back then elvRqhashReposition hashLong s r else s
  s.setLast (some r)

/-- elv_merge_requests: elevator_merge_req_fn takes the second request from the scheduler. -/
def elvMergeRequests (s : Queue) (r next : ℕ) : Queue :=
  let sorted := (s.rqs next).sorted
  let s := if sorted then s.release next else s
  let s := elvRqhashReposition hashLong s r
  let s := if sorted then (elvRqhashDel s next).decSorted else s
  s.setLast (some r)

/-- attempt_merge. The second request is freed, and must not be in the table then. -/
def attemptMerge (s : Queue) (req next : ℕ) (a : Answers) : Queue × Bool :=
  if !rqMergeable (s.rqs req) || !rqMergeable (s.rqs next) then (s,false)
  else if (s.rqs req).discard≠(s.rqs next).discard then (s,false)
  else if (s.rqs req).secure≠(s.rqs next).secure then (s,false)
  else if rqHashKey (s.rqs req)≠(s.rqs next).pos then (s,false)
  else if (s.rqs req).write≠(s.rqs next).write || (s.rqs req).disk≠(s.rqs next).disk || (s.rqs next).special then
    (s,false)
  else
    match llMergeRequestsFn s req next a with
    | none => (s,false)
    | some total =>
      let rq := {s.rqs req with segments := total}
      let s := s.setRq req {rq with bytes := addBytes rq.bytes (s.rqs next).bytes}
      (blkPutRequest (elvMergeRequests hashLong s req next) next,true)

def attemptBackMerge (s : Queue) (r : ℕ) (a : Answers) : Queue × Bool :=
  match a.latter with
  | some next => if next∈s.held ∧ next≠r then attemptMerge hashLong s r next a else (s,false)
  | none => (s,false)

def attemptFrontMerge (s : Queue) (r : ℕ) (a : Answers) : Queue × Bool :=
  match a.former with
  | some prev => if prev∈s.held ∧ prev≠r then attemptMerge hashLong s prev r a else (s,false)
  | none => (s,false)

/-- elevator_merge_fn: a scheduler finds a request it holds that starts where the bio ends. -/
def elevatorMergeFn (s : Queue) (bio : Bio) (a : Answers) : Option ℕ :=
  a.front.filter (fun r => decide (r∈s.held) && decide (bio.sector+bio.sectors=(s.rqs r).pos) &&
    elvRqMergeOk (s.rqs r) bio (a.allow r))

def elvMerge (s : Queue) (bio : Bio) (a : Answers) : Queue × Option (ℕ × MergeType) :=
  if s.nomerges then (s,none)
  else
    match s.lastMerge.bind (fun r => (elvTryMerge (s.rqs r) bio (a.allow r)).map (fun t => (r,t))) with
    | some found => (s,some found)
    | none =>
      if s.noxmerges then (s,none)
      else
        let out := elvRqhashFind hashLong s bio.sector
        match out.2.filter (fun r => elvRqMergeOk (out.1.rqs r) bio (a.allow r)) with
        | some r => (out.1,some (r,.back))
        | none => (out.1,(elevatorMergeFn out.1 bio a).map (fun r => (r,.front)))

/-- The merge part of __make_request, with whether the bio was merged. -/
def makeRequestMerge (s : Queue) (bio : Bio) (a : Answers) : Queue × Bool :=
  let out := elvMerge hashLong s bio a
  match out.2 with
  | none => (out.1,false)
  | some (r,.back) =>
    let m := bioAttemptBackMerge out.1 r bio a.integrityBio
    if m.2 then
      let b := attemptBackMerge hashLong m.1 r a
      (if b.2 then b.1 else elvMergedRequest hashLong b.1 r .back,true)
    else (m.1,false)
  | some (r,.front) =>
    let m := bioAttemptFrontMerge out.1 r bio a.integrityBio
    if m.2 then
      let b := attemptFrontMerge hashLong m.1 r a
      (if b.2 then b.1 else elvMergedRequest hashLong b.1 r .front,true)
    else (m.1,false)

/-- The attempt of elv_attempt_insert_merge with the cached request. -/
def attemptLastMerge (s : Queue) (r : ℕ) (a : Answers) : Queue × Bool :=
  match s.lastMerge with
  | some l => attemptMerge hashLong s l r a
  | none => (s,false)

def elvAttemptInsertMerge (s : Queue) (r : ℕ) (a : Answers) : Queue × Bool :=
  if s.nomerges then (s,false)
  else
    let first := attemptLastMerge hashLong s r a
    if first.2 then first
    else if s.noxmerges then (s,false)
    else
      let out := elvRqhashFind hashLong s (s.rqs r).pos
      match out.2 with
      | some q => attemptMerge hashLong out.1 q r a
      | none => (out.1,false)

/-- The case ELEVATOR_INSERT_SORT of __elv_add_request. -/
def elvInsertSort (s : Queue) (r : ℕ) : Queue :=
  let s := s.bugOn (decide ((s.rqs r).cmdType≠.fs) && !(s.rqs r).discard)
  let s := (s.setRq r {s.rqs r with sorted := true}).incSorted
  let s :=
    if rqMergeable (s.rqs r) then
      let s := elvRqhashAdd hashLong s r
      if s.lastMerge=none then s.setLast (some r) else s
    else s
  s.hold r

/-- The case ELEVATOR_INSERT_SORT_MERGE of __elv_add_request. -/
def elvInsertSortMerge (s : Queue) (r : ℕ) (a : Answers) : Queue :=
  let out := elvAttemptInsertMerge hashLong s r a
  if out.2 then out.1 else elvInsertSort hashLong out.1 r

/-- The insertion point of __elv_add_request. -/
inductive Where where
  /-- ELEVATOR_INSERT_FRONT. -/
  | front
  /-- ELEVATOR_INSERT_BACK. -/
  | back
  /-- ELEVATOR_INSERT_SORT. -/
  | sort
  /-- ELEVATOR_INSERT_REQUEUE. -/
  | requeue
  /-- ELEVATOR_INSERT_SORT_MERGE. -/
  | sortMerge
  deriving DecidableEq

/-- The insertion point that is used: a request without data of the scheduler is not sorted. -/
def actualWhere (rq : Request) (w : Where) : Where :=
  if rq.softbarrier then w
  else if !rq.elvpriv && (decide (w=.sort) || decide (w=.sortMerge)) then .back
  else w

/-- A barrier moves the boundary of the dispatch list. -/
def moveBoundary (s : Queue) (r : ℕ) : Queue :=
  if (s.rqs r).softbarrier && (decide ((s.rqs r).cmdType=.fs) || (s.rqs r).discard) then
    {s with endSector := rqHashKey (s.rqs r), boundaryRq := some r}
  else s

/-- One request that a scheduler dispatches, by either function. -/
def dispatchOne (s : Queue) (d : ℕ × Bool) : Queue :=
  if d.1∈s.held then if d.2 then elvDispatchAddTail s d.1 else elvDispatchSort s d.1 else s

/-- elv_drain_elevator, with the requests in the order the scheduler dispatches them. -/
def elvDrainElevator (s : Queue) (drain : List (ℕ × Bool)) : Queue := drain.foldl dispatchOne s

/-- Link a request into the dispatch list, at either end. -/
def linkQueue (s : Queue) (r : ℕ) (front : Bool) : Queue :=
  {s with queueHead := if front then r::s.queueHead else s.queueHead++[r]}

def elvAddRequest (s : Queue) (r : ℕ) (w : Where) (drain : List (ℕ × Bool)) (a : Answers) : Queue :=
  let t := moveBoundary s r
  match actualWhere (s.rqs r) w with
  | .front | .requeue => linkQueue (t.setRq r {t.rqs r with softbarrier := true}) r true
  | .back => linkQueue (elvDrainElevator (t.setRq r {t.rqs r with softbarrier := true}) drain) r false
  | .sort => elvInsertSort hashLong t r
  | .sortMerge => elvInsertSortMerge hashLong t r a

def blkDequeueRequest (s : Queue) (r : ℕ) : Queue :=
  let s := s.bugOn (decide (s.OnHash r))
  {s with queueHead := s.queueHead.erase r, driver := r::s.driver}

/-- What blk_peek_request does to the first request of the dispatch list. -/
def blkPeekRequest (s : Queue) (r : ℕ) : Queue :=
  let s := s.setRq r {s.rqs r with started := true}
  if s.boundaryRq=none || s.boundaryRq=some r then
    {s with endSector := rqHashKey (s.rqs r), boundaryRq := none}
  else s

/-- What elv_requeue_request does to a request before it adds it again. -/
def unstart (s : Queue) (r : ℕ) : Queue :=
  let s := s.setRq r {s.rqs r with started := false}
  {s with driver := s.driver.erase r}

/-- What can happen while the queue lock is taken once. -/
inductive Event where
  | add (r : ℕ) (rq : Request) (w : Where) (drain : List (ℕ × Bool)) (a : Answers)
  | submit (bio : Bio) (a : Answers)
  /-- The scheduler dispatches a request by elv_dispatch_sort. -/
  | dispatchSort (r : ℕ)
  /-- The scheduler dispatches a request by elv_dispatch_add_tail. -/
  | dispatchTail (r : ℕ)
  /-- The driver looks at the first request. -/
  | peek
  /-- The driver takes the first request. -/
  | start
  /-- The driver gives a request back. -/
  | requeue (r : ℕ) (a : Answers)
  /-- A request ends and is freed. -/
  | free (r : ℕ)
  /-- The flags and limits of the queue change. -/
  | limits (nomerges noxmerges : Bool) (maxSectors maxHwSectors maxSegments : ℕ)

/-- A request that can be added: it is not in use. Only requests of the file system and
discards are given to the scheduler. -/
def Queue.Fresh (s : Queue) (r : ℕ) (rq : Request) (w : Where) : Prop :=
  r∉s.held ∧ r∉s.queueHead ∧ r∉s.driver ∧ rq.sorted=false ∧
    (w=.sort ∨ w=.sortMerge → rq.cmdType=.fs ∨ rq.discard=true)

/-- Being such a request is decidable. -/
instance (s : Queue) (r : ℕ) (rq : Request) (w : Where) : Decidable (s.Fresh r rq w) :=
  inferInstanceAs (Decidable (_ ∧ _))

def mergeStep (s : Queue) : Event → Option Queue
  | .add r rq w drain a =>
    if s.Fresh r rq w then some (elvAddRequest hashLong (s.setRq r rq) r w drain a) else none
  | .submit bio a => some (makeRequestMerge hashLong s bio a).1
  | .dispatchSort r => if r∈s.held then some (elvDispatchSort s r) else none
  | .dispatchTail r => if r∈s.held then some (elvDispatchAddTail s r) else none
  | .peek => s.queueHead.head?.map (blkPeekRequest s)
  | .start => s.queueHead.head?.map (blkDequeueRequest s)
  | .requeue r a => if r∈s.driver then some (elvAddRequest hashLong (unstart s r) r .requeue [] a) else none
  | .free r => if r∈s.driver then some {blkPutRequest s r with driver := s.driver.erase r} else none
  | .limits nomerges noxmerges maxSectors maxHwSectors maxSegments =>
    some {s with
      nomerges := nomerges
      noxmerges := noxmerges
      maxSectors := maxSectors
      maxHwSectors := maxHwSectors
      maxSegments := maxSegments}

end

/-- A queue as blk_init_queue leaves it. -/
def Start (s : Queue) : Prop :=
  s.held=[] ∧ (∀ b, s.hash b=[]) ∧ s.lastMerge=none ∧ s.nrSorted=0 ∧ s.queueHead=[] ∧ s.driver=[] ∧
    s.bug=false ∧ s.wrapped=false

section

variable {hashLong : ℕ → Fin 64} {stale stale' : Option ℕ} {s t : Queue} {r q : ℕ}

/-- The table, the cached request and the count agree with the requests that the scheduler
holds. The end of one request may have moved since it was put into its bucket. -/
structure MergeInv (hashLong : ℕ → Fin 64) (stale : Option ℕ) (s : Queue) : Prop where
  noBug : s.bug=false
  /-- nr_sorted stayed above zero. -/
  noWrap : s.wrapped=false
  /-- A request is in one bucket at most. -/
  separate : Separate s.hash
  /-- A request in the table is held. -/
  hashed : ∀ b r, r∈s.hash b → r∈s.held
  bucket : ∀ b r, r∈s.hash b → stale≠some r → b=s.bucket hashLong r
  /-- The cached request is held. -/
  last : ∀ r, s.lastMerge=some r → r∈s.held
  count : s.nrSorted=s.held.length
  /-- A request is held once. -/
  nodup : s.held.Nodup
  /-- A held request is not on the dispatch list. -/
  offQueue : ∀ r∈s.held, r∉s.queueHead
  offDriver : ∀ r∈s.held, r∉s.driver
  sorted : ∀ r∈s.held, (s.rqs r).sorted=true

theorem MergeInv.mono (h : MergeInv hashLong none s) (stale : Option ℕ) : MergeInv hashLong stale s :=
  {h with bucket := fun b r hr _ => h.bucket b r hr nofun}

theorem MergeInv.not_mem_hash (h : MergeInv hashLong stale s) (hr : r∉s.held) (b : Fin 64) : r∉s.hash b :=
  fun hb => hr (h.hashed b r hb)

variable {x : Request} {l : List ℕ} {bio : Bio} {next : ℕ}

/-- A request may change when its end stays, when it may have moved, or when it is not held. -/
theorem MergeInv.setRq (h : MergeInv hashLong stale s) (hx : r∈s.held → x.sorted=true)
    (hk : r∈s.held → stale'≠some r → stale≠some r ∧ rqHashKey x=rqHashKey (s.rqs r))
    (hs : ∀ q, q≠r → stale'≠some q → stale≠some q) : MergeInv hashLong stale' (s.setRq r x) := by
  refine {h with bucket := fun b q hq hst => ?_, sorted := fun q hq => ?_}
  · by_cases hqr : q=r
    · subst hqr
      have hh := hk (h.hashed b q hq) hst
      rw [Queue.bucket,show (s.setRq q x).rqs q=x from update_self ..,hh.2]
      exact h.bucket b q hq hh.1
    · rw [Queue.bucket,show (s.setRq r x).rqs q=s.rqs q from update_of_ne hqr ..]
      exact h.bucket b q hq (hs q hqr hst)
  · by_cases hqr : q=r
    · subst hqr
      rw [show (s.setRq q x).rqs q=x from update_self ..]
      exact hx hq
    · rw [show (s.setRq r x).rqs q=s.rqs q from update_of_ne hqr ..]
      exact h.sorted q hq

/-- A request that is not held may change in any way. -/
theorem MergeInv.setRq_not_held (h : MergeInv hashLong stale s) (hr : r∉s.held) (x : Request) :
    MergeInv hashLong stale (s.setRq r x) :=
  h.setRq (fun hh => absurd hh hr) (fun hh => absurd hh hr) (fun _ _ hq => hq)

/-- A request may change when it keeps its end and its mark. -/
theorem MergeInv.setRq_end (h : MergeInv hashLong none s) (hx : x.sorted=(s.rqs r).sorted)
    (hk : rqHashKey x=rqHashKey (s.rqs r)) : MergeInv hashLong none (s.setRq r x) :=
  h.setRq (fun hr => hx.trans (h.sorted r hr)) (fun _ _ => ⟨nofun,hk⟩) (fun _ _ _ => nofun)

/-- A request that grows is the one that may have moved. -/
theorem MergeInv.setRq_grow (h : MergeInv hashLong none s) (hx : x.sorted=(s.rqs r).sorted) :
    MergeInv hashLong (some r) (s.setRq r x) :=
  h.setRq (fun hr => hx.trans (h.sorted r hr)) (fun _ hs => absurd rfl hs) (fun _ _ _ => nofun)

/-- The cached request may become any held one. -/
theorem MergeInv.setLast (h : MergeInv hashLong stale s) {l : Option ℕ} (hl : ∀ r, l=some r → r∈s.held) :
    MergeInv hashLong stale (s.setLast l) := {h with last := hl}

theorem Queue.bugOn_false (s : Queue) : s.bugOn false=s := by
  rw [Queue.bugOn,Bool.or_false]

theorem Queue.bugOn_hash (hr : ∀ b, r∉s.hash b) : s.bugOn (decide (s.OnHash r))=s := by
  rw [decide_eq_false (fun ⟨b,hb⟩ => hr b hb),Queue.bugOn_false]

/-- A request may be taken out of the table. -/
theorem MergeInv.del (h : MergeInv hashLong stale s) (r : ℕ) : MergeInv hashLong stale (elvRqhashDel s r) :=
  {h with
    separate := h.separate.unlink r
    hashed := fun b q hq => h.hashed b q (h.separate.mem_unlink.mp hq).2
    bucket := fun b q hq => h.bucket b q (h.separate.mem_unlink.mp hq).2}

theorem MergeInv.del_not_mem (h : MergeInv hashLong stale s) (r : ℕ) (b : Fin 64) : r∉(elvRqhashDel s r).hash b :=
  fun hb => (h.separate.mem_unlink.mp hb).1 rfl

/-- A held request that is in no bucket may be put into the bucket of its end. -/
theorem MergeInv.add (h : MergeInv hashLong (some r) s) (hr : r∈s.held) (hn : ∀ b, r∉s.hash b) :
    MergeInv hashLong none (elvRqhashAdd hashLong s r) := by
  rw [elvRqhashAdd,Queue.bugOn_hash hn]
  refine {h with separate := h.separate.addHead hn _, hashed := fun b q hq => ?_, bucket := fun b q hq _ => ?_}
  · rcases mem_addHead.mp hq with ⟨rfl,_⟩|hq
    · exact hr
    · exact h.hashed b q hq
  · rcases mem_addHead.mp hq with ⟨rfl,hb⟩|hq
    · exact hb
    · exact h.bucket b q hq (fun hrq => hn b (Option.some.inj hrq ▸ hq))

/-- After it was moved to its bucket again no request is in a wrong one. -/
theorem MergeInv.reposition (h : MergeInv hashLong (some r) s) (hr : r∈s.held) :
    MergeInv hashLong none (elvRqhashReposition hashLong s r) := (h.del r).add hr (h.del_not_mem r)

/-- The scheduler may let go of a request that is in no bucket and is not the cached one. -/
theorem MergeInv.release (h : MergeInv hashLong stale s) (hr : r∈s.held) (hn : ∀ b, r∉s.hash b)
    (hl : s.lastMerge≠some r) : MergeInv hashLong stale (s.decSorted.release r) := by
  have hpos : 0<s.held.length := length_pos_of_mem hr
  have hlen := length_erase_of_mem hr
  have hmem : ∀ q, q∈s.held → q≠r → q∈s.held.erase r := fun q hq hqr => (mem_erase_of_ne hqr).mpr hq
  refine
    {h with
      noWrap := ?_
      hashed := fun b q hq => hmem q (h.hashed b q hq) (fun hqr => hn b (hqr ▸ hq))
      last := fun q hq => hmem q (h.last q hq) (fun hqr => hl (hqr ▸ hq))
      count := ?_
      nodup := h.nodup.erase r
      offQueue := fun q hq => h.offQueue q (mem_of_mem_erase hq)
      offDriver := fun q hq => h.offDriver q (mem_of_mem_erase hq)
      sorted := fun q hq => h.sorted q (mem_of_mem_erase hq)}
  · change (s.wrapped || decide (s.nrSorted≤0))=false
    rw [h.noWrap,h.count,Bool.false_or,decide_eq_false_iff_not]
    omega
  · change s.nrSorted-1=((s.held.erase r).length : ℤ)
    rw [hlen,h.count]
    omega

theorem MergeInv.mem_release (h : MergeInv hashLong stale s) : q∈s.held.erase r ↔ q≠r ∧ q∈s.held :=
  h.nodup.mem_erase_iff

/-- The dispatch list may take requests that are not held. -/
theorem MergeInv.setQueue (h : MergeInv hashLong stale s) (hl : ∀ q∈l, q∈s.queueHead ∨ q∉s.held) (e : ℕ)
    (b : Option ℕ) : MergeInv hashLong stale {s with endSector := e, boundaryRq := b, queueHead := l} :=
  {h with offQueue := fun q hq hql => (hl q hql).elim (h.offQueue q hq) (fun hn => hn hq)}

/-- A request that is dispatched leaves the table, the cache and the count. -/
theorem MergeInv.letGo (h : MergeInv hashLong none s) (hr : r∈s.held) :
    MergeInv hashLong none (letGo s r) ∧ r∉(letGo s r).held := by
  have hclear : ∀ u : Queue, MergeInv hashLong none u → r∈u.held → u.lastMerge≠some r →
      MergeInv hashLong none ((elvRqhashDel u r).decSorted.release r) ∧
        r∉((elvRqhashDel u r).decSorted.release r).held := fun u hu hru hl =>
    ⟨(hu.del r).release hru (hu.del_not_mem r) hl,fun hm => (hu.mem_release.mp hm).1 rfl⟩
  rw [ElevatorMerge.letGo]
  split
  · exact hclear _ (h.setLast nofun) hr nofun
  · exact hclear s h hr ‹_›

theorem MergeInv.dispatchSort (h : MergeInv hashLong none s) (hr : r∈s.held) :
    MergeInv hashLong none (elvDispatchSort s r) := by
  obtain ⟨hi,hn⟩ := h.letGo hr
  refine hi.setQueue (fun q hq => ?_) _ _
  obtain ⟨x,hx,rfl⟩ := mem_map.mp (mem_reverse.mp hq)
  rcases DispatchSort.mem_sortInto hx with rfl|hx
  · exact .inr hn
  · obtain ⟨p,hp,rfl⟩ := mem_map.mp hx
    exact .inl (mem_reverse.mp hp)

/-- elv_dispatch_add_tail keeps the invariant. -/
theorem MergeInv.dispatchTail (h : MergeInv hashLong none s) (hr : r∈s.held) :
    MergeInv hashLong none (elvDispatchAddTail s r) := by
  obtain ⟨hi,hn⟩ := h.letGo hr
  refine hi.setQueue (fun q hq => ?_) _ _
  rcases mem_append.mp hq with hq|hq
  · exact .inl hq
  · exact .inr (mem_singleton.mp hq ▸ hn)

/-- The walk of a bucket changes the table only, and what it finds is on its list. -/
theorem MergeInv.scan (offset : ℕ) (h : MergeInv hashLong none s) :
    MergeInv hashLong none (rqhashScan offset s l).1 ∧ (∃ t, (rqhashScan offset s l).1=s.setHash t) ∧
      ∀ r, (rqhashScan offset s l).2=some r → r∈l := by
  induction l generalizing s with
  | nil => exact ⟨h,⟨s.hash,rfl⟩,nofun⟩
  | cons p ps ih =>
    rw [rqhashScan]
    split
    · obtain ⟨hi,⟨t,ht⟩,hf⟩ := ih (h.del p)
      exact ⟨hi,⟨t,ht⟩,fun r hr => mem_cons_of_mem p (hf r hr)⟩
    · split
      · exact ⟨h,⟨s.hash,rfl⟩,fun r hr => Option.some.inj hr ▸ mem_cons_self⟩
      · obtain ⟨hi,ht,hf⟩ := ih h
        exact ⟨hi,ht,fun r hr => mem_cons_of_mem p (hf r hr)⟩

/-- elv_rqhash_find finds a held request. -/
theorem MergeInv.find (h : MergeInv hashLong none s) (offset : ℕ) :
    MergeInv hashLong none (elvRqhashFind hashLong s offset).1 ∧
      (∃ t, (elvRqhashFind hashLong s offset).1=s.setHash t) ∧
        ∀ r, (elvRqhashFind hashLong s offset).2=some r → r∈s.held := by
  obtain ⟨hi,ht,hf⟩ := h.scan offset (l := s.hash (elvHashFn hashLong offset))
  exact ⟨hi,ht,fun r hr => h.hashed _ r (hf r hr)⟩

/-- A type that elv_try_merge gives fits the positions. -/
theorem elvTryMerge_front {rq : Request} {allow : Bool} (h : elvTryMerge rq bio allow=some .front) :
    bio.sector+bio.sectors=rq.pos := by
  rw [elvTryMerge] at h
  split at h
  · split at h
    · cases h
    · split at h
      · assumption
      · cases h
  · cases h

/-- elv_merge finds a held request, and one that starts where the bio ends for a front merge. -/
theorem MergeInv.elvMerge (h : MergeInv hashLong none s) (bio : Bio) (a : Answers) :
    MergeInv hashLong none (elvMerge hashLong s bio a).1 ∧
      ∀ r t, (elvMerge hashLong s bio a).2=some (r,t) → r∈(elvMerge hashLong s bio a).1.held ∧
        (t=.front → bio.sector+bio.sectors=((elvMerge hashLong s bio a).1.rqs r).pos) := by
  obtain ⟨hi,⟨t,ht⟩,hf⟩ := h.find bio.sector
  have hh := congrArg Queue.held ht
  rw [ElevatorMerge.elvMerge]
  split
  · exact ⟨h,nofun⟩
  · split
    · rename_i found hc
      refine ⟨h,fun r t hrt => ?_⟩
      obtain ⟨l,hl,hm⟩ := Option.bind_eq_some_iff.mp hc
      obtain ⟨type,ht,hlt⟩ := Option.map_eq_some_iff.mp hm
      obtain ⟨rfl,rfl⟩ := Prod.mk.inj (hlt.trans (Option.some.inj hrt))
      exact ⟨h.last l hl,fun hft => elvTryMerge_front (hft ▸ ht)⟩
    · split
      · exact ⟨h,nofun⟩
      · dsimp only
        split
        · rename_i r' hr'
          refine ⟨hi,fun r t hrt => ?_⟩
          obtain ⟨rfl,rfl⟩ := Prod.mk.inj (Option.some.inj hrt)
          exact ⟨hh.symm ▸ hf _ (Option.filter_eq_some_iff.mp hr').1,nofun⟩
        · refine ⟨hi,fun r t hrt => ?_⟩
          obtain ⟨r',hr',hrr⟩ := Option.map_eq_some_iff.mp hrt
          obtain ⟨rfl,rfl⟩ := Prod.mk.inj hrr
          have hc := (Option.filter_eq_some_iff.mp hr').2
          rw [Bool.and_eq_true,Bool.and_eq_true,decide_eq_true_eq,decide_eq_true_eq] at hc
          exact ⟨hc.1.1,fun _ => hc.1.2⟩

/-- Refusing a bio keeps the invariant and the held requests. -/
theorem MergeInv.noMerge (h : MergeInv hashLong none s) (r : ℕ) :
    MergeInv hashLong none (noMerge s r) ∧ (noMerge s r).held=s.held := by
  have hi : MergeInv hashLong none (s.setRq r {s.rqs r with nomerge := true}) := h.setRq_end rfl rfl
  rw [ElevatorMerge.noMerge]
  split
  · exact ⟨hi.setLast nofun,rfl⟩
  · exact ⟨hi,rfl⟩

/-- The check of a bio against the limits keeps the invariant. A bio that passes it leaves
the request below 65536 sectors. -/
theorem MergeInv.llMergeFn (h : MergeInv hashLong none s) (r : ℕ) (bio : Bio) (i : Bool) :
    MergeInv hashLong none (llMergeFn s r bio i).1 ∧ (llMergeFn s r bio i).1.held=s.held ∧
      ((llMergeFn s r bio i).2=true → ((llMergeFn s r bio i).1.rqs r).pos=(s.rqs r).pos ∧
        blkRqSectors ((llMergeFn s r bio i).1.rqs r)+bio.sectors<65536) := by
  have hno := h.noMerge r
  rw [ElevatorMerge.llMergeFn]
  dsimp only
  generalize (if (s.rqs r).cmdType=.blockPc then s.maxHwSectors else s.maxSectors)=m
  have hm : m%65536<65536 := Nat.mod_lt _ (by decide)
  split
  · exact ⟨hno.1,hno.2,nofun⟩
  · rename_i hle
    split
    · exact ⟨hno.1,hno.2,nofun⟩
    · split
      · exact ⟨hno.1,hno.2,nofun⟩
      · refine ⟨h.setRq_end rfl rfl,rfl,fun _ => ?_⟩
        rw [show ∀ x, (s.setRq r x).rqs r=x from fun x => update_self ..]
        exact ⟨rfl,lt_of_le_of_lt (not_lt.mp hle) hm⟩

/-- A back merge moves the end of the request. -/
theorem MergeInv.bioBack (h : MergeInv hashLong none s) (r : ℕ) (bio : Bio) (i : Bool) :
    (bioAttemptBackMerge s r bio i).1.held=s.held ∧
      ((bioAttemptBackMerge s r bio i).2=true → MergeInv hashLong (some r) (bioAttemptBackMerge s r bio i).1) ∧
        ((bioAttemptBackMerge s r bio i).2=false → MergeInv hashLong none (bioAttemptBackMerge s r bio i).1) := by
  obtain ⟨hi,hh,_⟩ := h.llMergeFn r bio i
  rw [bioAttemptBackMerge]
  dsimp only
  split
  · exact ⟨hh,fun _ => hi.setRq_grow rfl,nofun⟩
  · exact ⟨hh,nofun,fun _ => hi⟩

/-- A front merge that fits moves the start of the request only. -/
theorem MergeInv.bioFront (h : MergeInv hashLong none s) {r : ℕ} (i : Bool)
    (hb : bio.sector+bio.sectors=(s.rqs r).pos) :
    (bioAttemptFrontMerge s r bio i).1.held=s.held ∧ MergeInv hashLong none (bioAttemptFrontMerge s r bio i).1 := by
  obtain ⟨hi,hh,hl⟩ := h.llMergeFn r bio i
  rw [bioAttemptFrontMerge]
  dsimp only
  split
  · rename_i hok
    obtain ⟨hp,hlen⟩ := hl hok
    refine ⟨hh,hi.setRq_end rfl ?_⟩
    rw [rqHashKey,rqHashKey,hp,blkRqSectors,blkRqSectors,addBytes]
    rw [blkRqSectors] at hlen
    dsimp only
    omega
  · exact ⟨hh,hi⟩

/-- elv_merge_requests puts the grown request into its bucket and lets go of the other one. -/
theorem MergeInv.mergeRequests (h : MergeInv hashLong (some r) s) (hr : r∈s.held) (hne : next≠r)
    (hn : (s.rqs next).sorted=true → next∈s.held) :
    MergeInv hashLong none (elvMergeRequests hashLong s r next) ∧ next∉(elvMergeRequests hashLong s r next).held := by
  have hi := h.reposition hr
  rw [elvMergeRequests]
  by_cases hs : (s.rqs next).sorted=true
  · simp only [hs,if_true]
    have hd := (hi.del next).setLast (l := some r) (fun q hq => Option.some.inj hq ▸ hr)
    refine ⟨hd.release (hn hs) (hi.del_not_mem next) (fun hq => hne (Option.some.inj hq).symm),fun hm => ?_⟩
    exact (h.mem_release.mp hm).1 rfl
  · simp only [hs,Bool.false_eq_true,if_false]
    exact ⟨hi.setLast (fun q hq => Option.some.inj hq ▸ hr),fun hm => hs (h.sorted next hm)⟩

/-- attempt_merge changes nothing or merges the second request away. -/
theorem MergeInv.attemptMerge (h : MergeInv hashLong (some r) s) (hr : r∈s.held) (hne : next≠r)
    (hn : (s.rqs next).sorted=true → next∈s.held) (a : Answers) :
    ((attemptMerge hashLong s r next a).2=true → MergeInv hashLong none (attemptMerge hashLong s r next a).1) ∧
      ((attemptMerge hashLong s r next a).2=false → (attemptMerge hashLong s r next a).1=s) := by
  rw [ElevatorMerge.attemptMerge]
  split_ifs
  iterate 5 exact ⟨nofun,fun _ => rfl⟩
  cases llMergeRequestsFn s r next a with
  | none => exact ⟨nofun,fun _ => rfl⟩
  | some total =>
    refine ⟨fun _ => ?_,nofun⟩
    dsimp only
    generalize hx : ({s.rqs r with segments := total, bytes := addBytes (s.rqs r).bytes (s.rqs next).bytes} : Request)=x
    have hsr : x.sorted=true := by rw [← hx]; exact h.sorted r hr
    have hi : MergeInv hashLong (some r) (s.setRq r x) :=
      h.setRq (fun _ => hsr) (fun _ hs => absurd rfl hs) (fun _ _ hq => hq)
    have hnx : (s.setRq r x).rqs next=s.rqs next := update_of_ne hne ..
    obtain ⟨hm,ho⟩ := hi.mergeRequests hr hne (by rw [hnx]; exact hn)
    rw [blkPutRequest,Queue.bugOn_hash (hm.not_mem_hash ho)]
    exact hm

/-- attempt_back_merge repairs the table when it merges, and changes nothing otherwise. -/
theorem MergeInv.attemptBack (h : MergeInv hashLong (some r) s) (hr : r∈s.held) (a : Answers) :
    ((attemptBackMerge hashLong s r a).2=true → MergeInv hashLong none (attemptBackMerge hashLong s r a).1) ∧
      ((attemptBackMerge hashLong s r a).2=false → (attemptBackMerge hashLong s r a).1=s) := by
  rw [attemptBackMerge]
  split
  · split
    · rename_i hn
      exact h.attemptMerge hr hn.2 (fun _ => hn.1) a
    · exact ⟨nofun,fun _ => rfl⟩
  · exact ⟨nofun,fun _ => rfl⟩

/-- attempt_front_merge keeps the invariant, and changes nothing when it does not merge. -/
theorem MergeInv.attemptFront (h : MergeInv hashLong none s) (hr : r∈s.held) (a : Answers) :
    MergeInv hashLong none (attemptFrontMerge hashLong s r a).1 ∧
      ((attemptFrontMerge hashLong s r a).2=false → (attemptFrontMerge hashLong s r a).1=s) := by
  rw [attemptFrontMerge]
  split
  · split
    · rename_i prev _ hp
      obtain ⟨ht,hf⟩ := (h.mono (some prev)).attemptMerge hp.1 (Ne.symm hp.2) (fun _ => hr) a
      refine ⟨?_,hf⟩
      cases hm : (ElevatorMerge.attemptMerge hashLong s prev r a).2 with
      | true => exact ht hm
      | false => rw [hf hm]; exact h
    · exact ⟨h,fun _ => rfl⟩
  · exact ⟨h,fun _ => rfl⟩

/-- The merge part of __make_request keeps the invariant. -/
theorem MergeInv.submit (h : MergeInv hashLong none s) (bio : Bio) (a : Answers) :
    MergeInv hashLong none (makeRequestMerge hashLong s bio a).1 := by
  obtain ⟨hi,hf⟩ := h.elvMerge bio a
  rw [makeRequestMerge]
  dsimp only
  split
  · exact hi
  · rename_i r hr
    obtain ⟨hh,ht,hn⟩ := hi.bioBack r bio a.integrityBio
    split
    · rename_i hm
      have hrh := hh ▸ (hf r .back hr).1
      obtain ⟨hbt,hbf⟩ := (ht hm).attemptBack hrh a
      dsimp only
      split
      · exact hbt ‹_›
      · rename_i hb
        rw [hbf (Bool.not_eq_true _ ▸ hb),elvMergedRequest,if_pos rfl]
        exact ((ht hm).reposition hrh).setLast (fun q hq => Option.some.inj hq ▸ hrh)
    · exact hn (Bool.not_eq_true _ ▸ ‹_›)
  · rename_i r hr
    obtain ⟨hrh,hpos⟩ := hf r .front hr
    obtain ⟨hh,hm⟩ := hi.bioFront a.integrityBio (hpos rfl)
    have hrm := hh ▸ hrh
    split
    · obtain ⟨hbi,hbf⟩ := hm.attemptFront hrm a
      dsimp only
      split
      · exact hbi
      · rename_i hb
        rw [hbf (Bool.not_eq_true _ ▸ hb),elvMergedRequest,if_neg nofun]
        exact hm.setLast (fun q hq => Option.some.inj hq ▸ hrm)
    · exact hm

/-- A request that is in no use, but is about to be added. -/
structure New (s : Queue) (r : ℕ) : Prop where
  held : r∉s.held
  /-- It is not on the dispatch list. -/
  queue : r∉s.queueHead
  driver : r∉s.driver

/-- The insertion of a sorted request keeps the invariant. -/
theorem MergeInv.insertSort (h : MergeInv hashLong none s) (hr : New s r)
    (hc : (s.rqs r).cmdType=.fs ∨ (s.rqs r).discard=true) : MergeInv hashLong none (elvInsertSort hashLong s r) := by
  have hbug : (decide ((s.rqs r).cmdType≠.fs) && !(s.rqs r).discard)=false := by
    rcases hc with hc|hc
    · rw [hc]; rfl
    · rw [hc,Bool.not_true,Bool.and_false]
  have hx := h.setRq_not_held hr.held {s.rqs r with sorted := true}
  rw [elvInsertSort,hbug,Queue.bugOn_false]
  generalize hu : s.setRq r {s.rqs r with sorted := true}=u at hx
  have hur : New u r := by rw [← hu]; exact {hr with}
  have hus : (u.rqs r).sorted=true := by
    rw [← hu,show ∀ x, (s.setRq r x).rqs r=x from fun x => update_self ..]
  have ht : MergeInv hashLong none (u.incSorted.hold r) :=
    {hx with
      hashed := fun b q hq => mem_cons_of_mem r (hx.hashed b q hq)
      last := fun q hq => mem_cons_of_mem r (hx.last q hq)
      count := by
        change u.nrSorted+1=((r::u.held).length : ℤ)
        rw [hx.count,length_cons,Nat.cast_succ]
      nodup := nodup_cons.mpr ⟨hur.held,hx.nodup⟩
      offQueue := forall_mem_cons.mpr ⟨hur.queue,hx.offQueue⟩
      offDriver := forall_mem_cons.mpr ⟨hur.driver,hx.offDriver⟩
      sorted := forall_mem_cons.mpr ⟨hus,hx.sorted⟩}
  have hadd := (ht.mono (some r)).add mem_cons_self (hx.not_mem_hash hur.held)
  dsimp only
  split
  · split
    · exact hadd.setLast (fun q hq => Option.some.inj hq ▸ mem_cons_self)
    · exact hadd
  · exact ht

/-- An attempt to merge a new request into a held one keeps the invariant, and changes
nothing when it fails. -/
theorem MergeInv.attemptNew (h : MergeInv hashLong none s) (hr : New s r) (hs : (s.rqs r).sorted=false) (hq : q∈s.held)
    (a : Answers) : MergeInv hashLong none (ElevatorMerge.attemptMerge hashLong s q r a).1 ∧
      ((ElevatorMerge.attemptMerge hashLong s q r a).2=false → (ElevatorMerge.attemptMerge hashLong s q r a).1=s) := by
  have hne : r≠q := fun he => hr.held (he ▸ hq)
  obtain ⟨ht,hf⟩ := (h.mono (some q)).attemptMerge hq hne (fun hs' => absurd (hs.symm.trans hs') nofun) a
  refine ⟨?_,hf⟩
  cases hm : (ElevatorMerge.attemptMerge hashLong s q r a).2 with
  | true => exact ht hm
  | false => rw [hf hm]; exact h

/-- elv_attempt_insert_merge keeps the invariant. When it fails it changes the table only. -/
theorem MergeInv.insertMerge (h : MergeInv hashLong none s) (hr : New s r) (hs : (s.rqs r).sorted=false)
    (a : Answers) : MergeInv hashLong none (elvAttemptInsertMerge hashLong s r a).1 ∧
      ((elvAttemptInsertMerge hashLong s r a).2=false →
        ∃ t, (elvAttemptInsertMerge hashLong s r a).1=s.setHash t) := by
  have hsame : ∃ t, s=s.setHash t := ⟨s.hash,rfl⟩
  obtain ⟨hi,⟨t,ht⟩,hf⟩ := h.find (s.rqs r).pos
  have hfind : ∀ q, (elvRqhashFind hashLong s (s.rqs r).pos).2=some q → _ := fun q hq =>
    hi.attemptNew (q := q) (ht ▸ {hr with} : New _ r) (by rw [ht]; exact hs) (by rw [ht]; exact hf q hq) a
  have hlast : MergeInv hashLong none (attemptLastMerge hashLong s r a).1 := by
    rw [attemptLastMerge]
    split
    · rename_i l hl
      exact (h.attemptNew hr hs (h.last l hl) a).1
    · exact h
  rw [elvAttemptInsertMerge]
  split
  · exact ⟨h,fun _ => hsame⟩
  · dsimp only
    split
    · rename_i ht
      exact ⟨hlast,fun hm => absurd (hm.symm.trans ht) nofun⟩
    · split
      · exact ⟨h,fun _ => hsame⟩
      · split
        · rename_i q hq
          obtain ⟨hm,hn⟩ := hfind q hq
          exact ⟨hm,fun he => ⟨t,(hn he).trans ht⟩⟩
        · exact ⟨hi,fun _ => ⟨t,ht⟩⟩

theorem letGo_held (s : Queue) (r : ℕ) : (letGo s r).held=s.held.erase r := by
  rw [letGo]
  split
  · rfl
  · rfl

/-- A dispatch keeps the invariant and gives no request to the scheduler. -/
theorem MergeInv.dispatchOne (h : MergeInv hashLong none s) (d : ℕ × Bool) :
    MergeInv hashLong none (dispatchOne s d) ∧ ∀ r, r∉s.held → r∉(dispatchOne s d).held := by
  rw [ElevatorMerge.dispatchOne]
  split
  · rename_i hd
    have hless : ∀ r, r∉s.held → r∉(ElevatorMerge.letGo s d.1).held := fun r hr hm =>
      hr (mem_of_mem_erase (letGo_held s d.1 ▸ hm))
    split
    · exact ⟨h.dispatchTail hd,hless⟩
    · exact ⟨h.dispatchSort hd,hless⟩
  · exact ⟨h,fun r hr => hr⟩

/-- A drain keeps the invariant and gives no request to the scheduler. -/
theorem MergeInv.drain (h : MergeInv hashLong none s) (l : List (ℕ × Bool)) :
    MergeInv hashLong none (elvDrainElevator s l) ∧ ∀ r, r∉s.held → r∉(elvDrainElevator s l).held := by
  induction l generalizing s with
  | nil => exact ⟨h,fun r hr => hr⟩
  | cons d l ih =>
    obtain ⟨hd,hn⟩ := h.dispatchOne d
    obtain ⟨hi,hl⟩ := ih hd
    exact ⟨hi,fun r hr => hl r (hn r hr)⟩

/-- A request that is not held may be linked into the dispatch list. -/
theorem MergeInv.linkQueue (h : MergeInv hashLong stale s) (hr : r∉s.held) (front : Bool) :
    MergeInv hashLong stale (linkQueue s r front) := by
  refine h.setQueue (l := if front then r::s.queueHead else s.queueHead++[r]) (fun q hq => ?_) _ _
  have hcase : q=r ∨ q∈s.queueHead := by
    cases front with
    | true => exact mem_cons.mp hq
    | false => exact (mem_append.mp hq).symm.imp mem_singleton.mp id
  rcases hcase with rfl|hq
  · exact .inr hr
  · exact .inl hq

theorem MergeInv.addRequest (h : MergeInv hashLong none s) (hr : r∉s.held) {w : Where}
    (hw : w=.sort ∨ w=.sortMerge →
      New s r ∧ (s.rqs r).sorted=false ∧ ((s.rqs r).cmdType=.fs ∨ (s.rqs r).discard=true))
    (drain : List (ℕ × Bool)) (a : Answers) : MergeInv hashLong none (elvAddRequest hashLong s r w drain a) := by
  have hb : ∃ e b, moveBoundary s r={s with endSector := e, boundaryRq := b} := by
    rw [moveBoundary]
    split
    · exact ⟨_,_,rfl⟩
    · exact ⟨s.endSector,s.boundaryRq,rfl⟩
  obtain ⟨e,b,hb⟩ := hb
  have ht : MergeInv hashLong none (moveBoundary s r) := by
    rw [hb]
    exact {h with}
  have hrt : r∉(moveBoundary s r).held := by rw [hb]; exact hr
  have hnew : New s r → New (moveBoundary s r) r := by
    rw [hb]
    exact fun hn => {hn with}
  have hq : (moveBoundary s r).rqs=s.rqs := by rw [hb]
  have hw' : actualWhere (s.rqs r) w=.sort ∨ actualWhere (s.rqs r) w=.sortMerge → w=.sort ∨ w=.sortMerge := by
    rw [actualWhere]
    split_ifs
    · exact id
    · exact fun hh => hh.elim nofun nofun
    · exact id
  have hbar := ht.setRq_not_held hrt {(moveBoundary s r).rqs r with softbarrier := true}
  rw [elvAddRequest]
  generalize actualWhere (s.rqs r) w=v at hw'
  cases v with
  | front | requeue => exact hbar.linkQueue hrt true
  | back =>
    obtain ⟨hd,hn⟩ := hbar.drain drain
    exact hd.linkQueue (hn r hrt) false
  | sort =>
    obtain ⟨hn,_,hc⟩ := hw (hw' (.inl rfl))
    exact ht.insertSort (hnew hn) (hq ▸ hc)
  | sortMerge =>
    obtain ⟨hn,hs,hc⟩ := hw (hw' (.inr rfl))
    have hrn := hnew hn
    obtain ⟨hi,hf⟩ := ht.insertMerge hrn (hq ▸ hs) a
    rw [elvInsertSortMerge]
    dsimp only
    split
    · exact hi
    · rename_i hm
      obtain ⟨tab,htab⟩ := hf (Bool.not_eq_true _ ▸ hm)
      refine hi.insertSort ?_ ?_
      · rw [htab]
        exact {hrn with}
      · rw [htab]
        exact hq.symm ▸ hc

/-- The driver takes a request that is not held. -/
theorem MergeInv.dequeue (h : MergeInv hashLong none s) (hr : r∈s.queueHead) :
    MergeInv hashLong none (blkDequeueRequest s r) := by
  have hn : r∉s.held := fun hh => h.offQueue r hh hr
  rw [blkDequeueRequest,Queue.bugOn_hash (h.not_mem_hash hn)]
  exact
    {h with
      offQueue := fun q hq hm => h.offQueue q hq (mem_of_mem_erase hm)
      offDriver := fun q hq hm => (mem_cons.mp hm).elim (fun hqr => hn (hqr ▸ hq)) (h.offDriver q hq)}

/-- A look at the first request keeps the invariant. -/
theorem MergeInv.peek (h : MergeInv hashLong none s) (r : ℕ) : MergeInv hashLong none (blkPeekRequest s r) := by
  have hi := h.setRq_end (r := r) (x := {s.rqs r with started := true}) rfl rfl
  rw [blkPeekRequest]
  dsimp only
  split
  · exact {hi with}
  · exact hi

theorem MergeInv.step (h : MergeInv hashLong none s) {e : Event} (ht : mergeStep hashLong s e=some t) :
    MergeInv hashLong none t := by
  cases e with
  | add r rq w drain a =>
    obtain ⟨⟨hh,hq,hd,hs,hc⟩,rfl⟩ := of_guard ht
    have hrq : (s.setRq r rq).rqs r=rq := update_self ..
    refine (h.setRq_not_held hh rq).addRequest hh (fun hw => ⟨⟨hh,hq,hd⟩,?_⟩) drain a
    rw [hrq]
    exact ⟨hs,hc hw⟩
  | submit bio a => exact Option.some.inj ht ▸ h.submit bio a
  | dispatchSort r =>
    obtain ⟨hr,rfl⟩ := of_guard ht
    exact h.dispatchSort hr
  | dispatchTail r =>
    obtain ⟨hr,rfl⟩ := of_guard ht
    exact h.dispatchTail hr
  | peek =>
    obtain ⟨r,_,rfl⟩ := Option.map_eq_some_iff.mp ht
    exact h.peek r
  | start =>
    obtain ⟨r,hr,rfl⟩ := Option.map_eq_some_iff.mp ht
    exact h.dequeue (mem_of_head? hr)
  | requeue r a =>
    obtain ⟨hr,rfl⟩ := of_guard ht
    have hn : r∉s.held := fun hh => h.offDriver r hh hr
    have hx := h.setRq_not_held hn {s.rqs r with started := false}
    have hu : MergeInv hashLong none (unstart s r) :=
      {hx with offDriver := fun q hq hm => hx.offDriver q hq (mem_of_mem_erase hm)}
    exact hu.addRequest hn (w := .requeue) (fun hw => hw.elim nofun nofun) [] a
  | free r =>
    obtain ⟨hr,rfl⟩ := of_guard ht
    have hn : r∉s.held := fun hh => h.offDriver r hh hr
    rw [blkPutRequest,Queue.bugOn_hash (h.not_mem_hash hn)]
    exact {h with offDriver := fun q hq hm => h.offDriver q hq (mem_of_mem_erase hm)}
  | limits => exact Option.some.inj ht ▸ {h with}

/-- A new queue has the invariant. -/
theorem MergeInv.start (hs : Start s) : MergeInv hashLong none s := by
  obtain ⟨hh,hb,hl,hn,hq,hd,hbug,hwrap⟩ := hs
  have hheld : ∀ r, r∉s.held := fun r hr => not_mem_nil (hh ▸ hr)
  have hhash : ∀ b r, r∉s.hash b := fun b r hr => not_mem_nil (hb b ▸ hr)
  exact
    { noBug := hbug
      noWrap := hwrap
      separate := ⟨fun b => (hb b).symm ▸ nodup_nil,fun b _ r hr _ => absurd hr (hhash b r)⟩
      hashed := fun b r hr => absurd hr (hhash b r)
      bucket := fun b r hr _ => absurd hr (hhash b r)
      last := fun r hr => absurd (hl.symm.trans hr) nofun
      count := by rw [hn,hh]; rfl
      nodup := hh.symm ▸ nodup_nil
      offQueue := fun r hr => absurd hr (hheld r)
      offDriver := fun r hr => absurd hr (hheld r)
      sorted := fun r hr => absurd hr (hheld r)}

end

/-- The states of a queue between two events. -/
def MergeRun (hashLong : ℕ → Fin 64) : Queue → Prop := Reachable Start (fun s e t => mergeStep hashLong s e=some t)

/-- Whenever the lock is free, a request in the table is in the bucket of its current end
and held by the scheduler, the cached request is held, nr_sorted is the number of held
requests and was never decremented at zero, and no BUG_ON was met. -/
theorem merge_state_consistent (hashLong : ℕ → Fin 64) {s : Queue} (hs : MergeRun hashLong s) : (∀ b r, r∈s.hash b →
      b=elvHashFn hashLong ((s.rqs r).pos+blkRqSectors (s.rqs r)) ∧ r∈s.held) ∧
    (∀ r, s.lastMerge=some r → r∈s.held) ∧
    s.nrSorted=s.held.length ∧ s.held.Nodup ∧ s.wrapped=false ∧ s.bug=false := by
  have h : MergeInv hashLong none s :=
    hs.invariant (I := MergeInv hashLong none) (fun _ h => .start h) (fun _ _ _ _ h ht => h.step ht)
  exact ⟨fun b r hr => ⟨h.bucket b r hr nofun,h.hashed b r hr⟩,h.last,h.count,h.nodup,h.noWrap,h.noBug⟩

/-- A request of eight sectors at a position. -/
def eightSectors (pos : ℕ) : Request where
  pos := pos
  bytes := 4096
  cmdType := .fs
  write := false
  discard := false
  secure := false
  disk := 0
  special := false
  integrity := false
  segments := 1
  nomerge := false
  started := false
  softbarrier := false
  flushFua := false
  sorted := false
  elvpriv := true

def newQueue : Queue where
  rqs := fun _ => eightSectors 0
  held := []
  hash := fun _ => []
  lastMerge := none
  nrSorted := 0
  queueHead := []
  driver := []
  endSector := 0
  boundaryRq := none
  nomerges := false
  noxmerges := false
  maxSectors := 1024
  maxHwSectors := 1024
  maxSegments := 128
  bug := false
  wrapped := false

/-- A scheduler that allows every merge and knows the request behind another one. -/
def answersLatter (latter : Option ℕ) : Answers where
  allow := fun _ => true
  front := none
  latter := latter
  former := none
  integrityBio := true
  contiguous := false
  integrityRq := true

/-- A bio of eight sectors at a position. -/
def eightSectorsBio (pos : ℕ) : Bio where
  sector := pos
  sectors := 8
  write := false
  discard := false
  secure := false
  disk := 0
  integrity := false
  segments := 1

/-- Two requests of eight sectors are added, a bio fills the gap between them, and both
become one request of twenty-four sectors in the bucket of its new end. -/
theorem merge_state_consistent_gap :
    ∃ s : Queue, MergeRun (Fin.ofNat 64) s ∧ s.held=[1] ∧ blkRqSectors (s.rqs 1)=24 ∧ 1∈s.hash 4 ∧
      (4 : Fin 64)=elvHashFn (Fin.ofNat 64) ((s.rqs 1).pos+blkRqSectors (s.rqs 1)) ∧
      s.nrSorted=s.held.length ∧ s.bug=false := by
  obtain ⟨s,hr,hheld,hsec,h1⟩ : ∃ s, MergeRun (Fin.ofNat 64) s ∧ s.held=[1] ∧ blkRqSectors (s.rqs 1)=24 ∧ 1∈s.hash 4 :=
    exists_run (fun _ _ _ => id) (s := newQueue) ⟨rfl,fun _ => rfl,rfl,rfl,rfl,rfl,rfl,rfl⟩
      [.add 1 (eightSectors 8) .sort [] (answersLatter none),.add 2 (eightSectors 24) .sort [] (answersLatter none),
        .submit (eightSectorsBio 16) (answersLatter (some 2))] (by decide)
  obtain ⟨hb,_,hn,_,_,hbug⟩ := merge_state_consistent (Fin.ofNat 64) hr
  exact ⟨s,hr,hheld,hsec,h1,(hb 4 1 h1).1,hn,hbug⟩

end BlockIpc.ElevatorMerge
