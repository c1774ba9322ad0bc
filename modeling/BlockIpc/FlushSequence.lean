import BlockIpc.KernelNumbers
import BlockIpc.TransitionRuns
import BlockIpc.IntrusiveLists

/-!
# Flush sequencing of the block layer

A request that asks for a cache flush before its data, or for its data to be on the medium
before it completes, is taken through at most three steps: a flush, the data, a flush. All
requests of a queue share one flush request and two lists of waiters, for the flush under way and
for the one after it. The end of a flush walks the list of its waiters while each of them may be
put on either list and the flush request may be issued again.

The model also keeps the order of the events, the request as it was inserted, whether a check of
the source failed, whether the flush request was set up while it was in use, and whether a walk
was cut off.
-/

namespace BlockIpc.FlushSequence

open KernelNumbers IntrusiveLists

/-- The bits of flush.seq that are in use. -/
abbrev Fseq := BitVec 4

/-- REQ_FSEQ_PREFLUSH. -/
def fseqPreflush : Fseq := 1
/-- REQ_FSEQ_DATA. -/
def fseqData : Fseq := 2
/-- REQ_FSEQ_POSTFLUSH. -/
def fseqPostflush : Fseq := 4
/-- REQ_FSEQ_DONE. -/
def fseqDone : Fseq := 8
/-- REQ_FSEQ_ACTIONS. -/
def fseqActions : Fseq := fseqPreflush ||| fseqData ||| fseqPostflush

/-- The bits REQ_FLUSH and REQ_FUA of flush_flags. -/
structure FlushFlags where
  /-- The device has a cache to flush. -/
  flush : Bool
  /-- The device writes through its cache when asked. -/
  fua : Bool
  deriving DecidableEq

/-- What a request of the machinery has in end_io. -/
inductive EndIo where
  /-- flush_data_end_io. -/
  | flushData
  deriving DecidableEq

/-- The fields of a request that flush sequencing reads. -/
structure Request where
  flush : Bool
  fua : Bool
  flushSeq : Bool
  /-- Length of the data in sectors. -/
  sectors : ℕ
  /-- The first bio that is not yet ended. -/
  bio : Option ℕ
  /-- The last bio. -/
  biotail : Option ℕ
  endIo : Option EndIo
  seq : Fseq
  deriving DecidableEq

inductive FlushList where
  | queue (i : Bool)
  /-- flush_data_in_flight. -/
  | inFlight
  deriving DecidableEq

/-- All heads. -/
def flushLists : List FlushList := [.queue false,.queue true,.inFlight]

theorem mem_flushLists (l : FlushList) : l∈flushLists := by
  rcases l with i|_
  · cases i <;> decide
  · decide

/-- What can be on queue_head or with the driver. -/
inductive Entry where
  /-- The flush request of the queue. -/
  | flushRq
  /-- A request that was inserted for flush sequencing. -/
  | rq (r : ℕ)
  | other (n : ℕ)
  deriving DecidableEq

/-- The request as it was inserted, and flush_flags at that time. -/
structure Insertion where
  flags : FlushFlags
  rq : Request
  deriving DecidableEq

/-- What happens, in the order in which it happens. Flushes are numbered. -/
inductive Mark where
  | inserted (r : ℕ)
  /-- The flush request is issued. -/
  | issued (k : ℕ)
  /-- The driver ends the flush request. -/
  | flushed (k : ℕ) (error : ℤ)
  /-- A request is put on queue_head for its data. -/
  | queued (r : ℕ)
  /-- The driver takes a request, with or without REQ_FUA. -/
  | dispatched (r : ℕ) (fua : Bool)
  /-- The driver gives a request back. -/
  | requeued (r : ℕ)
  /-- A step of the sequence of a request ends. -/
  | performed (r : ℕ) (seq : Fseq) (error : ℤ)
  /-- The bio of a request is ended. -/
  | completed (r : ℕ) (error : ℤ)
  deriving DecidableEq

/-- A request queue, as far as flush sequencing goes, with clock words of w bits. -/
structure Queue (w : ℕ) where
  flags : FlushFlags
  notQueueable : Bool
  /-- flush_queue_delayed. -/
  delayed : Bool
  /-- flush_queue and flush_data_in_flight. -/
  lists : FlushList → List ℕ
  pendingIdx : Bool
  runningIdx : Bool
  pendingSince : BitVec w
  jiffies : BitVec w
  queueHead : List Entry
  /-- What the driver was given and has not ended. -/
  driver : List Entry
  rqs : ℕ → Request
  /-- How often blk_run_queue_async was called. -/
  runs : ℕ
  inserted : ℕ → Option Insertion
  /-- How many flushes were issued. -/
  issued : ℕ
  /-- What happened so far. -/
  trace : List Mark
  bug : Bool
  /-- The flush request was set up while it was on queue_head or with the driver. -/
  reinit : Bool
  /-- A walk was cut off. -/
  hung : Bool

variable {w : ℕ}

/-- Record an event. -/
def Queue.mark (s : Queue w) (m : Mark) : Queue w := {s with trace := s.trace++[m]}

def Queue.bugOn (s : Queue w) (b : Bool) : Queue w := {s with bug := s.bug || b}

def Queue.setRq (s : Queue w) (r : ℕ) (x : Request) : Queue w := {s with rqs := Function.update s.rqs r x}

/-- The driver gives a request back. -/
def Queue.ended (s : Queue w) (e : Entry) : Queue w := {s with driver := s.driver.erase e}

/-- The flush request is on queue_head or with the driver. -/
def Queue.Outstanding (s : Queue w) : Prop := .flushRq∈s.queueHead ∨ .flushRq∈s.driver

instance (s : Queue w) : Decidable s.Outstanding := inferInstanceAs (Decidable (_ ∨ _))

def blkFlushPolicy (fflags : FlushFlags) (rq : Request) : Fseq :=
  if fflags.flush then
    (if rq.flush then fseqPreflush else 0) ||| (if rq.sectors≠0 then fseqData else 0) |||
      (if !fflags.fua && rq.fua then fseqPostflush else 0)
  else 0

/-- The lowest clear bit of flush.seq, as ffz finds it. -/
def ffz (seq : Fseq) : ℕ :=
  if !seq.getLsbD 0 then 0 else if !seq.getLsbD 1 then 1 else if !seq.getLsbD 2 then 2
    else if !seq.getLsbD 3 then 3 else 4

def blkFlushCurSeq (rq : Request) : Fseq := 1 <<< ffz rq.seq

def blkFlushRestoreRequest (rq : Request) : Request := {rq with bio := rq.biotail, flushSeq := false, endIo := none}

/-- The part of blk_update_request that ends the bio: it is left alone while the request
is in a flush sequence. -/
def blkUpdateRequest (s : Queue w) (r : ℕ) (error : ℤ) : Queue w :=
  if (s.rqs r).bio=none then s
  else
    let s' := s.setRq r {s.rqs r with bio := none}
    if (s.rqs r).flushSeq then s' else s'.mark (.completed r error)

def flushPendingTimeout (hz : ℕ) : BitVec w := BitVec.ofNat w (5*hz)

/-- Set up the flush request and put it on queue_head. -/
def issueFlush (s : Queue w) : Queue w :=
  let s := {s with reinit := s.reinit || decide s.Outstanding}
  let s := {s.mark (.issued s.issued) with issued := s.issued+1}
  {s with pendingIdx := !s.pendingIdx, queueHead := s.queueHead++[.flushRq]}

def blkKickFlush (hz : ℕ) (s : Queue w) : Queue w × Bool :=
  if s.pendingIdx≠s.runningIdx ∨ s.lists (.queue s.pendingIdx)=[] then (s,false)
  else if s.lists .inFlight≠[] ∧ timeBefore s.jiffies (s.pendingSince+flushPendingTimeout hz) then (s,false)
  else (issueFlush s,true)

/-- The case REQ_FSEQ_PREFLUSH or REQ_FSEQ_POSTFLUSH: wait for a flush. -/
def queueForFlush (s : Queue w) (r : ℕ) : Queue w :=
  let pending := FlushList.queue s.pendingIdx
  let s := {s with pendingSince := if s.lists pending=[] then s.jiffies else s.pendingSince}
  {s with lists := moveTail s.lists r pending}

/-- The case REQ_FSEQ_DATA: put the request on queue_head. -/
def queueForData (s : Queue w) (r : ℕ) : Queue w :=
  {s.mark (.queued r) with lists := moveTail s.lists r .inFlight, queueHead := .rq r::s.queueHead}

/-- The case REQ_FSEQ_DONE: end the request. -/
def endSequence (s : Queue w) (r : ℕ) (error : ℤ) : Queue w :=
  let s := s.bugOn (decide (.rq r∈s.queueHead))
  let s := {s with lists := unlink s.lists r}
  blkUpdateRequest (s.setRq r (blkFlushRestoreRequest (s.rqs r))) r error

/-- The switch of blk_flush_complete_seq, with whether the request was queued. -/
def dispatchSeq (s : Queue w) (r : ℕ) (seq : Fseq) (error : ℤ) : Queue w × Bool :=
  if seq=fseqPreflush ∨ seq=fseqPostflush then (queueForFlush s r,false)
  else if seq=fseqData then (queueForData s r,true)
  else if seq=fseqDone then (endSequence s r error,false)
  else (s.bugOn true,false)

/-- Record steps of a request as done. -/
def recordSeq (s : Queue w) (r : ℕ) (seq : Fseq) : Queue w :=
  let s := s.bugOn (decide ((s.rqs r).seq &&& seq≠0))
  s.setRq r {s.rqs r with seq := (s.rqs r).seq ||| seq}

def blkFlushCompleteSeq (hz : ℕ) (s : Queue w) (r : ℕ) (seq : Fseq) (error : ℤ) : Queue w × Bool :=
  let s := recordSeq s r seq
  let seq := if error=0 then blkFlushCurSeq (s.rqs r) else fseqDone
  let out := dispatchSeq s r seq error
  let kick := blkKickFlush hz out.1
  (kick.1,kick.2 || out.2)

/-- The loop of flush_end_io over the waiters of the flush that ended. The link to the
next entry is read before the entry is handled, and the one after it only then. -/
def flushWalk (hz : ℕ) (running : FlushList) (error : ℤ) :
    ℕ → Queue w → Link FlushList ℕ → Link FlushList ℕ → Bool → Queue w × Bool
  | 0,s,_,_,queued => ({s with hung := true},queued)
  | _+1,s,.head l,_,queued => (s.bugOn (decide (l≠running)),queued)
  | fuel+1,s,.entry r,n,queued =>
    let seq := blkFlushCurSeq (s.rqs r)
    let s := s.bugOn (decide (seq≠fseqPreflush ∧ seq≠fseqPostflush))
    let out := blkFlushCompleteSeq hz (s.mark (.performed r seq error)) r seq error
    flushWalk hz running error fuel out.1 n (next flushLists out.1.lists n) (queued || out.2)

/-- Account for the end of the flush request, the last that was issued. -/
def accountFlush (s : Queue w) (error : ℤ) : Queue w :=
  let s := s.bugOn (decide (s.pendingIdx=s.runningIdx))
  {s.mark (.flushed (s.issued-1) error) with runningIdx := !s.runningIdx}

/-- The whole loop, cut off after as many visits as the waiters can have steps left. -/
def pushWaiters (hz : ℕ) (running : FlushList) (error : ℤ) (s : Queue w) : Queue w × Bool :=
  let pos := first running (s.lists running)
  flushWalk hz running error (2*(s.lists running).length+1) s pos (next flushLists s.lists pos) false

def flushEndIo (hz : ℕ) (s : Queue w) (error : ℤ) : Queue w :=
  let out := pushWaiters hz (.queue s.runningIdx) error (accountFlush s error)
  {out.1 with runs := out.1.runs+(if out.2 || out.1.delayed then 1 else 0), delayed := false}

def flushDataEndIo (hz : ℕ) (s : Queue w) (r : ℕ) (error : ℤ) : Queue w :=
  let out := blkFlushCompleteSeq hz s r fseqData error
  {out.1 with runs := out.1.runs+(if out.2 then 1 else 0)}

/-- The request with the flags the driver is to see. -/
def adjustFlags (fflags : FlushFlags) (rq : Request) : Request :=
  {rq with flush := false, fua := fflags.fua && rq.fua}

/-- The policy has data and no flush: the request does not go through the machinery. -/
def isDirect (policy : Fseq) : Bool := policy &&& fseqData≠0 && policy &&& (fseqPreflush ||| fseqPostflush)=0

/-- The request is marked as part of a flush sequence. -/
def enterSequence (rq : Request) : Request := {rq with seq := 0, flushSeq := true, endIo := some .flushData}

def blkInsertFlush (hz : ℕ) (s : Queue w) (r : ℕ) : Queue w :=
  let fflags := s.flags
  let policy := blkFlushPolicy fflags (s.rqs r)
  let s := s.bugOn (decide ((s.rqs r).endIo≠none))
  let s := s.bugOn (decide ((s.rqs r).bio=none ∨ (s.rqs r).bio≠(s.rqs r).biotail))
  let s := s.setRq r (adjustFlags fflags (s.rqs r))
  if isDirect policy then {s.mark (.queued r) with queueHead := s.queueHead++[.rq r]}
  else (blkFlushCompleteSeq hz (s.setRq r (enterSequence (s.rqs r))) r (fseqActions &&& ~~~policy) 0).1

/-- A request as __make_request sets it up from one bio. -/
def freshRequest (flush fua : Bool) (sectors bio : ℕ) : Request :=
  ⟨flush,fua,false,sectors,some bio,some bio,none,0⟩

/-- The driver asks for a request and starts it. -/
def driverFetch (s : Queue w) : Queue w :=
  match s.queueHead with
  | [] => if s.pendingIdx≠s.runningIdx && s.notQueueable then {s with delayed := true} else s
  | e::es =>
    let s := {s with queueHead := es, driver := e::s.driver}
    match e with
    | .rq r => s.mark (.dispatched r (s.rqs r).fua)
    | _ => s

/-- blk_requeue_request: the driver gives an entry back, to the front of queue_head. -/
def blkRequeueRequest (s : Queue w) (e : Entry) : Queue w :=
  let s := {s with queueHead := e::s.queueHead, driver := s.driver.erase e}
  match e with
  | .rq r => s.mark (.requeued r)
  | _ => s

/-- blk_end_request_all by the driver: the bio is ended, or left to the flush sequence,
and end_io is called. -/
def driverEnd (hz : ℕ) (s : Queue w) (e : Entry) (error : ℤ) : Queue w :=
  let s := s.ended e
  match e with
  | .other _ => s
  | .flushRq => flushEndIo hz s error
  | .rq r =>
    let s := blkUpdateRequest (s.mark (.performed r fseqData error)) r error
    match (s.rqs r).endIo with
    | none => s
    | some .flushData => flushDataEndIo hz s r error

/-- What can happen while the queue lock is taken once. -/
inductive Event where
  /-- A new request is inserted. -/
  | insert (r : ℕ) (flush fua : Bool) (sectors bio : ℕ)
  /-- The driver changes flush_flags. -/
  | setFlags (flags : FlushFlags)
  /-- The driver changes flush_not_queueable. -/
  | setQueueable (b : Bool)
  /-- Time passes. -/
  | tick (n : ℕ)
  /-- Another request is linked into queue_head. -/
  | link (i n : ℕ)
  /-- The driver asks for a request. -/
  | fetch
  /-- The driver gives a request back. -/
  | requeue (e : Entry)
  /-- The driver ends a request. -/
  | complete (e : Entry) (error : ℤ)
  deriving DecidableEq

/-- The insertion of a new request. -/
def insertEvent (hz : ℕ) (s : Queue w) (r : ℕ) (rq : Request) : Queue w :=
  let s := {s.mark (.inserted r) with inserted := Function.update s.inserted r (some ⟨s.flags,rq⟩)}
  blkInsertFlush hz (s.setRq r rq) r

def flushStep (hz : ℕ) (s : Queue w) : Event → Option (Queue w)
  | .insert r flush fua sectors bio =>
    if s.inserted r=none then some (insertEvent hz s r (freshRequest flush fua sectors bio)) else none
  | .setFlags flags => some {s with flags := flags}
  | .setQueueable b => some {s with notQueueable := !b}
  | .tick n => some {s with jiffies := s.jiffies+BitVec.ofNat w n}
  | .link i n => some {s with queueHead := s.queueHead.insertIdx i (.other n)}
  | .fetch => some (driverFetch s)
  | .requeue e => if e∈s.driver then some (blkRequeueRequest s e) else none
  | .complete e error => if e∈s.driver then some (driverEnd hz s e error) else none

/-- A queue as blk_init_queue leaves it. -/
def Start (s : Queue w) : Prop :=
  (∀ l, s.lists l=[]) ∧ s.pendingIdx=s.runningIdx ∧ s.queueHead=[] ∧ s.driver=[] ∧
    (∀ r, s.inserted r=none) ∧ s.trace=[] ∧ s.issued=0 ∧ s.bug=false ∧ s.reinit=false ∧ s.hung=false

end BlockIpc.FlushSequence
