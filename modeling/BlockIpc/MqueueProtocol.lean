import BlockIpc.MqueueInodes
import BlockIpc.WaitLists

/-!
# POSIX message queues

One queue and the calls mq_timedsend and mq_timedreceive on it. A call is a number that is used
once, and a message is known by its sender. A call that waits reads the state of its entry without
the lock, so the lock is held from one step to the next while another call has written
STATE_PENDING and not yet STATE_READY. Everything else under the lock is one step. Checks of
arguments, allocations, copies, signals and timeouts are arguments of the steps. The table of
messages is allocated without being filled; an access outside of the table, or to a slot that was
never written, is recorded.
-/

namespace BlockIpc.MqueueProtocol

open Function KernelNumbers TransitionRuns MqueueInodes WaitLists

def mqPrioMax : ℕ := 32768

structure MqMsg where
  /-- The call that sends it. -/
  sender : ℕ
  mType : ℤ
  mTs : ℤ
  deriving DecidableEq

/-- The two wait lists of a queue. -/
inductive Side where
  | send
  | recv
  deriving DecidableEq

inductive WaitState where
  | none
  | pending
  | ready
  deriving DecidableEq

structure ExtWaitQueue where
  /-- The message; none if it was not written yet. -/
  msg : Option MqMsg
  state : WaitState
  deriving DecidableEq

/-- A caller of wq_sleep. -/
inductive Waiter where
  | snd (m : MqMsg)
  /-- mq_timedreceive. -/
  | rcv
  deriving DecidableEq

/-- The list of a waiter. -/
def Waiter.side : Waiter → Side
  | .snd _ => .send
  | .rcv => .recv

/-- A call that serves a waiter. -/
inductive Waker where
  /-- mq_timedsend in pipelined_send. -/
  | snd (m : MqMsg)
  /-- mq_timedreceive in pipelined_receive, with the message it took. -/
  | rcv (m : MqMsg)
  deriving DecidableEq

/-- Progress of a call. -/
inductive MqPc where
  /-- Not called yet. -/
  | idle
  /-- In mq_timedsend, about to take the lock. -/
  | sndReady (m : MqMsg) (nonblock : Bool)
  /-- In wq_sleep, in schedule or at the read of the state without the lock. -/
  | asleep (w : Waiter)
  /-- In wq_sleep after the read, about to take the lock. -/
  | relock (w : Waiter)
  /-- Between the two writes to the state of a waiter. -/
  | waking (k : Waker) (x : ℕ)
  /-- mq_timedsend has returned; the message is none if there was not any yet. -/
  | sndDone (m : Option MqMsg) (code : ℤ)
  /-- In mq_timedreceive, about to take the lock. -/
  | rcvReady (nonblock : Bool)
  /-- In mq_timedreceive with a message. -/
  | rcvGot (m : MqMsg)
  /-- mq_timedreceive has returned, with the message it obtained. -/
  | rcvDone (code : ℤ) (got : Option MqMsg)
  /-- mq_timedreceive has used a pointer that was not written. -/
  | rcvFault
  deriving DecidableEq

structure MqTable where
  /-- The slots; none if a slot was not written yet. -/
  slots : ℤ → Option MqMsg
  /-- Whether something outside of the table or a slot that was not written was used. -/
  wild : Bool

/-- Write a slot of a table of the given size. -/
def MqTable.put (t : MqTable) (size i : ℤ) (x : Option MqMsg) : MqTable :=
  ⟨update t.slots i x,t.wild || !decide (0 ≤ i ∧ i<size)⟩

/-- The loop of msg_insert. The messages of the first n slots are looked at from the
last one on and moved up while their type is not less. Returns the free slot. -/
def shiftUp (size mType : ℤ) : ℕ → MqTable → MqTable×ℕ
  | 0,t => (t,0)
  | n+1,t =>
    match t.slots n with
    | none => ({t with wild := true},n+1)
    | some x => if mType≤x.mType then shiftUp size mType n (t.put size (n+1) (some x)) else (t,n+1)

variable {pf : Platform}

/-- A queue, struct mqueue_inode_info, and the calls on it. -/
structure MqQueue (pf : Platform) where
  /-- mq_maxmsg and mq_msgsize. -/
  attr : MqAttr pf
  /-- mq_curmsgs, a long. -/
  curmsgs : ℤ
  /-- qsize, an unsigned long. -/
  qsize : ℕ
  messages : MqTable
  eWaitQ : Side → List ℕ
  /-- The call that holds the lock from one step to the next. -/
  lock : Option ℕ
  /-- static_prio of the task of each call. -/
  staticPrio : ℕ → ℤ
  /-- The entries of the calls. -/
  wait : ℕ → ExtWaitQueue
  /-- Progress of every call. -/
  pc : ℕ → MqPc
  /-- When each call was linked. -/
  since : ℕ → ℕ
  /-- How many entries were linked. -/
  clock : ℕ

/-- Advance a call. -/
def MqQueue.go (q : MqQueue pf) (c : ℕ) (pc : MqPc) : MqQueue pf := {q with pc := update q.pc c pc}

/-- Write an entry. -/
def MqQueue.setWait (q : MqQueue pf) (c : ℕ) (x : ExtWaitQueue) : MqQueue pf := {q with wait := update q.wait c x}

def MqQueue.wqAdd (q : MqQueue pf) (sr : Side) (c : ℕ) : MqQueue pf :=
  {q with
    eWaitQ := update q.eWaitQ sr (insertWaiter q.staticPrio c (q.eWaitQ sr))
    since := update q.since c q.clock
    clock := q.clock+1}

/-- list_del of an entry. -/
def MqQueue.listDel (q : MqQueue pf) (sr : Side) (c : ℕ) : MqQueue pf :=
  {q with eWaitQ := update q.eWaitQ sr ((q.eWaitQ sr).erase c)}

def MqQueue.wqGetFirstWaiter (q : MqQueue pf) (sr : Side) : Option ℕ := (q.eWaitQ sr).getLast?

/-- msg_insert. The index is an int. -/
def MqQueue.msgInsert (q : MqQueue pf) (m : MqMsg) : MqQueue pf :=
  let k := toInt (q.curmsgs-1)
  let r := shiftUp q.attr.maxmsg m.mType (k+1).toNat q.messages
  {q with
    curmsgs := q.curmsgs+1
    qsize := pf.toSize (q.qsize+m.mTs)
    messages := r.1.put q.attr.maxmsg (if k<0 then k+1 else r.2) (some m)}

/-- The queue without its last message. -/
def MqQueue.taken (q : MqQueue pf) (m : MqMsg) : MqQueue pf :=
  {q with curmsgs := q.curmsgs-1, qsize := pf.toSize (q.qsize-m.mTs)}

def MqQueue.msgGet (q : MqQueue pf) : Option MqMsg×MqQueue pf :=
  match q.messages.slots (q.curmsgs-1) with
  | none => (none,{q with curmsgs := q.curmsgs-1, messages := {q.messages with wild := true}})
  | some m => (some m,q.taken m)

/-- pipelined_send up to STATE_PENDING. -/
def MqQueue.pipelinedSend (q : MqQueue pf) (message : MqMsg) (receiver : ℕ) : MqQueue pf :=
  (q.listDel .recv receiver).setWait receiver ⟨some message,.pending⟩

/-- pipelined_receive with a waiting sender, up to STATE_PENDING. -/
def MqQueue.pipelinedReceive (q : MqQueue pf) (sender : ℕ) : MqQueue pf :=
  let inserted :=
    match (q.wait sender).msg with
    | some m => q.msgInsert m
    | none => {q with messages := {q.messages with wild := true}}
  (inserted.listDel .send sender).setWait sender ⟨(q.wait sender).msg,.pending⟩

/-- The end of wq_sleep. The sender of a message that was not taken frees it. -/
def wqReturn (w : Waiter) (retval : ℤ) (ewp : ExtWaitQueue) : MqPc :=
  match w with
  | .snd m => .sndDone (some m) retval
  | .rcv =>
    if retval=0 then
      match ewp.msg with
      | some m => .rcvGot m
      | none => .rcvFault
    else .rcvDone retval none

/-- The end of a call that has served a waiter. -/
def Waker.finish : Waker → MqPc
  | .snd m => .sndDone (some m) 0
  | .rcv m => .rcvGot m

/-- What happens to a queue. -/
inductive MqCall where
  /-- mq_timedsend up to the message being loaded. The answers are those of
  prepare_timeout, of the lookup of the descriptor and of load_msg. -/
  | mqTimedsend (c msgPrio msgLen : ℕ) (nonblock : Bool) (timeout lookup load : Option Errno)
  /-- The sender takes the lock. -/
  | sndLock (c : ℕ)
  | mqTimedreceive (c msgLen : ℕ) (nonblock : Bool) (timeout lookup : Option Errno)
  /-- The receiver takes the lock. -/
  | rcvLock (c : ℕ)
  /-- A waiting call reads its state without the lock. -/
  | wqRead (c : ℕ)
  /-- A waiting call takes the lock and reads its state. -/
  | wqRelock (c : ℕ) (signal timedout : Bool)
  /-- A call writes STATE_READY and drops the lock. -/
  | wqReady (c : ℕ)
  /-- A receiver stores its message for the user and frees it. -/
  | rcvStore (c : ℕ) (fault : Bool)

/-- mq_timedsend before the lock. -/
def mqTimedsend (q : MqQueue pf) (c msgPrio msgLen : ℕ) (nonblock : Bool)
    (timeout lookup load : Option Errno) : MqPc :=
  match timeout with
  | some err => .sndDone none err.code
  | none =>
    if mqPrioMax ≤ msgPrio then .sndDone none (-einval)
    else
      match lookup with
      | some err => .sndDone none err.code
      | none =>
        if pf.toSize q.attr.msgsize < msgLen then .sndDone none (-emsgsize)
        else if toInt msgLen<0 then .sndDone none (-einval)
        else
          match load with
          | some err => .sndDone none err.code
          | none => .sndReady ⟨c,msgPrio,toInt msgLen⟩ nonblock

/-- mq_timedsend with the lock held. -/
def sndLock (q : MqQueue pf) (c : ℕ) (m : MqMsg) (nonblock : Bool) : MqQueue pf :=
  if q.curmsgs=q.attr.maxmsg then
    if nonblock=true then q.go c (.sndDone (some m) (-eagain))
    else ((q.setWait c ⟨some m,.none⟩).wqAdd .send c).go c (.asleep (.snd m))
  else
    match q.wqGetFirstWaiter .recv with
    | some receiver => {q.pipelinedSend m receiver with lock := some c}.go c (.waking (.snd m) receiver)
    | none => (q.msgInsert m).go c (.sndDone (some m) 0)

/-- mq_timedreceive before the lock. -/
def mqTimedreceive (q : MqQueue pf) (msgLen : ℕ) (nonblock : Bool) (timeout lookup : Option Errno) : MqPc :=
  match timeout with
  | some err => .rcvDone err.code none
  | none =>
    match lookup with
    | some err => .rcvDone err.code none
    | none =>
      if msgLen<pf.toSize q.attr.msgsize then .rcvDone (-emsgsize) none else .rcvReady nonblock

/-- mq_timedreceive with the lock held. -/
def rcvLock (q : MqQueue pf) (c : ℕ) (nonblock : Bool) : MqQueue pf :=
  if q.curmsgs=0 then
    if nonblock=true then q.go c (.rcvDone (-eagain) none)
    else ((q.setWait c ⟨none,.none⟩).wqAdd .recv c).go c (.asleep .rcv)
  else
    match q.msgGet with
    | (none,q) => q.go c .rcvFault
    | (some m,q) =>
      match q.wqGetFirstWaiter .send with
      | some sender => {q.pipelinedReceive sender with lock := some c}.go c (.waking (.rcv m) sender)
      | none => q.go c (.rcvGot m)

/-- wq_sleep with the lock held again. -/
def wqRelock (q : MqQueue pf) (c : ℕ) (w : Waiter) (signal timedout : Bool) : MqQueue pf :=
  if (q.wait c).state=.ready then q.go c (wqReturn w 0 (q.wait c))
  else if signal=true then (q.listDel w.side c).go c (wqReturn w (-erestartsys) (q.wait c))
  else if timedout=true then (q.listDel w.side c).go c (wqReturn w (-etimedout) (q.wait c))
  else q.go c (.asleep w)

def mqCallStep (q : MqQueue pf) : MqCall → Option (MqQueue pf)
  | .mqTimedsend c msgPrio msgLen nonblock timeout lookup load =>
    match q.pc c with
    | .idle => some (q.go c (mqTimedsend q c msgPrio msgLen nonblock timeout lookup load))
    | _ => none
  | .sndLock c =>
    match q.pc c with
    | .sndReady m nonblock => if q.lock=none then some (sndLock q c m nonblock) else none
    | _ => none
  | .mqTimedreceive c msgLen nonblock timeout lookup =>
    match q.pc c with
    | .idle => some (q.go c (mqTimedreceive q msgLen nonblock timeout lookup))
    | _ => none
  | .rcvLock c =>
    match q.pc c with
    | .rcvReady nonblock => if q.lock=none then some (rcvLock q c nonblock) else none
    | _ => none
  | .wqRead c =>
    match q.pc c with
    | .asleep w =>
      match (q.wait c).state with
      | .pending => some q
      | .ready => some (q.go c (wqReturn w 0 (q.wait c)))
      | .none => some (q.go c (.relock w))
    | _ => none
  | .wqRelock c signal timedout =>
    match q.pc c with
    | .relock w => if q.lock=none then some (wqRelock q c w signal timedout) else none
    | _ => none
  | .wqReady c =>
    match q.pc c with
    | .waking k x => some ({q.setWait x {q.wait x with state := .ready} with lock := none}.go c k.finish)
    | _ => none
  | .rcvStore c fault =>
    match q.pc c with
    | .rcvGot m =>
      if fault=true then some (q.go c (.rcvDone (-efault) (some m)))
      else some (q.go c (.rcvDone m.mTs (some m)))
    | _ => none

/-- Attributes that mqueue_get_inode accepts: the sizes do not overflow, and kmalloc
has given a table, which has less entries than an int can count. -/
structure Accepted (attr : MqAttr pf) : Prop where
  sized : (mqCalculateSizes attr).isSome=true
  table : attr.maxmsg ≤ intMax

/-- A queue after mqueue_get_inode. -/
structure MqQueueStart (q : MqQueue pf) : Prop where
  /-- Its attributes were accepted. -/
  accepted : Accepted q.attr
  empty : q.curmsgs=0
  size : q.qsize=0
  /-- The table was not used. -/
  tame : q.messages.wild=false
  waits : ∀ sr, q.eWaitQ sr=[]
  lock : q.lock=none
  /-- No call has started. -/
  idle : ∀ c, q.pc c=.idle

/-- A new queue whose calls have given priorities. -/
def newQueue (attr : MqAttr pf) (staticPrio : ℕ → ℤ) : MqQueue pf :=
  ⟨attr,0,0,⟨fun _ => none,false⟩,fun _ => [],none,staticPrio,fun _ => ⟨none,.none⟩,fun _ => .idle,fun _ => 0,0⟩

/-- It is a queue after mqueue_get_inode if its attributes are accepted. -/
theorem newQueue_start {attr : MqAttr pf} (h : Accepted attr) (staticPrio : ℕ → ℤ) :
    MqQueueStart (newQueue attr staticPrio) := ⟨h,rfl,rfl,rfl,fun _ => rfl,rfl,fun _ => rfl⟩

/-- One step as a relation. -/
def MqCallNext (q : MqQueue pf) (e : MqCall) (q' : MqQueue pf) : Prop := mqCallStep q e=some q'

/-- Queues of all runs. -/
def MqQueueReachable (q : MqQueue pf) : Prop := Reachable MqQueueStart MqCallNext q

inductive CallCase (q : MqQueue pf) : MqQueue pf → Prop
  /-- mq_timedsend fails before there is a message. -/
  | sndRefused {c : ℕ} {code : ℤ} (hp : q.pc c=.idle) : CallCase q (q.go c (.sndDone none code))
  /-- mq_timedsend has loaded its message. -/
  | sndLoaded {c : ℕ} {m : MqMsg} {nonblock : Bool} (hp : q.pc c=.idle) (hm : m.sender=c) (h0 : 0 ≤ m.mTs)
    (h1 : m.mTs≤pf.toSize q.attr.msgsize) : CallCase q (q.go c (.sndReady m nonblock))
  /-- The queue is full and the sender does not wait. -/
  | sndAgain {c : ℕ} {m : MqMsg} {nonblock : Bool} (hp : q.pc c=.sndReady m nonblock) :
    CallCase q (q.go c (.sndDone (some m) (-eagain)))
  /-- The queue is full and the sender waits. -/
  | sndSlept {c : ℕ} {m : MqMsg} {nonblock : Bool} (hp : q.pc c=.sndReady m nonblock) (hlock : q.lock=none)
    (hfull : q.curmsgs=q.attr.maxmsg) :
    CallCase q (((q.setWait c ⟨some m,.none⟩).wqAdd .send c).go c (.asleep (.snd m)))
  /-- The message is handed to a waiting receiver. -/
  | sndHanded {c r : ℕ} {m : MqMsg} {nonblock : Bool} (hp : q.pc c=.sndReady m nonblock) (hlock : q.lock=none)
    (hr : q.wqGetFirstWaiter .recv=some r) :
    CallCase q ({q.pipelinedSend m r with lock := some c}.go c (.waking (.snd m) r))
  /-- The message is put into the table. -/
  | sndInserted {c : ℕ} {m : MqMsg} {nonblock : Bool} (hp : q.pc c=.sndReady m nonblock) (hlock : q.lock=none)
    (hroom : q.curmsgs≠q.attr.maxmsg) (hr : q.wqGetFirstWaiter .recv=none) :
    CallCase q ((q.msgInsert m).go c (.sndDone (some m) 0))
  /-- mq_timedreceive fails before the lock. -/
  | rcvRefused {c : ℕ} {code : ℤ} (hp : q.pc c=.idle) (hcode : code<0) :
    CallCase q (q.go c (.rcvDone code none))
  /-- mq_timedreceive is about to take the lock. -/
  | rcvCalled {c : ℕ} {nonblock : Bool} (hp : q.pc c=.idle) : CallCase q (q.go c (.rcvReady nonblock))
  /-- The queue is empty and the receiver does not wait. -/
  | rcvAgain {c : ℕ} {nonblock : Bool} (hp : q.pc c=.rcvReady nonblock) :
    CallCase q (q.go c (.rcvDone (-eagain) none))
  /-- The queue is empty and the receiver waits. -/
  | rcvSlept {c : ℕ} {nonblock : Bool} (hp : q.pc c=.rcvReady nonblock) (hlock : q.lock=none)
    (hempty : q.curmsgs=0) :
    CallCase q (((q.setWait c ⟨none,.none⟩).wqAdd .recv c).go c (.asleep .rcv))
  /-- The slot of the message was not written. -/
  | rcvUnset {c : ℕ} {nonblock : Bool} {q' : MqQueue pf} (hp : q.pc c=.rcvReady nonblock) (hlock : q.lock=none)
    (hmore : q.curmsgs≠0) (hm : q.messages.slots (q.curmsgs-1)=none) : CallCase q q'
  /-- A message is taken and no sender waits. -/
  | rcvTook {c : ℕ} {m : MqMsg} {nonblock : Bool} (hp : q.pc c=.rcvReady nonblock) (hlock : q.lock=none)
    (hmore : q.curmsgs≠0) (hm : q.messages.slots (q.curmsgs-1)=some m) (hs : q.wqGetFirstWaiter .send=none) :
    CallCase q ((q.taken m).go c (.rcvGot m))
  /-- A message is taken and that of a waiting sender is put into the table. -/
  | rcvServed {c s : ℕ} {m : MqMsg} {nonblock : Bool} (hp : q.pc c=.rcvReady nonblock) (hlock : q.lock=none)
    (hmore : q.curmsgs≠0) (hm : q.messages.slots (q.curmsgs-1)=some m) (hs : q.wqGetFirstWaiter .send=some s) :
    CallCase q ({(q.taken m).pipelinedReceive s with lock := some c}.go c (.waking (.rcv m) s))
  /-- The state is STATE_PENDING and is read again. -/
  | wqSpun : CallCase q q
  /-- The state is STATE_READY. -/
  | wqReturned {c : ℕ} {w : Waiter} (hp : q.pc c=.asleep w ∨ q.pc c=.relock w)
    (hstate : (q.wait c).state=.ready) : CallCase q (q.go c (wqReturn w 0 (q.wait c)))
  | wqSawNone {c : ℕ} {w : Waiter} (hp : q.pc c=.asleep w) : CallCase q (q.go c (.relock w))
  /-- The call is interrupted or its time is over. -/
  | wqCancelled {c : ℕ} {w : Waiter} {retval : ℤ} (hp : q.pc c=.relock w) (hlock : q.lock=none)
    (hstate : (q.wait c).state≠.ready) (hneg : retval<0) :
    CallCase q ((q.listDel w.side c).go c (wqReturn w retval (q.wait c)))
  /-- The call goes on waiting. -/
  | wqSleptAgain {c : ℕ} {w : Waiter} (hp : q.pc c=.relock w) : CallCase q (q.go c (.asleep w))
  | wqReady {c x : ℕ} {k : Waker} (hp : q.pc c=.waking k x) :
    CallCase q ({q.setWait x {q.wait x with state := .ready} with lock := none}.go c k.finish)
  /-- The receiver returns with its message. -/
  | rcvStored {c : ℕ} {m : MqMsg} {code : ℤ} (hp : q.pc c=.rcvGot m) (hcode : code= -efault ∨ code=m.mTs) :
    CallCase q (q.go c (.rcvDone code (some m)))

variable {q : MqQueue pf} {c msgLen : ℕ} {nonblock : Bool} {timeout lookup : Option Errno}

theorem mqTimedsend_case {msgPrio : ℕ} {load : Option Errno} (hp : q.pc c=.idle) :
    CallCase q (q.go c (mqTimedsend q c msgPrio msgLen nonblock timeout lookup load)) := by
  unfold mqTimedsend
  cases timeout with
  | some err => exact .sndRefused hp
  | none =>
    dsimp only
    split
    · exact .sndRefused hp
    · cases lookup with
      | some err => exact .sndRefused hp
      | none =>
        dsimp only
        split
        · exact .sndRefused hp
        · next hsize =>
          split
          · exact .sndRefused hp
          · next hneg =>
            cases load with
            | some err => exact .sndRefused hp
            | none =>
              have h0 : 0≤toInt msgLen := not_lt.mp hneg
              have h1 : toInt msgLen≤pf.toSize q.attr.msgsize :=
                le_trans (toInt_le h0) (by omega)
              generalize toInt msgLen=mTs at h0 h1 ⊢
              exact .sndLoaded hp rfl h0 h1

theorem mqTimedreceive_case (hp : q.pc c=.idle) :
    CallCase q (q.go c (mqTimedreceive q msgLen nonblock timeout lookup)) := by
  unfold mqTimedreceive
  cases timeout with
  | some err => exact .rcvRefused hp err.neg
  | none =>
    cases lookup with
    | some err => exact .rcvRefused hp err.neg
    | none =>
      dsimp only
      split
      · exact .rcvRefused hp (by decide)
      · exact .rcvCalled hp

/-- What mq_timedsend does with the lock held. -/
theorem sndLock_case {m : MqMsg} (hp : q.pc c=.sndReady m nonblock) (hlock : q.lock=none) :
    CallCase q (sndLock q c m nonblock) := by
  unfold sndLock
  split
  · next hfull =>
    split
    · exact .sndAgain hp
    · exact .sndSlept hp hlock hfull
  · next hroom =>
    split
    · next r hr => exact .sndHanded hp hlock hr
    · next hr => exact .sndInserted hp hlock hroom hr

/-- What mq_timedreceive does with the lock held. -/
theorem rcvLock_case (hp : q.pc c=.rcvReady nonblock) (hlock : q.lock=none) : CallCase q (rcvLock q c nonblock) := by
  unfold rcvLock MqQueue.msgGet
  split
  · next hempty =>
    split
    · exact .rcvAgain hp
    · exact .rcvSlept hp hlock hempty
  · next hmore =>
    cases hm : q.messages.slots (q.curmsgs-1) with
    | none => exact .rcvUnset hp hlock hmore hm
    | some m =>
      dsimp only
      split
      · next s hs => exact .rcvServed hp hlock hmore hm hs
      · next hs => exact .rcvTook hp hlock hmore hm hs

/-- What wq_sleep does with the lock held again. -/
theorem wqRelock_case {w : Waiter} {signal timedout : Bool} (hp : q.pc c=.relock w) (hlock : q.lock=none) :
    CallCase q (wqRelock q c w signal timedout) := by
  unfold wqRelock
  split
  · next hstate => exact .wqReturned (.inr hp) hstate
  · next hstate =>
    split
    · exact .wqCancelled hp hlock hstate (by decide)
    · split
      · exact .wqCancelled hp hlock hstate (by decide)
      · exact .wqSleptAgain hp

theorem mqCallStep_cases {q' : MqQueue pf} {e : MqCall} (h : MqCallNext q e q') : CallCase q q' := by
  unfold MqCallNext at h
  cases e with
  | mqTimedsend c msgPrio msgLen nonblock timeout lookup load =>
    cases hp : q.pc c with
    | idle =>
      simp only [mqCallStep,hp,Option.some.injEq] at h
      exact h ▸ mqTimedsend_case hp
    | _ => simp [mqCallStep,hp] at h
  | sndLock c =>
    cases hp : q.pc c with
    | sndReady m nonblock =>
      simp only [mqCallStep,hp] at h
      split at h
      · next hlock => exact Option.some.inj h ▸ sndLock_case hp hlock
      · cases h
    | _ => simp [mqCallStep,hp] at h
  | mqTimedreceive c msgLen nonblock timeout lookup =>
    cases hp : q.pc c with
    | idle =>
      simp only [mqCallStep,hp,Option.some.injEq] at h
      exact h ▸ mqTimedreceive_case hp
    | _ => simp [mqCallStep,hp] at h
  | rcvLock c =>
    cases hp : q.pc c with
    | rcvReady nonblock =>
      simp only [mqCallStep,hp] at h
      split at h
      · next hlock => exact Option.some.inj h ▸ rcvLock_case hp hlock
      · cases h
    | _ => simp [mqCallStep,hp] at h
  | wqRead c =>
    cases hp : q.pc c with
    | asleep w =>
      simp only [mqCallStep,hp] at h
      split at h
      · exact Option.some.inj h ▸ .wqSpun
      · next hstate => exact Option.some.inj h ▸ .wqReturned (.inl hp) hstate
      · exact Option.some.inj h ▸ .wqSawNone hp
    | _ => simp [mqCallStep,hp] at h
  | wqRelock c signal timedout =>
    cases hp : q.pc c with
    | relock w =>
      simp only [mqCallStep,hp] at h
      split at h
      · next hlock => exact Option.some.inj h ▸ wqRelock_case hp hlock
      · cases h
    | _ => simp [mqCallStep,hp] at h
  | wqReady c =>
    cases hp : q.pc c with
    | waking k x =>
      simp only [mqCallStep,hp,Option.some.injEq] at h
      exact h ▸ .wqReady hp
    | _ => simp [mqCallStep,hp] at h
  | rcvStore c fault =>
    cases hp : q.pc c with
    | rcvGot m =>
      simp only [mqCallStep,hp] at h
      split at h
      · exact Option.some.inj h ▸ .rcvStored hp (.inl rfl)
      · exact Option.some.inj h ▸ .rcvStored hp (.inr rfl)
    | _ => simp [mqCallStep,hp] at h

end BlockIpc.MqueueProtocol
