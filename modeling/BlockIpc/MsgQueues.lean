import BlockIpc.KernelNumbers
import BlockIpc.TransitionRuns

/-!
# System V message queues

One queue and the calls msgsnd, msgrcv and msgctl on it, on a 64-bit machine. A call is a number
that is used once, and a message is known by its sender. The spinlock is held from one step to the
next only while a task writes to receivers that sleep, because these read their entry without the
lock: an entry becomes NULL, then the sleeper is woken, then the final value is written.
Everything else under the lock is one step. Permission checks, security hooks, allocations and
copies are arguments of the steps, and a sleeping task may go on at any time.
-/

namespace BlockIpc.MsgQueues

open KernelNumbers TransitionRuns

/-- The value an unsigned long holds after an integer is assigned to it. -/
def word (x : ℤ) : ℕ := (x%2^64).toNat

inductive SearchMode where
  | any
  | equal
  | notequal
  | lessequal
  deriving DecidableEq

structure MsgMsg where
  /-- The call that sends it. -/
  sender : ℕ
  mType : ℤ
  mTs : ℤ
  deriving DecidableEq

/-- The pointer r_msg of a receiver. -/
inductive RMsg where
  | null
  /-- An error pointer. -/
  | err (code : ℤ)
  | msg (m : MsgMsg)
  deriving DecidableEq

structure MsgReceiver where
  rMode : SearchMode
  rMsgtype : ℤ
  rMaxsize : ℤ
  rMsg : RMsg

/-- The arguments of a msgrcv call. -/
structure RcvArgs where
  /-- Size of the user's buffer. -/
  msgsz : ℕ
  /-- The type asked for. -/
  msgtyp : ℤ
  except : Bool
  noerror : Bool
  nowait : Bool
  deriving DecidableEq

/-- The commands that write to receivers. -/
inductive MsgCmd where
  | set
  | rmid
  deriving DecidableEq

/-- The value that expunge_all stores. -/
def MsgCmd.res : MsgCmd → ℤ
  | .set => -eagain
  | .rmid => -eidrm

/-- Progress of a call. -/
inductive MsgPc where
  /-- Not called yet. -/
  | idle
  /-- In do_msgsnd at the head of the loop, about to take the lock. -/
  | sndReady (m : MsgMsg) (msgsz : ℕ) (nowait : Bool)
  /-- In do_msgsnd in schedule. -/
  | sndAsleep (m : MsgMsg) (msgsz : ℕ) (nowait : Bool)
  /-- In pipelined_send, with the receivers that are left. -/
  | sndScan (m : MsgMsg) (msgsz : ℕ) (rest : List ℕ)
  /-- In pipelined_send between the two writes to a receiver. -/
  | sndWrite (m : MsgMsg) (msgsz : ℕ) (r : ℕ) (rest : List ℕ)
  /-- msgsnd has returned; the message is none if there was not any yet. -/
  | sndDone (m : Option MsgMsg) (code : ℤ)
  /-- In do_msgrcv at the head of the loop, about to take the lock. -/
  | rcvReady (args : RcvArgs)
  /-- In do_msgrcv in schedule or at the read of r_msg without the lock. -/
  | rcvAsleep (args : RcvArgs)
  /-- In do_msgrcv after the read, about to take the lock. -/
  | rcvRelock (args : RcvArgs)
  /-- In do_msgrcv with a message. -/
  | rcvGot (args : RcvArgs) (m : MsgMsg)
  /-- msgrcv has returned, with the message it obtained. -/
  | rcvDone (args : RcvArgs) (code : ℤ) (got : Option MsgMsg)
  /-- msgrcv has used a NULL pointer. -/
  | rcvFault (args : RcvArgs)
  /-- In expunge_all, with the receivers that are left. -/
  | ctlExpunge (cmd : MsgCmd) (rest : List ℕ)
  /-- In expunge_all between the two writes to a receiver. -/
  | ctlWrite (cmd : MsgCmd) (r : ℕ) (rest : List ℕ)
  /-- In freeque after the queue was removed. -/
  | freeing
  /-- msgctl has returned. -/
  | ctlDone (code : ℤ)
  deriving DecidableEq

/-- The part of a namespace that its queues share. -/
structure MsgNs where
  msgCtlmax : ℤ
  msgCtlmnb : ℤ
  /-- msg_bytes, an atomic int. -/
  msgBytes : ℤ
  /-- msg_hdrs, an atomic int. -/
  msgHdrs : ℤ

structure MsgQueue where
  qMessages : List MsgMsg
  qReceivers : List ℕ
  qSenders : List ℕ
  qCbytes : ℕ
  qQnum : ℕ
  qQbytes : ℕ
  /-- The call that holds the lock from one step to the next. -/
  lock : Option ℕ
  /-- q_perm.deleted. -/
  deleted : Bool
  /-- Whether freeque has finished. -/
  freed : Bool
  msr : ℕ → MsgReceiver
  /-- Progress of every call. -/
  pc : ℕ → MsgPc
  /-- The messages that IPC_RMID has discarded. -/
  discarded : List MsgMsg
  /-- Whether a sender was woken since it was linked. -/
  woken : ℕ → Bool

/-- Advance a call. -/
def MsgQueue.go (q : MsgQueue) (c : ℕ) (pc : MsgPc) : MsgQueue := {q with pc := Function.update q.pc c pc}

/-- Write the pointer of a receiver. -/
def MsgQueue.setMsg (q : MsgQueue) (r : ℕ) (x : RMsg) : MsgQueue :=
  {q with msr := Function.update q.msr r {q.msr r with rMsg := x}}

/-- Whether a message is of the type that a receiver searches for. -/
def testmsg (m : MsgMsg) (type : ℤ) : SearchMode → Bool
  | .any => true
  | .lessequal => decide (m.mType≤type)
  | .equal => decide (m.mType=type)
  | .notequal => decide (m.mType≠type)

/-- Type and mode of a search. The negation of LONG_MIN is LONG_MIN. -/
def convertMode (msgtyp : ℤ) (except : Bool) : ℤ×SearchMode :=
  if msgtyp=0 then (msgtyp,.any)
  else if msgtyp<0 then ((-msgtyp).bmod (2^64),.lessequal)
  else if except=true then (msgtyp,.notequal)
  else (msgtyp,.equal)

/-- The type that a msgrcv call searches for. -/
def RcvArgs.type (args : RcvArgs) : ℤ := (convertMode args.msgtyp args.except).1

/-- The mode in which a msgrcv call searches. -/
def RcvArgs.mode (args : RcvArgs) : SearchMode := (convertMode args.msgtyp args.except).2

/-- The search of do_msgrcv. The type sinks while messages of less type are found. -/
def scanMessages (mode : SearchMode) (deny : MsgMsg → ℤ → Bool) : ℤ → Option MsgMsg → List MsgMsg → Option MsgMsg
  | _,found,[] => found
  | msgtyp,found,walkMsg::rest =>
    if testmsg walkMsg msgtyp mode=true ∧ deny walkMsg msgtyp=false then
      if mode=.lessequal ∧ walkMsg.mType≠1 then
        scanMessages mode deny (walkMsg.mType-1) (some walkMsg) rest
      else some walkMsg
    else scanMessages mode deny msgtyp found rest

/-- Whether the queue has room for a message. -/
def MsgQueue.hasRoom (q : MsgQueue) (msgsz : ℕ) : Bool :=
  decide (word (msgsz+q.qCbytes)≤q.qQbytes ∧ word (1+q.qQnum)≤q.qQbytes)

/-- ss_wakeup without kill. -/
def MsgQueue.ssWakeup (q : MsgQueue) : MsgQueue :=
  {q with woken := fun c => if c∈q.qSenders then true else q.woken c}

def MsgQueue.ssAdd (q : MsgQueue) (c : ℕ) : MsgQueue :=
  {q with qSenders := q.qSenders++[c], woken := Function.update q.woken c false}

def MsgQueue.ssDel (q : MsgQueue) (c : ℕ) : MsgQueue := {q with qSenders := q.qSenders.erase c}

/-- The loop of do_msgsnd with the lock held, up to pipelined_send. -/
def sndLoop (q : MsgQueue) (c : ℕ) (m : MsgMsg) (msgsz : ℕ) (nowait : Bool) (refused : Option Errno) : MsgQueue :=
  match refused with
  | some err => q.go c (.sndDone (some m) err.code)
  | none =>
    if q.hasRoom msgsz then {q with lock := some c}.go c (.sndScan m msgsz q.qReceivers)
    else if nowait=true then q.go c (.sndDone (some m) (-eagain))
    else (q.ssAdd c).go c (.sndAsleep m msgsz nowait)

/-- The message is put on the queue. -/
def MsgQueue.enqueue (q : MsgQueue) (m : MsgMsg) (msgsz : ℕ) : MsgQueue :=
  {q with qMessages := q.qMessages++[m], qCbytes := word (q.qCbytes+msgsz), qQnum := word (q.qQnum+1)}

/-- A message is taken from the queue and the senders are woken. -/
def MsgQueue.dequeue (q : MsgQueue) (m : MsgMsg) : MsgQueue :=
  {q with qMessages := q.qMessages.erase m, qQnum := word (q.qQnum-1), qCbytes := word (q.qCbytes-m.mTs)}.ssWakeup

/-- A message is counted in the namespace. -/
def MsgNs.add (n : MsgNs) (msgsz : ℤ) : MsgNs :=
  {n with msgBytes := toInt (n.msgBytes+msgsz), msgHdrs := toInt (n.msgHdrs+1)}

/-- A message is not counted in the namespace any more. -/
def MsgNs.sub (n : MsgNs) (mTs : ℤ) : MsgNs :=
  {n with msgBytes := toInt (n.msgBytes-mTs), msgHdrs := toInt (n.msgHdrs-1)}

/-- The largest message that a sleeping receiver takes. -/
def RcvArgs.maxsize (args : RcvArgs) : ℤ := if args.noerror=true then intMax else args.msgsz

/-- A receiver links its entry. -/
def MsgQueue.link (q : MsgQueue) (c : ℕ) (args : RcvArgs) : MsgQueue :=
  {q with
    qReceivers := q.qReceivers++[c]
    msr := Function.update q.msr c ⟨args.mode,args.type,args.maxsize,.err (-eagain)⟩}

/-- A receiver unlinks its entry. -/
def MsgQueue.unlink (q : MsgQueue) (r : ℕ) : MsgQueue := {q with qReceivers := q.qReceivers.erase r}

/-- The loop of do_msgrcv with the lock held, up to schedule. -/
def rcvLoop (n : MsgNs) (q : MsgQueue) (c : ℕ) (args : RcvArgs) (refused : Bool)
    (deny : MsgMsg → ℤ → Bool) : MsgNs×MsgQueue :=
  if refused=true then (n,q.go c (.rcvDone args (-eacces) none))
  else
    match scanMessages args.mode deny args.type none q.qMessages with
    | some m =>
      if args.msgsz < m.mTs ∧ args.noerror=false then (n,q.go c (.rcvDone args (-e2big) none))
      else (n.sub m.mTs,(q.dequeue m).go c (.rcvGot args m))
    | none =>
      if args.nowait=true then (n,q.go c (.rcvDone args (-enomsg) none))
      else (n,(q.link c args).go c (.rcvAsleep args))

/-- The senders are woken and their entries cut, and the queue is removed. -/
def MsgQueue.rmid (q : MsgQueue) : MsgQueue := {q.ssWakeup with qSenders := [], deleted := true}

/-- What happens to a queue. -/
inductive MsgEvent where
  /-- A write to the sysctl files msgmax and msgmnb. -/
  | sysctl (ctlmax ctlmnb : ℤ)
  /-- msgsnd up to the message being loaded, or the error of load_msg. -/
  | msgsnd (c : ℕ) (mtype : ℤ) (msgsz : ℕ) (nowait : Bool) (load : Option Errno)
  /-- The sender takes the lock, or does not find the queue. -/
  | sndLock (c : ℕ) (lookup refused : Option Errno)
  /-- The sender looks at the next receiver; deny is the answer of the security hook. -/
  | sndScan (c : ℕ) (deny : Bool)
  /-- The sender writes the final value to a receiver. -/
  | sndWrite (c : ℕ)
  /-- A sender that slept takes the lock again. -/
  | sndRelock (c : ℕ) (signal : Bool) (refused : Option Errno)
  | msgrcv (c : ℕ) (args : RcvArgs)
  /-- The receiver takes the lock, or does not find the queue. -/
  | rcvLock (c : ℕ) (lookup : Option Errno) (refused : Bool) (deny : MsgMsg → ℤ → Bool)
  /-- A receiver that slept reads its entry without the lock. -/
  | rcvRead (c : ℕ)
  /-- A receiver that slept takes the lock. -/
  | rcvRelock (c : ℕ) (signal refused : Bool) (deny : MsgMsg → ℤ → Bool)
  /-- A receiver stores its message for the user and frees it. -/
  | rcvStore (c : ℕ) (fault : Bool)
  /-- IPC_SET takes the lock, or is refused. -/
  | ipcSet (c : ℕ) (qbytes : ℕ) (capable : Bool) (refused : Option Errno)
  /-- IPC_RMID takes the lock, or is refused. -/
  | ipcRmid (c : ℕ) (refused : Option Errno)
  /-- expunge_all writes NULL to the next receiver, or ends. -/
  | expunge (c : ℕ)
  /-- expunge_all writes the final value to a receiver. -/
  | expungeWrite (c : ℕ)
  /-- freeque frees the next message, or ends. -/
  | free (c : ℕ)

/-- The entry of msgsnd. -/
def msgsnd (n : MsgNs) (q : MsgQueue) (c : ℕ) (mtype : ℤ) (msgsz : ℕ) (nowait : Bool)
    (load : Option Errno) : MsgQueue :=
  if word n.msgCtlmax < msgsz ∨ 2^63 ≤ msgsz ∨ mtype<1 ∨ toInt msgsz<0 then q.go c (.sndDone none (-einval))
  else
    match load with
    | some err => q.go c (.sndDone none err.code)
    | none => q.go c (.sndReady ⟨c,mtype,toInt msgsz⟩ msgsz nowait)

/-- pipelined_send looks at the next receiver. After the last one the message is
put on the queue. -/
def sndScan (n : MsgNs) (q : MsgQueue) (c : ℕ) (m : MsgMsg) (msgsz : ℕ) (rest : List ℕ) (deny : Bool) :
    MsgNs×MsgQueue :=
  match rest with
  | [] => (n.add msgsz,{q.enqueue m msgsz with lock := none}.go c (.sndDone (some m) 0))
  | r::rest =>
    if testmsg m (q.msr r).rMsgtype (q.msr r).rMode=true ∧ deny=false then
      (n,((q.unlink r).setMsg r .null).go c (.sndWrite m msgsz r rest))
    else (n,q.go c (.sndScan m msgsz rest))

/-- pipelined_send writes the final value. A receiver whose buffer is too small gets
an error and the search goes on; any other one gets the message. -/
def sndWrite (q : MsgQueue) (c : ℕ) (m : MsgMsg) (msgsz r : ℕ) (rest : List ℕ) : MsgQueue :=
  if (q.msr r).rMaxsize < m.mTs then (q.setMsg r (.err (-e2big))).go c (.sndScan m msgsz rest)
  else {q.setMsg r (.msg m) with lock := none}.go c (.sndDone (some m) 0)

/-- A receiver that slept reads its entry without the lock; NULL makes it read again. -/
def rcvRead (q : MsgQueue) (c : ℕ) (args : RcvArgs) : MsgQueue :=
  match (q.msr c).rMsg with
  | .null => q
  | .err code => if code= -eagain then q.go c (.rcvRelock args) else q.go c (.rcvDone args code none)
  | .msg m => q.go c (.rcvGot args m)

/-- A receiver that slept reads its entry with the lock held. -/
def rcvRelock (n : MsgNs) (q : MsgQueue) (c : ℕ) (args : RcvArgs) (signal refused : Bool)
    (deny : MsgMsg → ℤ → Bool) : MsgNs×MsgQueue :=
  match (q.msr c).rMsg with
  | .null => (n,q.go c (.rcvFault args))
  | .err code =>
    if code= -eagain then
      if signal=true then (n,(q.unlink c).go c (.rcvDone args (-erestartnohand) none))
      else rcvLoop n ((q.unlink c).go c (.rcvReady args)) c args refused deny
    else (n,q.go c (.rcvDone args code none))
  | .msg m => (n,q.go c (.rcvGot args m))

/-- expunge_all ends; IPC_SET wakes the senders and IPC_RMID removes the queue. -/
def expungeEnd (q : MsgQueue) (c : ℕ) : MsgCmd → MsgQueue
  | .set => {q.ssWakeup with lock := none}.go c (.ctlDone 0)
  | .rmid => {q.rmid with lock := none}.go c .freeing

def msgStep (n : MsgNs) (q : MsgQueue) : MsgEvent → Option (MsgNs×MsgQueue)
  | .sysctl ctlmax ctlmnb => some ({n with msgCtlmax := ctlmax, msgCtlmnb := ctlmnb},q)
  | .msgsnd c mtype msgsz nowait load =>
    match q.pc c with
    | .idle => some (n,msgsnd n q c mtype msgsz nowait load)
    | _ => none
  | .sndLock c lookup refused =>
    match q.pc c with
    | .sndReady m msgsz nowait =>
      match lookup with
      | some err => some (n,q.go c (.sndDone (some m) err.code))
      | none =>
        if q.lock=none ∧ q.deleted=false then some (n,sndLoop q c m msgsz nowait refused) else none
    | _ => none
  | .sndScan c deny =>
    match q.pc c with
    | .sndScan m msgsz rest => some (sndScan n q c m msgsz rest deny)
    | _ => none
  | .sndWrite c =>
    match q.pc c with
    | .sndWrite m msgsz r rest => some (n,sndWrite q c m msgsz r rest)
    | _ => none
  | .sndRelock c signal refused =>
    match q.pc c with
    | .sndAsleep m msgsz nowait =>
      if q.lock=none then
        if q.deleted=true then some (n,q.go c (.sndDone (some m) (-eidrm)))
        else if signal=true then some (n,(q.ssDel c).go c (.sndDone (some m) (-erestartnohand)))
        else some (n,sndLoop ((q.ssDel c).go c (.sndReady m msgsz nowait)) c m msgsz nowait refused)
      else none
    | _ => none
  | .msgrcv c args =>
    match q.pc c with
    | .idle =>
      if 2^63≤args.msgsz then some (n,q.go c (.rcvDone args (-einval) none))
      else some (n,q.go c (.rcvReady args))
    | _ => none
  | .rcvLock c lookup refused deny =>
    match q.pc c with
    | .rcvReady args =>
      match lookup with
      | some err => some (n,q.go c (.rcvDone args err.code none))
      | none => if q.lock=none ∧ q.deleted=false then some (rcvLoop n q c args refused deny) else none
    | _ => none
  | .rcvRead c =>
    match q.pc c with
    | .rcvAsleep args => some (n,rcvRead q c args)
    | _ => none
  | .rcvRelock c signal refused deny =>
    match q.pc c with
    | .rcvRelock args => if q.lock=none then some (rcvRelock n q c args signal refused deny) else none
    | _ => none
  | .rcvStore c fault =>
    match q.pc c with
    | .rcvGot args m =>
      if fault=true then some (n,q.go c (.rcvDone args (-efault) (some m)))
      else some (n,q.go c (.rcvDone args (min args.msgsz m.mTs) (some m)))
    | _ => none
  | .ipcSet c qbytes capable refused =>
    match q.pc c with
    | .idle =>
      match refused with
      | some err => some (n,q.go c (.ctlDone err.code))
      | none =>
        if q.lock=none ∧ q.deleted=false ∧ qbytes<2^64 then
          if word n.msgCtlmnb<qbytes ∧ capable=false then some (n,q.go c (.ctlDone (-eperm)))
          else some (n,{q with qQbytes := qbytes, lock := some c}.go c (.ctlExpunge .set q.qReceivers))
        else none
    | _ => none
  | .ipcRmid c refused =>
    match q.pc c with
    | .idle =>
      match refused with
      | some err => some (n,q.go c (.ctlDone err.code))
      | none =>
        if q.lock=none ∧ q.deleted=false then
          some (n,{q with lock := some c}.go c (.ctlExpunge .rmid q.qReceivers))
        else none
    | _ => none
  | .expunge c =>
    match q.pc c with
    | .ctlExpunge cmd [] => some (n,expungeEnd q c cmd)
    | .ctlExpunge cmd (r::rest) => some (n,(q.setMsg r .null).go c (.ctlWrite cmd r rest))
    | _ => none
  | .expungeWrite c =>
    match q.pc c with
    | .ctlWrite cmd r rest => some (n,(q.setMsg r (.err cmd.res)).go c (.ctlExpunge cmd rest))
    | _ => none
  | .free c =>
    match q.pc c with
    | .freeing =>
      match q.qMessages with
      | m::rest =>
        some ({n with msgHdrs := toInt (n.msgHdrs-1)},{q with qMessages := rest, discarded := m::q.discarded})
      | [] =>
        some ({n with msgBytes := toInt (n.msgBytes-q.qCbytes)},{q with freed := true}.go c (.ctlDone 0))
    | _ => none

structure QueueStart (n : MsgNs) (q : MsgQueue) : Prop where
  messages : q.qMessages=[]
  /-- Nobody waits. -/
  receivers : q.qReceivers=[]
  /-- Nobody waits to send. -/
  senders : q.qSenders=[]
  cbytes : q.qCbytes=0
  qnum : q.qQnum=0
  /-- q_qbytes is the limit of the namespace. -/
  qbytes : q.qQbytes=word n.msgCtlmnb
  lock : q.lock=none
  live : q.deleted=false
  kept : q.freed=false
  /-- No call has started. -/
  idle : ∀ c, q.pc c=.idle
  discarded : q.discarded=[]

/-- The queue that newque creates. -/
def newque (n : MsgNs) : MsgQueue :=
  ⟨[],[],[],0,0,word n.msgCtlmnb,none,false,false,fun _ => ⟨.any,0,0,.null⟩,fun _ => .idle,[],fun _ => false⟩

theorem newque_start (n : MsgNs) : QueueStart n (newque n) := ⟨rfl,rfl,rfl,rfl,rfl,rfl,rfl,rfl,rfl,fun _ => rfl,rfl⟩

/-- A queue and its namespace. -/
structure MsgSys where
  ns : MsgNs
  msq : MsgQueue

/-- Initial states: a new queue. -/
def MsgStart (s : MsgSys) : Prop := QueueStart s.ns s.msq

/-- One step of the queue and its namespace. -/
def msgSysStep (s : MsgSys) (e : MsgEvent) : Option MsgSys := (msgStep s.ns s.msq e).map (fun p => ⟨p.1,p.2⟩)

/-- One step as a relation. -/
def MsgNext (s : MsgSys) (e : MsgEvent) (s' : MsgSys) : Prop := msgSysStep s e=some s'

/-- States of all runs. -/
def MsgReachable (s : MsgSys) : Prop := Reachable MsgStart MsgNext s

variable {mode : SearchMode} {deny : MsgMsg → ℤ → Bool} {l : List MsgMsg} {msgtyp : ℤ} {found : Option MsgMsg}

/-- A message that the search finds is in the queue and of the type asked for. -/
theorem scanMessages_eq_some {m : MsgMsg} (h : scanMessages mode deny msgtyp found l=some m) :
    found=some m ∨ (m∈l ∧ testmsg m msgtyp mode=true) := by
  induction l generalizing msgtyp found with
  | nil => exact .inl h
  | cons walkMsg rest ih =>
    unfold scanMessages at h
    split at h
    · next hpass =>
      split at h
      · next hless =>
        rcases ih h with he|⟨hm,ht⟩
        · cases he
          exact .inr ⟨List.mem_cons_self,hpass.1⟩
        · have hwalk := hpass.1
          rw [hless.1] at ht hwalk ⊢
          simp only [testmsg,decide_eq_true_eq] at ht hwalk ⊢
          exact .inr ⟨List.mem_cons_of_mem _ hm,by omega⟩
      · cases h
        exact .inr ⟨List.mem_cons_self,hpass.1⟩
    · rcases ih h with he|⟨hm,ht⟩
      · exact .inl he
      · exact .inr ⟨List.mem_cons_of_mem _ hm,ht⟩

/-- If the search finds nothing, every message of the type asked for is denied. -/
theorem scanMessages_eq_none (h : scanMessages mode deny msgtyp found l=none) :
    found=none ∧ ∀ m∈l, testmsg m msgtyp mode=true → deny m msgtyp=true := by
  induction l generalizing msgtyp found with
  | nil => exact ⟨h,fun m hm => by cases hm⟩
  | cons walkMsg rest ih =>
    unfold scanMessages at h
    split at h
    · split at h
      · cases (ih h).1
      · cases h
    · next hfail =>
      obtain ⟨hf,hrest⟩ := ih h
      refine ⟨hf,fun m hm ht => ?_⟩
      rcases List.mem_cons.mp hm with he|hm
      · subst he
        by_contra hd
        exact hfail ⟨ht,by simpa using hd⟩
      · exact hrest m hm ht

/-- What the loop of do_msgsnd can do. -/
inductive SndOutcome (q : MsgQueue) (c : ℕ) (m : MsgMsg) (msgsz : ℕ) : MsgQueue → Prop
  | failed {code : ℤ} (h : code<0) : SndOutcome q c m msgsz (q.go c (.sndDone (some m) code))
  /-- There is room and the receivers are searched. -/
  | began (h : q.hasRoom msgsz=true) :
    SndOutcome q c m msgsz ({q with lock := some c}.go c (.sndScan m msgsz q.qReceivers))
  /-- There is no room and the sender sleeps. -/
  | slept {nowait : Bool} (h : q.hasRoom msgsz=false) :
    SndOutcome q c m msgsz ((q.ssAdd c).go c (.sndAsleep m msgsz nowait))

theorem sndLoop_outcome (q : MsgQueue) (c : ℕ) (m : MsgMsg) (msgsz : ℕ) (nowait : Bool)
    (refused : Option Errno) : SndOutcome q c m msgsz (sndLoop q c m msgsz nowait refused) := by
  unfold sndLoop
  cases refused with
  | some err => exact .failed err.neg
  | none =>
    dsimp only
    split
    · next h => exact .began h
    · next h =>
      split
      · exact .failed (by decide)
      · exact .slept (by simpa using h)

/-- What the loop of do_msgrcv can do. -/
inductive RcvOutcome (n : MsgNs) (q : MsgQueue) (c : ℕ) (args : RcvArgs) (deny : MsgMsg → ℤ → Bool) :
    MsgNs → MsgQueue → Prop
  | failed {code : ℤ} : RcvOutcome n q c args deny n (q.go c (.rcvDone args code none))
  | took {m : MsgMsg} (hm : m∈q.qMessages) (ht : testmsg m args.type args.mode=true)
    (hs : args.noerror=true ∨ m.mTs≤args.msgsz) :
    RcvOutcome n q c args deny (n.sub m.mTs) ((q.dequeue m).go c (.rcvGot args m))
  /-- The receiver sleeps. -/
  | linked (hnone : ∀ m∈q.qMessages, testmsg m args.type args.mode=true → deny m args.type=true) :
    RcvOutcome n q c args deny n ((q.link c args).go c (.rcvAsleep args))

theorem rcvLoop_outcome (n : MsgNs) (q : MsgQueue) (c : ℕ) (args : RcvArgs) (refused : Bool)
    (deny : MsgMsg → ℤ → Bool) :
    RcvOutcome n q c args deny (rcvLoop n q c args refused deny).1 (rcvLoop n q c args refused deny).2 := by
  unfold rcvLoop
  split
  · exact .failed
  · split
    · next m hm =>
      have hfound := scanMessages_eq_some hm
      simp only [reduceCtorEq,false_or] at hfound
      split
      · exact .failed
      · next hsize =>
        refine .took hfound.1 hfound.2 ?_
        by_cases hn : args.noerror=true
        · exact .inl hn
        · refine .inr (not_lt.mp (fun hlt => hsize ⟨hlt,?_⟩))
          simpa using hn
    · next hm =>
      split
      · exact .failed
      · exact .linked (scanMessages_eq_none hm).2

inductive MsgCase (n : MsgNs) (q : MsgQueue) : MsgEvent → MsgNs → MsgQueue → Prop
  /-- Limits change. -/
  | sysctl {ctlmax ctlmnb : ℤ} :
    MsgCase n q (.sysctl ctlmax ctlmnb) {n with msgCtlmax := ctlmax, msgCtlmnb := ctlmnb} q
  /-- msgsnd fails before there is a message. -/
  | sndRefused {c msgsz : ℕ} {mtype code : ℤ} {nowait : Bool} {load : Option Errno} (hp : q.pc c=.idle)
    (h : code<0) : MsgCase n q (.msgsnd c mtype msgsz nowait load) n (q.go c (.sndDone none code))
  /-- msgsnd has loaded its message. -/
  | sndLoaded {c msgsz : ℕ} {mtype : ℤ} {nowait : Bool} {load : Option Errno} (hp : q.pc c=.idle)
    (hmax : msgsz≤word n.msgCtlmax) (hlong : msgsz<2^63) (hlen : 0≤toInt msgsz) :
    MsgCase n q (.msgsnd c mtype msgsz nowait load) n
      (q.go c (.sndReady ⟨c,mtype,toInt msgsz⟩ msgsz nowait))
  /-- The sender does not find the queue. -/
  | sndLost {c msgsz : ℕ} {m : MsgMsg} {nowait : Bool} {lookup refused : Option Errno} {code : ℤ}
    (hp : q.pc c=.sndReady m msgsz nowait) (h : code<0) :
    MsgCase n q (.sndLock c lookup refused) n (q.go c (.sndDone (some m) code))
  /-- The sender runs the loop for the first time. -/
  | sndLocked {c msgsz : ℕ} {m : MsgMsg} {nowait : Bool} {lookup refused : Option Errno} {q' : MsgQueue}
    (hp : q.pc c=.sndReady m msgsz nowait) (hlock : q.lock=none) (hlive : q.deleted=false)
    (ho : SndOutcome q c m msgsz q') : MsgCase n q (.sndLock c lookup refused) n q'
  /-- The message is put on the queue. -/
  | sndEnqueued {c msgsz : ℕ} {m : MsgMsg} {deny : Bool} (hp : q.pc c=.sndScan m msgsz []) :
    MsgCase n q (.sndScan c deny) (n.add msgsz)
      ({q.enqueue m msgsz with lock := none}.go c (.sndDone (some m) 0))
  /-- A receiver waits for the message. -/
  | sndMatched {c msgsz r : ℕ} {m : MsgMsg} {rest : List ℕ} {deny : Bool}
    (hp : q.pc c=.sndScan m msgsz (r::rest)) (ht : testmsg m (q.msr r).rMsgtype (q.msr r).rMode=true) :
    MsgCase n q (.sndScan c deny) n (((q.unlink r).setMsg r .null).go c (.sndWrite m msgsz r rest))
  /-- A receiver does not wait for the message, or may not have it. -/
  | sndSkipped {c msgsz r : ℕ} {m : MsgMsg} {rest : List ℕ} {deny : Bool}
    (hp : q.pc c=.sndScan m msgsz (r::rest))
    (ht : testmsg m (q.msr r).rMsgtype (q.msr r).rMode=true → deny=true) :
    MsgCase n q (.sndScan c deny) n (q.go c (.sndScan m msgsz rest))
  /-- The buffer of the receiver is too small. -/
  | sndTooBig {c msgsz r : ℕ} {m : MsgMsg} {rest : List ℕ} (hp : q.pc c=.sndWrite m msgsz r rest)
    (hbig : (q.msr r).rMaxsize < m.mTs) :
    MsgCase n q (.sndWrite c) n ((q.setMsg r (.err (-e2big))).go c (.sndScan m msgsz rest))
  /-- The receiver gets the message. -/
  | sndHanded {c msgsz r : ℕ} {m : MsgMsg} {rest : List ℕ} (hp : q.pc c=.sndWrite m msgsz r rest)
    (hfit : m.mTs≤(q.msr r).rMaxsize) :
    MsgCase n q (.sndWrite c) n ({q.setMsg r (.msg m) with lock := none}.go c (.sndDone (some m) 0))
  /-- The queue was removed while the sender slept. -/
  | sndRemoved {c msgsz : ℕ} {m : MsgMsg} {nowait signal : Bool} {refused : Option Errno}
    (hp : q.pc c=.sndAsleep m msgsz nowait) (hdeleted : q.deleted=true) :
    MsgCase n q (.sndRelock c signal refused) n (q.go c (.sndDone (some m) (-eidrm)))
  /-- The sender was interrupted. -/
  | sndSignalled {c msgsz : ℕ} {m : MsgMsg} {nowait signal : Bool} {refused : Option Errno}
    (hp : q.pc c=.sndAsleep m msgsz nowait) (hlock : q.lock=none) :
    MsgCase n q (.sndRelock c signal refused) n ((q.ssDel c).go c (.sndDone (some m) (-erestartnohand)))
  /-- The sender runs the loop again. -/
  | sndRetried {c msgsz : ℕ} {m : MsgMsg} {nowait signal : Bool} {refused : Option Errno} {q' : MsgQueue}
    (hp : q.pc c=.sndAsleep m msgsz nowait) (hlock : q.lock=none) (hlive : q.deleted=false)
    (ho : SndOutcome ((q.ssDel c).go c (.sndReady m msgsz nowait)) c m msgsz q') :
    MsgCase n q (.sndRelock c signal refused) n q'
  /-- msgrcv refuses its arguments. -/
  | rcvRefused {c : ℕ} {args : RcvArgs} {code : ℤ} (hp : q.pc c=.idle) :
    MsgCase n q (.msgrcv c args) n (q.go c (.rcvDone args code none))
  /-- msgrcv starts. -/
  | rcvCalled {c : ℕ} {args : RcvArgs} (hp : q.pc c=.idle) :
    MsgCase n q (.msgrcv c args) n (q.go c (.rcvReady args))
  /-- The receiver does not find the queue. -/
  | rcvLost {c : ℕ} {args : RcvArgs} {lookup : Option Errno} {refused : Bool} {deny : MsgMsg → ℤ → Bool}
    {code : ℤ} (hp : q.pc c=.rcvReady args) :
    MsgCase n q (.rcvLock c lookup refused deny) n (q.go c (.rcvDone args code none))
  /-- The receiver runs the loop for the first time. -/
  | rcvLocked {c : ℕ} {args : RcvArgs} {lookup : Option Errno} {refused : Bool} {deny : MsgMsg → ℤ → Bool}
    {n' : MsgNs} {q' : MsgQueue} (hp : q.pc c=.rcvReady args) (hlock : q.lock=none)
    (hlive : q.deleted=false) (ho : RcvOutcome n q c args deny n' q') :
    MsgCase n q (.rcvLock c lookup refused deny) n' q'
  /-- The receiver reads NULL and reads again. -/
  | rcvSpun {c : ℕ} : MsgCase n q (.rcvRead c) n q
  /-- The receiver has nothing yet. -/
  | rcvSawAgain {c : ℕ} {args : RcvArgs} (hp : q.pc c=.rcvAsleep args) :
    MsgCase n q (.rcvRead c) n (q.go c (.rcvRelock args))
  /-- The receiver accepts an error without the lock. -/
  | rcvSawErr {c : ℕ} {args : RcvArgs} {code : ℤ} (hp : q.pc c=.rcvAsleep args)
    (hm : (q.msr c).rMsg=.err code) (hcode : code≠ -eagain) :
    MsgCase n q (.rcvRead c) n (q.go c (.rcvDone args code none))
  /-- The receiver accepts a message without the lock. -/
  | rcvSawMsg {c : ℕ} {args : RcvArgs} {m : MsgMsg} (hp : q.pc c=.rcvAsleep args)
    (hm : (q.msr c).rMsg=.msg m) : MsgCase n q (.rcvRead c) n (q.go c (.rcvGot args m))
  /-- The receiver reads NULL with the lock held. -/
  | rcvNull {c : ℕ} {args : RcvArgs} {signal refused : Bool} {deny : MsgMsg → ℤ → Bool}
    (hp : q.pc c=.rcvRelock args) (hlock : q.lock=none) (hm : (q.msr c).rMsg=.null) :
    MsgCase n q (.rcvRelock c signal refused deny) n (q.go c (.rcvFault args))
  /-- The receiver accepts an error with the lock held. -/
  | rcvErr {c : ℕ} {args : RcvArgs} {signal refused : Bool} {deny : MsgMsg → ℤ → Bool} {code : ℤ}
    (hp : q.pc c=.rcvRelock args) (hm : (q.msr c).rMsg=.err code) (hcode : code≠ -eagain) :
    MsgCase n q (.rcvRelock c signal refused deny) n (q.go c (.rcvDone args code none))
  /-- The receiver accepts a message with the lock held. -/
  | rcvMsg {c : ℕ} {args : RcvArgs} {signal refused : Bool} {deny : MsgMsg → ℤ → Bool} {m : MsgMsg}
    (hp : q.pc c=.rcvRelock args) (hm : (q.msr c).rMsg=.msg m) :
    MsgCase n q (.rcvRelock c signal refused deny) n (q.go c (.rcvGot args m))
  /-- The receiver was interrupted. -/
  | rcvSignalled {c : ℕ} {args : RcvArgs} {signal refused : Bool} {deny : MsgMsg → ℤ → Bool}
    (hp : q.pc c=.rcvRelock args) (hlock : q.lock=none) (hm : (q.msr c).rMsg=.err (-eagain)) :
    MsgCase n q (.rcvRelock c signal refused deny) n
      ((q.unlink c).go c (.rcvDone args (-erestartnohand) none))
  /-- The receiver runs the loop again. -/
  | rcvRetried {c : ℕ} {args : RcvArgs} {signal refused : Bool} {deny : MsgMsg → ℤ → Bool} {n' : MsgNs}
    {q' : MsgQueue} (hp : q.pc c=.rcvRelock args) (hlock : q.lock=none) (hm : (q.msr c).rMsg=.err (-eagain))
    (ho : RcvOutcome n ((q.unlink c).go c (.rcvReady args)) c args deny n' q') :
    MsgCase n q (.rcvRelock c signal refused deny) n' q'
  /-- The receiver returns with its message. -/
  | rcvStored {c : ℕ} {args : RcvArgs} {m : MsgMsg} {fault : Bool} {code : ℤ} (hp : q.pc c=.rcvGot args m) :
    MsgCase n q (.rcvStore c fault) n (q.go c (.rcvDone args code (some m)))
  | ctlRefused {e : MsgEvent} {c : ℕ} {code : ℤ} (hp : q.pc c=.idle) :
    MsgCase n q e n (q.go c (.ctlDone code))
  /-- IPC_SET starts. -/
  | setBegan {c qbytes : ℕ} {capable : Bool} {refused : Option Errno} (hp : q.pc c=.idle)
    (hlock : q.lock=none) (hlive : q.deleted=false) (hword : qbytes<2^64) :
    MsgCase n q (.ipcSet c qbytes capable refused) n
      ({q with qQbytes := qbytes, lock := some c}.go c (.ctlExpunge .set q.qReceivers))
  /-- IPC_RMID starts. -/
  | rmidBegan {c : ℕ} {refused : Option Errno} (hp : q.pc c=.idle) (hlock : q.lock=none)
    (hlive : q.deleted=false) :
    MsgCase n q (.ipcRmid c refused) n ({q with lock := some c}.go c (.ctlExpunge .rmid q.qReceivers))
  /-- expunge_all writes NULL. -/
  | expunged {c r : ℕ} {cmd : MsgCmd} {rest : List ℕ} (hp : q.pc c=.ctlExpunge cmd (r::rest)) :
    MsgCase n q (.expunge c) n ((q.setMsg r .null).go c (.ctlWrite cmd r rest))
  /-- expunge_all writes the final value. -/
  | expungeWrote {c r : ℕ} {cmd : MsgCmd} {rest : List ℕ} (hp : q.pc c=.ctlWrite cmd r rest) :
    MsgCase n q (.expungeWrite c) n ((q.setMsg r (.err cmd.res)).go c (.ctlExpunge cmd rest))
  | setEnded {c : ℕ} (hp : q.pc c=.ctlExpunge .set []) :
    MsgCase n q (.expunge c) n ({q.ssWakeup with lock := none}.go c (.ctlDone 0))
  /-- IPC_RMID removes the queue. -/
  | rmidEnded {c : ℕ} (hp : q.pc c=.ctlExpunge .rmid []) :
    MsgCase n q (.expunge c) n ({q.rmid with lock := none}.go c .freeing)
  /-- A message is discarded. -/
  | freedMsg {c : ℕ} {m : MsgMsg} {rest : List MsgMsg} (hp : q.pc c=.freeing) (hm : q.qMessages=m::rest) :
    MsgCase n q (.free c) {n with msgHdrs := toInt (n.msgHdrs-1)}
      {q with qMessages := rest, discarded := m::q.discarded}
  /-- freeque ends. -/
  | freedAll {c : ℕ} (hp : q.pc c=.freeing) (hm : q.qMessages=[]) :
    MsgCase n q (.free c) {n with msgBytes := toInt (n.msgBytes-q.qCbytes)}
      ({q with freed := true}.go c (.ctlDone 0))

section

variable {n n' : MsgNs} {q q' : MsgQueue} {c : ℕ}

theorem msgsnd_case {mtype : ℤ} {msgsz : ℕ} {nowait : Bool} {load : Option Errno}
    (h : msgStep n q (.msgsnd c mtype msgsz nowait load)=some (n',q')) :
    MsgCase n q (.msgsnd c mtype msgsz nowait load) n' q' := by
  cases hp : q.pc c with
  | idle =>
    simp only [msgStep,hp,msgsnd] at h
    split at h
    · cases h
      exact .sndRefused hp (by decide)
    · next hok =>
      simp only [not_or,not_lt,not_le] at hok
      cases load with
      | some err =>
        cases h
        exact .sndRefused hp err.neg
      | none =>
        cases h
        exact .sndLoaded hp hok.1 hok.2.1 hok.2.2.2
  | _ => simp [msgStep,hp] at h

variable {lookup refused : Option Errno} {signal : Bool} {deny : MsgMsg → ℤ → Bool}

/-- A sender takes the lock. -/
theorem sndLock_case (h : msgStep n q (.sndLock c lookup refused)=some (n',q')) :
    MsgCase n q (.sndLock c lookup refused) n' q' := by
  cases hp : q.pc c with
  | sndReady m msgsz nowait =>
    simp only [msgStep,hp] at h
    cases lookup with
    | some err =>
      cases h
      exact .sndLost hp err.neg
    | none =>
      obtain ⟨hfree,⟨⟩⟩ := of_guard h
      exact .sndLocked hp hfree.1 hfree.2 (sndLoop_outcome q c m msgsz nowait refused)
  | _ => simp [msgStep,hp] at h

/-- A sender looks at a receiver. -/
theorem sndScan_case {deny : Bool}
    (h : msgStep n q (.sndScan c deny)=some (n',q')) : MsgCase n q (.sndScan c deny) n' q' := by
  cases hp : q.pc c with
  | sndScan m msgsz rest =>
    simp only [msgStep,hp] at h
    cases rest with
    | nil =>
      cases h
      exact .sndEnqueued hp
    | cons r rest =>
      simp only [sndScan] at h
      split at h
      · next hpass =>
        cases h
        exact .sndMatched hp hpass.1
      · next hfail =>
        cases h
        refine .sndSkipped hp (fun ht => ?_)
        by_contra hd
        exact hfail ⟨ht,by simpa using hd⟩
  | _ => simp [msgStep,hp] at h

/-- A sender was woken. -/
theorem sndRelock_case (h : msgStep n q (.sndRelock c signal refused)=some (n',q')) :
    MsgCase n q (.sndRelock c signal refused) n' q' := by
  cases hp : q.pc c with
  | sndAsleep m msgsz nowait =>
    simp only [msgStep,hp] at h
    obtain ⟨hlock,h⟩ := Option.ite_none_right_eq_some.mp h
    split at h
    · next hdeleted =>
      cases h
      exact .sndRemoved hp hdeleted
    · next hlive =>
      split at h
      · cases h
        exact .sndSignalled hp hlock
      · cases h
        exact .sndRetried hp hlock (by simpa using hlive) (sndLoop_outcome _ c m msgsz nowait refused)
  | _ => simp [msgStep,hp] at h

/-- A receiver takes the lock. -/
theorem rcvLock_case {refused : Bool} (h : msgStep n q (.rcvLock c lookup refused deny)=some (n',q')) :
    MsgCase n q (.rcvLock c lookup refused deny) n' q' := by
  cases hp : q.pc c with
  | rcvReady args =>
    simp only [msgStep,hp] at h
    cases lookup with
    | some err =>
      cases h
      exact .rcvLost hp
    | none =>
      obtain ⟨hfree,h⟩ := Option.ite_none_right_eq_some.mp h
      have ho := rcvLoop_outcome n q c args refused deny
      rw [Option.some.inj h] at ho
      exact .rcvLocked hp hfree.1 hfree.2 ho
  | _ => simp [msgStep,hp] at h

/-- A receiver reads its pointer without the lock. -/
theorem rcvRead_case (h : msgStep n q (.rcvRead c)=some (n',q')) : MsgCase n q (.rcvRead c) n' q' := by
  cases hp : q.pc c with
  | rcvAsleep args =>
    simp only [msgStep,hp,rcvRead] at h
    split at h
    · cases h
      exact .rcvSpun
    · next code hm =>
      split at h
      · cases h
        exact .rcvSawAgain hp
      · next hcode =>
        cases h
        exact .rcvSawErr hp hm hcode
    · next m hm =>
      cases h
      exact .rcvSawMsg hp hm
  | _ => simp [msgStep,hp] at h

/-- A receiver takes the lock again. -/
theorem rcvRelock_case {refused : Bool} (h : msgStep n q (.rcvRelock c signal refused deny)=some (n',q')) :
    MsgCase n q (.rcvRelock c signal refused deny) n' q' := by
  cases hp : q.pc c with
  | rcvRelock args =>
    simp only [msgStep,hp] at h
    obtain ⟨hlock,h⟩ := Option.ite_none_right_eq_some.mp h
    simp only [rcvRelock] at h
    split at h
    · next hm =>
      cases h
      exact .rcvNull hp hlock hm
    · next code hm =>
      split at h
      · next hcode =>
        subst hcode
        split at h
        · cases h
          exact .rcvSignalled hp hlock hm
        · have ho := rcvLoop_outcome n ((q.unlink c).go c (.rcvReady args)) c args refused deny
          rw [Option.some.inj h] at ho
          exact .rcvRetried hp hlock hm ho
      · next hcode =>
        cases h
        exact .rcvErr hp hm hcode
    · next m hm =>
      cases h
      exact .rcvMsg hp hm
  | _ => simp [msgStep,hp] at h

theorem ipcSet_case {qbytes : ℕ} {capable : Bool} (h : msgStep n q (.ipcSet c qbytes capable refused)=some (n',q')) :
    MsgCase n q (.ipcSet c qbytes capable refused) n' q' := by
  cases hp : q.pc c with
  | idle =>
    simp only [msgStep,hp] at h
    cases refused with
    | some err =>
      cases h
      exact .ctlRefused hp
    | none =>
      obtain ⟨hfree,h⟩ := Option.ite_none_right_eq_some.mp h
      split at h
      · cases h
        exact .ctlRefused hp
      · cases h
        exact .setBegan hp hfree.1 hfree.2.1 hfree.2.2
  | _ => simp [msgStep,hp] at h

theorem ipcRmid_case (h : msgStep n q (.ipcRmid c refused)=some (n',q')) : MsgCase n q (.ipcRmid c refused) n' q' := by
  cases hp : q.pc c with
  | idle =>
    simp only [msgStep,hp] at h
    cases refused with
    | some err =>
      cases h
      exact .ctlRefused hp
    | none =>
      obtain ⟨hfree,⟨⟩⟩ := of_guard h
      exact .rmidBegan hp hfree.1 hfree.2
  | _ => simp [msgStep,hp] at h

/-- A walk over the receivers. -/
theorem expunge_case (h : msgStep n q (.expunge c)=some (n',q')) : MsgCase n q (.expunge c) n' q' := by
  cases hp : q.pc c with
  | ctlExpunge cmd rest =>
    simp only [msgStep,hp] at h
    cases rest with
    | nil =>
      cases cmd with
      | set =>
        cases h
        exact .setEnded hp
      | rmid =>
        cases h
        exact .rmidEnded hp
    | cons r rest =>
      cases h
      exact .expunged hp
  | _ => simp [msgStep,hp] at h

theorem msgStep_cases {e : MsgEvent} (h : msgStep n q e=some (n',q')) : MsgCase n q e n' q' := by
  cases e with
  | sysctl ctlmax ctlmnb =>
    cases h
    exact .sysctl
  | msgsnd c mtype msgsz nowait load => exact msgsnd_case h
  | sndLock c lookup refused => exact sndLock_case h
  | sndScan c deny => exact sndScan_case h
  | sndWrite c =>
    cases hp : q.pc c with
    | sndWrite m msgsz r rest =>
      simp only [msgStep,hp,sndWrite] at h
      split at h
      · next hbig =>
        cases h
        exact .sndTooBig hp hbig
      · next hfit =>
        cases h
        exact .sndHanded hp (not_lt.mp hfit)
    | _ => simp [msgStep,hp] at h
  | sndRelock c signal refused => exact sndRelock_case h
  | msgrcv c args =>
    cases hp : q.pc c with
    | idle =>
      simp only [msgStep,hp] at h
      split at h
      · cases h
        exact .rcvRefused hp
      · cases h
        exact .rcvCalled hp
    | _ => simp [msgStep,hp] at h
  | rcvLock c lookup refused deny => exact rcvLock_case h
  | rcvRead c => exact rcvRead_case h
  | rcvRelock c signal refused deny => exact rcvRelock_case h
  | rcvStore c fault =>
    cases hp : q.pc c with
    | rcvGot args m =>
      simp only [msgStep,hp] at h
      split at h <;> cases h <;> exact .rcvStored hp
    | _ => simp [msgStep,hp] at h
  | ipcSet c qbytes capable refused => exact ipcSet_case h
  | ipcRmid c refused => exact ipcRmid_case h
  | expunge c => exact expunge_case h
  | expungeWrite c =>
    cases hp : q.pc c with
    | ctlWrite cmd r rest =>
      simp only [msgStep,hp] at h
      cases h
      exact .expungeWrote hp
    | _ => simp [msgStep,hp] at h
  | free c =>
    cases hp : q.pc c with
    | freeing =>
      simp only [msgStep,hp] at h
      split at h
      · next m rest hm =>
        cases h
        exact .freedMsg hp hm
      · next hm =>
        cases h
        exact .freedAll hp hm
    | _ => simp [msgStep,hp] at h

end

end BlockIpc.MsgQueues
