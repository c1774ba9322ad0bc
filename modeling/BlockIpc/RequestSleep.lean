import BlockIpc.KernelNumbers
import BlockIpc.TransitionRuns

/-!
# Sleeping for a request

A queue has a limit of requests for each of two classes, synchronous and asynchronous. A task
that may wait sleeps when it gets no request, and the release of a request wakes one task. The
locked parts of the allocation, the release and the change of the limit are single steps, and the
allocation of memory, which is done without the lock, lies between two of them.
-/

namespace BlockIpc.RequestSleep

open Function List KernelNumbers TransitionRuns

/-- What elv_may_queue answers. -/
inductive MayQueue where
  /-- ELV_MQUEUE_MAY. -/
  | may
  /-- ELV_MQUEUE_NO. -/
  | no
  /-- ELV_MQUEUE_MUST. -/
  | must
  deriving DecidableEq

/-- The batching data of an io_context. -/
structure Ioc (w : ℕ) where
  /-- nr_batch_requests. -/
  batch : ℤ
  lastWaited : BitVec w

/-- An allocated request: its class and whether it has data of the scheduler. -/
structure Rq where
  /-- rq_is_sync. -/
  sync : Bool
  /-- REQ_ELVPRIV. -/
  priv : Bool
  deriving DecidableEq

/-- A call that asks for a request. -/
structure Call where
  task : ℕ
  /-- rw_is_sync. -/
  sync : Bool
  /-- blk_rq_should_init_elevator. -/
  init : Bool
  /-- The call is one of get_request_wait. -/
  waits : Bool
  deriving DecidableEq

/-- A call that is in blk_alloc_request. -/
structure Alloc where
  call : Call
  /-- priv of get_request. -/
  priv : Bool
  /-- ioc of get_request. -/
  ioc : Option ℕ
  deriving DecidableEq

/-- The request list of a queue and the tasks that use it. -/
structure Queue (w : ℕ) where
  /-- nr_requests. -/
  nr : BitVec w
  congestionOn : ℤ
  count : Bool → ℤ
  starved : Bool → Bool
  /-- QUEUE_FLAG_SYNCFULL and QUEUE_FLAG_ASYNCFULL. -/
  full : Bool → Bool
  elvpriv : ℤ
  /-- QUEUE_FLAG_ELVSWITCH. -/
  elvswitch : Bool
  /-- The wait queues, in the order the tasks were added. -/
  wait : Bool → List Call
  /-- The calls that were woken and have not retried, and whether they set batching. -/
  woken : List (Call × Bool)
  /-- The allocations in progress. -/
  allocating : List Alloc
  requests : List Rq
  /-- The io_contexts. -/
  iocs : ℕ → Ioc w
  jiffies : BitVec w

variable {w : ℕ}

def blkdevMinRq : ℕ := 4

def blkdevMaxRq : ℕ := 128

def blkBatchReq : ℤ := 32

/-- The most requests of a class: three halves of the limit, in the arithmetic of an
unsigned long. -/
def batchLimit (nr : BitVec w) : ℕ := (3*nr/2).toNat

/-- The first threshold of blk_queue_congestion_threshold, which is computed in an int. -/
def congestionThreshold (nr : BitVec w) : ℤ :=
  let n := (nr-nr/8+1).setWidth 32
  if nr<n.signExtend w then (nr.setWidth 32).toInt else n.toInt

def iocBatching (hz : ℕ) (s : Queue w) : Option ℕ → Bool
  | none => false
  | some i => decide ((s.iocs i).batch=blkBatchReq) ||
      (decide (0<(s.iocs i).batch) && timeBefore s.jiffies ((s.iocs i).lastWaited+BitVec.ofNat w (hz/50)))

def Queue.setIoc (s : Queue w) (i : ℕ) (x : Ioc w) : Queue w := {s with iocs := update s.iocs i x}

def iocSetBatching (hz : ℕ) (s : Queue w) : Option ℕ → Queue w
  | none => s
  | some i => if iocBatching hz s (some i) then s else s.setIoc i ⟨blkBatchReq,s.jiffies⟩

def Queue.setFull (s : Queue w) (sync b : Bool) : Queue w := {s with full := update s.full sync b}

/-- Add to the count of a class. -/
def Queue.addCount (s : Queue w) (sync : Bool) (n : ℤ) : Queue w :=
  {s with count := update s.count sync (s.count sync+n)}

def Queue.setStarved (s : Queue w) (sync b : Bool) : Queue w := {s with starved := update s.starved sync b}

def Queue.setAllocating (s : Queue w) (l : List Alloc) : Queue w := {s with allocating := l}

def Queue.setRequests (s : Queue w) (l : List Rq) : Queue w := {s with requests := l}

def Queue.setWoken (s : Queue w) (l : List (Call × Bool)) : Queue w := {s with woken := l}

/-- wake_up on a wait queue of exclusive waiters. -/
def wakeUp (s : Queue w) (sync : Bool) : Queue w :=
  match s.wait sync with
  | [] => s
  | c::cs => {s with wait := update s.wait sync cs, woken := (c,false)::s.woken}

/-- __freed_request, without the mark of congestion. -/
def freedClass (s : Queue w) (sync : Bool) : Queue w :=
  if s.count sync+1≤(s.nr.toNat : ℤ) then (wakeUp s sync).setFull sync false else s

def freedRequest (s : Queue w) (sync priv : Bool) : Queue w :=
  let s := s.addCount sync (-1)
  let s := if priv then {s with elvpriv := s.elvpriv-1} else s
  let s := freedClass s sync
  if s.starved !sync then freedClass s !sync else s

/-- The label rq_starved of get_request. -/
def rqStarved (s : Queue w) (sync : Bool) : Queue w := if s.count sync=0 then s.setStarved sync true else s

/-- The end of the locked part of get_request. -/
def takeRequest (s : Queue w) (c : Call) (ioc : Option ℕ) : Queue w × Option Alloc :=
  if (batchLimit s.nr : ℤ)≤ s.count c.sync then (s,none)
  else
    let s := (s.addCount c.sync 1).setStarved c.sync false
    let priv := c.init && !s.elvswitch
    (if priv then {s with elvpriv := s.elvpriv+1} else s,some ⟨c,priv,ioc⟩)

/-- The locked part of get_request, with what elv_may_queue and current_io_context return. -/
def getRequest (hz : ℕ) (s : Queue w) (c : Call) (mq : MayQueue) (ioc : Option ℕ) : Queue w × Option Alloc :=
  if mq=.no then (rqStarved s c.sync,none)
  else if s.congestionOn ≤ s.count c.sync+1 ∧ (s.nr.toNat : ℤ)≤ s.count c.sync+1 then
    if !s.full c.sync then takeRequest ((iocSetBatching hz s ioc).setFull c.sync true) c ioc
    else if mq≠.must ∧ iocBatching hz s ioc=false then (s,none)
    else takeRequest s c ioc
  else takeRequest s c none

/-- prepare_to_wait_exclusive. -/
def sleepOn (s : Queue w) (c : Call) : Queue w := {s with wait := update s.wait c.sync (s.wait c.sync++[c])}

/-- What a call does after get_request gave back the lock, or did not. -/
def afterGet (out : Queue w × Option Alloc) (c : Call) : Queue w :=
  match out.2 with
  | some a => out.1.setAllocating (a::out.1.allocating)
  | none => if c.waits then sleepOn out.1 c else out.1

/-- The end of get_request when blk_alloc_request succeeded. -/
def allocated (hz : ℕ) (s : Queue w) (a : Alloc) : Queue w :=
  let s := s.setRequests (⟨a.call.sync,a.priv⟩::s.requests)
  match a.ioc with
  | some i =>
    if iocBatching hz s a.ioc then s.setIoc i {s.iocs i with batch := (s.iocs i).batch-1} else s
  | none => s

/-- The end of get_request when blk_alloc_request failed, and the sleep of the caller. -/
def allocFailed (s : Queue w) (a : Alloc) : Queue w :=
  afterGet (rqStarved (freedRequest s a.call.sync a.priv) a.call.sync,none) a.call

/-- queue_requests_store for one class, without the marks of congestion. -/
def storeClass (s : Queue w) (sync : Bool) : Queue w :=
  if (s.nr.toNat : ℤ)≤ s.count sync then s.setFull sync true else wakeUp (s.setFull sync false) sync

/-- The value that queue_requests_store writes. -/
def storedNr (nr : BitVec w) : BitVec w := if nr.toNat<blkdevMinRq then BitVec.ofNat w blkdevMinRq else nr

def Queue.setNr (s : Queue w) (nr : BitVec w) : Queue w := {s with nr := nr, congestionOn := congestionThreshold nr}

def queueRequestsStore (s : Queue w) (nr : BitVec w) : Queue w :=
  storeClass (storeClass (s.setNr (storedNr nr)) true) false

/-- What can happen. -/
inductive Event (w : ℕ) where
  /-- A task asks for a request. -/
  | call (c : Call) (mq : MayQueue) (ioc : Option ℕ)
  /-- A task that was woken becomes a batching one. -/
  | batch (c : Call) (ioc : Option ℕ)
  /-- A task that was woken asks again. -/
  | retry (c : Call) (mq : MayQueue) (ioc : Option ℕ)
  /-- blk_alloc_request returns. -/
  | alloc (a : Alloc) (ok : Bool)
  | release (rq : Rq)
  /-- A value is written to nr_requests. -/
  | store (nr : BitVec w)
  /-- A switch of the scheduler begins or ends. -/
  | elvswitch (b : Bool)
  /-- An io_context is changed by another queue. -/
  | ioc (i : ℕ) (x : Ioc w)
  /-- Time passes. -/
  | tick (n : BitVec w)

/-- The task is not in another call. -/
def Queue.Free (s : Queue w) (task : ℕ) : Prop :=
  (∀ b, ∀ c∈s.wait b, c.task≠task) ∧ (∀ c∈s.woken, c.1.task≠task) ∧ ∀ a∈s.allocating, a.call.task≠task

instance (s : Queue w) (task : ℕ) : Decidable (s.Free task) := inferInstanceAs (Decidable (_ ∧ _))

/-- One event. The schedulers of the block layer never answer ELV_MQUEUE_NO. The memory of
a request of a task that may wait is always found, so that its allocation fails only when
elv_set_request does. -/
def sleepStep (hz : ℕ) (s : Queue w) : Event w → Option (Queue w)
  | .call c mq ioc => if s.Free c.task ∧ mq≠.no then some (afterGet (getRequest hz s c mq ioc) c) else none
  | .batch c ioc =>
    if (c,false)∈s.woken then
      some ((iocSetBatching hz s ioc).setWoken ((c,true)::s.woken.erase (c,false)))
    else none
  | .retry c mq ioc =>
    if (c,true)∈s.woken ∧ mq≠.no then
      some (afterGet (getRequest hz (s.setWoken (s.woken.erase (c,true))) c mq ioc) c)
    else none
  | .alloc a ok =>
    if a∈s.allocating ∧ (ok=true ∨ a.priv=true ∨ a.call.waits=false) then
      let s := s.setAllocating (s.allocating.erase a)
      some (if ok then allocated hz s a else allocFailed s a)
    else none
  | .release rq =>
    if rq∈s.requests then some (freedRequest (s.setRequests (s.requests.erase rq)) rq.sync rq.priv) else none
  | .store nr => some (queueRequestsStore s nr)
  | .elvswitch b => some {s with elvswitch := b}
  | .ioc i x => some (s.setIoc i x)
  | .tick n => some {s with jiffies := s.jiffies+n}

/-- A queue as it is initialised. -/
def Start (s : Queue w) : Prop :=
  s.nr=BitVec.ofNat w blkdevMaxRq ∧ s.congestionOn=congestionThreshold s.nr ∧ s.count=(fun _ => 0) ∧
    s.starved=(fun _ => false) ∧ s.full=(fun _ => false) ∧ s.elvpriv=0 ∧ s.elvswitch=false ∧
    s.wait=(fun _ => []) ∧ s.woken=[] ∧ s.allocating=[] ∧ s.requests=[]

/-- The states of a queue when its lock is free. -/
def SleepRun (hz : ℕ) : Queue w → Prop := Reachable Start (fun s e t => sleepStep hz s e=some t)

/-- A call of a class was woken and has not retried. -/
def Queue.Woken (s : Queue w) (b : Bool) : Prop := ∃ c∈s.woken, c.1.sync=b

/-- The events after which nobody can be stranded: the scheduler does not refuse the data
of a task that may wait while the queue has no other request and nobody else of the class
sleeps or was woken, and no value is written whose three halves vanish. -/
def Careful (s : Queue w) : Event w → Prop
  | .alloc a ok => ok=true ∨ a.call.waits=false ∨ 1<s.count false+s.count true ∨ s.wait a.call.sync≠[] ∨
      s.Woken a.call.sync
  | .store nr => batchLimit (storedNr nr)≠0
  | _ => True

instance (s : Queue w) : (e : Event w) → Decidable (Careful s e)
  | .alloc a ok =>
    inferInstanceAs (Decidable (ok=true ∨ a.call.waits=false ∨ 1<s.count false+s.count true ∨
      s.wait a.call.sync≠[] ∨ ∃ c∈s.woken, c.1.sync=a.call.sync))
  | .store nr => inferInstanceAs (Decidable (batchLimit (storedNr nr)≠0))
  | .call .. | .batch .. | .retry .. | .release .. | .elvswitch .. | .ioc .. | .tick .. => isTrue trivial

def carefulStep (hz : ℕ) (s : Queue w) (e : Event w) : Option (Queue w) :=
  if Careful s e then sleepStep hz s e else none

/-- The states of a queue that only careful events reach. -/
def CarefulRun (hz : ℕ) : Queue w → Prop := Reachable Start (fun s e t => carefulStep hz s e=some t)

/-- The requests of a class, allocated or being allocated. -/
def Queue.used (s : Queue w) (sync : Bool) : ℕ :=
  s.requests.countP (fun rq => rq.sync==sync)+s.allocating.countP (fun a => a.call.sync==sync)

section

variable {hz : ℕ} {s t : Queue w} {b : Bool} {c : Call} {a : Alloc}

/-- If somebody sleeps in a class, a release of the class or of the other one will notice,
or somebody was woken. -/
def Noticed (s : Queue w) (b : Bool) : Prop := 0<s.count b ∨ s.Woken b ∨ (s.starved b=true ∧ 0<s.count !b)

/-- The invariant of the request list. A class may have lost a request that it still
counts, and a class may have sleepers that are not noticed. -/
structure SleepInv (lost dozing : Option Bool) (s : Queue w) : Prop where
  /-- The limit is not below its least value. -/
  minimum : blkdevMinRq ≤ s.nr.toNat
  limit : batchLimit s.nr≠0
  /-- A class counts its requests. -/
  counted : ∀ b, s.count b=s.used b+(if lost=some b then 1 else 0)
  /-- Calls wait in their class. -/
  classes : ∀ b, ∀ c∈s.wait b, c.sync=b
  noticed : ∀ b, dozing≠some b → s.wait b≠[] → Noticed s b

variable {lost dozing : Option Bool}

theorem SleepInv.count_nonneg (h : SleepInv lost dozing s) (b : Bool) : 0 ≤ s.count b := by
  rw [h.counted]
  split <;> omega

theorem SleepInv.pos_of_nr (h : SleepInv lost dozing s) {n : ℤ} (hn : s.nr.toNat≤n+1) : 0<n := by
  have hm := h.minimum
  rw [blkdevMinRq] at hm
  omega

/-- Changes of the marks, of the io_contexts and of the scheduler. -/
structure Keeps (s t : Queue w) : Prop where
  /-- The limit stays. -/
  nr : t.nr=s.nr
  count : t.count=s.count
  /-- The starved classes stay. -/
  starved : t.starved=s.starved
  /-- The allocations stay. -/
  allocating : t.allocating=s.allocating
  requests : t.requests=s.requests
  /-- The sleepers stay. -/
  wait : t.wait=s.wait
  /-- Whoever was woken stays so. -/
  woken : t.woken=s.woken

/-- ioc_set_batching changes io_contexts only. -/
theorem iocSetBatching_keeps (s : Queue w) (ioc : Option ℕ) : Keeps s (iocSetBatching hz s ioc) := by
  cases ioc with
  | none => exact ⟨rfl,rfl,rfl,rfl,rfl,rfl,rfl⟩
  | some i =>
    rw [iocSetBatching]
    split
    · exact ⟨rfl,rfl,rfl,rfl,rfl,rfl,rfl⟩
    · exact ⟨rfl,rfl,rfl,rfl,rfl,rfl,rfl⟩

/-- What is kept by a change that wakes tasks. -/
structure Wakes (s t : Queue w) : Prop where
  /-- The limit stays. -/
  nr : t.nr=s.nr
  count : t.count=s.count
  /-- The starved classes stay. -/
  starved : t.starved=s.starved
  /-- The allocations stay. -/
  allocating : t.allocating=s.allocating
  requests : t.requests=s.requests
  /-- Whoever sleeps slept before. -/
  wait : ∀ b, ∀ c∈t.wait b, c∈s.wait b
  /-- Whoever was woken stays so. -/
  woken : ∀ c∈s.woken, c∈t.woken

theorem Wakes.refl (s : Queue w) : Wakes s s := ⟨rfl,rfl,rfl,rfl,rfl,fun _ _ h => h,fun _ h => h⟩

/-- Two such changes. -/
theorem Wakes.trans {u : Queue w} (h : Wakes s t) (h' : Wakes t u) : Wakes s u :=
  ⟨h'.nr.trans h.nr,h'.count.trans h.count,h'.starved.trans h.starved,h'.allocating.trans h.allocating,
    h'.requests.trans h.requests,fun b c hc => h.wait b c (h'.wait b c hc),fun c hc => h'.woken c (h.woken c hc)⟩

theorem Wakes.setFull (s : Queue w) (b f : Bool) : Wakes s (s.setFull b f) :=
  ⟨rfl,rfl,rfl,rfl,rfl,fun _ _ h => h,fun _ h => h⟩

theorem Wakes.wait_nil (h : Wakes s t) (hs : s.wait b=[]) : t.wait b=[] :=
  eq_nil_iff_forall_not_mem.mpr (fun c hc => not_mem_nil (hs ▸ h.wait b c hc))

/-- A class that is noticed stays so. -/
theorem Noticed.mono (h : Noticed s b) (ht : Wakes s t) : Noticed t b := by
  rw [Noticed,ht.count,ht.starved]
  rcases h with h|⟨c,hc,hb⟩|h
  · exact .inl h
  · exact .inr (.inl ⟨c,ht.woken c hc,hb⟩)
  · exact .inr (.inr h)

theorem SleepInv.wakes (h : SleepInv lost dozing s) (ht : Wakes s t) : SleepInv lost dozing t where
  minimum := by rw [ht.nr]; exact h.minimum
  limit := by rw [ht.nr]; exact h.limit
  counted := fun b => by rw [Queue.used,ht.count,ht.allocating,ht.requests]; exact h.counted b
  classes := fun b c hc => h.classes b c (ht.wait b c hc)
  noticed := fun b hb hw => (h.noticed b hb (fun hs => hw (ht.wait_nil hs))).mono ht

/-- Changes that wake nobody. -/
theorem SleepInv.keeps (h : SleepInv lost dozing s) (ht : Keeps s t) : SleepInv lost dozing t :=
  h.wakes ⟨ht.nr,ht.count,ht.starved,ht.allocating,ht.requests,fun b => by simp [ht.wait],by simp [ht.woken]⟩

theorem Queue.Woken.mono (h : s.Woken b) (ht : Wakes s t) : t.Woken b :=
  h.elim (fun c hc => ⟨c,ht.woken c hc.1,hc.2⟩)

theorem wakeUp_spec (hc : ∀ c∈s.wait b, c.sync=b) : Wakes s (wakeUp s b) ∧ (s.wait b≠[] → (wakeUp s b).Woken b) := by
  rw [wakeUp]
  split
  · rename_i hw
    exact ⟨.refl s,fun hs => absurd hw hs⟩
  · rename_i c cs hw
    refine ⟨⟨rfl,rfl,rfl,rfl,rfl,fun d x hx => ?_,fun x hx => mem_cons_of_mem _ hx⟩,fun _ => ?_⟩
    · change x∈update s.wait b cs d at hx
      by_cases hd : d=b
      · rw [hd,update_self] at hx
        rw [hd,hw]
        exact mem_cons_of_mem c hx
      · rwa [update_of_ne hd] at hx
    · exact ⟨(c,false),mem_cons_self,hc c (hw ▸ mem_cons_self)⟩

/-- __freed_request wakes a sleeper of a class whose count is below the limit. -/
theorem freedClass_spec (hc : ∀ c∈s.wait b, c.sync=b) :
    Wakes s (freedClass s b) ∧ (s.count b<s.nr.toNat → s.wait b≠[] → (freedClass s b).Woken b) := by
  obtain ⟨hw,hs⟩ := wakeUp_spec hc
  have hf := Wakes.setFull (wakeUp s b) b false
  rw [freedClass]
  split
  · exact ⟨hw.trans hf,fun _ hb => (hs hb).mono hf⟩
  · exact ⟨.refl s,fun hlt => absurd hlt (by omega)⟩

/-- freed_request wakes a sleeper of the class of the request, and of the other one when it
is starved. -/
theorem freedRequest_spec (hc : ∀ b, ∀ c∈s.wait b, c.sync=b) (b priv : Bool) :
    Wakes (s.addCount b (-1)) (freedRequest s b priv) ∧
      ((s.addCount b (-1)).count b<s.nr.toNat → s.wait b≠[] → (freedRequest s b priv).Woken b) ∧
        (s.starved (!b)=true → (s.addCount b (-1)).count (!b)<s.nr.toNat → (freedRequest s b priv).wait (!b)≠[] →
          (freedRequest s b priv).Woken !b) := by
  have hp : ∃ u : Queue w, Wakes (s.addCount b (-1)) u ∧ u.wait=s.wait ∧
      freedRequest s b priv=if (freedClass u b).starved !b then freedClass (freedClass u b) !b else freedClass u b := by
    cases priv with
    | true =>
      exact ⟨{s.addCount b (-1) with elvpriv := s.elvpriv-1},⟨rfl,rfl,rfl,rfl,rfl,fun _ _ h => h,fun _ h => h⟩,rfl,rfl⟩
    | false => exact ⟨_,.refl _,rfl,rfl⟩
  obtain ⟨u,hu,huw,he⟩ := hp
  have hcu : ∀ d, ∀ c∈u.wait d, c.sync=d := fun d c hcd => hc d c (hu.wait d c hcd)
  obtain ⟨h1,hs1⟩ := freedClass_spec (hcu b)
  have hcv : ∀ c∈(freedClass u b).wait !b, c.sync=!b := fun c hcd => hcu _ c (h1.wait _ c hcd)
  obtain ⟨h2,hs2⟩ := freedClass_spec hcv
  have hnr : (freedClass u b).nr=s.nr := h1.nr.trans hu.nr
  have hcount : (freedClass u b).count=(s.addCount b (-1)).count := h1.count.trans hu.count
  have hst : (freedClass u b).starved=s.starved := h1.starved.trans hu.starved
  rw [hnr,hcount] at hs2
  rw [hu.nr,hu.count,huw] at hs1
  rw [he,hst]
  split
  · exact ⟨hu.trans (h1.trans h2),fun hlt hb => (hs1 hlt hb).mono h2,
      fun _ hlt hb => hs2 hlt (fun hn => hb (h2.wait_nil hn))⟩
  · rename_i hn
    exact ⟨hu.trans h1,hs1,fun hs => absurd hs hn⟩

/-- After freed_request the lost request is not counted and all sleepers are noticed. -/
theorem SleepInv.freed (h : SleepInv (some b) none s) (priv : Bool) : SleepInv none none (freedRequest s b priv) := by
  obtain ⟨hw,hb,ho⟩ := freedRequest_spec h.classes b priv
  have hcb : (s.addCount b (-1)).count b=s.count b+(-1) := update_self ..
  have hco : ∀ d, d≠b → (s.addCount b (-1)).count d=s.count d := fun d hd => update_of_ne hd ..
  have hpos : ∀ d, ¬(s.addCount b (-1)).count d<s.nr.toNat → 0<(freedRequest s b priv).count d := by
    intro d hd
    rw [hw.count]
    exact h.pos_of_nr (by omega)
  refine ⟨hw.nr.symm ▸ h.minimum,hw.nr.symm ▸ h.limit,fun d => ?_,fun d c hc => h.classes d c (hw.wait d c hc),
    fun d _ hd => ?_⟩
  · have hused : (freedRequest s b priv).used d=s.used d := by
      rw [Queue.used,hw.allocating,hw.requests]
      rfl
    rw [hw.count,hused,if_neg nofun]
    by_cases hdb : d=b
    · have hk := h.counted b
      rw [if_pos rfl] at hk
      rw [hdb,hcb,hk]
      omega
    · have hk := h.counted d
      rw [if_neg (fun hbd => hdb (Option.some.inj hbd).symm)] at hk
      rw [hco d hdb,hk]
  · by_cases hdb : d=b
    · subst hdb
      by_cases hlt : (s.addCount d (-1)).count d<s.nr.toNat
      · exact .inr (.inl (hb hlt (fun hs => hd (hw.wait_nil hs))))
      · exact .inl (hpos d hlt)
    · have hdn : d=!b := by
        cases d <;> cases b <;> first | rfl | exact absurd rfl hdb
      rcases h.noticed d nofun (fun hs => hd (hw.wait_nil hs)) with hn|⟨c,hc,hcd⟩|⟨hn,_⟩
      · refine .inl ?_
        rw [hw.count,hco d hdb]
        exact hn
      · exact .inr (.inl ⟨c,hw.woken c hc,hcd⟩)
      · by_cases hlt : (s.addCount b (-1)).count d<s.nr.toNat
        · subst hdn
          exact .inr (.inl (ho hn hlt hd))
        · exact .inl (hpos d hlt)

/-- A call may sleep in a class that is noticed. -/
theorem SleepInv.sleep (h : SleepInv lost none s) (hn : Noticed s c.sync) : SleepInv lost none (sleepOn s c) := by
  have hmem : ∀ b, ∀ x∈(sleepOn s c).wait b, x∈s.wait b ∨ (x=c ∧ b=c.sync) := by
    intro b x hx
    change x∈update s.wait c.sync (s.wait c.sync++[c]) b at hx
    by_cases hb : b=c.sync
    · rw [hb,update_self] at hx
      exact (mem_append.mp hx).imp (hb ▸ ·) (fun hx => ⟨mem_singleton.mp hx,hb⟩)
    · rw [update_of_ne hb] at hx
      exact .inl hx
  refine ⟨h.minimum,h.limit,h.counted,fun b x hx => ?_,fun b _ hw => ?_⟩
  · rcases hmem b x hx with hx|⟨rfl,rfl⟩
    · exact h.classes b x hx
    · rfl
  · by_cases hb : b=c.sync
    · exact hb ▸ hn
    · obtain ⟨x,hx⟩ := exists_mem_of_ne_nil _ hw
      have hx' := (hmem b x hx).resolve_right (fun hh => hb hh.2)
      exact h.noticed b nofun (ne_nil_of_mem hx')

/-- One more allocation in the use of a class. -/
theorem used_alloc (hr : t.requests=s.requests) (ha : t.allocating.Perm (a::s.allocating)) (d : Bool) :
    t.used d=s.used d+(if a.call.sync=d then 1 else 0) := by
  rw [Queue.used,Queue.used,ha.countP_eq,countP_cons,hr]
  simp only [beq_iff_eq]
  omega

/-- One more request in the use of a class. -/
theorem used_request {rq : Rq} (hr : t.requests.Perm (rq::s.requests)) (ha : t.allocating=s.allocating) (d : Bool) :
    t.used d=s.used d+(if rq.sync=d then 1 else 0) := by
  rw [Queue.used,Queue.used,hr.countP_eq,countP_cons,ha]
  simp only [beq_iff_eq]
  omega

/-- The end of the locked part of get_request refuses a class that has requests, and counts
the request that it grants. -/
theorem SleepInv.take (h : SleepInv none (some c.sync) s) (ioc : Option ℕ) :
    ((takeRequest s c ioc).2=none → (takeRequest s c ioc).1=s ∧ 0<s.count c.sync) ∧
      ∀ a, (takeRequest s c ioc).2=some a →
        SleepInv none none ((takeRequest s c ioc).1.setAllocating (a::(takeRequest s c ioc).1.allocating)) := by
  rw [takeRequest]
  split
  · rename_i hl
    have hlim := Nat.pos_of_ne_zero h.limit
    exact ⟨fun _ => ⟨rfl,by omega⟩,nofun⟩
  · refine ⟨nofun,fun a ha => ?_⟩
    have hac : a.call=c := by cases ha; rfl
    have hself : ((s.addCount c.sync 1).setStarved c.sync false).count c.sync=s.count c.sync+1 := update_self ..
    have hother : ∀ b, b≠c.sync → ((s.addCount c.sync 1).setStarved c.sync false).count b=s.count b :=
      fun b hb => update_of_ne hb ..
    have hst : ∀ b, b≠c.sync → ((s.addCount c.sync 1).setStarved c.sync false).starved b=s.starved b :=
      fun b hb => update_of_ne hb ..
    have hnn := h.count_nonneg c.sync
    have huse : ∀ b, (((s.addCount c.sync 1).setStarved c.sync false).setAllocating (a::s.allocating)).used b=
        s.used b+(if a.call.sync=b then 1 else 0) := used_alloc rfl (List.Perm.refl _)
    have hi : SleepInv none none (((s.addCount c.sync 1).setStarved c.sync false).setAllocating (a::s.allocating)) := by
      refine ⟨h.minimum,h.limit,fun b => ?_,h.classes,fun b _ hw => ?_⟩
      · have hk := h.counted b
        rw [if_neg nofun] at hk
        rw [if_neg nofun,huse b,hac]
        by_cases hb : b=c.sync
        · rw [hb] at hk ⊢
          rw [if_pos rfl]
          exact hself.trans (by rw [hk]; push_cast; ring)
        · rw [if_neg (Ne.symm hb)]
          exact (hother b hb).trans hk
      · by_cases hb : b=c.sync
        · refine .inl ?_
          rw [hb]
          change 0<((s.addCount c.sync 1).setStarved c.sync false).count c.sync
          omega
        · rcases h.noticed b (fun hs => hb (Option.some.inj hs).symm) hw with hn|hn|⟨hn,hc⟩
          · exact .inl ((hother b hb).symm ▸ hn)
          · exact .inr (.inl hn)
          · refine .inr (.inr ⟨(hst b hb).trans hn,?_⟩)
            have hnb : (!b)=c.sync := by
              revert hb
              cases b <;> cases c.sync <;> decide
            rw [hnb]
            change 0<((s.addCount c.sync 1).setStarved c.sync false).count c.sync
            omega
    dsimp only
    split
    · exact hi.keeps ⟨rfl,rfl,rfl,rfl,rfl,rfl,rfl⟩
    · exact hi

/-- A call of get_request refuses a class that has requests only. -/
theorem SleepInv.get (h : SleepInv none (some c.sync) s) {mq : MayQueue} (hm : mq≠.no) (ioc : Option ℕ) :
    SleepInv none none (afterGet (getRequest hz s c mq ioc) c) := by
  have hsleep : ∀ t : Queue w, SleepInv none (some c.sync) t → 0<t.count c.sync →
    SleepInv none none (afterGet (t,none) c) := by
    intro t ht hpos
    have hi : SleepInv none none t :=
      {ht with noticed := fun b _ hw =>
        if hb : b=c.sync then .inl (hb ▸ hpos) else ht.noticed b (fun hs => hb (Option.some.inj hs).symm) hw}
    rw [afterGet]
    dsimp only
    split
    · exact hi.sleep (.inl hpos)
    · exact hi
  have htake : ∀ (t : Queue w) i, SleepInv none (some c.sync) t →
    SleepInv none none (afterGet (takeRequest t c i) c) := by
    intro t i ht
    obtain ⟨hn,hs⟩ := ht.take i
    cases he : (takeRequest t c i).2 with
    | none =>
      obtain ⟨hsame,hpos⟩ := hn he
      rw [show takeRequest t c i=(t,none) from Prod.ext hsame he]
      exact hsleep t ht hpos
    | some a =>
      rw [afterGet,he]
      exact hs a he
  rw [getRequest,if_neg hm]
  split
  · rename_i hfull
    split
    · exact htake _ ioc ((h.keeps (iocSetBatching_keeps s ioc)).keeps ⟨rfl,rfl,rfl,rfl,rfl,rfl,rfl⟩)
    · split
      · exact hsleep s h (h.pos_of_nr hfull.2)
      · exact htake s ioc h
  · exact htake s none h

theorem SleepInv.doze (h : SleepInv lost none s) (b : Option Bool) : SleepInv lost b s :=
  {h with noticed := fun d _ => h.noticed d nofun}

/-- A request or an allocation that ends is lost until it is not counted any more. -/
theorem SleepInv.lose (h : SleepInv none none s) (ht : t.nr=s.nr ∧ t.count=s.count ∧ t.starved=s.starved ∧
    t.wait=s.wait ∧ t.woken=s.woken) (hu : ∀ d, s.used d=t.used d+(if b=d then 1 else 0)) :
    SleepInv (some b) none t := by
  obtain ⟨hnr,hcount,hst,hwait,hwoken⟩ := ht
  refine ⟨hnr ▸ h.minimum,hnr ▸ h.limit,fun d => ?_,hwait ▸ h.classes,fun d _ => ?_⟩
  · have hk := h.counted d
    rw [if_neg nofun,hu d] at hk
    rw [hcount,hk]
    simp only [Option.some.injEq]
    push_cast
    ring
  · rw [Noticed,Queue.Woken,hwait,hcount,hst,hwoken]
    exact h.noticed d nofun

/-- A failed allocation leaves nobody stranded, unless the caller waits, the queue has no
other request and nobody else of the class sleeps or was woken. -/
theorem SleepInv.allocFailed (h : SleepInv (some a.call.sync) none s)
    (hc : a.call.waits=false ∨ 1<s.count false+s.count true ∨ s.wait a.call.sync≠[] ∨ s.Woken a.call.sync) :
    SleepInv none none (allocFailed s a) := by
  have hf := h.freed a.priv
  obtain ⟨hw,hwake,_⟩ := freedRequest_spec h.classes a.call.sync a.priv
  have hself : (freedRequest s a.call.sync a.priv).count a.call.sync=s.count a.call.sync+(-1) := by
    rw [hw.count]
    exact update_self ..
  have hother : (freedRequest s a.call.sync a.priv).count (!a.call.sync)=s.count !a.call.sync := by
    rw [hw.count]
    exact update_of_ne (Bool.not_ne_self _) ..
  have hsum : s.count false+s.count true=s.count a.call.sync+s.count !a.call.sync := by
    cases a.call.sync
    · rfl
    · exact Int.add_comm ..
  rw [RequestSleep.allocFailed]
  have hkeep : s.Woken a.call.sync → (freedRequest s a.call.sync a.priv).Woken a.call.sync := fun ⟨x,hx,hxs⟩ =>
    ⟨x,hw.woken x hx,hxs⟩
  have hmin := h.minimum
  rw [blkdevMinRq] at hmin
  have hcb : (s.addCount a.call.sync (-1)).count a.call.sync=s.count a.call.sync+(-1) := update_self ..
  rw [hcb] at hwake
  generalize freedRequest s a.call.sync a.priv=u at hf hself hother hwake hkeep
  have hnn := hf.count_nonneg a.call.sync
  have hstar : SleepInv none none (rqStarved u a.call.sync) ∧
      (1<s.count false+s.count true ∨ s.wait a.call.sync≠[] ∨ s.Woken a.call.sync →
        Noticed (rqStarved u a.call.sync) a.call.sync) := by
    rw [rqStarved]
    split
    · rename_i hz
      refine ⟨⟨hf.minimum,hf.limit,hf.counted,hf.classes,fun b _ hb => ?_⟩,fun hlt => ?_⟩
      · rcases hf.noticed b nofun hb with hn|hn|⟨hn,hp⟩
        · exact .inl hn
        · exact .inr (.inl hn)
        · refine .inr (.inr ⟨?_,hp⟩)
          change update u.starved a.call.sync true b=true
          by_cases hba : b=a.call.sync
          · rw [hba,update_self]
          · rw [update_of_ne hba,hn]
      · rcases hlt with hlt|hlt|hlt
        · refine .inr (.inr ⟨update_self ..,?_⟩)
          change 0<u.count !a.call.sync
          omega
        · exact .inr (.inl (hwake (by omega) hlt))
        · exact .inr (.inl (hkeep hlt))
    · exact ⟨hf,fun _ => .inl (by omega)⟩
  rw [afterGet]
  dsimp only
  split
  · rename_i hwt
    exact hstar.1.sleep (hstar.2 (hc.resolve_left (fun hf => absurd (hf.symm.trans hwt) nofun)))
  · exact hstar.1

/-- An allocation that succeeds becomes a request. -/
theorem SleepInv.allocated (h : SleepInv (some a.call.sync) none s) : SleepInv none none (allocated hz s a) := by
  have hi : SleepInv none none (s.setRequests (⟨a.call.sync,a.priv⟩::s.requests)) := by
    refine ⟨h.minimum,h.limit,fun d => ?_,h.classes,h.noticed⟩
    have huse : (s.setRequests (⟨a.call.sync,a.priv⟩::s.requests)).used d=
        s.used d+(if a.call.sync=d then 1 else 0) :=
        used_request (t := s.setRequests (⟨a.call.sync,a.priv⟩::s.requests)) (List.Perm.refl _) rfl d
    rw [if_neg nofun,huse]
    refine (h.counted d).trans ?_
    simp only [Option.some.injEq]
    push_cast
    ring
  rw [RequestSleep.allocated]
  dsimp only
  split
  · split
    · exact hi.keeps ⟨rfl,rfl,rfl,rfl,rfl,rfl,rfl⟩
    · exact hi
  · exact hi

/-- A write to nr_requests keeps the invariant when the limit with batching does not vanish. -/
theorem SleepInv.store (h : SleepInv none none s) {nr : BitVec w} (hw : 32≤w) (hl : batchLimit (storedNr nr)≠0) :
    SleepInv none none (queueRequestsStore s nr) := by
  have hmin : blkdevMinRq≤(storedNr nr).toNat := by
    rw [storedNr]
    split
    · have hlt : blkdevMinRq<2^w := lt_of_lt_of_le (by decide) (Nat.pow_le_pow_right (by decide) hw)
      rw [BitVec.toNat_ofNat,Nat.mod_eq_of_lt hlt]
    · exact not_lt.mp ‹_›
  have hclass : ∀ u : Queue w, SleepInv none none u → ∀ b, SleepInv none none (storeClass u b) := by
    intro u hu b
    rw [storeClass]
    split
    · exact hu.wakes (.setFull u b true)
    · exact hu.wakes ((Wakes.setFull u b false).trans (wakeUp_spec (s := u.setFull b false) (hu.classes b)).1)
  rw [queueRequestsStore]
  generalize storedNr nr=n at hmin hl
  have hn : SleepInv none none (s.setNr n) := ⟨hmin,hl,h.counted,h.classes,h.noticed⟩
  exact hclass _ (hclass _ hn true) false

theorem SleepInv.step (h : SleepInv none none s) (hw : 32≤w) {e : Event w} (ht : carefulStep hz s e=some t) :
    SleepInv none none t := by
  obtain ⟨hc,ht⟩ := Option.ite_none_right_eq_some.mp ht
  cases e with
  | call c mq ioc =>
    obtain ⟨⟨_,hm⟩,rfl⟩ := of_guard ht
    exact (h.doze _).get hm ioc
  | batch c ioc =>
    obtain ⟨hb,rfl⟩ := of_guard ht
    have hk := h.keeps (t := iocSetBatching hz s ioc) (iocSetBatching_keeps s ioc)
    refine ⟨hk.minimum,hk.limit,hk.counted,hk.classes,fun d _ hd => ?_⟩
    rcases hk.noticed d nofun hd with hn|⟨x,hx,hxd⟩|hn
    · exact .inl hn
    · refine .inr (.inl ?_)
      rw [(iocSetBatching_keeps s ioc).woken] at hx
      by_cases hxc : x=(c,false)
      · exact ⟨(c,true),mem_cons_self,by rw [← hxd,hxc]⟩
      · exact ⟨x,mem_cons_of_mem _ ((mem_erase_of_ne hxc).mpr hx),hxd⟩
    · exact .inr (.inr hn)
  | retry c mq ioc =>
    obtain ⟨⟨hr,hm⟩,rfl⟩ := of_guard ht
    have hi : SleepInv none (some c.sync) (s.setWoken (s.woken.erase (c,true))) := by
      refine ⟨h.minimum,h.limit,h.counted,h.classes,fun b hb hw => ?_⟩
      rcases h.noticed b nofun hw with hn|⟨x,hx,hxb⟩|hn
      · exact .inl hn
      · have hne : x≠(c,true) := fun he => hb (by rw [← hxb,he])
        exact .inr (.inl ⟨x,(mem_erase_of_ne hne).mpr hx,hxb⟩)
      · exact .inr (.inr hn)
    exact hi.get hm ioc
  | alloc a ok =>
    obtain ⟨⟨ha,_⟩,rfl⟩ := of_guard ht
    have hlose := h.lose (t := s.setAllocating (s.allocating.erase a)) ⟨rfl,rfl,rfl,rfl,rfl⟩
      (used_alloc rfl (perm_cons_erase ha))
    cases ok with
    | true => exact hlose.allocated
    | false => exact hlose.allocFailed (hc.resolve_left nofun)
  | release rq =>
    obtain ⟨hr,rfl⟩ := of_guard ht
    exact (h.lose (t := s.setRequests (s.requests.erase rq)) ⟨rfl,rfl,rfl,rfl,rfl⟩
      (used_request (perm_cons_erase hr) rfl)).freed rq.priv
  | store nr => exact Option.some.inj ht ▸ h.store hw hc
  | elvswitch b | ioc i x | tick n => exact Option.some.inj ht ▸ h.keeps ⟨rfl,rfl,rfl,rfl,rfl,rfl,rfl⟩

/-- A new queue has the invariant. -/
theorem SleepInv.start (hw : 32≤w) (hs : Start s) : SleepInv none none s := by
  obtain ⟨hnr,_,hcount,_,_,_,_,hwait,_,halloc,hreq⟩ := hs
  have hlt : 1024<2^w := lt_of_lt_of_le (by decide) (Nat.pow_le_pow_right (by decide) hw)
  have hnat : s.nr.toNat=128 := by
    rw [hnr,BitVec.toNat_ofNat,blkdevMaxRq,Nat.mod_eq_of_lt (by omega)]
  refine ⟨by rw [hnat]; decide,?_,fun b => ?_,fun b c hc => ?_,fun b _ hb => ?_⟩
  · have h3 : (BitVec.ofNat w 3).toNat=3 := Nat.mod_eq_of_lt (by omega)
    have h2 : (BitVec.ofNat w 2).toNat=2 := Nat.mod_eq_of_lt (by omega)
    change ((BitVec.ofNat w 3*s.nr)/BitVec.ofNat w 2).toNat≠0
    rw [BitVec.toNat_udiv,BitVec.toNat_mul,hnat,h3,h2,Nat.mod_eq_of_lt (by omega)]
    decide
  · rw [Queue.used,hcount,halloc,hreq]
    rfl
  · rw [hwait] at hc
    exact absurd hc not_mem_nil
  · exact absurd (by rw [hwait]) hb

end

/-- Under careful events, whenever the lock is free, a class counts its requests and its
allocations in progress, and if a task sleeps in a class then some request is allocated or
being allocated, or a task of that class was woken and has not retried. -/
theorem sleeper_noticed_of_careful {w : ℕ} (hw : 32≤w) {hz : ℕ} {s : Queue w} (hs : CarefulRun hz s) :
    (∀ b, s.count b=s.requests.countP (fun rq => rq.sync==b)+s.allocating.countP (fun a => a.call.sync==b)) ∧
    ∀ b, ∀ c∈s.wait b, s.requests≠[] ∨ s.allocating≠[] ∨ ∃ d∈s.woken, d.1.sync=b := by
  have h : SleepInv none none s :=
    hs.invariant (I := SleepInv none none) (fun _ h => .start hw h) (fun _ _ _ _ h ht => h.step hw ht)
  have hused : ∀ b, 0<s.count b → s.requests≠[] ∨ s.allocating≠[] := by
    intro b hb
    by_contra hno
    rw [not_or,not_not,not_not] at hno
    rw [h.counted b,Queue.used,hno.1,hno.2,if_neg nofun] at hb
    exact absurd hb (lt_irrefl 0)
  refine ⟨fun b => (h.counted b).trans (by rw [Queue.used]; push_cast; rfl),fun b c hc => ?_⟩
  rcases h.noticed b nofun (ne_nil_of_mem hc) with hn|hn|hn
  · exact (hused b hn).imp id .inl
  · exact .inr (.inr hn)
  · exact (hused _ hn.2).imp id .inl

/-- A queue of sixty-four bits as it is initialised. -/
def newQueue : Queue 64 where
  nr := BitVec.ofNat 64 blkdevMaxRq
  congestionOn := congestionThreshold (BitVec.ofNat 64 blkdevMaxRq)
  count := fun _ => 0
  starved := fun _ => false
  full := fun _ => false
  elvpriv := 0
  elvswitch := false
  wait := fun _ => []
  woken := []
  allocating := []
  requests := []
  iocs := fun _ => ⟨0,0⟩
  jiffies := 0

theorem newQueue_start : Start newQueue := ⟨rfl,rfl,rfl,rfl,rfl,rfl,rfl,rfl,rfl,rfl,rfl⟩

/-- A call of a task that may wait, for a synchronous request. -/
def syncCall (task : ℕ) : Call := ⟨task,true,true,true⟩

/-- Four requests are the limit. A fifth and a sixth call find the class full and sleep, and
the release of a request wakes the fifth. -/
theorem sleeper_noticed_of_careful_full : ∃ s : Queue 64, CarefulRun 100 s ∧ s.wait true=[syncCall 6] ∧
    s.count true=3 ∧ s.woken=[(syncCall 5,false)] ∧
    (s.requests≠[] ∨ s.allocating≠[] ∨ ∃ d∈s.woken, d.1.sync=true) := by
  obtain ⟨s,hr,hw,hn,hk⟩ : ∃ s : Queue 64, CarefulRun 100 s ∧ s.wait true=[syncCall 6] ∧ s.count true=3 ∧
      s.woken=[(syncCall 5,false)] :=
    exists_run (fun _ _ _ => id) newQueue_start [.store 4,
      .call (syncCall 1) .may none,.alloc ⟨syncCall 1,true,none⟩ true,
      .call (syncCall 2) .may none,.alloc ⟨syncCall 2,true,none⟩ true,
      .call (syncCall 3) .may none,.alloc ⟨syncCall 3,true,none⟩ true,
      .call (syncCall 4) .may none,.alloc ⟨syncCall 4,true,none⟩ true,
      .call (syncCall 5) .may none,.call (syncCall 6) .may none,.release ⟨true,true⟩] (by decide)
  have hc : syncCall 6∈s.wait true := by rw [hw]; exact mem_cons_self
  exact ⟨s,hr,hw,hn,hk,(sleeper_noticed_of_careful (by decide) hr).2 true _ hc⟩

/-- A task is stranded when the scheduler refuses the data of the only request of the queue,
and when the limit is the inverse of three, whose three halves vanish. -/
theorem sleeper_stranded : (∃ s : Queue 64, SleepRun 100 s ∧ s.nr=128#64 ∧ s.wait true=[syncCall 1] ∧
      s.requests=[] ∧ s.allocating=[] ∧ s.woken=[]) ∧
    ∃ s : Queue 64, SleepRun 100 s ∧ s.nr=12297829382473034411#64 ∧ s.wait true=[syncCall 1] ∧
      s.requests=[] ∧ s.allocating=[] ∧ s.woken=[] := by
  constructor
  · exact exists_run (fun _ _ _ => id) newQueue_start
      [.call (syncCall 1) .may none,.alloc ⟨syncCall 1,true,none⟩ false] (by decide)
  · exact exists_run (fun _ _ _ => id) newQueue_start
      [.store 12297829382473034411#64,.call (syncCall 1) .may none] (by decide)

/-- Of the values that can be written, the three halves of the inverse of three only vanish. -/
theorem batchLimit_eq_zero_iff (nr : BitVec 64) : batchLimit nr=0 ↔ nr=0#64 ∨ nr=12297829382473034411#64 := by
  have hinv : 12297829382473034411#64*(3*nr)=nr := by
    rw [← BitVec.mul_assoc,show 12297829382473034411#64*3=1#64 from by decide,BitVec.one_mul]
  constructor
  · intro h
    have hlt : (3*nr).toNat<2 := by
      rw [batchLimit,BitVec.toNat_udiv] at h
      exact ((Nat.div_eq_zero_iff).mp h).resolve_left (by decide)
    have hcase : 3*nr=0#64 ∨ 3*nr=1#64 := by
      rcases Nat.lt_succ_iff_lt_or_eq.mp hlt with hz|hz
      · exact .inl (BitVec.eq_of_toNat_eq (Nat.lt_one_iff.mp hz))
      · exact .inr (BitVec.eq_of_toNat_eq hz)
    rcases hcase with hz|hz
    · rw [hz,BitVec.mul_zero] at hinv
      exact .inl hinv.symm
    · rw [hz,BitVec.mul_one] at hinv
      exact .inr hinv.symm
  · rintro (rfl|rfl)
    · decide
    · decide

end BlockIpc.RequestSleep
