import BlockIpc.TransitionRuns

/-!
# Switching the scheduler of a queue

elevator_switch replaces the scheduler of a queue while requests come and go. Requests with
data of the scheduler are counted, and the pointer is changed when there are none. The model
has the steps of the switch between which the lock is free, and the steps in the life of a
request. It keeps all calls that were made to a scheduler, and the schedulers that were exited.
-/

namespace BlockIpc.ElevatorSwitch

open Function List TransitionRuns

/-- The life of an elevator_queue. -/
inductive Life where
  | absent
  | live
  /-- It was passed to elevator_exit. -/
  | exited
  deriving DecidableEq

/-- The functions of a scheduler. -/
inductive Kind where
  /-- elevator_dispatch_fn. -/
  | dispatch
  /-- elevator_add_req_fn. -/
  | add
  /-- elevator_completed_req_fn. -/
  | completed
  /-- elevator_put_req_fn. -/
  | put
  /-- elevator_may_queue_fn. -/
  | mayQueue
  /-- elevator_set_req_fn. -/
  | set
  /-- elevator_activate_req_fn. -/
  | activate
  /-- elevator_deactivate_req_fn. -/
  | deactivate
  deriving DecidableEq

inductive Phase where
  /-- In blk_alloc_request. -/
  | allocating
  | failed
  | ready
  | held (e : ℕ)
  /-- On queue_head or with the flush machinery. -/
  | queued
  | driver
  deriving DecidableEq

structure Rq where
  id : ℕ
  phase : Phase
  /-- It is counted in elvpriv. -/
  priv : Bool
  elvpriv : Bool
  /-- The scheduler that set it up. -/
  owner : ℕ
  sorted : Bool
  softbarrier : Bool
  deriving DecidableEq

/-- A call of a function of a scheduler. -/
structure Callback where
  kind : Kind
  /-- The elevator_queue it was called on. -/
  elev : ℕ
  /-- The life of the elevator_queue at that time. -/
  life : Life
  /-- The scheduler that set up the request, if one with REQ_ELVPRIV was passed. -/
  owner : Option ℕ
  deriving DecidableEq

/-- How far elevator_switch is. -/
inductive Switch where
  /-- No switch is made. -/
  | idle
  /-- The new elevator was initialised. -/
  | inited (e : ℕ)
  /-- The loop of elv_quiesce_start. -/
  | quiescing (e : ℕ)
  /-- The new elevator was attached. -/
  | attached (old e : ℕ)
  /-- The new elevator was registered, or the old one had not been. -/
  | registered (old : ℕ)
  /-- The old elevator was exited. -/
  | exitedOld
  /-- The label fail_register. -/
  | failed (old e : ℕ)
  /-- The new elevator was exited. -/
  | exitedNew (old : ℕ)
  /-- The old elevator was attached and registered again. -/
  | reattached
  deriving DecidableEq

structure Queue where
  /-- elevator. -/
  cur : ℕ
  life : ℕ → Life
  registered : ℕ → Bool
  /-- QUEUE_FLAG_ELVSWITCH. -/
  elvswitch : Bool
  elvpriv : ℤ
  requests : List Rq
  /-- The progress of elevator_switch. -/
  switch : Switch
  /-- All calls of functions of schedulers. -/
  calls : List Callback
  /-- The elevators passed to elevator_exit and the requests they held. -/
  exits : List (ℕ × List Rq)

/-- What a call is told of a request. -/
def Rq.setUpBy (r : Rq) : Option ℕ := if r.elvpriv then some r.owner else none

/-- Call a function of the scheduler. -/
def Queue.callback (s : Queue) (k : Kind) (o : Option ℕ) : Queue :=
  {s with calls := ⟨k,s.cur,s.life s.cur,o⟩::s.calls}

def Queue.setRequests (s : Queue) (l : List Rq) : Queue := {s with requests := l}

/-- Change a request. -/
def Queue.replace (s : Queue) (r r' : Rq) : Queue := s.setRequests (r'::s.requests.erase r)

/-- Change the count of requests with data of the scheduler. -/
def Queue.addPriv (s : Queue) (priv : Bool) (n : ℤ) : Queue := if priv then {s with elvpriv := s.elvpriv+n} else s

def Queue.setSwitch (s : Queue) (x : Switch) : Queue := {s with switch := x}

/-- A request that the scheduler moves to the dispatch list. -/
def dispatchOne (s : Queue) (r : Rq) : Queue :=
  if r∈s.requests ∧ r.phase=.held s.cur then s.replace r {r with phase := .queued} else s

/-- elevator_dispatch_fn, with the requests that it moves. -/
def dispatchFn (s : Queue) (l : List Rq) : Queue := l.foldl dispatchOne (s.callback .dispatch none)

/-- elv_drain_elevator, with the requests that each call moves. -/
def elvDrainElevator (s : Queue) (ls : List (List Rq)) : Queue := dispatchFn (ls.foldl dispatchFn s) []

/-- The insertion point of __elv_add_request. -/
inductive Where where
  /-- ELEVATOR_INSERT_FRONT. -/
  | front
  /-- ELEVATOR_INSERT_BACK. -/
  | back
  /-- ELEVATOR_INSERT_SORT. -/
  | sort
  /-- ELEVATOR_INSERT_REQUEUE. -/
  | requeue
  /-- ELEVATOR_INSERT_FLUSH. -/
  | flush
  /-- ELEVATOR_INSERT_SORT_MERGE. -/
  | sortMerge
  deriving DecidableEq

/-- The insertion point that is used. -/
def actualWhere (r : Rq) (w : Where) : Where :=
  if r.softbarrier then w
  else if !r.elvpriv && (decide (w=.sort) || decide (w=.sortMerge)) then .back
  else w

/-- The end of __blk_put_request with elv_completed_request, blk_free_request and
freed_request. What blk_account_rq says is given. -/
def blkPutRequest (s : Queue) (r : Rq) (account : Bool) : Queue :=
  let s := if account && r.sorted then s.callback .completed r.setUpBy else s
  let s := if r.elvpriv then s.callback .put r.setUpBy else s
  (s.setRequests (s.requests.erase r)).addPriv r.priv (-1)

/-- The case ELEVATOR_INSERT_SORT of __elv_add_request. -/
def insertSort (s : Queue) (r : Rq) : Queue :=
  (s.replace r {r with sorted := true, phase := .held s.cur}).callback .add r.setUpBy

/-- __elv_add_request, with whether the request is merged and what a drain moves. -/
def elvAddRequest (s : Queue) (r : Rq) (w : Where) (merged : Bool) (ls : List (List Rq)) : Queue :=
  match actualWhere r w with
  | .front | .requeue | .flush => s.replace r {r with softbarrier := true, phase := .queued}
  | .back => elvDrainElevator (s.replace r {r with softbarrier := true, phase := .queued}) ls
  | .sort => insertSort s r
  | .sortMerge => if merged then blkPutRequest s r false else insertSort s r

/-- The locked part of get_request that grants a request. -/
def getRequest (s : Queue) (id : ℕ) (init : Bool) : Queue :=
  let s := s.callback .mayQueue none
  let priv := init && !s.elvswitch
  (s.setRequests (⟨id,.allocating,priv,false,0,false,false⟩::s.requests)).addPriv priv 1

/-- elv_set_request for a request with data of the scheduler, and its outcome. -/
def elvSetRequest (s : Queue) (r : Rq) (ok : Bool) : Queue :=
  (s.callback .set none).replace r
    (if ok then {r with phase := .ready, elvpriv := true, owner := s.cur} else {r with phase := .failed})

/-- The end of elv_quiesce_start and elevator_attach, under one lock. -/
def tryAttach (s : Queue) (e : ℕ) (ls : List (List Rq)) : Queue :=
  let s := elvDrainElevator s ls
  if s.elvpriv=0 then {s with switch := .attached s.cur e, cur := e} else s.setSwitch (.quiescing e)

def elevatorExit (s : Queue) (e : ℕ) : Queue :=
  {s with
    life := update s.life e .exited
    exits := (e,s.requests.filter (fun r => decide (r.phase=.held e)))::s.exits}

def Queue.setRegistered (s : Queue) (e : ℕ) (b : Bool) : Queue := {s with registered := update s.registered e b}

def Queue.setElvswitch (s : Queue) (b : Bool) : Queue := {s with elvswitch := b}

/-- __elv_unregister_queue of the old elevator and elv_register_queue of the new one. -/
def switchRegister (s : Queue) (old e : ℕ) (ok : Bool) : Queue :=
  if s.registered old then
    let s := s.setRegistered old false
    if ok then (s.setRegistered e true).setSwitch (.registered old) else s.setSwitch (.failed old e)
  else s.setSwitch (.registered old)

/-- What can happen. -/
inductive Event where
  /-- get_request asks the scheduler and gets no request. -/
  | mayQueue
  /-- get_request grants a request and gives back the lock. -/
  | alloc (id : ℕ) (init : Bool)
  /-- mempool_alloc fails. -/
  | noMemory (r : Rq)
  /-- elv_set_request of a request that has data of the scheduler. -/
  | set (r : Rq) (ok : Bool)
  /-- A request without data of the scheduler is allocated. -/
  | plain (r : Rq)
  /-- get_request undoes a failed allocation. -/
  | undo (r : Rq)
  | insert (r : Rq) (w : Where) (merged : Bool) (ls : List (List Rq))
  /-- The scheduler is asked for requests. -/
  | dispatch (l : List Rq)
  /-- The driver takes a request. -/
  | start (r : Rq)
  /-- The driver gives a request back. -/
  | requeue (r : Rq)
  /-- A request is completed, merged into another one or not used, and freed. -/
  | put (r : Rq) (account : Bool)
  /-- elevator_alloc and elevator_init_queue. -/
  | init (e : ℕ)
  /-- elv_quiesce_start takes the lock. -/
  | quiesce (ls : List (List Rq))
  /-- elv_quiesce_start takes the lock again. -/
  | poll (ls : List (List Rq))
  /-- The registration of the new elevator, and its outcome. -/
  | register (ok : Bool)
  /-- elevator_exit of the old elevator. -/
  | exitOld
  | quiesceEnd
  /-- elevator_exit of the new elevator. -/
  | exitNew
  /-- The old elevator is attached and registered again, with the outcome of the latter. -/
  | reattach (ok : Bool)
  | clear

/-- The requests that can be freed, and not by the failure of their allocation. -/
def Rq.puttable (r : Rq) : Bool :=
  match r.phase with
  | .ready | .held _ | .driver => true
  | .allocating | .failed | .queued => false

def requestStep (s : Queue) : Event → Option Queue
  | .mayQueue => some (s.callback .mayQueue none)
  | .alloc id init => if ∀ r∈s.requests, r.id≠id then some (getRequest s id init) else none
  | .noMemory r =>
    if r∈s.requests ∧ r.phase=.allocating then some (s.replace r {r with phase := .failed}) else none
  | .set r ok =>
    if r∈s.requests ∧ r.phase=.allocating ∧ r.priv=true then some (elvSetRequest s r ok) else none
  | .plain r =>
    if r∈s.requests ∧ r.phase=.allocating ∧ r.priv=false then some (s.replace r {r with phase := .ready}) else none
  | .undo r =>
    if r∈s.requests ∧ r.phase=.failed then
      some ((s.setRequests (s.requests.erase r)).addPriv r.priv (-1))
    else none
  | .insert r w merged ls =>
    if r∈s.requests ∧ r.phase=.ready then some (elvAddRequest s r w merged ls) else none
  | .dispatch l => some (dispatchFn s l)
  | .start r =>
    if r∈s.requests ∧ r.phase=.queued then
      let t := if r.sorted then s.callback .activate r.setUpBy else s
      some (t.replace r {r with phase := .driver})
    else none
  | .requeue r =>
    if r∈s.requests ∧ r.phase=.driver then
      let t := if r.sorted then s.callback .deactivate r.setUpBy else s
      some (elvAddRequest t r .requeue false [])
    else none
  | .put r account => if r∈s.requests ∧ r.puttable then some (blkPutRequest s r account) else none
  | _ => none

/-- One step of elevator_switch. -/
def elevatorSwitch (s : Queue) : Event → Option Queue
  | .init e =>
    if s.switch=.idle ∧ s.life e=.absent then
      some ({s with life := update s.life e .live}.setSwitch (.inited e))
    else none
  | .quiesce ls =>
    match s.switch with
    | .inited e => some (tryAttach (s.setElvswitch true) e ls)
    | _ => none
  | .poll ls =>
    match s.switch with
    | .quiescing e => some (tryAttach s e ls)
    | _ => none
  | .register ok =>
    match s.switch with
    | .attached old e => some (switchRegister s old e ok)
    | _ => none
  | .exitOld =>
    match s.switch with
    | .registered old => some ((elevatorExit s old).setSwitch .exitedOld)
    | _ => none
  | .quiesceEnd => if s.switch=.exitedOld then some ((s.setElvswitch false).setSwitch .idle) else none
  | .exitNew =>
    match s.switch with
    | .failed old e => some ((elevatorExit s e).setSwitch (.exitedNew old))
    | _ => none
  | .reattach ok =>
    match s.switch with
    | .exitedNew old => some (({s with cur := old}.setRegistered old ok).setSwitch .reattached)
    | _ => none
  | .clear => if s.switch=.reattached then some ((s.setElvswitch false).setSwitch .idle) else none
  | _ => none

def switchStep (s : Queue) (e : Event) : Option Queue := (requestStep s e).or (elevatorSwitch s e)

/-- A queue with an initialised scheduler and no requests. -/
def Start (s : Queue) : Prop :=
  s.life s.cur=.live ∧ s.elvswitch=false ∧ s.elvpriv=0 ∧ s.requests=[] ∧ s.switch=.idle ∧ s.calls=[] ∧ s.exits=[]

/-- The states between two events. -/
def SwitchRun : Queue → Prop := Reachable Start (fun s e t => switchStep s e=some t)

/-- The new elevator was exited and the old one is not attached yet. -/
def Queue.Gap (s : Queue) : Bool :=
  match s.switch with
  | .exitedNew _ => true
  | _ => false

/-- An event calls a function of the scheduler. -/
def Event.calls : Event → Bool
  | .mayQueue | .alloc _ _ | .set _ _ | .dispatch _ | .quiesce _ | .poll _ => true
  | .insert r w merged _ =>
    match actualWhere r w with
    | .front | .requeue | .flush => false
    | .back | .sort => true
    | .sortMerge => !merged || r.elvpriv
  | .start r | .requeue r => r.sorted
  | .put r account => (account && r.sorted) || r.elvpriv
  | _ => false

/-- One event that calls no function of a scheduler in the gap. -/
def quietStep (s : Queue) (e : Event) : Option Queue := if s.Gap && e.calls then none else switchStep s e

/-- The states that quiet events reach. -/
def QuietRun : Queue → Prop := Reachable Start (fun s e t => quietStep s e=some t)

section

variable {P : Callback → Prop} {s t : Queue} {r x : Rq} {e : Event}

/-- A request belongs to the current scheduler if it has data of one, and only such a
request is sorted or held. -/
structure RqOk (cur : ℕ) (r : Rq) : Prop where
  /-- Data of the scheduler are counted, and of the current one. -/
  owner : r.elvpriv=true → r.priv=true ∧ r.owner=cur
  /-- A held request has data of the scheduler that holds it. -/
  held : ∀ e, r.phase=.held e → r.elvpriv=true ∧ e=cur
  /-- A sorted request has data of the scheduler. -/
  sorted : r.sorted=true → r.elvpriv=true
  /-- A barrier was inserted. -/
  soft : r.softbarrier=true → r.phase=.queued ∨ r.phase=.driver

/-- The invariant of the requests and of the records, for calls of a given kind. -/
structure Core (P : Callback → Prop) (s : Queue) : Prop where
  /-- Every request belongs to the current scheduler. -/
  ok : ∀ r∈s.requests, RqOk s.cur r
  /-- elvpriv counts the requests with data of the scheduler. -/
  counted : s.elvpriv=s.requests.countP Rq.priv
  calls : ∀ c∈s.calls, P c
  /-- No exited elevator held a request. -/
  exits : ∀ x∈s.exits, x.2=[]

/-- The calls that the current scheduler may get are of the given kind. -/
def Allowed (P : Callback → Prop) (s : Queue) : Prop :=
  ∀ k o, (∀ x, o=some x → x=s.cur) → P ⟨k,s.cur,s.life s.cur,o⟩

/-- No request has data of a scheduler, and new ones get none. -/
def Plain (s : Queue) : Prop := s.elvswitch=true ∧ ∀ r∈s.requests, r.priv=false

/-- The switch is as far as before. -/
structure Same (s t : Queue) : Prop where
  /-- The scheduler stays. -/
  cur : t.cur=s.cur
  /-- The elevators stay. -/
  life : t.life=s.life
  /-- The progress stays. -/
  switch : t.switch=s.switch
  /-- The flag stays. -/
  elvswitch : t.elvswitch=s.elvswitch
  /-- Requests without data get none. -/
  plain : Plain s → Plain t

theorem Same.refl (s : Queue) : Same s s := ⟨rfl,rfl,rfl,rfl,id⟩

theorem Same.trans {u : Queue} (h : Same s t) (h' : Same t u) : Same s u :=
  ⟨h'.cur.trans h.cur,h'.life.trans h.life,h'.switch.trans h.switch,
    h'.elvswitch.trans h.elvswitch,fun hp => h'.plain (h.plain hp)⟩

theorem Allowed.same (h : Allowed P s) (ht : Same s t) : Allowed P t := by
  rw [Allowed,ht.cur,ht.life]
  exact h

/-- A call for no request or for one that belongs to the scheduler. -/
theorem Core.callback (h : Core P s) (hP : Allowed P s) (k : Kind) {o : Option ℕ} (ho : ∀ x, o=some x → x=s.cur) :
    Core P (s.callback k o) := {h with calls := forall_mem_cons.mpr ⟨hP k o ho,h.calls⟩}

/-- The scheduler that set up a request is the current one. -/
theorem RqOk.setUpBy {cur x : ℕ} (h : RqOk cur r) (hx : r.setUpBy=some x) : x=cur := by
  obtain ⟨hp,hx⟩ := Option.ite_none_right_eq_some.mp hx
  exact (Option.some.inj hx).symm.trans (h.owner hp).2

/-- A request may change when it stays counted and belongs to the scheduler. -/
theorem Core.replace (h : Core P s) (hr : r∈s.requests) (hp : x.priv=r.priv) (hok : RqOk s.cur x) :
    Core P (s.replace r x) ∧ Same s (s.replace r x) := by
  refine ⟨{h with ok := ?_, counted := ?_},⟨rfl,rfl,rfl,rfl,fun hpl => ⟨hpl.1,?_⟩⟩⟩
  · exact forall_mem_cons.mpr ⟨hok,fun x hx => h.ok x (mem_of_mem_erase hx)⟩
  · change s.elvpriv=((x::s.requests.erase r).countP Rq.priv : ℤ)
    rw [h.counted,(perm_cons_erase hr).countP_eq,countP_cons,countP_cons,hp]
  · exact forall_mem_cons.mpr ⟨hp.trans (hpl.2 r hr),fun x hx => hpl.2 x (mem_of_mem_erase hx)⟩

theorem Core.drop (h : Core P s) (hr : r∈s.requests) :
    Core P ((s.setRequests (s.requests.erase r)).addPriv r.priv (-1)) ∧
      Same s ((s.setRequests (s.requests.erase r)).addPriv r.priv (-1)) := by
  have hc := h.counted
  rw [(perm_cons_erase hr).countP_eq,countP_cons] at hc
  have hok : ∀ x∈s.requests.erase r, RqOk s.cur x := fun x hx => h.ok x (mem_of_mem_erase hx)
  have hpl : Plain s → Plain (s.setRequests (s.requests.erase r)) := fun hpl =>
    ⟨hpl.1,fun x hx => hpl.2 x (mem_of_mem_erase hx)⟩
  rw [Queue.addPriv]
  split
  · rename_i hp
    rw [if_pos hp] at hc
    refine ⟨⟨hok,?_,h.calls,h.exits⟩,⟨rfl,rfl,rfl,rfl,hpl⟩⟩
    change s.elvpriv+(-1)=((s.requests.erase r).countP Rq.priv : ℤ)
    rw [hc]
    push_cast
    ring
  · rename_i hp
    rw [if_neg hp] at hc
    exact ⟨⟨hok,hc,h.calls,h.exits⟩,⟨rfl,rfl,rfl,rfl,hpl⟩⟩

/-- A request is added, and not counted while a switch is made. -/
theorem Core.add (h : Core P s) (hok : RqOk s.cur r) (hp : s.elvswitch=true → r.priv=false) :
    Core P ((s.setRequests (r::s.requests)).addPriv r.priv 1) ∧
      Same s ((s.setRequests (r::s.requests)).addPriv r.priv 1) := by
  have hall := forall_mem_cons.mpr ⟨hok,h.ok⟩
  have hpl : Plain s → Plain (s.setRequests (r::s.requests)) := fun hpl =>
    ⟨hpl.1,forall_mem_cons.mpr ⟨hp hpl.1,hpl.2⟩⟩
  have hc : ((r::s.requests).countP Rq.priv : ℤ)=s.elvpriv+(if r.priv then 1 else 0) := by
    rw [h.counted,countP_cons]
    push_cast
    rfl
  rw [Queue.addPriv]
  split
  · rename_i hpr
    rw [if_pos hpr] at hc
    exact ⟨⟨hall,hc.symm,h.calls,h.exits⟩,⟨rfl,rfl,rfl,rfl,hpl⟩⟩
  · rename_i hpr
    rw [if_neg hpr,add_zero] at hc
    exact ⟨⟨hall,hc.symm,h.calls,h.exits⟩,⟨rfl,rfl,rfl,rfl,hpl⟩⟩

/-- A request that was not inserted is no barrier. -/
theorem RqOk.not_soft {cur : ℕ} (h : RqOk cur r) (hq : r.phase≠.queued) (hd : r.phase≠.driver) :
    r.softbarrier=false := by
  by_contra hb
  exact (h.soft (Bool.not_eq_false _ ▸ hb)).elim hq hd

theorem Same.callback (s : Queue) (k : Kind) (o : Option ℕ) : Same s (s.callback k o) := ⟨rfl,rfl,rfl,rfl,id⟩

/-- A dispatch moves held requests to the dispatch list. -/
theorem Core.dispatchFn (h : Core P s) (hP : Allowed P s) (l : List Rq) :
    Core P (dispatchFn s l) ∧ Same s (dispatchFn s l) := by
  have hone : ∀ u, Core P u → ∀ x, Core P (dispatchOne u x) ∧ Same u (dispatchOne u x) := by
    intro u hu x
    rw [dispatchOne]
    split
    · rename_i hx
      have hok := hu.ok x hx.1
      exact hu.replace hx.1 rfl ⟨hok.owner,nofun,hok.sorted,fun _ => .inl rfl⟩
    · exact ⟨hu,.refl u⟩
  have hfold : ∀ u, Core P u → Core P (l.foldl dispatchOne u) ∧ Same u (l.foldl dispatchOne u) := by
    induction l with
    | nil => exact fun u hu => ⟨hu,.refl u⟩
    | cons x xs ih =>
      intro u hu
      obtain ⟨hx,hsx⟩ := hone u hu x
      obtain ⟨hi,hsi⟩ := ih _ hx
      exact ⟨hi,hsx.trans hsi⟩
  obtain ⟨hi,hs⟩ := hfold _ (h.callback hP .dispatch (o := none) nofun)
  exact ⟨hi,(Same.callback s .dispatch none).trans hs⟩

/-- A drain moves held requests to the dispatch list. -/
theorem Core.drain (h : Core P s) (hP : Allowed P s) (ls : List (List Rq)) :
    Core P (elvDrainElevator s ls) ∧ Same s (elvDrainElevator s ls) := by
  have hfold : ∀ u, Core P u → Allowed P u → Core P (ls.foldl ElevatorSwitch.dispatchFn u) ∧
      Same u (ls.foldl ElevatorSwitch.dispatchFn u) := by
    induction ls with
    | nil => exact fun u hu _ => ⟨hu,.refl u⟩
    | cons x xs ih =>
      intro u hu hPu
      obtain ⟨hx,hsx⟩ := hu.dispatchFn hPu x
      obtain ⟨hi,hsi⟩ := ih _ hx (hPu.same hsx)
      exact ⟨hi,hsx.trans hsi⟩
  obtain ⟨hi,hs⟩ := hfold s h hP
  obtain ⟨hd,hsd⟩ := hi.dispatchFn (hP.same hs) []
  exact ⟨hd,hs.trans hsd⟩

/-- A call that may be made for a request. -/
theorem Core.callIf (h : Core P s) (hr : r∈s.requests) (b : Bool) (hP : b=true → Allowed P s) (k : Kind) :
    Core P (if b then s.callback k r.setUpBy else s) ∧ Same s (if b then s.callback k r.setUpBy else s) ∧
      r∈(if b then s.callback k r.setUpBy else s).requests := by
  cases b with
  | true => exact ⟨h.callback (hP rfl) k (fun x hx => (h.ok r hr).setUpBy hx),.callback s k _,hr⟩
  | false => exact ⟨h,.refl s,hr⟩

/-- A request that belongs to the scheduler is freed, with the calls for it. -/
theorem Core.put (h : Core P s) (hr : r∈s.requests) (account : Bool)
    (hP : ((account && r.sorted) || r.elvpriv)=true → Allowed P s) :
    Core P (blkPutRequest s r account) ∧ Same s (blkPutRequest s r account) := by
  obtain ⟨h1,hs1,hr1⟩ := h.callIf hr (account && r.sorted) (fun hb => hP (Bool.or_eq_true_iff.mpr (.inl hb))) .completed
  obtain ⟨h2,hs2,hr2⟩ := h1.callIf hr1 r.elvpriv (fun hb => (hP (Bool.or_eq_true_iff.mpr (.inr hb))).same hs1) .put
  obtain ⟨h3,hs3⟩ := h2.drop hr2
  exact ⟨h3,hs1.trans (hs2.trans hs3)⟩

/-- A request with data of the scheduler is given to it. -/
theorem Core.insertSort (h : Core P s) (hP : Allowed P s) (hr : r∈s.requests) (hp : r.elvpriv=true)
    (hs : r.softbarrier=false) : Core P (insertSort s r) ∧ Same s (insertSort s r) := by
  have hok := h.ok r hr
  obtain ⟨hi,hsm⟩ := h.replace (x := {r with sorted := true, phase := .held s.cur}) hr rfl
    ⟨hok.owner,fun e he => ⟨hp,(Phase.held.inj he).symm⟩,fun _ => hp,fun hb => absurd (hs.symm.trans hb) nofun⟩
  exact ⟨hi.callback (hP.same hsm) .add (fun x hx => hok.setUpBy hx),hsm.trans (.callback _ .add _)⟩

/-- A request without data of the scheduler is not sorted. -/
theorem actualWhere_sorted {w : Where} (hs : r.softbarrier=false)
    (h : actualWhere r w=.sort ∨ actualWhere r w=.sortMerge) : r.elvpriv=true := by
  by_contra hn
  rw [Bool.not_eq_true] at hn
  rw [actualWhere,hs,hn,if_neg Bool.false_ne_true] at h
  revert h
  cases w <;> decide

/-- __elv_add_request of a request that was not inserted before, or comes back from the driver. -/
theorem Core.addRequest (h : Core P s) (hr : r∈s.requests) {w : Where} (hs : r.softbarrier=false ∨ w=.requeue)
    (merged : Bool) (ls : List (List Rq)) (hP : (Event.insert r w merged ls).calls=true → Allowed P s) :
    Core P (elvAddRequest s r w merged ls) ∧ Same s (elvAddRequest s r w merged ls) := by
  have hok := h.ok r hr
  obtain ⟨hi,hsm⟩ := h.replace (x := {r with softbarrier := true, phase := .queued}) hr rfl
    ⟨hok.owner,nofun,hok.sorted,fun _ => .inl rfl⟩
  have hsort : actualWhere r w=.sort ∨ actualWhere r w=.sortMerge → r.elvpriv=true ∧ r.softbarrier=false := by
    intro ha
    rcases hs with hs|rfl
    · exact ⟨actualWhere_sorted hs ha,hs⟩
    · rw [actualWhere] at ha
      revert ha
      cases r.softbarrier <;> cases r.elvpriv <;> decide
  rw [Event.calls] at hP
  rw [elvAddRequest]
  generalize actualWhere r w=v at hsort hP
  cases v with
  | front | requeue | flush => exact ⟨hi,hsm⟩
  | back =>
    obtain ⟨hd,hsd⟩ := hi.drain ((hP rfl).same hsm) ls
    exact ⟨hd,hsm.trans hsd⟩
  | sort =>
    obtain ⟨hp,hb⟩ := hsort (.inl rfl)
    exact h.insertSort (hP rfl) hr hp hb
  | sortMerge =>
    obtain ⟨hp,hb⟩ := hsort (.inr rfl)
    cases merged with
    | true => exact h.put hr false hP
    | false => exact h.insertSort (hP rfl) hr hp hb

/-- An event on requests keeps the invariant and the progress of the switch. -/
theorem Core.request (h : Core P s) (hP : e.calls=true → Allowed P s) (ht : requestStep s e=some t) :
    Core P t ∧ Same s t := by
  cases e with
  | mayQueue =>
    cases ht
    exact ⟨h.callback (hP rfl) .mayQueue (o := none) nofun,.callback s .mayQueue none⟩
  | alloc id init =>
    obtain ⟨_,rfl⟩ := of_guard ht
    obtain ⟨hi,hs⟩ := (h.callback (hP rfl) .mayQueue (o := none) nofun).add
      (r := ⟨id,.allocating,init && !s.elvswitch,false,0,false,false⟩) ⟨nofun,nofun,nofun,nofun⟩
      (fun hsw => by rw [show s.elvswitch=true from hsw,Bool.not_true,Bool.and_false])
    exact ⟨hi,(Same.callback s .mayQueue none).trans hs⟩
  | noMemory r =>
    obtain ⟨⟨hr,hph⟩,rfl⟩ := of_guard ht
    have hok := h.ok r hr
    have hsoft := hok.not_soft (hph ▸ nofun) (hph ▸ nofun)
    exact h.replace hr rfl ⟨hok.owner,nofun,hok.sorted,fun hb => absurd (hsoft.symm.trans hb) nofun⟩
  | set r ok =>
    obtain ⟨⟨hr,hph,hp⟩,rfl⟩ := of_guard ht
    have hok := h.ok r hr
    have hsoft := hok.not_soft (hph ▸ nofun) (hph ▸ nofun)
    have hc := h.callback (hP rfl) .set (o := none) nofun
    have hsc := Same.callback s .set none
    cases ok with
    | true =>
      obtain ⟨hi,hs⟩ := hc.replace (x := {r with phase := .ready, elvpriv := true, owner := s.cur}) hr rfl
        ⟨fun _ => ⟨hp,rfl⟩,nofun,fun _ => rfl,fun hb => absurd (hsoft.symm.trans hb) nofun⟩
      exact ⟨hi,hsc.trans hs⟩
    | false =>
      obtain ⟨hi,hs⟩ := hc.replace (x := {r with phase := .failed}) hr rfl
        ⟨hok.owner,nofun,hok.sorted,fun hb => absurd (hsoft.symm.trans hb) nofun⟩
      exact ⟨hi,hsc.trans hs⟩
  | plain r =>
    obtain ⟨⟨hr,hph,_⟩,rfl⟩ := of_guard ht
    have hok := h.ok r hr
    have hsoft := hok.not_soft (hph ▸ nofun) (hph ▸ nofun)
    exact h.replace hr rfl ⟨hok.owner,nofun,hok.sorted,fun hb => absurd (hsoft.symm.trans hb) nofun⟩
  | undo r =>
    obtain ⟨⟨hr,_⟩,rfl⟩ := of_guard ht
    exact h.drop hr
  | insert r w merged ls =>
    obtain ⟨⟨hr,hph⟩,rfl⟩ := of_guard ht
    have hsoft := (h.ok r hr).not_soft (hph ▸ nofun) (hph ▸ nofun)
    exact h.addRequest hr (.inl hsoft) merged ls hP
  | dispatch l => exact Option.some.inj ht ▸ h.dispatchFn (hP rfl) l
  | start r =>
    obtain ⟨⟨hr,hph⟩,rfl⟩ := of_guard ht
    have hok := h.ok r hr
    obtain ⟨hc,hsc,hrc⟩ := h.callIf hr r.sorted hP .activate
    obtain ⟨hi,hs⟩ := hc.replace (x := {r with phase := .driver}) hrc rfl
      (hsc.cur.symm ▸ ⟨hok.owner,nofun,hok.sorted,fun _ => .inr rfl⟩)
    exact ⟨hi,hsc.trans hs⟩
  | requeue r =>
    obtain ⟨⟨hr,hph⟩,rfl⟩ := of_guard ht
    obtain ⟨hc,hsc,hrc⟩ := h.callIf hr r.sorted hP .deactivate
    have hwhere : actualWhere r .requeue=.requeue := by
      unfold actualWhere
      cases r.softbarrier <;> cases r.elvpriv <;> rfl
    obtain ⟨hi,hs⟩ := hc.addRequest hrc (.inr rfl) false [] (fun hb => by simp [Event.calls,hwhere] at hb)
    exact ⟨hi,hsc.trans hs⟩
  | put r account =>
    obtain ⟨⟨hr,_⟩,rfl⟩ := of_guard ht
    exact h.put hr account hP
  | init | quiesce | poll | register | exitOld | quiesceEnd | exitNew | reattach | clear => cases ht

/-- What holds of the elevators at each stage of the switch. -/
def Progress (s : Queue) : Prop :=
  match s.switch with
  | .idle => s.life s.cur=.live
  | .inited e => s.life s.cur=.live ∧ s.life e=.live ∧ e≠s.cur
  | .quiescing e => s.life s.cur=.live ∧ s.life e=.live ∧ e≠s.cur ∧ s.elvswitch=true
  | .attached old e | .failed old e => s.cur=e ∧ s.life e=.live ∧ s.life old=.live ∧ old≠e ∧ Plain s
  | .registered old => s.life s.cur=.live ∧ old≠s.cur ∧ Plain s
  | .exitedOld | .reattached => s.life s.cur=.live
  | .exitedNew old => s.life old=.live ∧ Plain s

/-- It holds while the switch is as far as before. -/
theorem Progress.same (h : Progress s) (ht : Same s t) : Progress t := by
  rw [Progress] at h ⊢
  rw [ht.switch,ht.life,ht.cur,ht.elvswitch]
  revert h
  cases s.switch with
  | idle | inited | quiescing | exitedOld | reattached => exact id
  | attached | failed => exact fun h => ⟨h.1,h.2.1,h.2.2.1,h.2.2.2.1,ht.plain h.2.2.2.2⟩
  | registered => exact fun h => ⟨h.1,h.2.1,ht.plain h.2.2⟩
  | exitedNew => exact fun h => ⟨h.1,ht.plain h.2⟩

/-- A call on an elevator that was initialised and not exited, for a request that this
elevator set up if it has data of a scheduler. -/
def Good (c : Callback) : Prop := c.life=.live ∧ ∀ o, c.owner=some o → o=c.elev

/-- Outside the gap the current elevator can be called. -/
theorem Progress.allowed (h : Progress s) (hg : s.Gap=false) : Allowed Good s := by
  have hl : s.life s.cur=.live := by
    rw [Progress] at h
    rw [Queue.Gap] at hg
    revert h hg
    cases s.switch with
    | idle | exitedOld | reattached => exact fun h _ => h
    | inited | quiescing | registered => exact fun h _ => h.1
    | attached | failed => exact fun h _ => h.1 ▸ h.2.1
    | exitedNew => exact fun _ hg => absurd hg nofun
  exact fun k o ho => ⟨hl,ho⟩

/-- The current elevator holds nothing while no request has its data. -/
theorem Core.none_held (h : Core P s) (hp : Plain s) (e : ℕ) :
    s.requests.filter (fun r => decide (r.phase=.held e))=[] := by
  rw [filter_eq_nil_iff]
  intro r hr hd
  have hph := of_decide_eq_true hd
  exact absurd ((hp.2 r hr).symm.trans ((h.ok r hr).owner ((h.ok r hr).held e hph).1).1) nofun

/-- Requests without data of a scheduler belong to any. -/
theorem Core.any (h : Core P s) (hp : Plain s) (cur : ℕ) : ∀ r∈s.requests, RqOk cur r := by
  intro r hr
  have hok := h.ok r hr
  have hno : r.elvpriv≠true := fun hb => absurd ((hp.2 r hr).symm.trans (hok.owner hb).1) nofun
  exact ⟨fun hb => absurd hb hno,fun e he => absurd (hok.held e he).1 hno,hok.sorted,hok.soft⟩

/-- The new elevator is attached when no request has data of the old one. -/
theorem Core.tryAttach (h : Core Good s) (hP : Allowed Good s) (hsw : s.elvswitch=true) {e : ℕ}
    (hc : s.life s.cur=.live) (he : s.life e=.live) (hne : e≠s.cur) (ls : List (List Rq)) :
    Core Good (tryAttach s e ls) ∧ Progress (tryAttach s e ls) := by
  obtain ⟨hd,hs⟩ := h.drain hP ls
  rw [ElevatorSwitch.tryAttach]
  generalize elvDrainElevator s ls=u at hd hs
  rw [← hs.life,← hs.cur] at hc
  rw [← hs.life] at he
  rw [← hs.cur] at hne
  rw [← hs.elvswitch] at hsw
  split
  · rename_i hz
    have hplain : Plain u := by
      refine ⟨hsw,fun r hr => ?_⟩
      have hcount := hd.counted
      rw [hz] at hcount
      have hnone := countP_eq_zero.mp (Int.natCast_eq_zero.mp hcount.symm)
      exact Bool.not_eq_true _ ▸ hnone r hr
    exact ⟨⟨hd.any hplain e,hd.counted,hd.calls,hd.exits⟩,rfl,he,hc,Ne.symm hne,hplain⟩
  · exact ⟨{hd with},hc,he,hne,hsw⟩

theorem Core.exit (h : Core P s) (hp : Plain s) (e : ℕ) : Core P (elevatorExit s e) :=
  {h with exits := forall_mem_cons.mpr ⟨h.none_held hp e,h.exits⟩}

theorem Core.switch (h : Core Good s) (hp : Progress s) (ht : elevatorSwitch s e=some t) :
    Core Good t ∧ Progress t := by
  cases e with
  | init e =>
    obtain ⟨⟨hsw,he⟩,rfl⟩ := of_guard ht
    rw [Progress,hsw] at hp
    have hlive : s.life s.cur=.live := hp
    have hne : e≠s.cur := by
      rintro rfl
      exact absurd (he.symm.trans hlive) nofun
    refine ⟨{h with},?_,?_,hne⟩
    · exact (update_of_ne hne.symm ..).trans hlive
    · exact update_self ..
  | quiesce ls =>
    rw [elevatorSwitch] at ht
    split at ht
    · rename_i e hsw
      have hg : s.Gap=false := by rw [Queue.Gap,hsw]
      have hP := hp.allowed hg
      rw [Progress,hsw] at hp
      cases ht
      exact Core.tryAttach (s := s.setElvswitch true) {h with} hP rfl hp.1 hp.2.1 hp.2.2 ls
    · cases ht
  | poll ls =>
    rw [elevatorSwitch] at ht
    split at ht
    · rename_i e hsw
      have hg : s.Gap=false := by rw [Queue.Gap,hsw]
      have hP := hp.allowed hg
      rw [Progress,hsw] at hp
      cases ht
      exact h.tryAttach hP hp.2.2.2 hp.1 hp.2.1 hp.2.2.1 ls
    · cases ht
  | register ok =>
    rw [elevatorSwitch] at ht
    split at ht
    · rename_i old e hsw
      rw [Progress,hsw] at hp
      obtain ⟨hc,he,ho,hne,hpl⟩ := hp
      cases ht
      rw [switchRegister]
      have hl : s.life s.cur=.live := hc ▸ he
      split
      · cases ok with
        | true => exact ⟨{h with},hl,hc ▸ hne,hpl⟩
        | false => exact ⟨{h with},hc,he,ho,hne,hpl⟩
      · exact ⟨{h with},hl,hc ▸ hne,hpl⟩
    · cases ht
  | exitOld =>
    rw [elevatorSwitch] at ht
    split at ht
    · rename_i old hsw
      rw [Progress,hsw] at hp
      obtain ⟨hl,hne,hpl⟩ := hp
      have hx := h.exit hpl old
      cases ht
      exact ⟨{hx with},(update_of_ne hne.symm ..).trans hl⟩
    · cases ht
  | quiesceEnd | clear =>
    obtain ⟨hsw,rfl⟩ := of_guard ht
    rw [Progress,hsw] at hp
    exact ⟨{h with},hp⟩
  | exitNew =>
    rw [elevatorSwitch] at ht
    split at ht
    · rename_i old e hsw
      rw [Progress,hsw] at hp
      obtain ⟨_,_,ho,hne,hpl⟩ := hp
      have hx := h.exit hpl e
      cases ht
      exact ⟨{hx with},(update_of_ne hne ..).trans ho,hpl⟩
    · cases ht
  | reattach ok =>
    rw [elevatorSwitch] at ht
    split at ht
    · rename_i old hsw
      rw [Progress,hsw] at hp
      cases ht
      exact ⟨⟨h.any hp.2 old,h.counted,h.calls,h.exits⟩,hp.1⟩
    · cases ht
  | mayQueue | alloc | noMemory | set | plain | undo | insert | dispatch | start | requeue | put => cases ht

theorem Core.step (h : Core Good s) (hp : Progress s) (ht : quietStep s e=some t) : Core Good t ∧ Progress t := by
  obtain ⟨hq,ht⟩ := Option.ite_none_left_eq_some.mp ht
  rcases Option.or_eq_some_iff.mp ht with hr|⟨_,hs⟩
  · obtain ⟨hi,hsm⟩ := h.request (fun hc => hp.allowed (by simpa [hc] using hq)) hr
    exact ⟨hi,hp.same hsm⟩
  · exact h.switch hp hs

end

/-- If no function of a scheduler is called between the exit of an elevator that could not be
registered and the return to the old one, then every call was made on an elevator that was
initialised and not exited, a request with data of a scheduler was only passed to the
scheduler that set it up, and no elevator held a request when it was exited. -/
theorem elevator_switch_safe_of_quiet {s : Queue} (hs : QuietRun s) :
    (∀ c∈s.calls, c.life=.live ∧ ∀ o, c.owner=some o → o=c.elev) ∧ ∀ x∈s.exits, x.2=[] := by
  have h : Core Good s ∧ Progress s := by
    refine hs.invariant (I := fun s => Core Good s ∧ Progress s) (fun u hu => ?_) (fun _ _ _ _ h ht => h.1.step h.2 ht)
    obtain ⟨hl,_,hn,hr,hsw,hc,hx⟩ := hu
    refine ⟨⟨?_,?_,?_,?_⟩,?_⟩
    · exact fun r hm => absurd (hr ▸ hm) not_mem_nil
    · rw [hn,hr]
      rfl
    · exact fun c hm => absurd (hc ▸ hm) not_mem_nil
    · exact fun x hm => absurd (hx ▸ hm) not_mem_nil
    · rw [Progress,hsw]
      exact hl
  exact ⟨h.1.calls,h.1.exits⟩

/-- A queue with the registered elevator 0. -/
def newQueue : Queue where
  cur := 0
  life := update (fun _ => .absent) 0 .live
  registered := fun e => decide (e=0)
  elvswitch := false
  elvpriv := 0
  requests := []
  switch := .idle
  calls := []
  exits := []

theorem newQueue_start : Start newQueue := ⟨rfl,rfl,rfl,rfl,rfl,rfl,rfl⟩

/-- A request with data of the elevator 0, at a place. -/
def privRq (phase : Phase) (sorted softbarrier : Bool) : Rq := ⟨1,phase,true,true,0,sorted,softbarrier⟩

/-- The elevator 1 replaces the elevator 0 while a request of the latter is on its way: the
switch waits until the request is freed. A request that is allocated meanwhile goes round
both. -/
theorem elevator_switch_safe_of_quiet_busy : ∃ s : Queue, QuietRun s ∧ s.cur=1 ∧ s.life 0=.exited ∧
    s.switch=.idle ∧ s.calls.length=13 ∧ (∀ c∈s.calls, c.life=.live ∧ ∀ o, c.owner=some o → o=c.elev) ∧
    ∀ x∈s.exits, x.2=[] := by
  obtain ⟨s,hr,hcur,hlife,hsw,hlen⟩ :
    ∃ s, QuietRun s ∧ s.cur=1 ∧ s.life 0=.exited ∧ s.switch=.idle ∧ s.calls.length=13 :=
    exists_run (fun _ _ _ => id) newQueue_start
      [.alloc 1 true,.set ⟨1,.allocating,true,false,0,false,false⟩ true,.init 1,
      .insert (privRq .ready false false) .sort false [],.quiesce [[privRq (.held 0) true false]],
      .alloc 2 true,.plain ⟨2,.allocating,false,false,0,false,false⟩,
      .insert ⟨2,.ready,false,false,0,false,false⟩ .sort false [],
      .start (privRq .queued true false),.put (privRq .driver true false) true,.poll [],.register true,.mayQueue,
      .exitOld,.dispatch [],.quiesceEnd] (by decide)
  exact ⟨s,hr,hcur,hlife,hsw,hlen,elevator_switch_safe_of_quiet hr⟩

/-- When the new elevator cannot be registered, it is exited while the queue still points to
it, and a task that asks for a request calls a function of the exited elevator. -/
theorem elevator_switch_calls_exited : ∃ s : Queue, SwitchRun s ∧ ∃ c∈s.calls, c.kind=.mayQueue ∧
    c.elev=1 ∧ c.life=.exited := by
  exact exists_run (fun _ _ _ => id) newQueue_start [.init 1,.quiesce [],.register false,.exitNew,.mayQueue] (by decide)

end BlockIpc.ElevatorSwitch
