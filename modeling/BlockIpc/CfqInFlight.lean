import BlockIpc.TransitionRuns

/-!
# Requests in flight under CFQ

cfq_dispatch_insert counts a request for its queue, its group and its class; the driver's first
look at it counts it as in the driver. The counts are taken back when the request is requeued
or freed, but only if blk_account_rq still says that it was started. All requests that pass the
dispatch list are modelled, also those that never were in CFQ. prep_rq_fn answers at will, and
elv_dispatch_sort may choose any position.
-/

namespace BlockIpc.CfqInFlight

open Function List TransitionRuns

/-- What blk_account_rq asks of the type of a request. -/
inductive Kind where
  /-- REQ_TYPE_FS. -/
  | fs
  /-- REQ_DISCARD is set. -/
  | discard
  | other
  deriving DecidableEq

structure Rq where
  id : ℕ
  /-- RQ_CFQQ. -/
  queue : ℕ
  /-- cfq_cfqq_sync of its queue. -/
  queueSync : Bool
  /-- RQ_CFQG. -/
  group : ℕ
  /-- rq_is_sync. -/
  sync : Bool
  kind : Kind
  sorted : Bool
  started : Bool
  /-- cfq_dispatch_insert moved the request. -/
  moved : Bool
  /-- The request was activated and not deactivated since. -/
  active : Bool
  deriving DecidableEq

/-- The dispatch list, the driver and the counts. -/
structure Flight where
  queueHead : List Rq
  /-- Requests that were started and are not freed. -/
  driver : List Rq
  dispatched : ℕ → ℤ
  groupDispatched : ℕ → ℤ
  rqInFlight : Bool → ℤ
  rqInDriver : ℤ
  /-- in_flight of the request queue. -/
  inFlight : Bool → ℤ
  warn : Bool

/-- The requests that are not freed yet. -/
def Flight.out (s : Flight) : List Rq := s.queueHead++s.driver

def Flight.setQueueHead (s : Flight) (l : List Rq) : Flight := {s with queueHead := l}

def Flight.setDriver (s : Flight) (l : List Rq) : Flight := {s with driver := l}

/-- Add to the dispatched requests of the queue, the group and the class of a request. -/
def Flight.addDispatched (s : Flight) (r : Rq) (n : ℤ) : Flight :=
  {s with
    dispatched := update s.dispatched r.queue (s.dispatched r.queue+n)
    groupDispatched := update s.groupDispatched r.group (s.groupDispatched r.group+n)
    rqInFlight := update s.rqInFlight r.queueSync (s.rqInFlight r.queueSync+n)}

def Flight.addDriver (s : Flight) (n : ℤ) : Flight := {s with rqInDriver := s.rqInDriver+n}

def Flight.addInFlight (s : Flight) (sync : Bool) (n : ℤ) : Flight :=
  {s with inFlight := update s.inFlight sync (s.inFlight sync+n)}

def Flight.warnOn (s : Flight) (b : Bool) : Flight := {s with warn := s.warn || b}

def blkAccountRq (r : Rq) : Bool := r.started && decide (r.kind≠.other)

/-- cfq_dispatch_insert, for what is in flight. -/
def cfqDispatchInsert (s : Flight) (r : Rq) (pos : ℕ) : Flight :=
  (s.addDispatched r 1).setQueueHead (s.queueHead.take pos++{r with moved := true}::s.queueHead.drop pos)

def cfqActivateRequest (s : Flight) : Flight := s.addDriver 1

def cfqDeactivateRequest (s : Flight) : Flight := (s.warnOn (decide (s.rqInDriver=0))).addDriver (-1)

/-- cfq_completed_request, for what is in flight. -/
def cfqCompletedRequest (s : Flight) (r : Rq) : Flight :=
  let s := (s.warnOn (decide (s.rqInDriver=0))).warnOn (decide (s.dispatched r.queue=0))
  (s.addDriver (-1)).addDispatched r (-1)

def blkDequeueRequest (s : Flight) (r : Rq) : Flight :=
  let s := s.setQueueHead (s.queueHead.erase r)
  if blkAccountRq r then s.addInFlight r.sync 1 else s

def blkStartRequest (s : Flight) (r : Rq) : Flight :=
  let s := blkDequeueRequest s r
  s.setDriver (r::s.driver)

def elvCompletedRequest (s : Flight) (r : Rq) : Flight :=
  if blkAccountRq r then
    let s := s.addInFlight r.sync (-1)
    if r.sorted then cfqCompletedRequest s r else s
  else s

/-- __blk_end_request_all: the request is freed. -/
def blkEndRequestAll (s : Flight) (r : Rq) : Flight := elvCompletedRequest (s.setDriver (s.driver.erase r)) r

def elvRequeueRequest (s : Flight) (r : Rq) : Flight :=
  let s := s.setDriver (s.driver.erase r)
  let s :=
    if blkAccountRq r then
      let s := s.addInFlight r.sync (-1)
      if r.sorted then cfqDeactivateRequest s else s
    else s
  s.setQueueHead ({r with started := false, active := false}::s.queueHead)

/-- What prep_rq_fn returns. -/
inductive Prep where
  /-- BLKPREP_OK, or prep_rq_fn is not called. -/
  | ok
  | defer
  | kill
  /-- Something else. -/
  | bad
  deriving DecidableEq

/-- The flags of a request that the driver has seen. -/
def Rq.seen (r : Rq) : Rq := {r with started := true, active := r.active || r.sorted && !r.started}

/-- The request at the front is seen by the driver. -/
def notify (s : Flight) (r : Rq) (l : List Rq) : Flight :=
  let s := if r.sorted && !r.started then cfqActivateRequest s else s
  s.setQueueHead (r.seen::l)

/-- One turn of the loop of blk_peek_request. -/
def blkPeekRequest (s : Flight) (prep : Prep) : Flight :=
  match s.queueHead with
  | [] => s
  | r::l =>
    let s := notify s r l
    match prep with
    | .kill => blkEndRequestAll (blkStartRequest s r.seen) r.seen
    | _ => s

/-- elv_abort_queue, after blk_abort_flushes. -/
def elvAbortQueue (s : Flight) : Flight := s.queueHead.foldl (fun s r => blkEndRequestAll (blkStartRequest s r) r) s

/-- CFQ and the requests in flight. -/
structure Data where
  /-- The requests that CFQ has. -/
  sorted : List Rq
  /-- The requests that it does not have any more, or never had. -/
  flight : Flight

/-- What can happen while the queue lock is taken once. -/
inductive Event where
  /-- __elv_add_request gives a request to CFQ. -/
  | add (r : Rq)
  /-- A request of CFQ is merged into another one. -/
  | merge (r : Rq)
  /-- A request goes to the dispatch list directly. -/
  | insert (r : Rq) (front : Bool)
  /-- CFQ dispatches a request. -/
  | dispatch (r : Rq) (pos : ℕ)
  /-- blk_peek_request. -/
  | peek (prep : Prep)
  /-- blk_start_request, for a request that blk_peek_request returned. -/
  | start (r : Rq)
  /-- blk_requeue_request. -/
  | requeue (r : Rq)
  /-- The driver completes a request. -/
  | complete (r : Rq)
  /-- elv_abort_queue. -/
  | abort

/-- A new request has only its own flags. -/
def Rq.fresh (r : Rq) (sorted : Bool) : Bool := r.sorted==sorted && !r.started && !r.moved && !r.active

/-- One event. __elv_add_request checks the type of a request for CFQ. -/
def flightStep (s : Data) : Event → Option Data
  | .add r => if r.fresh true=true ∧ r.kind≠.other then some {s with sorted := r::s.sorted} else none
  | .merge r =>
    if r∈s.sorted then some ⟨s.sorted.erase r,elvCompletedRequest s.flight r⟩ else none
  | .insert r front =>
    if r.fresh false=true then
      some {s with flight := s.flight.setQueueHead (if front then r::s.flight.queueHead else s.flight.queueHead++[r])}
    else none
  | .dispatch r pos =>
    if r∈s.sorted then some ⟨s.sorted.erase r,cfqDispatchInsert s.flight r pos⟩ else none
  | .peek prep => some {s with flight := blkPeekRequest s.flight prep}
  | .start r =>
    if r∈s.flight.queueHead ∧ r.started=true then some {s with flight := blkStartRequest s.flight r} else none
  | .requeue r =>
    if r∈s.flight.driver then some {s with flight := elvRequeueRequest s.flight r} else none
  | .complete r =>
    if r∈s.flight.driver then some {s with flight := blkEndRequestAll s.flight r} else none
  | .abort => some {s with flight := elvAbortQueue s.flight}

/-- Nothing is in flight, and no request is in CFQ. -/
def newData : Data := ⟨[],⟨[],[],fun _ => 0,fun _ => 0,fun _ => 0,0,fun _ => 0,false⟩⟩

/-- The states when the queue lock is free. -/
def FlightRun : Data → Prop := Reachable (fun s => s=newData) (fun s e t => flightStep s e=some t)

/-- The driver has seen all requests of CFQ that elv_abort_queue meets. -/
def seenFirst (s : Data) : Event → Bool
  | .abort => s.flight.queueHead.all (fun r => !r.sorted || r.started)
  | _ => true

/-- One event after which elv_abort_queue can be counted. -/
def seenStep (s : Data) (e : Event) : Option Data := if seenFirst s e then flightStep s e else none

/-- The states that such events reach. -/
def SeenRun : Data → Prop := Reachable (fun s => s=newData) (fun s e t => seenStep s e=some t)

section

variable {s t : Flight} {l m : List Rq} {r : Rq}

/-- The counts are those of a list of requests. -/
structure Counted (l : List Rq) (s : Flight) : Prop where
  queue : ∀ q, s.dispatched q=l.countP (fun r => r.moved && r.queue==q)
  group : ∀ g, s.groupDispatched g=l.countP (fun r => r.moved && r.group==g)
  sync : ∀ b, s.rqInFlight b=l.countP (fun r => r.moved && r.queueSync==b)
  driver : s.rqInDriver=l.countP (fun r => r.active)
  noWarn : s.warn=false

/-- A counter for each key, when a request is added to what it counts. -/
theorem update_countP {κ : Type} [DecidableEq κ] {f : κ → ℤ} {p : Rq → Bool} {key : Rq → κ}
    (hf : ∀ k, f k=l.countP (fun r => p r && key r==k)) (hr : p r=true) (k : κ) :
    update f (key r) (f (key r)+1) k=(r::l).countP (fun r => p r && key r==k) := by
  rw [countP_cons,hr,Bool.true_and]
  by_cases hk : k=key r
  · rw [hk,update_self,beq_self_eq_true,if_pos rfl,hf]
    push_cast
    rfl
  · rw [update_of_ne hk,if_neg (fun hb => hk (eq_of_beq hb).symm),Nat.add_zero,hf]

/-- The same, when the request is taken away. -/
theorem update_countP_cons {κ : Type} [DecidableEq κ] {f : κ → ℤ} {p : Rq → Bool} {key : Rq → κ}
    (hf : ∀ k, f k=(r::l).countP (fun r => p r && key r==k)) (hr : p r=true) (k : κ) :
    update f (key r) (f (key r)+(-1)) k=l.countP (fun r => p r && key r==k) := by
  have hk := hf k
  rw [countP_cons,hr,Bool.true_and] at hk
  by_cases hkr : k=key r
  · rw [hkr,beq_self_eq_true,if_pos rfl] at hk
    rw [hkr,update_self,hk]
    push_cast
    ring
  · rw [if_neg (fun hb => hkr (eq_of_beq hb).symm),Nat.add_zero] at hk
    rw [update_of_ne hkr,hk]

/-- A request that a counter does not count. -/
theorem countP_cons_of_not {κ : Type} [DecidableEq κ] {p : Rq → Bool} (key : Rq → κ) (hr : p r=false) (k : κ) :
    (r::l).countP (fun r => p r && key r==k)=l.countP (fun r => p r && key r==k) := by
  rw [countP_cons,hr,Bool.false_and]
  rfl

/-- Only the requests matter, not their order. -/
theorem Counted.perm (h : Counted l s) (hp : l.Perm m) : Counted m s :=
  ⟨fun q => by rw [h.queue,hp.countP_eq],fun g => by rw [h.group,hp.countP_eq],fun b => by rw [h.sync,hp.countP_eq],
    by rw [h.driver,hp.countP_eq],h.noWarn⟩

/-- A request that CFQ did not move is not counted. -/
theorem Counted.cons (hm : r.moved=false) (ha : r.active=false) : Counted (r::l) s ↔ Counted l s := by
  have hd : (r::l).countP (fun r => r.active)=l.countP (fun r => r.active) := by
    rw [countP_cons,ha]
    rfl
  constructor <;> intro h
  all_goals
    exact ⟨fun q => by rw [h.queue,countP_cons_of_not Rq.queue hm],
      fun g => by rw [h.group,countP_cons_of_not Rq.group hm],
      fun b => by rw [h.sync,countP_cons_of_not Rq.queueSync hm],by rw [h.driver,hd],h.noWarn⟩

theorem Counted.dispatch (h : Counted l s) (hm : r.moved=true) (ha : r.active=false) :
    Counted (r::l) (s.addDispatched r 1) := by
  refine ⟨update_countP h.queue hm,update_countP h.group hm,update_countP h.sync hm,?_,h.noWarn⟩
  rw [countP_cons,ha]
  exact h.driver

theorem Counted.activate (h : Counted (r::l) s) (ha : r.active=false) :
    Counted ({r with started := true, active := true}::l) (cfqActivateRequest s) := by
  refine ⟨h.queue,h.group,h.sync,?_,h.noWarn⟩
  have hd := h.driver
  rw [countP_cons,ha] at hd
  rw [countP_cons,if_pos rfl]
  change s.rqInDriver+1=_
  rw [hd]
  push_cast
  rfl

/-- rq_in_driver is not zero as long as a request is active. -/
theorem Counted.driver_ne_zero (h : Counted l s) (hr : r∈l) (ha : r.active=true) : s.rqInDriver≠0 := by
  rw [h.driver]
  exact Int.natCast_ne_zero.mpr (Nat.pos_iff_ne_zero.mp (countP_pos_iff.mpr ⟨r,hr,ha⟩))

/-- dispatched is not zero as long as a request of the queue is in flight. -/
theorem Counted.dispatched_ne_zero (h : Counted l s) (hr : r∈l) (hm : r.moved=true) : s.dispatched r.queue≠0 := by
  rw [h.queue]
  refine Int.natCast_ne_zero.mpr (Nat.pos_iff_ne_zero.mp (countP_pos_iff.mpr ⟨r,hr,?_⟩))
  rw [hm,beq_self_eq_true]
  rfl

theorem warnOn_false (s : Flight) : s.warnOn false=s := by
  rw [Flight.warnOn,Bool.or_false]

/-- rq_in_driver without an active request. -/
theorem Counted.driver_pred (h : Counted (r::l) s) (ha : r.active=true) :
    s.rqInDriver+(-1)=l.countP (fun r => r.active) := by
  rw [h.driver,countP_cons,ha,if_pos rfl]
  push_cast
  ring

theorem Counted.deactivate (h : Counted (r::l) s) (ha : r.active=true) :
    Counted ({r with started := false, active := false}::l) (cfqDeactivateRequest s) := by
  rw [cfqDeactivateRequest,decide_eq_false (h.driver_ne_zero mem_cons_self ha),warnOn_false]
  refine ⟨h.queue,h.group,h.sync,?_,h.noWarn⟩
  rw [countP_cons]
  exact h.driver_pred ha

/-- An active request of CFQ is completed. -/
theorem Counted.complete (h : Counted (r::l) s) (hm : r.moved=true) (ha : r.active=true) :
    Counted l (cfqCompletedRequest s r) := by
  rw [cfqCompletedRequest,decide_eq_false (h.driver_ne_zero mem_cons_self ha),warnOn_false,
    decide_eq_false (h.dispatched_ne_zero mem_cons_self hm),warnOn_false]
  exact ⟨update_countP_cons h.queue hm,update_countP_cons h.group hm,update_countP_cons h.sync hm,h.driver_pred ha,
    h.noWarn⟩

/-- The flags of a request after it left CFQ. -/
structure Rq.Ok (r : Rq) : Prop where
  /-- The sorted requests are those that CFQ moved. -/
  moved : r.moved=r.sorted
  /-- A sorted request is active when the driver has seen it. -/
  active : r.active=(r.sorted && r.started)
  /-- CFQ has requests that are accounted. -/
  kind : r.sorted=true → r.kind≠.other

theorem Rq.Ok.not_sorted (h : r.Ok) (hs : r.sorted=false) : r.moved=false ∧ r.active=false := by
  rw [h.moved,h.active,hs]
  exact ⟨rfl,rfl⟩

theorem Rq.Ok.account (h : r.Ok) (hs : r.sorted=true) (hst : r.started=true) :
    blkAccountRq r=true ∧ r.active=true := by
  rw [blkAccountRq,h.active,hs,hst,decide_eq_true (h.kind hs)]
  exact ⟨rfl,rfl⟩

/-- All counts are right. -/
structure FlightInv (s : Flight) : Prop where
  counted : Counted s.out s
  io : ∀ b, s.inFlight b=s.driver.countP (fun r => blkAccountRq r && r.sync==b)
  /-- The flags of the requests. -/
  ok : ∀ r∈s.out, r.Ok
  started : ∀ r∈s.driver, r.started=true

theorem out_perm_queueHead (hr : r∈s.queueHead) : s.out.Perm (r::(s.queueHead.erase r++s.driver)) :=
  (perm_cons_erase hr).append_right s.driver

/-- A request of the driver comes first, in some order. -/
theorem out_perm_driver (hr : r∈s.driver) : s.out.Perm (r::(s.queueHead++s.driver.erase r)) :=
  ((perm_cons_erase hr).append_left s.queueHead).trans perm_middle

theorem Rq.fresh_iff {b : Bool} : r.fresh b=true ↔ r.sorted=b ∧ r.started=false ∧ r.moved=false ∧ r.active=false := by
  simp [Rq.fresh,and_assoc]

/-- CFQ dispatches a request. -/
theorem FlightInv.dispatch (h : FlightInv s) (hf : r.fresh true=true) (hk : r.kind≠.other) (pos : ℕ) :
    FlightInv (cfqDispatchInsert s r pos) := by
  obtain ⟨hs,hst,hm,ha⟩ := Rq.fresh_iff.mp hf
  have hperm : (cfqDispatchInsert s r pos).out.Perm ({r with moved := true}::s.out) := by
    have hsplit : (s.queueHead.take pos++{r with moved := true}::s.queueHead.drop pos).Perm
        ({r with moved := true}::s.queueHead) := by
      refine perm_middle.trans ?_
      rw [take_append_drop]
    exact hsplit.append_right s.driver
  refine ⟨?_,h.io,fun x hx => ?_,h.started⟩
  · have hc := Counted.dispatch (r := {r with moved := true}) h.counted rfl ha
    exact (show Counted _ (cfqDispatchInsert s r pos) from {hc with}).perm hperm.symm
  · rcases mem_cons.mp (hperm.mem_iff.mp hx) with rfl|hx
    · exact ⟨hs.symm,by rw [hst,Bool.and_false]; exact ha,fun _ => hk⟩
    · exact h.ok x hx

/-- A request that CFQ never had goes to the dispatch list. -/
theorem FlightInv.insert (h : FlightInv s) (hf : r.fresh false=true) (hl : l.Perm (r::s.queueHead)) :
    FlightInv (s.setQueueHead l) := by
  obtain ⟨hs,hst,hm,ha⟩ := Rq.fresh_iff.mp hf
  have hperm : (s.setQueueHead l).out.Perm (r::s.out) := hl.append_right s.driver
  refine ⟨?_,h.io,fun x hx => ?_,h.started⟩
  · have hc := (Counted.cons hm ha).mpr h.counted
    exact (show Counted _ (s.setQueueHead l) from {hc with}).perm hperm.symm
  · rcases mem_cons.mp (hperm.mem_iff.mp hx) with rfl|hx
    · exact ⟨hm.trans hs.symm,by rw [hs]; exact ha,fun hc => absurd (hs.symm.trans hc) Bool.false_ne_true⟩
    · exact h.ok x hx

/-- The request at the front is seen by the driver. -/
theorem FlightInv.notify (h : FlightInv s) (hq : s.queueHead=r::l) : FlightInv (notify s r l) := by
  have hout : s.out=r::(l++s.driver) := by
    rw [Flight.out,hq]
    rfl
  have hok := h.ok r (hout ▸ mem_cons_self)
  have hc := h.counted
  rw [hout] at hc
  have hseen : r.seen.Ok := by
    refine ⟨hok.moved,?_,hok.kind⟩
    change (r.active || r.sorted && !r.started)=(r.sorted && true)
    rw [hok.active]
    cases r.sorted with
    | false => rfl
    | true =>
      cases r.started with
      | false | true => rfl
  have hrest : ∀ x∈r.seen::(l++s.driver), x.Ok := by
    intro x hx
    rcases mem_cons.mp hx with rfl|hx
    · exact hseen
    · exact h.ok x (hout ▸ mem_cons_of_mem r hx)
  rw [CfqInFlight.notify]
  by_cases hn : (r.sorted && !r.started)=true
  · rw [if_pos hn]
    obtain ⟨hs,hst⟩ := Bool.and_eq_true_iff.mp hn
    have ha : r.active=false := by
      rw [hok.active,(Bool.not_eq_true' _).mp hst,Bool.and_false]
    have hact : r.seen={r with started := true, active := true} := by
      rw [Rq.seen,hn,Bool.or_true]
    have hca := hc.activate ha
    rw [← hact] at hca
    exact ⟨{hca with},h.io,hrest,h.started⟩
  · rw [if_neg hn]
    have hact : r.seen={r with started := true} := by
      rw [Rq.seen,(Bool.not_eq_true _).mp hn,Bool.or_false]
    rw [hact] at hrest ⊢
    exact ⟨{hc with},h.io,hrest,h.started⟩

/-- The driver starts a request that it has seen. -/
theorem FlightInv.start (h : FlightInv s) (hr : r∈s.queueHead) (hst : r.started=true) :
    FlightInv (blkStartRequest s r) ∧ r∈(blkStartRequest s r).driver := by
  have hperm := (out_perm_queueHead hr).trans (perm_middle (a := r)).symm
  have hc := h.counted.perm hperm
  have hok : ∀ x∈s.queueHead.erase r++r::s.driver, x.Ok := fun x hx => h.ok x (hperm.mem_iff.mpr hx)
  have hdrv : ∀ x∈r::s.driver, x.started=true := forall_mem_cons.mpr ⟨hst,h.started⟩
  rw [blkStartRequest,blkDequeueRequest]
  split
  · rename_i ha
    exact ⟨⟨{hc with},update_countP h.io ha,hok,hdrv⟩,mem_cons_self⟩
  · rename_i ha
    refine ⟨⟨{hc with},fun b => ?_,hok,hdrv⟩,mem_cons_self⟩
    have hcons := countP_cons_of_not (l := s.driver) Rq.sync ((Bool.not_eq_true _).mp ha) b
    exact (h.io b).trans (congrArg Nat.cast hcons.symm)

/-- What the request queue counts after a started request left the driver. -/
theorem FlightInv.io_erase (h : FlightInv s) (hr : r∈s.driver) (b : Bool) :
    (if blkAccountRq r then update s.inFlight r.sync (s.inFlight r.sync+(-1)) else s.inFlight) b=
      (s.driver.erase r).countP (fun r => blkAccountRq r && r.sync==b) := by
  have hio : ∀ b, s.inFlight b=(r::s.driver.erase r).countP (fun r => blkAccountRq r && r.sync==b) := by
    intro b
    rw [h.io,(perm_cons_erase hr).countP_eq]
  split
  · rename_i ha
    exact update_countP_cons hio ha b
  · rename_i ha
    rw [hio,countP_cons_of_not Rq.sync ((Bool.not_eq_true _).mp ha)]

/-- A request of the driver is completed and freed. -/
theorem FlightInv.finish (h : FlightInv s) (hr : r∈s.driver) : FlightInv (blkEndRequestAll s r) := by
  have hperm := out_perm_driver hr
  have hc := h.counted.perm hperm
  have hok := h.ok r (hperm.mem_iff.mpr mem_cons_self)
  have hrest : ∀ x∈s.queueHead++s.driver.erase r, x.Ok := fun x hx => h.ok x (hperm.mem_iff.mpr (mem_cons_of_mem r hx))
  have hdrv : ∀ x∈s.driver.erase r, x.started=true := fun x hx => h.started x (mem_of_mem_erase hx)
  have hio := h.io_erase hr
  rw [blkEndRequestAll,elvCompletedRequest]
  by_cases hs : r.sorted=true
  · obtain ⟨ha,hact⟩ := hok.account hs (h.started r hr)
    rw [if_pos ha] at hio
    rw [if_pos ha,if_pos hs]
    have hdone := Counted.complete (s := (s.setDriver (s.driver.erase r)).addInFlight r.sync (-1)) (r := r)
      {hc with} (hok.moved.trans hs) hact
    exact ⟨{hdone with},hio,hrest,hdrv⟩
  · have hns := hok.not_sorted ((Bool.not_eq_true _).mp hs)
    have hc' := (Counted.cons hns.1 hns.2).mp hc
    split <;> rename_i ha <;> simp only [ha,↓reduceIte] at hio <;> exact ⟨{hc' with},hio,hrest,hdrv⟩

theorem FlightInv.requeue (h : FlightInv s) (hr : r∈s.driver) : FlightInv (elvRequeueRequest s r) := by
  have hperm := out_perm_driver hr
  have hc := h.counted.perm hperm
  have hok := h.ok r (hperm.mem_iff.mpr mem_cons_self)
  have hrest : ∀ x∈{r with started := false, active := false}::(s.queueHead++s.driver.erase r), x.Ok := by
    intro x hx
    rcases mem_cons.mp hx with rfl|hx
    · exact ⟨hok.moved,(Bool.and_false _).symm,hok.kind⟩
    · exact h.ok x (hperm.mem_iff.mpr (mem_cons_of_mem r hx))
  have hdrv : ∀ x∈s.driver.erase r, x.started=true := fun x hx => h.started x (mem_of_mem_erase hx)
  have hio := h.io_erase hr
  rw [elvRequeueRequest]
  by_cases hs : r.sorted=true
  · obtain ⟨ha,hact⟩ := hok.account hs (h.started r hr)
    rw [if_pos ha] at hio
    rw [if_pos ha,if_pos hs]
    have hdone := Counted.deactivate (s := (s.setDriver (s.driver.erase r)).addInFlight r.sync (-1)) (r := r)
      {hc with} hact
    exact ⟨{hdone with},hio,hrest,hdrv⟩
  · have hns := hok.not_sorted ((Bool.not_eq_true _).mp hs)
    have hc' : Counted ({r with started := false, active := false}::(s.queueHead++s.driver.erase r)) s :=
      (Counted.cons (r := {r with started := false, active := false}) hns.1 rfl).mpr ((Counted.cons hns.1 hns.2).mp hc)
    split <;> rename_i ha <;> simp only [ha,↓reduceIte] at hio <;> exact ⟨{hc' with},hio,hrest,hdrv⟩

theorem FlightInv.peek (h : FlightInv s) (prep : Prep) : FlightInv (blkPeekRequest s prep) := by
  rw [blkPeekRequest]
  split
  · exact h
  · rename_i r l hq
    have hn := h.notify hq
    cases prep with
    | kill =>
      obtain ⟨hst,hmem⟩ := hn.start (r := r.seen) mem_cons_self rfl
      exact hst.finish hmem
    | ok | defer | bad => exact hn

/-- elv_abort_queue meets a request that the driver has seen, or that CFQ never had. -/
theorem FlightInv.abortOne (h : FlightInv s) (hq : s.queueHead=r::l) (hr : r.sorted=true → r.started=true) :
    FlightInv (blkEndRequestAll (blkStartRequest s r) r) ∧
      (blkEndRequestAll (blkStartRequest s r) r).queueHead=l := by
  have hmem : r∈s.queueHead := hq ▸ mem_cons_self
  have hlist : s.queueHead.erase r=l := by
    rw [hq,erase_cons_head]
  refine ⟨?_,?_⟩
  · by_cases hst : r.started=true
    · obtain ⟨hi,hd⟩ := h.start hmem hst
      exact hi.finish hd
    · have hs : r.sorted=false := (Bool.not_eq_true _).mp (fun hs => hst (hr hs))
      have ha : blkAccountRq r=false := by
        rw [blkAccountRq,(Bool.not_eq_true _).mp hst]
        rfl
      have hperm := out_perm_queueHead hmem
      have hns := (h.ok r (hperm.mem_iff.mpr mem_cons_self)).not_sorted hs
      have hc := (Counted.cons hns.1 hns.2).mp (h.counted.perm hperm)
      have heq : blkEndRequestAll (blkStartRequest s r) r=s.setQueueHead (s.queueHead.erase r) := by
        rw [blkEndRequestAll,elvCompletedRequest,blkStartRequest,blkDequeueRequest,ha]
        change {s with queueHead := s.queueHead.erase r, driver := (r::s.driver).erase r}=_
        rw [erase_cons_head]
        rfl
      rw [heq]
      exact ⟨{hc with},h.io,fun x hx => h.ok x (hperm.mem_iff.mpr (mem_cons_of_mem r hx)),h.started⟩
  · rw [blkEndRequestAll,elvCompletedRequest,blkStartRequest,blkDequeueRequest]
    split
    · split
      · exact hlist
      · exact hlist
    · exact hlist

/-- elv_abort_queue, when the driver has seen all requests of CFQ. -/
theorem FlightInv.abort (h : FlightInv s) (hs : ∀ r∈s.queueHead, r.sorted=true → r.started=true) :
    FlightInv (elvAbortQueue s) := by
  have hall : ∀ (l : List Rq) (s : Flight), s.queueHead=l → FlightInv s → (∀ r∈l, r.sorted=true → r.started=true) →
      FlightInv (l.foldl (fun s r => blkEndRequestAll (blkStartRequest s r) r) s) := by
    intro l
    induction l with
    | nil => exact fun s _ h _ => h
    | cons r l ih =>
      intro s hq h hs
      obtain ⟨hr,hl⟩ := forall_mem_cons.mp hs
      obtain ⟨hi,hrest⟩ := h.abortOne hq hr
      exact ih _ hrest hi hl
  exact hall s.queueHead s rfl h hs

/-- Everything that can be said when the lock is free. -/
structure DataInv (s : Data) : Prop where
  flight : FlightInv s.flight
  /-- The requests that CFQ has were not dispatched. -/
  sorted : ∀ r∈s.sorted, r.fresh true=true ∧ r.kind≠.other

/-- A request that the driver has not seen is not accounted. -/
theorem account_of_fresh {b : Bool} (h : r.fresh b=true) : blkAccountRq r=false := by
  rw [blkAccountRq,(Rq.fresh_iff.mp h).2.1]
  rfl

/-- Every event keeps the counts right. -/
theorem DataInv.step {s t : Data} {e : Event} (h : DataInv s) (hs : seenStep s e=some t) : DataInv t := by
  obtain ⟨hseen,hs⟩ := Option.ite_none_right_eq_some.mp hs
  cases e with
  | add r =>
    obtain ⟨hr,rfl⟩ := of_guard hs
    exact ⟨h.flight,forall_mem_cons.mpr ⟨hr,h.sorted⟩⟩
  | merge r =>
    obtain ⟨hr,rfl⟩ := of_guard hs
    rw [elvCompletedRequest,account_of_fresh (h.sorted r hr).1]
    exact ⟨h.flight,fun x hx => h.sorted x (mem_of_mem_erase hx)⟩
  | insert r front =>
    obtain ⟨hr,rfl⟩ := of_guard hs
    refine ⟨h.flight.insert hr ?_,h.sorted⟩
    cases front with
    | true => exact List.Perm.refl _
    | false => exact perm_append_singleton r _
  | dispatch r pos =>
    obtain ⟨hr,rfl⟩ := of_guard hs
    obtain ⟨hf,hk⟩ := h.sorted r hr
    exact ⟨h.flight.dispatch hf hk pos,fun x hx => h.sorted x (mem_of_mem_erase hx)⟩
  | peek prep =>
    cases hs
    exact ⟨h.flight.peek prep,h.sorted⟩
  | start r =>
    obtain ⟨hr,rfl⟩ := of_guard hs
    exact ⟨(h.flight.start hr.1 hr.2).1,h.sorted⟩
  | requeue r =>
    obtain ⟨hr,rfl⟩ := of_guard hs
    exact ⟨h.flight.requeue hr,h.sorted⟩
  | complete r =>
    obtain ⟨hr,rfl⟩ := of_guard hs
    exact ⟨h.flight.finish hr,h.sorted⟩
  | abort =>
    cases hs
    rw [seenFirst,all_eq_true] at hseen
    refine ⟨h.flight.abort (fun r hr hsort => ?_),h.sorted⟩
    have hor := hseen r hr
    rw [hsort] at hor
    exact hor

/-- Nothing is in flight at the start. -/
theorem newData_inv : DataInv newData :=
  ⟨⟨⟨fun _ => rfl,fun _ => rfl,fun _ => rfl,rfl,rfl⟩,fun _ => rfl,fun _ hr => absurd hr not_mem_nil,
    fun _ hr => absurd hr not_mem_nil⟩,fun _ hr => absurd hr not_mem_nil⟩

theorem DataInv.run {s : Data} (h : SeenRun s) : DataInv s :=
  h.invariant (fun _ hs => hs ▸ newData_inv) (fun _ _ _ _ hi hs => hi.step hs)

end

/-- As long as elv_abort_queue meets no request of CFQ that the driver has not seen: the
counts of a queue, a group and a class are the requests that cfq_dispatch_insert moved and
that are not freed, rq_in_driver is the number of active requests, no count is negative,
no WARN_ON is met, and all counts are zero when nothing is outstanding. -/
theorem in_flight_exact_of_seen {s : Data} (h : SeenRun s) :
    (∀ q, s.flight.dispatched q=s.flight.out.countP (fun r => r.moved && r.queue==q)) ∧
      (∀ b, s.flight.rqInFlight b=s.flight.out.countP (fun r => r.moved && r.queueSync==b)) ∧
      (∀ g, s.flight.groupDispatched g=s.flight.out.countP (fun r => r.moved && r.group==g)) ∧
      s.flight.rqInDriver=s.flight.out.countP (fun r => r.active) ∧
      ((∀ q, 0 ≤ s.flight.dispatched q) ∧ (∀ b, 0 ≤ s.flight.rqInFlight b) ∧ (∀ g, 0 ≤ s.flight.groupDispatched g) ∧
        0 ≤ s.flight.rqInDriver) ∧
      s.flight.warn=false ∧
      (s.flight.out=[] → (∀ q, s.flight.dispatched q=0) ∧ (∀ b, s.flight.rqInFlight b=0) ∧
        (∀ g, s.flight.groupDispatched g=0) ∧ s.flight.rqInDriver=0) := by
  obtain ⟨hq,hg,hb,hd,hw⟩ := (DataInv.run h).flight.counted
  refine ⟨hq,hb,hg,hd,⟨fun q => ?_,fun b => ?_,fun g => ?_,?_⟩,hw,fun hout => ⟨fun q => ?_,fun b => ?_,fun g => ?_,?_⟩⟩
  · rw [hq]
    exact Int.natCast_nonneg _
  · rw [hb]
    exact Int.natCast_nonneg _
  · rw [hg]
    exact Int.natCast_nonneg _
  · rw [hd]
    exact Int.natCast_nonneg _
  · rw [hq,hout]
    rfl
  · rw [hb,hout]
    rfl
  · rw [hg,hout]
    rfl
  · rw [hd,hout]
    rfl

/-- A write of queue 3, group 1. -/
def someWrite : Rq := ⟨7,3,false,1,false,.fs,true,false,false,false⟩

/-- A request is dispatched, deferred, and elv_abort_queue frees it. -/
theorem in_flight_exact_of_seen_deferred :
    ∃ s, SeenRun s ∧ s.flight.out=[] ∧ s.flight.dispatched 3=0 ∧ s.flight.rqInDriver=0 := by
  obtain ⟨s,hrun,hout⟩ : ∃ s, SeenRun s ∧ s.flight.out=[] :=
    exists_run (fun _ _ _ => id) rfl [.add someWrite,.dispatch someWrite 0,.peek .defer,.abort] (by decide)
  obtain ⟨_,_,_,_,_,_,hzero⟩ := in_flight_exact_of_seen hrun
  exact ⟨s,hrun,hout,(hzero hout).1 3,(hzero hout).2.2.2⟩

/-- A request is dispatched, and elv_abort_queue frees it before the driver has seen it:
nothing is outstanding, but the queue, its group and its class keep one request in flight. -/
theorem in_flight_leaked :
    ∃ s, FlightRun s ∧ s.flight.out=[] ∧ s.flight.dispatched 3=1 ∧ s.flight.groupDispatched 1=1 ∧
      s.flight.rqInFlight false=1 :=
  exists_run (fun _ _ _ => id) rfl [.add someWrite,.dispatch someWrite 0,.abort] (by decide)

end BlockIpc.CfqInFlight
