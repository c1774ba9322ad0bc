import BlockIpc.TransitionRuns

/-!
# Completion against timeout

REQ_ATOM_COMPLETE decides between the completion of a request and its timeout.
blk_complete_request runs without the queue lock and is cut after its test and set; the timer
function and blk_abort_request hold the lock and are cut where a completion can come in between:
while rq_timed_out_fn runs, before the bit is cleared and before the timer is set again. The
driver calls blk_complete_request at most once for each start.
-/

namespace BlockIpc.CompletionRace

open TransitionRuns

/-- What the timeout of a request does next, with the queue lock. -/
inductive Stage where
  /-- rq_timed_out_fn runs. -/
  | asking
  /-- BLK_EH_RESET_TIMER: blk_clear_rq_complete comes next. -/
  | clearing
  /-- The bit is cleared and blk_add_timer comes next. -/
  | arming
  /-- BLK_EH_HANDLED: __blk_complete_request comes next. -/
  | completing
  deriving DecidableEq

/-- A request since its last start. -/
structure Rq where
  started : Bool
  /-- REQ_ATOM_COMPLETE. -/
  complete : Bool
  /-- The driver has called blk_complete_request. -/
  called : Bool
  /-- The call has set the bit and __blk_complete_request comes next. -/
  inCall : Bool
  /-- How often __blk_complete_request ran. -/
  completes : ℕ
  /-- rq_timed_out_fn returned BLK_EH_HANDLED or BLK_EH_NOT_HANDLED. -/
  verdict : Bool
  /-- The request is on timeout_list. -/
  armed : Bool
  deriving DecidableEq

/-- A request that is not started. -/
def idle : Rq := ⟨false,false,false,false,0,false,false⟩

/-- The requests and who has the queue lock. -/
structure Data where
  rqs : ℕ → Rq
  /-- The timeout that is under way. -/
  lock : Option (ℕ × Stage)
  bug : Bool

def Data.setRq (s : Data) (r : ℕ) (x : Rq) : Data := {s with rqs := Function.update s.rqs r x}

def Data.setLock (s : Data) (l : Option (ℕ × Stage)) : Data := {s with lock := l}

/-- The results of rq_timed_out_fn. -/
inductive Answer where
  /-- BLK_EH_HANDLED. -/
  | handled
  /-- BLK_EH_RESET_TIMER. -/
  | reset
  /-- BLK_EH_NOT_HANDLED. -/
  | notHandled
  deriving DecidableEq

/-- blk_complete_request, up to its test and set. -/
def blkCompleteRequest (s : Data) (r : ℕ) : Data :=
  let x := {s.rqs r with called := true}
  if x.complete then s.setRq r x else s.setRq r {x with complete := true, inCall := true}

/-- __blk_complete_request. -/
def blkCompleteRequest' (s : Data) (r : ℕ) : Data :=
  s.setRq r {s.rqs r with inCall := false, completes := (s.rqs r).completes+1}

/-- blk_rq_timed_out_timer for a request whose deadline has passed, until it calls
rq_timed_out_fn. -/
def timedOut (s : Data) (r : ℕ) : Data :=
  let x := {s.rqs r with armed := false}
  if x.complete then s.setRq r x else (s.setRq r {x with complete := true}).setLock (some (r,.asking))

/-- blk_abort_request, until it calls rq_timed_out_fn. -/
def blkAbortRequest (s : Data) (r : ℕ) : Data :=
  if (s.rqs r).complete then s
  else (s.setRq r {s.rqs r with complete := true, armed := false}).setLock (some (r,.asking))

/-- The switch of blk_rq_timed_out. -/
def answered (s : Data) (r : ℕ) : Answer → Data
  | .handled => (s.setRq r {s.rqs r with verdict := true}).setLock (some (r,.completing))
  | .reset => s.setLock (some (r,.clearing))
  | .notHandled => (s.setRq r {s.rqs r with verdict := true}).setLock none

/-- The rest of blk_rq_timed_out. -/
def proceed (s : Data) (r : ℕ) : Stage → Option Data
  | .asking => none
  | .clearing => some ((s.setRq r {s.rqs r with complete := false}).setLock (some (r,.arming)))
  | .arming => some {(s.setRq r {s.rqs r with armed := true}).setLock none with bug := s.bug || (s.rqs r).complete}
  | .completing => some ((blkCompleteRequest' s r).setLock none)

/-- What can happen. -/
inductive Event where
  /-- blk_start_request. -/
  | start (r : ℕ)
  /-- The driver calls blk_complete_request. -/
  | call (r : ℕ)
  /-- The call goes on. -/
  | finish (r : ℕ)
  /-- The timer function meets a request whose deadline has passed. -/
  | late (r : ℕ)
  /-- blk_abort_request. -/
  | abort (r : ℕ)
  /-- rq_timed_out_fn returns. -/
  | answer (a : Answer)
  /-- The timeout goes on. -/
  | proceed
  /-- The request is done, or requeued. -/
  | done (r : ℕ)

/-- A start ends after a completion or after the driver took the request over; and the driver
can requeue a request that it has not reported. -/
def isDone (s : Data) (r : ℕ) : Bool :=
  (s.rqs r).started && !(s.rqs r).inCall &&
    (decide (0<(s.rqs r).completes) || (s.rqs r).verdict || !(s.rqs r).called) && s.lock.isNone

def raceStep (s : Data) : Event → Option Data
  | .start r =>
    if s.lock=none ∧ (s.rqs r).started=false then some (s.setRq r {idle with started := true, armed := true}) else none
  | .call r =>
    if (s.rqs r).started=true ∧ (s.rqs r).called=false then some (blkCompleteRequest s r) else none
  | .finish r => if (s.rqs r).inCall=true then some (blkCompleteRequest' s r) else none
  | .late r => if s.lock=none ∧ (s.rqs r).armed=true then some (timedOut s r) else none
  | .abort r => if s.lock=none ∧ (s.rqs r).started=true then some (blkAbortRequest s r) else none
  | .answer a =>
    match s.lock with
    | some (r,.asking) => some (answered s r a)
    | _ => none
  | .proceed =>
    match s.lock with
    | some (r,st) => proceed s r st
    | none => none
  | .done r => if isDone s r then some (s.setRq r idle) else none

/-- No request is started. -/
def newData : Data := ⟨fun _ => idle,none,false⟩

/-- All states. -/
def RaceRun : Data → Prop := Reachable (fun s => s=newData) (fun s e t => raceStep s e=some t)

/-- The bit is not cleared when the driver has called blk_complete_request since it was set. -/
def unreported (s : Data) : Event → Bool
  | .proceed =>
    match s.lock with
    | some (r,.clearing) => !(s.rqs r).called
    | _ => true
  | _ => true

/-- One such event. -/
def unreportedStep (s : Data) (e : Event) : Option Data := if unreported s e then raceStep s e else none

/-- The states that such events reach. -/
def UnreportedRun : Data → Prop := Reachable (fun s => s=newData) (fun s e t => unreportedStep s e=some t)

section

variable {s t : Data} {x : Rq} {st : Option Stage} {r : ℕ}

/-- The timeout of a request that is under way. -/
def stage (s : Data) (r : ℕ) : Option Stage :=
  match s.lock with
  | some (q,st) => if q=r then some st else none
  | none => none

/-- What holds for a request and its timeout. -/
structure RqOk (x : Rq) (st : Option Stage) : Prop where
  le : x.completes≤1
  /-- While the bit is clear nothing has happened. -/
  free : x.complete=false → x.completes=0 ∧ x.inCall=false
  /-- The call that has set the bit completes the request. -/
  call : x.inCall=true → x.completes=0 ∧ (st=none ∨ st=some .arming)
  /-- So does the timeout that has set the bit. -/
  held : ∀ y, st=some y → y≠.arming → x.complete=true ∧ x.completes=0 ∧ x.inCall=false
  /-- Whoever has set the bit takes care of the request. -/
  marked : x.complete=true → x.inCall=true ∨ 0<x.completes ∨ x.verdict=true ∨ ∃ y, st=some y ∧ y≠.arming

/-- What holds for all requests. -/
def RaceInv (s : Data) : Prop := ∀ r, RqOk (s.rqs r) (stage s r)

theorem stage_self {y : Stage} (hl : s.lock=some (r,y)) : stage s r=some y := by
  simp [stage,hl]

theorem stage_none (hl : s.lock=none) : stage s r=none := by
  simp [stage,hl]

/-- A change of one request, while the lock stays. -/
theorem RaceInv.setRq (h : RaceInv s) (hx : RqOk x (stage s r)) : RaceInv (s.setRq r x) := by
  intro q
  by_cases hq : q=r
  · rw [hq]
    simpa [Data.setRq,stage] using hx
  · simpa [Data.setRq,stage,hq] using h q

/-- A change of one request and of its timeout. -/
theorem RaceInv.setBoth (h : RaceInv s) (hl : s.lock=none ∨ ∃ y, s.lock=some (r,y)) (hx : RqOk x st) :
    RaceInv ((s.setRq r x).setLock (st.map (fun y => (r,y)))) := by
  intro q
  have hold := h q
  by_cases hq : q=r
  · rw [hq]
    cases st with
    | none | some y => simpa [Data.setRq,Data.setLock,stage] using hx
  · have hnone : stage s q=none := by
      rcases hl with hl|⟨y,hl⟩
      · exact stage_none hl
      · simp [stage,hl,Ne.symm hq]
    rw [hnone] at hold
    cases st with
    | none => simpa [Data.setRq,Data.setLock,stage,hq] using hold
    | some y => simpa [Data.setRq,Data.setLock,stage,hq,Ne.symm hq] using hold

theorem fresh_ok (b c : Bool) : RqOk {idle with started := b, armed := c} none :=
  ⟨Nat.zero_le 1,fun _ => ⟨rfl,rfl⟩,nofun,nofun,nofun⟩

theorem RqOk.other (h : RqOk x st) (b c : Bool) : RqOk {x with called := b, armed := c} st := {h with}

/-- The driver's call sets the bit. -/
theorem RqOk.callFirst (h : RqOk x st) (hc : x.complete=false) :
    RqOk {x with called := true, complete := true, inCall := true} st := by
  have hst : st=none ∨ st=some .arming := by
    rcases st with _|y
    · exact .inl rfl
    · by_cases hy : y=.arming
      · exact .inr (congrArg some hy)
      · have := (h.held y rfl hy).1
        exact absurd (hc.symm.trans this) nofun
  have hz := (h.free hc).1
  refine ⟨h.le,nofun,fun _ => ⟨hz,hst⟩,fun y hy hne => ?_,fun _ => .inl rfl⟩
  rcases hst with hst|hst
  · exact absurd (hst.symm.trans hy) nofun
  · exact absurd (Option.some.inj (hy.symm.trans hst)) hne

/-- The driver's call completes the request. -/
theorem RqOk.finish (h : RqOk x st) (hc : x.inCall=true) :
    RqOk {x with inCall := false, completes := x.completes+1} st := by
  obtain ⟨hz,hst⟩ := h.call hc
  refine ⟨?_,fun hf => ?_,nofun,fun y hy hne => ?_,fun _ => .inr (.inl (Nat.succ_pos _))⟩
  · change x.completes+1≤1
    omega
  · exact absurd (hc.symm.trans (h.free hf).2) nofun
  · exact absurd (hc.symm.trans (h.held y hy hne).2.2) nofun

/-- The timeout sets the bit. -/
theorem RqOk.take (h : RqOk x st) (hc : x.complete=false) :
    RqOk {x with complete := true, armed := false} (some .asking) := by
  obtain ⟨hz,hi⟩ := h.free hc
  exact ⟨h.le,nofun,fun hcall => absurd (hi.symm.trans hcall) nofun,fun _ _ _ => ⟨rfl,hz,hi⟩,
    fun _ => .inr (.inr (.inr ⟨.asking,rfl,nofun⟩))⟩

/-- The timeout goes on with the bit set. -/
theorem RqOk.keep {y z : Stage} (h : RqOk x (some y)) (hy : y≠.arming) (hz : z≠.arming) (b : Bool) :
    RqOk {x with verdict := b} (some z) := by
  have hold := h.held y rfl hy
  exact ⟨h.le,h.free,fun hc => absurd (hold.2.2.symm.trans hc) nofun,fun _ _ _ => hold,
    fun _ => .inr (.inr (.inr ⟨z,rfl,hz⟩))⟩

/-- The driver takes the request over. -/
theorem RqOk.leave {y : Stage} (h : RqOk x (some y)) (hy : y≠.arming) : RqOk {x with verdict := true} none := by
  have hold := h.held y rfl hy
  exact ⟨h.le,h.free,fun hc => absurd (hold.2.2.symm.trans hc) nofun,nofun,fun _ => .inr (.inr (.inl rfl))⟩

theorem RqOk.clear {y : Stage} (h : RqOk x (some y)) (hy : y≠.arming) :
    RqOk {x with complete := false} (some .arming) := by
  obtain ⟨_,hz,hi⟩ := h.held y rfl hy
  exact ⟨h.le,fun _ => ⟨hz,hi⟩,fun _ => ⟨hz,.inr rfl⟩,fun z hz' hne => absurd (Option.some.inj hz').symm hne,nofun⟩

/-- The timer is set again. -/
theorem RqOk.rearm (h : RqOk x (some .arming)) : RqOk {x with armed := true} none := by
  refine ⟨h.le,h.free,fun hc => ⟨(h.call hc).1,.inl rfl⟩,nofun,fun hc => ?_⟩
  rcases h.marked hc with hi|hp|hv|⟨y,hy,hne⟩
  · exact .inl hi
  · exact .inr (.inl hp)
  · exact .inr (.inr (.inl hv))
  · exact absurd (Option.some.inj hy).symm hne

/-- The timeout completes the request. -/
theorem RqOk.complete {y : Stage} (h : RqOk x (some y)) (hy : y≠.arming) :
    RqOk {x with inCall := false, completes := x.completes+1} none := by
  obtain ⟨hm,hz,_⟩ := h.held y rfl hy
  refine ⟨?_,fun hf => absurd (hm.symm.trans hf) nofun,nofun,nofun,fun _ => .inr (.inl (Nat.succ_pos _))⟩
  change x.completes+1≤1
  omega

/-- blk_complete_request, up to its test and set. -/
theorem RaceInv.call (h : RaceInv s) (r : ℕ) : RaceInv (blkCompleteRequest s r) := by
  unfold blkCompleteRequest
  by_cases hc : (s.rqs r).complete=true
  · rw [if_pos hc]
    exact h.setRq ((h r).other true (s.rqs r).armed)
  · rw [if_neg hc]
    exact h.setRq ((h r).callFirst ((Bool.not_eq_true _).mp hc))

/-- The timer function meets a request. -/
theorem RaceInv.late (h : RaceInv s) (hl : s.lock=none) (r : ℕ) : RaceInv (timedOut s r) := by
  unfold timedOut
  by_cases hc : (s.rqs r).complete=true
  · rw [if_pos hc]
    exact h.setRq ((h r).other (s.rqs r).called false)
  · rw [if_neg hc]
    exact h.setBoth (.inl hl) ((h r).take ((Bool.not_eq_true _).mp hc))

/-- blk_abort_request takes a request. -/
theorem RaceInv.abort (h : RaceInv s) (hl : s.lock=none) (r : ℕ) : RaceInv (blkAbortRequest s r) := by
  unfold blkAbortRequest
  by_cases hc : (s.rqs r).complete=true
  · rw [if_pos hc]
    exact h
  · rw [if_neg hc]
    exact h.setBoth (.inl hl) ((h r).take ((Bool.not_eq_true _).mp hc))

/-- rq_timed_out_fn returns. -/
theorem RaceInv.answer (h : RaceInv s) (hl : s.lock=some (r,.asking)) (a : Answer) : RaceInv (answered s r a) := by
  have hr := h r
  rw [stage_self hl] at hr
  have hlock : s.lock=none ∨ ∃ y, s.lock=some (r,y) := .inr ⟨.asking,hl⟩
  cases a with
  | handled => exact h.setBoth hlock (hr.keep (z := .completing) nofun nofun true)
  | reset =>
    have hset := h.setBoth hlock (hr.keep (z := .clearing) nofun nofun (s.rqs r).verdict)
    have heq : s.setRq r (s.rqs r)=s := by
      simp [Data.setRq]
    exact heq ▸ hset
  | notHandled => exact h.setBoth hlock (hr.leave nofun)

/-- The timeout goes on. -/
theorem RaceInv.proceed {y : Stage} (h : RaceInv s) (hl : s.lock=some (r,y)) (hp : proceed s r y=some t) :
    RaceInv t := by
  have hr := h r
  rw [stage_self hl] at hr
  have hlock : s.lock=none ∨ ∃ y, s.lock=some (r,y) := .inr ⟨y,hl⟩
  cases y with
  | asking => cases hp
  | clearing =>
    cases hp
    exact h.setBoth hlock (hr.clear nofun)
  | arming =>
    cases hp
    exact h.setBoth hlock hr.rearm
  | completing =>
    cases hp
    exact h.setBoth hlock (hr.complete nofun)

theorem RaceInv.step {e : Event} (h : RaceInv s) (hs : raceStep s e=some t) : RaceInv t := by
  cases e with
  | start r =>
    obtain ⟨⟨hl,_⟩,rfl⟩ := of_guard hs
    refine h.setRq ?_
    rw [stage_none hl]
    exact fresh_ok true true
  | call r =>
    obtain ⟨_,rfl⟩ := of_guard hs
    exact h.call r
  | finish r =>
    obtain ⟨hc,rfl⟩ := of_guard hs
    exact h.setRq ((h r).finish hc)
  | late r =>
    obtain ⟨⟨hl,_⟩,rfl⟩ := of_guard hs
    exact h.late hl r
  | abort r =>
    obtain ⟨⟨hl,_⟩,rfl⟩ := of_guard hs
    exact h.abort hl r
  | answer a =>
    simp only [raceStep] at hs
    split at hs
    case h_1 r hl =>
      cases hs
      exact h.answer hl a
    case h_2 => cases hs
  | proceed =>
    simp only [raceStep] at hs
    split at hs
    case h_1 r y hl => exact h.proceed hl hs
    case h_2 => cases hs
  | done r =>
    obtain ⟨hd,rfl⟩ := of_guard hs
    have hl : s.lock=none := by
      simp only [isDone,Bool.and_eq_true,Option.isNone_iff_eq_none] at hd
      exact hd.2
    refine h.setRq ?_
    rw [stage_none hl]
    exact fresh_ok false false

theorem RaceInv.run (h : RaceRun s) : RaceInv s := by
  refine Reachable.invariant (fun t ht r => ?_) (fun _ _ _ _ hi hs => hi.step hs) h
  rw [ht]
  exact fresh_ok false false

/-- The bit of a request is set once the driver has called. -/
def Seen (s : Data) : Prop := ∀ r, (s.rqs r).called=true → (s.rqs r).complete=true

/-- A change of one request. -/
theorem Seen.setRq (h : Seen s) (hx : x.called=true → x.complete=true) : Seen (s.setRq r x) := by
  intro q
  by_cases hq : q=r
  · rw [hq]
    simpa [Data.setRq] using hx
  · simpa [Data.setRq,hq] using h q

/-- One event keeps the bit, unless it is cleared after a call. -/
theorem Seen.step {e : Event} (h : Seen s) (hu : unreported s e=true) (hs : raceStep s e=some t) : Seen t := by
  cases e with
  | start | done =>
    obtain ⟨_,rfl⟩ := of_guard hs
    exact h.setRq nofun
  | call r =>
    obtain ⟨_,rfl⟩ := of_guard hs
    unfold blkCompleteRequest
    by_cases hc : (s.rqs r).complete=true
    · rw [if_pos hc]
      exact h.setRq (fun _ => hc)
    · rw [if_neg hc]
      exact h.setRq (fun _ => rfl)
  | finish r =>
    obtain ⟨_,rfl⟩ := of_guard hs
    exact h.setRq (h r)
  | late r =>
    obtain ⟨_,rfl⟩ := of_guard hs
    unfold timedOut
    by_cases hc : (s.rqs r).complete=true
    · rw [if_pos hc]
      exact h.setRq (h r)
    · rw [if_neg hc]
      exact h.setRq (fun _ => rfl)
  | abort r =>
    obtain ⟨_,rfl⟩ := of_guard hs
    unfold blkAbortRequest
    by_cases hc : (s.rqs r).complete=true
    · rw [if_pos hc]
      exact h
    · rw [if_neg hc]
      exact h.setRq (fun _ => rfl)
  | answer a =>
    simp only [raceStep] at hs
    split at hs
    case h_1 r hl =>
      cases hs
      cases a with
      | handled | notHandled => exact h.setRq (h r)
      | reset => exact h
    case h_2 => cases hs
  | proceed =>
    simp only [raceStep] at hs
    split at hs
    case h_1 r y hl =>
      cases y with
      | asking => cases hs
      | clearing =>
        cases hs
        have hc : (s.rqs r).called=false := by
          simpa [unreported,hl] using hu
        exact h.setRq (fun hcall => absurd (hc.symm.trans hcall) nofun)
      | arming | completing =>
        cases hs
        exact h.setRq (h r)
    case h_2 => cases hs

/-- A run without such events is a run, and the bit is set once the driver has called. -/
theorem UnreportedRun.seen (h : UnreportedRun s) : RaceRun s ∧ Seen s := by
  refine Reachable.invariant (I := fun s => RaceRun s ∧ Seen s) (fun t ht => ⟨.start ht,?_⟩) (fun u e t _ hi hs => ?_) h
  · rw [ht]
    exact fun _ => nofun
  · obtain ⟨hu,hstep⟩ := Option.ite_none_right_eq_some.mp hs
    exact ⟨hi.1.next hstep,hi.2.step hu hstep⟩

end

/-- No start of a request is completed twice, in any run. -/
theorem completes_le_one {s : Data} (h : RaceRun s) (r : ℕ) : (s.rqs r).completes≤1 := (RaceInv.run h r).le

/-- The driver reports request 1 while its timeout is under way, which completes it, and request 2 just
before its timeout. -/
theorem completes_le_one_call : ∃ s, RaceRun s ∧ (s.rqs 1).called=true ∧ (s.rqs 1).verdict=true ∧
    (s.rqs 2).armed=false ∧ 0<(s.rqs 1).completes ∧ 0<(s.rqs 2).completes ∧ ∀ r, (s.rqs r).completes≤1 := by
  obtain ⟨s,hr,hc,hv,ha,h1,h2⟩ : ∃ s, RaceRun s ∧ (s.rqs 1).called=true ∧ (s.rqs 1).verdict=true ∧
      (s.rqs 2).armed=false ∧ 0<(s.rqs 1).completes ∧ 0<(s.rqs 2).completes :=
    exists_run (fun _ _ _ => id) rfl
      [.start 1,.start 2,.late 1,.call 2,.call 1,.answer .handled,.proceed,.late 2,.finish 2]
      (by decide)
  exact ⟨s,hr,hc,hv,ha,h1,h2,completes_le_one hr⟩

/-- Every start of a request leads to at most one completion. When the driver has called
blk_complete_request, the call is over and no timeout of the request is under way, the
request was completed or rq_timed_out_fn has returned BLK_EH_HANDLED or BLK_EH_NOT_HANDLED. -/
theorem completion_kept_of_unreported {s : Data} (h : UnreportedRun s) (r : ℕ) : (s.rqs r).completes≤1 ∧
      ((s.rqs r).called=true → (s.rqs r).inCall=false → stage s r=none →
        (s.rqs r).completes=1 ∨ (s.rqs r).verdict=true) := by
  have hr := RaceInv.run h.seen.1 r
  refine ⟨hr.le,fun hc hi hst => ?_⟩
  have hle := hr.le
  rcases hr.marked (h.seen.2 r hc) with hin|hp|hv|⟨y,hy,_⟩
  · exact absurd (hi.symm.trans hin) nofun
  · exact .inl (by omega)
  · exact .inr hv
  · exact absurd (hst.symm.trans hy) nofun

/-- A request whose timer was reset once is completed by the driver while the timer runs. -/
theorem completion_kept_of_unreported_reset :
    ∃ s, UnreportedRun s ∧ (s.rqs 1).called=true ∧ ((s.rqs 1).completes=1 ∨ (s.rqs 1).verdict=true) := by
  obtain ⟨s,hrun,hc,hi,hst⟩ : ∃ s, UnreportedRun s ∧ (s.rqs 1).called=true ∧ (s.rqs 1).inCall=false ∧ stage s 1=none :=
    exists_run (fun _ _ _ => id) rfl [.start 1,.late 1,.answer .reset,.proceed,.proceed,.call 1,.late 1,.finish 1]
      (by decide)
  exact ⟨s,hrun,hc,(completion_kept_of_unreported hrun 1).2 hc hi hst⟩

/-- The driver's call comes while rq_timed_out_fn runs, which then asks for more time: the
request waits with its timer set and neither was completed nor taken over. -/
theorem completion_lost : ∃ s, RaceRun s ∧ (s.rqs 1).called=true ∧ (s.rqs 1).inCall=false ∧ stage s 1=none ∧
      (s.rqs 1).completes=0 ∧ (s.rqs 1).verdict=false ∧ (s.rqs 1).armed=true :=
  exists_run (fun _ _ _ => id) rfl [.start 1,.late 1,.call 1,.answer .reset,.proceed,.proceed] (by decide)

end BlockIpc.CompletionRace
