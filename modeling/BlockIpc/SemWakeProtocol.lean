import BlockIpc.SemRunInvariant

/-!
# Sleepers, wakers and the removal of the array

A sleeper waits with an entry on its own stack. A waker unlinks the entry under the array lock,
marks it, stores the result in it and keeps it on a local list; after unlocking it writes the
result as the final status, which gives the entry back. A sleeper that is woken by a signal or a
timeout reads the status, locks the array again, reads it once more and unlinks itself if nobody
else did. When the array cannot be locked again it returns without waiting for a waker.
-/

namespace BlockIpc.SemWakeProtocol

open Function List KernelNumbers SemAtomicOps SemQueueScan SemQueueInvariant SemScanDrains
  TransitionRuns SemRuns SemRunInvariant

/-- Where a task is in the sleeping part of semtimedop. -/
inductive SleepPc where
  /-- Not inside a sleeping call. -/
  | idle
  /-- In schedule or schedule_timeout. -/
  | asleep
  /-- Woken; about to read the status without the lock. -/
  | awake (timedOut : Bool)
  /-- Read the initial status; about to lock the array again. -/
  | relock (timedOut : Bool)
  /-- Holds a lock, of its own array or of one that reuses the identifier;
  about to read the status again. -/
  | locked (own timedOut : Bool)
  /-- Read the initial status under the lock; about to unlink its entry. -/
  | unlinking (own timedOut : Bool)
  /-- The call has returned and its stack frame is gone. -/
  | returned (code : ℤ)
  deriving DecidableEq

/-- The fields of a stack-allocated entry that the protocol writes. -/
structure QueueMem where
  /-- Completion status, polled by the sleeper. -/
  status : ℤ
  /-- Process identifier, later the result stored by the waker. -/
  pid : ℤ
  deriving DecidableEq

/-- All parties of the protocol. -/
structure WakeState where
  /-- The array and the undo lists. -/
  world : SemWorld
  /-- Holder of the array lock outside of an atomic critical section. -/
  lock : Option ℕ
  /-- Another array has received the identifier of the removed one. -/
  reused : Bool
  /-- Progress of every task. -/
  pc : ℕ → SleepPc
  /-- The entry on the stack of every task. -/
  mem : ℕ → QueueMem
  /-- Sleepers on the local wake-up list of every task. -/
  tasks : ℕ → List ℕ
  /-- Result stored by the waker that removed the entry of the current call. -/
  verdict : ℕ → Option ℤ

/-- Atomic steps of the protocol. -/
inductive WakeEvent where
  /-- A running task executes a critical section of the array. -/
  | critical (actor : ℕ) (e : SemEvent)
  /-- A waker wakes the first sleeper of its list and writes its status. -/
  | wakeUp (actor : ℕ)
  /-- A signal or the timeout ends the sleep of a task. -/
  | signal (task : ℕ) (timedOut : Bool)
  /-- A woken task reads its status. -/
  | readStatus (task : ℕ)
  | lockAgain (task : ℕ)
  /-- A task cannot lock the array again. -/
  | lockFails (task : ℕ)
  /-- A task reads its status under the lock. -/
  | readLocked (task : ℕ)
  /-- A task unlinks its own entry and unlocks. -/
  | unlink (task : ℕ)
  /-- A task goes on after its call. -/
  | resume (task : ℕ)
  /-- Another array receives or gives up the identifier. -/
  | reuse (present : Bool)

/-- What the entries of a wake-up list contain when the lock is released. -/
def storeTasks (tasks : List SemQueue) (mem : ℕ → QueueMem) : ℕ → QueueMem := fun t =>
  match tasks.find? (fun q => q.sleeper=t) with
  | some q => ⟨q.status,q.pid⟩
  | none => mem t

/-- The results that a critical section stored. -/
def storeVerdicts (tasks : List SemQueue) (verdict : ℕ → Option ℤ) : ℕ → Option ℤ := fun t =>
  match tasks.find? (fun q => q.sleeper=t) with
  | some q => some q.pid
  | none => verdict t

/-- A critical section is executed by its caller; sleepers unlink themselves
in steps of their own. -/
def executedBy (actor : ℕ) : SemEvent → Bool
  | .semtimedop c => decide (c.task=actor)
  | .interrupt _ _ => false
  | _ => true

/-- Process identifier with which a caller enters its entry. -/
def callerPid : SemEvent → ℤ
  | .semtimedop c => c.pid
  | _ => 0

/-- The state after a critical section: its caller sleeps or holds the list
of entries it has to wake. -/
def afterCritical (s : WakeState) (actor : ℕ) (e : SemEvent) (r : StepReport) : WakeState :=
  match r.result with
  | none => {s with
      world := r.world
      pc := update s.pc actor .asleep
      mem := update s.mem actor ⟨-eintr,callerPid e⟩
      verdict := update s.verdict actor none}
  | some _ => {s with
      world := r.world
      mem := storeTasks r.tasks s.mem
      verdict := storeVerdicts r.tasks s.verdict
      tasks := update s.tasks actor (r.tasks.map SemQueue.sleeper)}

/-- Set the progress of one task. -/
def WakeState.goto (s : WakeState) (task : ℕ) (pc : SleepPc) : WakeState := {s with pc := update s.pc task pc}

/-- The result of a task that nobody completed. -/
def interruptCode (timedOut : Bool) : ℤ := if timedOut=true then -eagain else -eintr

/-- One atomic step. Reading the status waits while the entry is being woken. -/
def wakeStep (s : WakeState) : WakeEvent → Option WakeState
  | .critical actor e =>
    if s.lock=none ∧ s.pc actor=.idle ∧ s.tasks actor=[] ∧ executedBy actor e=true then
      (semStep s.world e).map (afterCritical s actor e)
    else none
  | .wakeUp actor =>
    match s.tasks actor with
    | [] => none
    | t::rest => some {s with
        pc := if s.pc t=.asleep then update s.pc t (.awake false) else s.pc
        mem := update s.mem t ⟨(s.mem t).pid,(s.mem t).pid⟩
        tasks := update s.tasks actor rest}
  | .signal task timedOut => if s.pc task=.asleep then some (s.goto task (.awake timedOut)) else none
  | .readStatus task =>
    match s.pc task with
    | .awake timedOut =>
      if (s.mem task).status=inWakeup then none
      else if (s.mem task).status≠ -eintr then some (s.goto task (.returned (s.mem task).status))
      else some (s.goto task (.relock timedOut))
    | _ => none
  | .lockAgain task =>
    match s.pc task with
    | .relock timedOut =>
      if s.world.sma.deleted=false then
        if s.lock=none then some {s.goto task (.locked true timedOut) with lock := some task}
        else none
      else if s.reused=true then some (s.goto task (.locked false timedOut))
      else none
    | _ => none
  | .lockFails task =>
    match s.pc task with
    | .relock _ =>
      if s.world.sma.deleted=true then some (s.goto task (.returned (-eidrm))) else none
    | _ => none
  | .readLocked task =>
    match s.pc task with
    | .locked own timedOut =>
      if (s.mem task).status=inWakeup then none
      else if (s.mem task).status≠ -eintr then
        some {s.goto task (.returned (s.mem task).status) with
          lock := if own=true then none else s.lock}
      else some (s.goto task (.unlinking own timedOut))
    | _ => none
  | .unlink task =>
    match s.pc task with
    | .unlinking own timedOut => (semStep s.world (.interrupt task timedOut)).map (fun r =>
        {s.goto task (.returned (interruptCode timedOut)) with
          world := r.world
          lock := if own=true then none else s.lock})
    | _ => none
  | .resume task =>
    match s.pc task with
    | .returned _ => some (s.goto task .idle)
    | _ => none
  | .reuse present => if s.world.sma.deleted=true then some {s with reused := present} else none

/-- The protocol starts with a new array on which nobody sleeps. -/
def WakeStart (s : WakeState) : Prop := SemStart s.world ∧ s.lock=none ∧ (∀ t, s.pc t=.idle) ∧ ∀ t, s.tasks t=[]

/-- One atomic step as a relation. -/
def WakeNext (s : WakeState) (e : WakeEvent) (s' : WakeState) : Prop := wakeStep s e=some s'

/-- States of all interleavings. -/
def WakeReachable (s : WakeState) : Prop := Reachable WakeStart WakeNext s

/-- Results a waker can store. -/
def IsVerdict (v : ℤ) : Prop := v=0 ∨ v= -eagain ∨ v= -erange ∨ v= -eidrm

theorem IsVerdict.final {v : ℤ} (h : IsVerdict v) : v≠ -eintr ∧ v≠inWakeup := by
  unfold IsVerdict eagain erange eidrm at h
  unfold eintr inWakeup
  omega

/-- Tasks whose entry is on the array list. -/
def sleepers (w : SemWorld) : List ℕ := w.sma.semPending.map SemQueue.sleeper

/-- Entries handed to a wake-up list, as the protocol needs them. -/
structure Handed (w : SemWorld) (r : StepReport) : Prop where
  /-- Every sleeper stays queued or is handed over, not both. -/
  partition : (sleepers w).Perm (r.tasks.map SemQueue.sleeper++sleepers r.world)
  /-- Each handed entry is marked and contains its result. -/
  marked : ∀ q∈r.tasks, q.status=inWakeup ∧ IsVerdict q.pid

variable {w : SemWorld} {sma : SemArray} {competes : SemQueue → SemQueue → Prop} {done : List (SemQueue×ℤ)}
  {e : SemEvent} {r : StepReport} {actor t : ℕ} {s s' : WakeState} {pc : SleepPc}

/-- An update hands over exactly the completed entries. -/
theorem handed_update {sops : Option (List Sembuf)} {otime : Bool} {now : ℕ}
    (hu : UpdateSpec sma competes (doSmartUpdate sma sops otime now) done) (hp : sma.semPending=w.sma.semPending)
    (frames : List SemAttempt) : Handed w (w.updated sma sops otime now frames) := by
  refine ⟨?_,fun q hq => ?_⟩
  · have hperm := (hp ▸ hu.drains.perm).map SemQueue.sleeper
    simp only [SemWorld.updated,sleepers,hu.pt_eq,map_map,map_append] at hperm ⊢
    exact hperm
  · have hq' : q∈(doSmartUpdate sma sops otime now).pt := hq
    rw [hu.pt_eq] at hq'
    obtain ⟨p,hp',rfl⟩ := mem_map.mp hq'
    obtain ⟨_,hc⟩ := hu.completes
    rcases (hc.mem p hp').2 with h|h|h
    · exact ⟨rfl,.inl h⟩
    · exact ⟨rfl,.inr (.inl h)⟩
    · exact ⟨rfl,.inr (.inr (.inl h))⟩

/-- A full update after a change under the lock hands entries over. -/
theorem handed_control (hc : ControlChange w sma) (otime : Bool) (now : ℕ) :
    Handed w (w.updated sma none otime now []) := by
  obtain ⟨done,hu⟩ := doSmartUpdate_none_spec sma otime now hc.queue hc.values
  exact handed_update hu hc.pending []

/-- A critical section that keeps the queue hands nothing over. -/
theorem handed_none {w' : SemWorld} {result : Option ℤ} {bug : Bool} {frames : List SemAttempt}
    (h : w'.sma.semPending=w.sma.semPending) : Handed w ⟨w',result,[],bug,frames⟩ := by
  refine ⟨?_,by simp⟩
  simp [sleepers,h]

/-- A critical section lets its caller sleep or hands entries over. -/
theorem critical_spec (hi : SemInv w) (h : SemShape w e r) (hx : executedBy actor e=true) :
    (r.result=none ∧ w.sma.deleted=false ∧ (sleepers r.world).Perm (actor::sleepers w)) ∨
      ((∃ code, r.result=some code) ∧ Handed w r) := by
  cases h with
  | fails | returned | getUndoList | copySemundo | findAllocUndo | exitNone | exitSem =>
    exact .inr ⟨⟨_,rfl⟩,handed_none rfl⟩
  | @performed c _ h0 _ =>
    obtain ⟨done,hu⟩ := hi.performed_spec h0 true c.now
    exact .inr ⟨⟨_,rfl⟩,handed_update hu rfl _⟩
  | @sleeps c hr _ =>
    refine .inl ⟨rfl,hr.present,?_⟩
    have ht : c.task=actor := of_decide_eq_true hx
    have hp := (enqueue_frame w.sma (sleepEntry w c)).2.1
    simp only [sleepers,hp,addQueue]
    split
    · rw [map_append,←ht]
      exact perm_append_comm
    · rw [map_cons,←ht]
      exact List.Perm.refl _
  | @setval c hv => exact .inr ⟨⟨_,rfl⟩,handed_control (setval_control hi c.pid c.now hv) _ _⟩
  | @setall c hv => exact .inr ⟨⟨_,rfl⟩,handed_control (setall_control hi c.now hv) _ _⟩
  | interrupt _ => simp [executedBy] at hx
  | @exitSemAdjust ulp pid now hr _ =>
    exact .inr ⟨⟨_,rfl⟩,handed_control (exitSem_control hi pid hr) _ _⟩
  | freeary =>
    have hp := hi.freeary_frame.1
    refine .inr ⟨⟨_,rfl⟩,?_,fun q hq => ?_⟩
    · simp [sleepers,hp,wakeUpSemQueuePrepare,Function.comp_def]
    · obtain ⟨x,_,rfl⟩ := mem_map.mp hq
      exact ⟨rfl,.inr (.inr (.inr rfl))⟩

/-- Nothing sleeps on a removed array. -/
def Removed (w : SemWorld) : Prop := w.sma.deleted=true → w.sma.semPending=[]

/-- An update neither removes the array nor adds sleepers. -/
theorem removed_update (hg : Removed w) {r : ScanReport} (hu : UpdateSpec sma competes r done)
    (hp : sma.semPending=w.sma.semPending) (hd : sma.deleted=w.sma.deleted) :
    Removed {w with sma := r.array} ∧ (w.sma.deleted=true → r.array.deleted=true) := by
  obtain ⟨_,hc⟩ := hu.completes
  have hdel : r.array.deleted=w.sma.deleted := hc.frame.2.2.trans hd
  refine ⟨fun h => ?_,hdel.trans⟩
  have hnil : sma.semPending=[] := hp.trans (hg (hdel.symm.trans h))
  exact sublist_nil.mp (hnil ▸ hu.drains.sublist)

/-- A full update after a change under the lock does not remove the array. -/
theorem removed_control (hg : Removed w) (hc : ControlChange w sma) (otime : Bool) (now : ℕ) :
    Removed (w.updated sma none otime now []).world ∧
      (w.sma.deleted=true → (w.updated sma none otime now []).world.sma.deleted=true) := by
  obtain ⟨done,hu⟩ := doSmartUpdate_none_spec sma otime now hc.queue hc.values
  exact removed_update hg hu hc.pending hc.deleted

/-- Nothing sleeps on a removed array after any critical section, and a
removed array stays removed. -/
theorem removed_step (hi : SemInv w) (hg : Removed w) (h : SemShape w e r) :
    Removed r.world ∧ (w.sma.deleted=true → r.world.sma.deleted=true) := by
  cases h with
  | fails | returned | getUndoList | copySemundo | findAllocUndo | exitNone | exitSem => exact ⟨hg,fun h => h⟩
  | @performed c _ h0 _ =>
    obtain ⟨done,hu⟩ := hi.performed_spec h0 true c.now
    exact removed_update hg hu rfl rfl
  | @sleeps c hr _ =>
    have hd := (enqueue_frame w.sma (sleepEntry w c)).2.2.2.2
    have hfalse : (enqueue w.sma (sleepEntry w c)).deleted=false := hd.trans hr.present
    exact ⟨fun h => by simp [hfalse] at h,fun h => hd.trans h⟩
  | @setval c hv => exact removed_control hg (setval_control hi c.pid c.now hv) false c.now
  | @setall c hv => exact removed_control hg (setall_control hi c.now hv) false c.now
  | @interrupt _ _ q hq =>
    obtain ⟨_,hp,_,_,hd⟩ := unlinkQueue_frame w.sma q
    refine ⟨fun h => ?_,fun h => hd.trans h⟩
    have hnil := hg (hd.symm.trans h)
    rw [hnil] at hq
    simp at hq
  | @exitSemAdjust ulp pid now hr _ => exact removed_control hg (exitSem_control hi pid hr) true now
  | freeary => exact ⟨fun _ => hi.freeary_frame.1,fun _ => rfl⟩

/-- Inside a sleeping call, before its end is decided. -/
def SleepPc.waiting : SleepPc → Bool
  | .asleep => true
  | .awake _ => true
  | .relock _ => true
  | .locked _ _ => true
  | _ => false

/-- The entry of a task is on some wake-up list. -/
def Listed (s : WakeState) (t : ℕ) : Prop := ∃ a, t∈s.tasks a

/-- Who owns the entry of a task, and what it contains. -/
inductive TaskPhase (s : WakeState) (t : ℕ) : Prop
  | away (hp : s.pc t=.idle) (hq : t∉sleepers s.world) (hl : ¬Listed s t)
  /-- The call returned the stored result, or its own when nobody stored one. -/
  | back {code : ℤ} (hp : s.pc t=.returned code) (hq : t∉sleepers s.world) (hl : ¬Listed s t)
      (hv : ∀ v, s.verdict t=some v → code=v)
      (hn : s.verdict t=none → code= -eintr ∨ code= -eagain)
  /-- The entry is queued and untouched. -/
  | queued (hp : (s.pc t).waiting=true ∨ ∃ timedOut, s.pc t=.unlinking true timedOut)
      (hq : t∈sleepers s.world) (hl : ¬Listed s t) (hs : (s.mem t).status= -eintr)
      (hv : s.verdict t=none)
  /-- A waker owns the entry. -/
  | owned {v : ℤ} (hp : (s.pc t).waiting=true) (hq : t∉sleepers s.world) (hl : Listed s t)
      (hs : (s.mem t).status=inWakeup) (hm : (s.mem t).pid=v) (hv : s.verdict t=some v)
      (hc : IsVerdict v)
  /-- The waker has written the final status. -/
  | told {v : ℤ} (hp : (s.pc t).waiting=true) (hq : t∉sleepers s.world) (hl : ¬Listed s t)
      (hs : (s.mem t).status=v) (hv : s.verdict t=some v) (hc : IsVerdict v)

/-- The phase of a task depends only on what concerns that task. -/
theorem TaskPhase.congr (h : TaskPhase s t) (hp : s'.pc t=s.pc t) (hm : s'.mem t=s.mem t)
    (hv : s'.verdict t=s.verdict t) (hq : t∈sleepers s'.world ↔ t∈sleepers s.world) (hl : Listed s' t ↔ Listed s t) :
    TaskPhase s' t := by
  cases h with
  | away a b c => exact .away (hp ▸ a) (hq.not.mpr b) (hl.not.mpr c)
  | back a b c d e => exact .back (hp ▸ a) (hq.not.mpr b) (hl.not.mpr c) (hv ▸ d) (hv ▸ e)
  | queued a b c d e => exact .queued (hp ▸ a) (hq.mpr b) (hl.not.mpr c) (hm ▸ d) (hv ▸ e)
  | owned a b c d e f g =>
    exact .owned (hp ▸ a) (hq.not.mpr b) (hl.mpr c) (hm ▸ d) (hm ▸ e) (hv ▸ f) g
  | told a b c d e f => exact .told (hp ▸ a) (hq.not.mpr b) (hl.not.mpr c) (hm ▸ d) (hv ▸ e) f

structure WakeInv (s : WakeState) : Prop where
  /-- The array is in a state of a run. -/
  reach : SemReachable s.world
  /-- Nothing sleeps on a removed array. -/
  removed : Removed s.world
  /-- Every entry has one owner. -/
  phase : ∀ t, TaskPhase s t
  /-- No entry is twice on a wake-up list. -/
  nodup : ∀ a, (s.tasks a).Nodup
  /-- No entry is on two wake-up lists. -/
  apart : ∀ a b t, t∈s.tasks a → t∈s.tasks b → a=b
  /-- A task past its second lock of the array holds it. -/
  holder : ∀ t, (∃ timedOut, s.pc t=.locked true timedOut ∨ s.pc t=.unlinking true timedOut) →
    s.lock=some t
  /-- The identifier denotes another array only after a removal. -/
  foreign : ∀ t timedOut, s.pc t=.locked false timedOut → s.world.sma.deleted=true

/-- What a queued entry contains. -/
theorem TaskPhase.of_queued (h : TaskPhase s t) (hq : t∈sleepers s.world) :
    ((s.pc t).waiting=true ∨ ∃ timedOut, s.pc t=.unlinking true timedOut) ∧ ¬Listed s t ∧
      (s.mem t).status= -eintr ∧ s.verdict t=none := by
  cases h with
  | away a b | back a b | owned a b | told a b => exact absurd hq b
  | queued a b c d e => exact ⟨a,c,d,e⟩

/-- A task that moves on within its call keeps its phase. -/
theorem TaskPhase.move (h : TaskPhase s t) (hw : (s.pc t).waiting=true) (hp : pc.waiting=true) :
    TaskPhase (s.goto t pc) t := by
  have hpc : ((s.goto t pc).pc t).waiting=true := by
    rw [show (s.goto t pc).pc t=pc from update_self ..]
    exact hp
  cases h with
  | away a b c | back a b c d e => simp [a,SleepPc.waiting] at hw
  | queued a b c d e => exact .queued (.inl hpc) b c d e
  | owned a b c d e f g => exact .owned hpc b c d e f g
  | told a b c d e f => exact .told hpc b c d e f

theorem goto_self (s : WakeState) (t : ℕ) (pc : SleepPc) : (s.goto t pc).pc t=pc := update_self ..

theorem goto_of_ne {x : ℕ} (h : x≠t) : (s.goto t pc).pc x=s.pc x := update_of_ne h _ _

/-- The other tasks are not concerned when one task moves on. -/
theorem TaskPhase.goto_other {x : ℕ} (h : TaskPhase s x) (hne : x≠t) (pc : SleepPc) : TaskPhase (s.goto t pc) x :=
  h.congr (update_of_ne hne _ _) rfl rfl Iff.rfl Iff.rfl

/-- Replacing the progress of one task keeps the invariant when its new phase
and its claims to locks are in order. -/
theorem WakeInv.goto (hi : WakeInv s) {lock : Option ℕ} (hp : TaskPhase (s.goto t pc) t)
    (hl : ∀ x, (∃ timedOut, (s.goto t pc).pc x=.locked true timedOut ∨
      (s.goto t pc).pc x=.unlinking true timedOut) → lock=some x)
    (hf : ∀ timedOut, pc=.locked false timedOut → s.world.sma.deleted=true) :
    WakeInv {s.goto t pc with lock := lock} := by
  refine ⟨hi.reach,hi.removed,fun x => ?_,hi.nodup,hi.apart,hl,fun x timedOut hx => ?_⟩
  · by_cases hx : x=t
    · subst hx
      exact hp.congr rfl rfl rfl Iff.rfl Iff.rfl
    · exact ((hi.phase x).goto_other hx pc).congr rfl rfl rfl Iff.rfl Iff.rfl
  · by_cases hxt : x=t
    · subst hxt
      exact hf timedOut ((update_self ..).symm.trans hx)
    · exact hi.foreign x timedOut ((update_of_ne hxt _ _).symm.trans hx)

/-- Lock claims when the task that moves on makes none and keeps the lock. -/
theorem WakeInv.holder_goto (hi : WakeInv s) (hp : ∀ timedOut, pc≠.locked true timedOut ∧ pc≠.unlinking true timedOut)
    (x : ℕ) (h : ∃ timedOut, (s.goto t pc).pc x=.locked true timedOut ∨
      (s.goto t pc).pc x=.unlinking true timedOut) : x≠t ∧ s.lock=some x := by
  obtain ⟨timedOut,h⟩ := h
  have hne : x≠t := by
    rintro rfl
    rw [goto_self] at h
    rcases h with h|h
    · exact (hp timedOut).1 h
    · exact (hp timedOut).2 h
  rw [goto_of_ne hne] at h
  exact ⟨hne,hi.holder x ⟨timedOut,h⟩⟩

/-- A waiting task whose status is final returns the stored result. -/
theorem TaskPhase.finish (h : TaskPhase s t) (hw : (s.pc t).waiting=true) (h1 : (s.mem t).status≠inWakeup)
    (h2 : (s.mem t).status≠ -eintr) : TaskPhase (s.goto t (.returned (s.mem t).status)) t := by
  have hpc := goto_self s t (.returned (s.mem t).status)
  cases h with
  | away a b c | back a b c d e => simp [a,SleepPc.waiting] at hw
  | queued a b c d e => exact absurd d h2
  | owned a b c d e f g => exact absurd d h1
  | told a b c d e f =>
    refine .back hpc b c (fun v hv => ?_) (fun hn => ?_)
    · exact d.trans (Option.some.inj (e.symm.trans hv))
    · exact absurd (e.symm.trans hn) (by simp)

/-- A task whose status is the initial one is still queued. -/
theorem TaskPhase.untouched (h : TaskPhase s t) (hw : (s.pc t).waiting=true) (hs : (s.mem t).status= -eintr) :
    t∈sleepers s.world := by
  cases h with
  | away a b c | back a b c d e => simp [a,SleepPc.waiting] at hw
  | queued a b c d e => exact b
  | owned a b c d e f g => exact absurd (d.symm.trans hs) (by decide)
  | told a b c d e f => exact absurd (d.symm.trans hs) f.final.1

theorem WakeInv.not_queued (hi : WakeInv s) (hd : s.world.sma.deleted=true) (t : ℕ) : t∉sleepers s.world := by
  simp [sleepers,hi.removed hd]

/-- Moving on within a call, without a lock, keeps the invariant. -/
theorem WakeInv.advance (hi : WakeInv s) (hw : (s.pc t).waiting=true) (hp : pc.waiting=true)
    (hn : ∀ own timedOut, pc≠.locked own timedOut) : WakeInv (s.goto t pc) := by
  have hnone : ∀ timedOut, pc≠.locked true timedOut ∧ pc≠.unlinking true timedOut := by
    refine fun timedOut => ⟨hn true timedOut,?_⟩
    rintro rfl
    simp [SleepPc.waiting] at hp
  exact hi.goto ((hi.phase t).move hw hp) (fun x hx => (hi.holder_goto hnone x hx).2)
    (fun timedOut h => absurd h (hn false timedOut))

theorem WakeInv.readStatus (hi : WakeInv s) (h : wakeStep s (.readStatus t)=some s') : WakeInv s' := by
  simp only [wakeStep] at h
  split at h
  · rename_i timedOut hpc
    have hw : (s.pc t).waiting=true := by rw [hpc]; rfl
    split at h
    · cases h
    · rename_i h1
      split at h
      · rename_i h2
        cases h
        exact hi.goto ((hi.phase t).finish hw h1 h2)
          (fun x hx => (hi.holder_goto (by simp) x hx).2) (by simp)
      · cases h
        exact hi.advance hw rfl (by simp)
  · cases h

theorem WakeInv.lockAgain (hi : WakeInv s) (h : wakeStep s (.lockAgain t)=some s') : WakeInv s' := by
  simp only [wakeStep] at h
  split at h
  · rename_i timedOut hpc
    have hw : (s.pc t).waiting=true := by rw [hpc]; rfl
    split at h
    · split at h
      · rename_i hfree
        cases h
        refine hi.goto ((hi.phase t).move hw rfl) (fun x hx => ?_) (by simp)
        by_cases hxt : x=t
        · rw [hxt]
        · obtain ⟨b,hb⟩ := hx
          rw [goto_of_ne hxt] at hb
          exact absurd (hi.holder x ⟨b,hb⟩) (by simp [hfree])
      · cases h
    · rename_i hdel
      split at h
      · cases h
        exact hi.goto ((hi.phase t).move hw rfl)
          (fun x hx => (hi.holder_goto (by simp) x hx).2) (fun _ _ => by simpa using hdel)
      · cases h
  · cases h

/-- Failing to lock again keeps the invariant when the waker has already
written the removal as the final status. -/
theorem WakeInv.lockFails (hi : WakeInv s) (h : wakeStep s (.lockFails t)=some s') (hs : (s.mem t).status= -eidrm) :
    WakeInv s' := by
  simp only [wakeStep] at h
  split at h
  · rename_i timedOut hpc
    have hw : (s.pc t).waiting=true := by rw [hpc]; rfl
    split at h
    · cases h
      have hf := (hi.phase t).finish hw (by rw [hs]; decide) (by rw [hs]; decide)
      rw [hs] at hf
      exact hi.goto hf (fun x hx => (hi.holder_goto (by simp) x hx).2) (by simp)
    · cases h
  · cases h

/-- Reading the status under the lock keeps the invariant. -/
theorem WakeInv.readLocked (hi : WakeInv s) (h : wakeStep s (.readLocked t)=some s') : WakeInv s' := by
  simp only [wakeStep] at h
  split at h
  · rename_i own timedOut hpc
    have hw : (s.pc t).waiting=true := by rw [hpc]; rfl
    split at h
    · cases h
    · rename_i h1
      split at h
      · rename_i h2
        cases h
        refine hi.goto ((hi.phase t).finish hw h1 h2) (fun x hx => ?_) (by simp)
        obtain ⟨hne,hlock⟩ := hi.holder_goto (by simp) x hx
        cases own with
        | true =>
          have ht := hi.holder t ⟨timedOut,.inl hpc⟩
          exact absurd (Option.some.inj (hlock.symm.trans ht)) hne
        | false => exact hlock
      · rename_i h2
        cases h
        have hq := (hi.phase t).untouched hw (not_not.mp h2)
        have hown : own=true := by
          by_contra hn
          rw [Bool.not_eq_true] at hn
          subst hn
          exact hi.not_queued (hi.foreign t timedOut hpc) t hq
        subst hown
        have ht := hi.holder t ⟨timedOut,.inl hpc⟩
        refine hi.goto ?_ (fun x hx => ?_) (by simp)
        · obtain ⟨_,c,d,e⟩ := (hi.phase t).of_queued hq
          exact .queued (.inr ⟨timedOut,goto_self ..⟩) hq c d e
        · by_cases hxt : x=t
          · rw [hxt]
            exact ht
          · obtain ⟨b,hb⟩ := hx
            rw [goto_of_ne hxt] at hb
            exact hi.holder x ⟨b,hb⟩
  · cases h

/-- Going on after a call keeps the invariant. -/
theorem WakeInv.resume (hi : WakeInv s) (h : wakeStep s (.resume t)=some s') : WakeInv s' := by
  simp only [wakeStep] at h
  split at h
  · rename_i code hpc
    cases h
    refine hi.goto ?_ (fun x hx => (hi.holder_goto (by simp) x hx).2) (by simp)
    cases hi.phase t with
    | away a b c => simp [hpc] at a
    | back a b c d e => exact .away (update_self ..) b c
    | queued a b c d e | owned a b c d e f g | told a b c d e f => simp [hpc,SleepPc.waiting] at a
  · cases h

/-- An interrupted sleeper is the only one that leaves the queue. -/
theorem interrupt_sleepers {timedOut : Bool} (h : semStep w (.interrupt t timedOut)=some r) (x : ℕ) :
    x∈sleepers r.world ↔ x∈sleepers w ∧ x≠t := by
  simp only [semStep] at h
  split at h
  · cases h
  · rename_i q hq
    cases h
    have hs : q.sleeper=t := by simpa using find?_some hq
    simp only [sleepers,(unlinkQueue_frame w.sma q).2.1,mem_map]
    constructor
    · rintro ⟨y,hy,rfl⟩
      obtain ⟨hm,hne⟩ := mem_listDel.mp hy
      exact ⟨⟨y,hm,rfl⟩,hs ▸ hne⟩
    · rintro ⟨⟨y,hy,rfl⟩,hne⟩
      exact ⟨y,mem_listDel.mpr ⟨hy,hs ▸ hne⟩,rfl⟩

/-- A sleeper that unlinks itself keeps the invariant. -/
theorem WakeInv.unlink (hi : WakeInv s) (h : wakeStep s (.unlink t)=some s') : WakeInv s' := by
  simp only [wakeStep] at h
  split at h
  · rename_i own timedOut hpc
    obtain ⟨r,hr,rfl⟩ := Option.map_eq_some_iff.mp h
    have hsl := interrupt_sleepers hr
    have hrem := removed_step (semReachable_inv hi.reach) hi.removed (semStep_shape hr)
    have hphase := hi.phase t
    have hpc' := goto_self s t (.returned (interruptCode timedOut))
    have hback : own=true ∧ ¬Listed s t ∧ s.verdict t=none := by
      cases hphase with
      | away a b c | back a b c d e => simp [hpc] at a
      | queued a b c d e =>
        rcases a with a|⟨_,a⟩
        · simp [hpc,SleepPc.waiting] at a
        · rw [hpc] at a
          cases a
          exact ⟨rfl,c,e⟩
      | owned a b c d e f g | told a b c d e f => simp [hpc,SleepPc.waiting] at a
    obtain ⟨rfl,hlist,hverdict⟩ := hback
    have ht := hi.holder t ⟨timedOut,.inr hpc⟩
    refine ⟨Reachable.next hi.reach ⟨r,hr,rfl⟩,hrem.1,fun x => ?_,hi.nodup,hi.apart,fun x hx => ?_,
      fun x b hx => ?_⟩
    · by_cases hx : x=t
      · subst hx
        refine .back hpc' (fun hm => ((hsl x).mp hm).2 rfl) hlist (fun v hv => ?_) (fun _ => ?_)
        · exact absurd (hverdict.symm.trans hv) (by simp)
        · cases timedOut
          · exact .inl rfl
          · exact .inr rfl
      · exact ((hi.phase x).goto_other hx _).congr rfl rfl rfl
          ⟨fun hm => ((hsl x).mp hm).1,fun hm => (hsl x).mpr ⟨hm,hx⟩⟩ Iff.rfl
    · obtain ⟨hne,hlock⟩ := hi.holder_goto (by simp) x hx
      exact absurd (Option.some.inj (hlock.symm.trans ht)) hne
    · have hne : x≠t := by
        rintro rfl
        exact absurd (hpc'.symm.trans hx) (by simp)
      exact hrem.2 (hi.foreign x b ((update_of_ne hne _ _).symm.trans hx))
  · cases h

/-- The final write of a waker keeps the invariant: it gives the entry back. -/
theorem WakeInv.wakeUp (hi : WakeInv s) {a : ℕ} (h : wakeStep s (.wakeUp a)=some s') : WakeInv s' := by
  simp only [wakeStep] at h
  split at h
  · cases h
  · rename_i t rest htasks
    have hnd := hi.nodup a
    rw [htasks,nodup_cons] at hnd
    have hmem : ∀ b x, x∈update s.tasks a rest b → x∈s.tasks b ∧ x≠t := by
      intro b x hx
      by_cases hb : b=a
      · subst hb
        rw [update_self] at hx
        exact ⟨htasks ▸ mem_cons_of_mem _ hx,fun he => hnd.1 (he ▸ hx)⟩
      · rw [update_of_ne hb] at hx
        refine ⟨hx,?_⟩
        rintro rfl
        exact hb (hi.apart b a x hx (htasks ▸ mem_cons_self ..))
    have hpc : ∀ x, (if s.pc t=.asleep then update s.pc t (.awake false) else s.pc) x=s.pc x ∨
        (x=t ∧ s.pc t=.asleep ∧
          (if s.pc t=.asleep then update s.pc t (.awake false) else s.pc) x=.awake false) := by
      intro x
      by_cases has : s.pc t=.asleep
      · by_cases hx : x=t
        · subst hx
          exact .inr ⟨rfl,has,by simp [has]⟩
        · exact .inl (by simp [has,hx])
      · exact .inl (by simp [has])
    cases h
    refine ⟨hi.reach,hi.removed,fun x => ?_,fun b => ?_,fun b c x hb hc => ?_,fun x hx => ?_,
      fun x b hx => ?_⟩
    · by_cases hx : x=t
      · subst hx
        have hlisted : Listed s x := ⟨a,htasks ▸ mem_cons_self ..⟩
        cases hi.phase x with
        | away _ _ c | back _ _ c | queued _ _ c | told _ _ c => exact absurd hlisted c
        | @owned v hp hq _ hs hm hv hc =>
          refine .told ?_ hq ?_ ?_ hv hc
          · rcases hpc x with he|⟨_,_,he⟩
            · exact (congrArg SleepPc.waiting he).trans hp
            · exact congrArg SleepPc.waiting he
          · rintro ⟨b,hb⟩
            exact (hmem b x hb).2 rfl
          · simpa using hm
      · refine (hi.phase x).congr ?_ (update_of_ne hx _ _) rfl Iff.rfl ⟨?_,?_⟩
        · rcases hpc x with he|⟨he,_⟩
          · exact he
          · exact absurd he hx
        · rintro ⟨b,hb⟩
          exact ⟨b,(hmem b x hb).1⟩
        · rintro ⟨b,hb⟩
          refine ⟨b,?_⟩
          by_cases hba : b=a
          · subst hba
            rw [htasks] at hb
            simpa [hx] using hb
          · simpa [hba] using hb
    · by_cases hb : b=a
      · subst hb
        simpa using hnd.2
      · simpa [hb] using hi.nodup b
    · exact hi.apart b c x (hmem b x hb).1 (hmem c x hc).1
    · obtain ⟨b,hb⟩ := hx
      rcases hpc x with he|⟨_,_,he⟩
      · exact hi.holder x ⟨b,by simpa [he] using hb⟩
      · simp [he] at hb
    · rcases hpc x with he|⟨_,_,he⟩
      · exact hi.foreign x b (he.symm.trans hx)
      · exact absurd (he.symm.trans hx) (by simp)

theorem WakeInv.distinct (hi : WakeInv s) : (sleepers s.world).Nodup := (semReachable_inv hi.reach).queue.distinct

/-- Looking up a sleeper among the handed entries. -/
theorem find_handed (tasks : List SemQueue) (t : ℕ) :
    (∃ q∈tasks, q.sleeper=t ∧ tasks.find? (fun q => q.sleeper=t)=some q) ∨
      (t∉tasks.map SemQueue.sleeper ∧ tasks.find? (fun q => q.sleeper=t)=none) := by
  cases hf : tasks.find? (fun q => q.sleeper=t) with
  | some q => exact .inl ⟨q,mem_of_find?_eq_some hf,by simpa using find?_some hf,rfl⟩
  | none =>
    refine .inr ⟨fun hm => ?_,rfl⟩
    obtain ⟨q,hq,he⟩ := mem_map.mp hm
    exact find?_eq_none.mp hf q hq (by simpa using he)

/-- A caller that goes to sleep keeps the invariant. -/
theorem WakeInv.falls_asleep (hi : WakeInv s) (hr : semStep s.world e=some r) (hidle : s.pc actor=.idle)
    (hp : (sleepers r.world).Perm (actor::sleepers s.world)) (hn : r.result=none) :
    WakeInv (afterCritical s actor e r) := by
  have hrem := removed_step (semReachable_inv hi.reach) hi.removed (semStep_shape hr)
  simp only [afterCritical,hn]
  have hpc : ∀ x, x≠actor → update s.pc actor .asleep x=s.pc x :=
    fun x hx => update_of_ne hx _ _
  refine ⟨Reachable.next hi.reach ⟨r,hr,rfl⟩,hrem.1,fun x => ?_,hi.nodup,hi.apart,fun x hx => ?_,
    fun x b hx => ?_⟩
  · by_cases hx : x=actor
    · subst hx
      have hl : ¬Listed s x := by
        cases hi.phase x with
        | away _ _ c => exact c
        | back a _ _ _ _ => simp [hidle] at a
        | queued a _ _ _ _ | owned a _ _ _ _ _ _ | told a _ _ _ _ _ => simp [hidle,SleepPc.waiting] at a
      exact .queued (.inl (by simp [SleepPc.waiting])) (hp.symm.subset (mem_cons_self ..)) hl
        (by simp) (by simp)
    · refine (hi.phase x).congr (hpc x hx) (update_of_ne hx _ _)
        (update_of_ne hx _ _) ?_ Iff.rfl
      rw [hp.mem_iff,mem_cons,or_iff_right hx]
  · obtain ⟨b,hb⟩ := hx
    have hne : x≠actor := by
      rintro rfl
      simp at hb
    exact hi.holder x ⟨b,by simpa [hpc x hne] using hb⟩
  · have hne : x≠actor := by
      rintro rfl
      simp at hx
    exact hrem.2 (hi.foreign x b ((hpc x hne).symm.trans hx))

/-- A critical section that hands entries over keeps the invariant: each of
them was queued and now belongs to the caller alone. -/
theorem WakeInv.hands_over (hi : WakeInv s) (hr : semStep s.world e=some r) (hfree : s.lock=none)
    (hnil : s.tasks actor=[]) (hh : Handed s.world r) {code : ℤ} (hc : r.result=some code) :
    WakeInv (afterCritical s actor e r) := by
  have hrem := removed_step (semReachable_inv hi.reach) hi.removed (semStep_shape hr)
  have hnd := (hh.partition.nodup_iff).mp hi.distinct
  have hin : ∀ x, x∈r.tasks.map SemQueue.sleeper → x∈sleepers s.world ∧ x∉sleepers r.world := by
    intro x hx
    refine ⟨hh.partition.symm.subset (mem_append_left _ hx),fun hm => ?_⟩
    exact (nodup_append.mp hnd).2.2 x hx x hm rfl
  have hqueued : ∀ x, x∈sleepers s.world → ¬Listed s x ∧ (s.pc x).waiting=true := by
    intro x hx
    obtain ⟨a|⟨b,a⟩,c,_⟩ := (hi.phase x).of_queued hx
    · exact ⟨c,a⟩
    · exact absurd (hi.holder x ⟨b,.inr a⟩) (by simp [hfree])
  have hlist : ∀ b, b≠actor → update s.tasks actor (r.tasks.map SemQueue.sleeper) b=s.tasks b :=
    fun b hb => update_of_ne hb _ _
  simp only [afterCritical,hc]
  refine ⟨Reachable.next hi.reach ⟨r,hr,rfl⟩,hrem.1,fun x => ?_,fun b => ?_,fun b c x hb hc => ?_,
    hi.holder,fun x b hx => hrem.2 (hi.foreign x b hx)⟩
  · rcases find_handed r.tasks x with ⟨q,hq,hs,hf⟩|⟨hx,hf⟩
    · have hx : x∈r.tasks.map SemQueue.sleeper := mem_map.mpr ⟨q,hq,hs⟩
      obtain ⟨hbefore,hafter⟩ := hin x hx
      refine .owned (v:=q.pid) (hqueued x hbefore).2 hafter ⟨actor,?_⟩ ?_ ?_ ?_ (hh.marked q hq).2
      · simpa using hx
      · simp [storeTasks,hf,(hh.marked q hq).1]
      · simp [storeTasks,hf]
      · simp [storeVerdicts,hf]
    · refine (hi.phase x).congr rfl (by simp [storeTasks,hf]) (by simp [storeVerdicts,hf]) ?_ ⟨?_,?_⟩
      · rw [hh.partition.mem_iff,mem_append,or_iff_right hx]
      · rintro ⟨b,hb⟩
        have hb' : x∈update s.tasks actor (r.tasks.map SemQueue.sleeper) b := hb
        by_cases hba : b=actor
        · rw [hba,update_self] at hb'
          exact absurd hb' hx
        · exact ⟨b,hlist b hba ▸ hb'⟩
      · rintro ⟨b,hb⟩
        have hba : b≠actor := by
          rintro rfl
          simp [hnil] at hb
        refine ⟨b,show x∈update s.tasks actor (r.tasks.map SemQueue.sleeper) b from ?_⟩
        rw [hlist b hba]
        exact hb
  · change (update s.tasks actor (r.tasks.map SemQueue.sleeper) b).Nodup
    by_cases hba : b=actor
    · rw [hba,update_self]
      exact (nodup_append.mp hnd).1
    · rw [hlist b hba]
      exact hi.nodup b
  · change x∈update s.tasks actor (r.tasks.map SemQueue.sleeper) b at hb
    change x∈update s.tasks actor (r.tasks.map SemQueue.sleeper) c at hc
    have hclash : ∀ d, d≠actor → x∈s.tasks d → x∉r.tasks.map SemQueue.sleeper :=
      fun d _ hd hx => (hqueued x (hin x hx).1).1 ⟨d,hd⟩
    by_cases hba : b=actor
    · by_cases hca : c=actor
      · rw [hba,hca]
      · rw [hba,update_self] at hb
        rw [hlist c hca] at hc
        exact absurd hb (hclash c hca hc)
    · rw [hlist b hba] at hb
      by_cases hca : c=actor
      · rw [hca,update_self] at hc
        exact absurd hc (hclash b hba hb)
      · rw [hlist c hca] at hc
        exact hi.apart b c x hb hc

theorem WakeInv.critical (hi : WakeInv s) (h : wakeStep s (.critical actor e)=some s') : WakeInv s' := by
  simp only [wakeStep] at h
  split at h
  · rename_i hg
    obtain ⟨r,hr,rfl⟩ := Option.map_eq_some_iff.mp h
    rcases critical_spec (semReachable_inv hi.reach) (semStep_shape hr) hg.2.2.2 with
      ⟨hn,_,hp⟩|⟨⟨code,hc⟩,hh⟩
    · exact hi.falls_asleep hr hg.2.1 hp hn
    · exact hi.hands_over hr hg.1 hg.2.2.1 hh hc
  · cases h

/-- A relock that fails finds the removal already written as final status. -/
def FailsInformed (s : WakeState) (e : WakeEvent) : Prop := ∀ t, e=.lockFails t → (s.mem t).status= -eidrm

/-- Every step keeps the invariant, failing relocks only when they are
informed. -/
theorem WakeInv.step (hi : WakeInv s) {e : WakeEvent} (h : wakeStep s e=some s') (hf : FailsInformed s e) :
    WakeInv s' := by
  cases e with
  | critical actor e => exact hi.critical h
  | wakeUp actor => exact hi.wakeUp h
  | signal t timedOut =>
    simp only [wakeStep] at h
    split at h
    · rename_i hpc
      cases h
      exact hi.advance (by rw [hpc]; rfl) rfl (by simp)
    · cases h
  | readStatus t => exact hi.readStatus h
  | lockAgain t => exact hi.lockAgain h
  | lockFails t => exact hi.lockFails h (hf t rfl)
  | readLocked t => exact hi.readLocked h
  | unlink t => exact hi.unlink h
  | resume t => exact hi.resume h
  | reuse present =>
    simp only [wakeStep] at h
    split at h
    · cases h
      exact ⟨hi.reach,hi.removed,fun x => (hi.phase x).congr rfl rfl rfl Iff.rfl Iff.rfl,hi.nodup,
        hi.apart,hi.holder,hi.foreign⟩
    · cases h

/-- The invariant holds when nobody sleeps yet. -/
theorem wakeStart_inv (h : WakeStart s) : WakeInv s := by
  obtain ⟨hs,_,hpc,htasks⟩ := h
  have hnil : s.world.sma.semPending=[] := by
    obtain ⟨nsems,now,_,hw⟩ := hs
    rw [hw]
    rfl
  refine ⟨Reachable.start hs,fun _ => hnil,fun t => ?_,by simp [htasks],by simp [htasks],
    by simp [hpc],by simp [hpc]⟩
  exact .away (hpc t) (by simp [sleepers,hnil]) (by simp [Listed,htasks])

/-- One atomic step in which a failing relock is informed. -/
def InformedNext (s : WakeState) (e : WakeEvent) (s' : WakeState) : Prop := wakeStep s e=some s' ∧ FailsInformed s e

/-- States of the interleavings in which every failing relock is informed. -/
def InformedReachable (s : WakeState) : Prop := Reachable WakeStart InformedNext s

theorem informedReachable_inv (h : InformedReachable s) : WakeInv s := by
  refine Reachable.invariant ?_ ?_ h
  · exact fun s hs => wakeStart_inv hs
  · rintro s e s' _ hi ⟨hstep,hf⟩
    exact hi.step hstep hf

/-- In every interleaving in which a sleeper that cannot lock the array again
already has the final status -EIDRM: when semtimedop returns, its entry is
neither queued nor on a wake-up list, a result stored by a waker is the one
returned, and zero is returned exactly when a waker performed the vector. -/
theorem returns_verdict_of_informed {s : WakeState} (h : InformedReachable s) {t : ℕ} {code : ℤ}
    (hc : s.pc t=.returned code) : t∉s.world.sma.semPending.map SemQueue.sleeper ∧ (∀ a, t∉s.tasks a) ∧
      (∀ v, s.verdict t=some v → code=v) ∧ (code=0 ↔ s.verdict t=some 0) := by
  have hi := informedReachable_inv h
  cases hi.phase t with
  | away a _ _ => simp [hc] at a
  | @back code' a b c d e =>
    have hcode : code'=code := by
      rw [hc] at a
      cases a
      rfl
    subst hcode
    refine ⟨b,fun x hx => c ⟨x,hx⟩,d,fun h0 => ?_,fun hv => d 0 hv⟩
    cases hv : s.verdict t with
    | none =>
      rcases e hv with he|he <;> exact absurd (h0.symm.trans he) (by decide)
    | some v => rw [←d v hv,h0]
  | queued a _ _ _ _ | owned a _ _ _ _ _ _ | told a _ _ _ _ _ => simp [hc,SleepPc.waiting] at a

/-- The condition is needed: a sleeper that cannot lock the array again and is
not informed leaves its entry to a waker or returns another result than the
stored one. -/
theorem WakeInv.uninformed (hi : WakeInv s) (h : wakeStep s (.lockFails t)=some s') (hs : (s.mem t).status≠ -eidrm) :
    s'.pc t=.returned (-eidrm) ∧ (Listed s' t ∨ ∃ v, s'.verdict t=some v ∧ v≠ -eidrm) := by
  simp only [wakeStep] at h
  split at h
  · rename_i timedOut hpc
    split at h
    · rename_i hd
      cases h
      refine ⟨update_self ..,?_⟩
      cases hi.phase t with
      | away a _ _ | back a _ _ _ _ => simp [hpc] at a
      | queued _ b _ _ _ => exact absurd b (hi.not_queued hd t)
      | owned _ _ c _ _ _ _ => exact .inl c
      | @told v _ _ _ d e _ => exact .inr ⟨v,e,d ▸ hs⟩
    · cases h
  · cases h

/-- The protocol on a new array of one semaphore. -/
def newProtocol : WakeState := ⟨newWorld 1 0,none,false,fun _ => .idle,fun _ => ⟨0,0⟩,fun _ => [],fun _ => none⟩

theorem newProtocol_start : WakeStart newProtocol := ⟨⟨1,0,by decide,rfl⟩,rfl,fun _ => rfl,fun _ => rfl⟩

/-- One atomic step in which a failing relock is informed, executed. -/
def informedStep (s : WakeState) (e : WakeEvent) : Option WakeState :=
  match e with
  | .lockFails t => if (s.mem t).status= -eidrm then wakeStep s e else none
  | _ => wakeStep s e

/-- Executed steps of this kind are steps of the relation. -/
theorem informedStep_next {e : WakeEvent} (h : informedStep s e=some s') : InformedNext s e s' := by
  unfold informedStep at h
  split at h
  · split at h
    · rename_i hs
      exact ⟨h,fun t ht => by cases ht; exact hs⟩
    · cases h
  · rename_i hne
    exact ⟨h,fun t ht => absurd ht (hne t)⟩

/-- A sleeper is signalled and reads the initial status; the array is removed
and the remover writes the final status; the sleeper cannot lock it again and
returns -EIDRM, as stored. -/
theorem returns_verdict_of_informed_removed : ∃ s : WakeState, InformedReachable s ∧
    s.pc 7=.returned (-eidrm) ∧ s.verdict 7=some (-eidrm) ∧
    7∉s.world.sma.semPending.map SemQueue.sleeper ∧ ∀ a, 7∉s.tasks a := by
  obtain ⟨s,hr,hpc,hv⟩ : ∃ s, InformedReachable s ∧ s.pc 7=.returned (-eidrm) ∧ s.verdict 7=some (-eidrm) :=
    exists_run (fun _ _ _ => informedStep_next) newProtocol_start [.critical 7 (.semtimedop (lowerCall 7 0)),
      .signal 7 false,.readStatus 7,.critical 10 .freeary,.wakeUp 10,.lockFails 7] (by decide)
  obtain ⟨hq,hl,_⟩ := returns_verdict_of_informed hr hpc
  exact ⟨s,hr,hpc,hv,hq,hl⟩

/-- A sleeper is signalled and reads the initial status; another task performs
its vector and still has to wake it; a third one removes the array. The
sleeper cannot lock the array again and returns -EIDRM: its entry is on a
wake-up list, and the stored result is zero. -/
theorem returns_while_owned : ∃ s : WakeState, WakeReachable s ∧ s.pc 7=.returned (-eidrm) ∧
    s.tasks 9=[7] ∧ s.verdict 7=some 0 :=
  exists_run (fun _ _ _ => id) newProtocol_start [.critical 7 (.semtimedop (lowerCall 7 0)),
    .signal 7 false,.readStatus 7,
    .critical 9 (.semtimedop ⟨9,[⟨0,1,0,by decide⟩],300,0,32,none,.noMemory,none⟩),
    .critical 10 .freeary,.lockFails 7] (by decide)

/-- A critical section is one of the array. -/
theorem critical_world (h : wakeStep s (.critical actor e)=some s') :
    ∃ r, semStep s.world e=some r ∧ r.world=s'.world := by
  obtain ⟨_,h⟩ := Option.ite_none_right_eq_some.mp h
  obtain ⟨r,hr,rfl⟩ := Option.map_eq_some_iff.mp h
  refine ⟨r,hr,?_⟩
  unfold afterCritical
  split <;> rfl

/-- A sleeper that unlinks itself does what the removal of a sleeper does. -/
theorem unlink_world (h : wakeStep s (.unlink t)=some s') :
    ∃ timedOut r, semStep s.world (.interrupt t timedOut)=some r ∧ r.world=s'.world := by
  simp only [wakeStep] at h
  split at h
  · obtain ⟨r,hr,rfl⟩ := Option.map_eq_some_iff.mp h
    exact ⟨_,r,hr,rfl⟩
  · cases h

/-- The other steps leave the array alone. -/
theorem world_unchanged {e : WakeEvent} (hc : ∀ a x, e≠.critical a x) (hu : ∀ t, e≠.unlink t)
    (h : wakeStep s e=some s') : s'.world=s.world := by
  cases e with
  | critical a x => exact absurd rfl (hc a x)
  | unlink t => exact absurd rfl (hu t)
  | signal t timedOut | reuse present =>
    obtain ⟨_,h⟩ := Option.ite_none_right_eq_some.mp h
    cases h
    rfl
  | wakeUp a | resume t =>
    simp only [wakeStep] at h
    split at h <;> cases h
    rfl
  | readStatus t | lockAgain t | lockFails t | readLocked t =>
    simp only [wakeStep] at h
    split at h
    · split_ifs at h <;> cases h <;> rfl
    · cases h

/-- However the calls are interleaved, the array goes through a run of critical sections, so
its values stay in range. -/
theorem wake_refines_runs (h : WakeReachable s) : SemReachable s.world ∧
    ∀ i, 0≤(s.world.sma.semBase i).semval ∧ (s.world.sma.semBase i).semval ≤ semvmx := by
  have hr : SemReachable s.world := by
    refine Reachable.invariant (I := fun s => SemReachable s.world) (fun _ hs => Reachable.start hs.1)
      (fun s e s' _ hi hn => ?_) h
    cases e with
    | critical actor e => exact Reachable.next hi (critical_world hn)
    | unlink t =>
      obtain ⟨timedOut,hr⟩ := unlink_world hn
      exact Reachable.next hi hr
    | _ => exact world_unchanged (by simp) (by simp) hn ▸ hi
  exact ⟨hr,(semReachable_inv hr).values.bounds⟩

/-- Of two sleepers one is woken without the lock after its vector was performed, and the other one
unlinks itself after a timeout. -/
theorem wake_refines_runs_asleep : ∃ s, WakeReachable s ∧ s.pc 7=.returned 0 ∧ s.pc 8=.returned (-eagain) ∧
    SemReachable s.world ∧ (s.world.sma.semBase 0).semval ≤ semvmx := by
  obtain ⟨s,hr,hpc,hpc'⟩ : ∃ s, WakeReachable s ∧ s.pc 7=.returned 0 ∧ s.pc 8=.returned (-eagain) :=
    exists_run (fun _ _ _ => id) newProtocol_start [.critical 7 (.semtimedop (lowerCall 7 0)),
      .critical 8 (.semtimedop (lowerCall 8 0)),.signal 8 true,.readStatus 8,
      .critical 9 (.semtimedop ⟨9,[⟨0,1,0,by decide⟩],300,0,32,none,.noMemory,none⟩),.lockAgain 8,
      .wakeUp 9,.readStatus 7,.readLocked 8,.unlink 8] (by decide)
  obtain ⟨hrun,hbound⟩ := wake_refines_runs hr
  exact ⟨s,hr,hpc,hpc',hrun,(hbound 0).2⟩

end BlockIpc.SemWakeProtocol
