import BlockIpc.SemRunInvariant

/-!
# Equal requests are completed in the order of their arrival

Each caller that goes to sleep is stamped with the time of its arrival, and the altering entries
of the queue are sorted by these stamps. Equal vectors without SEM_UNDO get equal answers in equal
states, so a later one is never completed while an earlier one is queued: a new caller would find
the earlier one completable, and a scan serves an entry only when the competing entries in front
of it block.
-/

namespace BlockIpc.SemFifo

open Function List KernelNumbers SemAtomicOps PendingScan SemQueueScan SemQueueInvariant SemScanDrains
  TransitionRuns SemRuns SemRunInvariant

/-- A world that remembers when its sleepers arrived. -/
structure StampedWorld where
  /-- The array and the undo lists. -/
  world : SemWorld
  /-- Number of critical sections so far. -/
  clock : ℕ
  /-- When each task last went to sleep. -/
  arrived : ℕ → ℕ

/-- The arrival times after a critical section. -/
def arrivals (s : StampedWorld) (e : SemEvent) (r : StepReport) : ℕ → ℕ :=
  match e,r.result with
  | .semtimedop c,none => update s.arrived c.task s.clock
  | _,_ => s.arrived

/-- One critical section with its stamp. -/
def StampedNext (s : StampedWorld) (e : SemEvent) (s' : StampedWorld) : Prop :=
  ∃ r, semStep s.world e=some r ∧ s'=⟨r.world,s.clock+1,arrivals s e r⟩

/-- Stamped runs start with a new array. -/
def StampedStart (s : StampedWorld) : Prop := SemStart s.world

/-- States that a stamped run reaches. -/
def StampedReachable (s : StampedWorld) : Prop := Reachable StampedStart StampedNext s

variable {s : StampedWorld} {w : SemWorld} {e : SemEvent} {sma : SemArray} {otime : Bool} {now : ℕ}
  {frames : List SemAttempt} {competes : SemQueue → SemQueue → Prop} {done : List (SemQueue×ℤ)} {r : StepReport}

/-- A stamped run is a run. -/
theorem StampedReachable.unstamped (h : StampedReachable s) : SemReachable s.world := by
  refine Reachable.project StampedWorld.world (fun _ h0 => h0) ?_ h
  rintro a e b ⟨r,hr,rfl⟩
  exact ⟨e,r,hr,rfl⟩

/-- How a critical section changes the queue: it drains it, lets the caller
sleep, removes entries without completing any, or removes the array. -/
inductive QueueStep (w : SemWorld) : SemEvent → StepReport → Prop
  /-- The queue was updated in an order that keeps equal vectors in order. -/
  | drained {e : SemEvent} {r : StepReport} {sma : SemArray} {scan : ScanReport}
      {competes : SemQueue → SemQueue → Prop} {done : List (SemQueue×ℤ)}
      (hu : UpdateSpec sma competes scan done) (hp : sma.semPending=w.sma.semPending)
      (hc : ∀ x q : SemQueue, x.sops=q.sops → competes x q) (hw : r.world.sma=scan.array)
      (ht : r.tasks=scan.pt) (hr : r.result=some 0) : QueueStep w e r
  /-- The caller of an operation went to sleep. -/
  | slept {c : SemopCall} {r : StepReport} (hn : ∀ q∈w.sma.semPending, q.sleeper≠c.task)
      (hp : r.world.sma.semPending=addQueue (sleepEntry w c) w.sma.semPending)
      (ht : r.tasks=[]) (hr : r.result=none) : QueueStep w (.semtimedop c) r
  /-- Entries left without success. -/
  | left {e : SemEvent} {r : StepReport} (hs : r.world.sma.semPending.Sublist w.sma.semPending)
      (ht : ∀ q∈r.tasks, q.pid≠0) (hr : r.result≠none) : QueueStep w e r

/-- Updating the queue is such a change. -/
theorem QueueStep.updated {sops : Option (List Sembuf)}
    (hu : UpdateSpec sma competes (doSmartUpdate sma sops otime now) done) (hp : sma.semPending=w.sma.semPending)
    (hc : ∀ x q : SemQueue, x.sops=q.sops → competes x q) : QueueStep w e (w.updated sma sops otime now frames) :=
  QueueStep.drained hu hp hc rfl rfl rfl

/-- Full updates keep all entries in order. -/
theorem QueueStep.control (hc : ControlChange w sma) : QueueStep w e (w.updated sma none otime now frames) := by
  obtain ⟨done,hu⟩ := doSmartUpdate_none_spec sma otime now hc.queue hc.values
  exact .updated hu hc.pending (fun _ _ _ => trivial)

/-- Every critical section changes the queue in one of these ways. -/
theorem queueStep_of_shape (hi : SemInv w) (h : SemShape w e r) : QueueStep w e r := by
  cases h with
  | fails _ =>
    exact .left (List.Sublist.refl _) (by simp [SemWorld.fails]) (by simp [SemWorld.fails])
  | returned | getUndoList | copySemundo | findAllocUndo | exitNone | exitSem =>
    exact .left (List.Sublist.refl _) (by simp) (by simp)
  | @performed c hr h ha =>
    obtain ⟨done,hu⟩ := hi.performed_spec h true c.now
    refine .updated hu rfl (fun x q hs => ?_)
    unfold updateCompetes
    split
    · trivial
    · show x.semnum=q.semnum
      rw [SemQueue.semnum,hs]
      rfl
  | sleeps hr h => exact .slept hr.awake (enqueue_frame _ _).2.1 rfl rfl
  | @setval c hv => exact .control (setval_control hi c.pid c.now hv)
  | @setall c hv => exact .control (setall_control hi c.now hv)
  | @interrupt task timedOut q hq =>
    refine .left ?_ (by simp) (by simp)
    rw [show (unlinkQueue w.sma q).semPending=_ from (unlinkQueue_frame w.sma q).2.1]
    exact filter_sublist
  | @exitSemAdjust ulp pid now hr hl => exact .control (exitSem_control hi pid hr)
  | freeary =>
    refine .left (by simp [hi.freeary_frame.1]) (fun q hm => ?_) (by simp)
    obtain ⟨x,_,rfl⟩ := mem_map.mp hm
    exact (by decide : -eidrm≠0)

/-- The queue is sorted by arrival among altering entries, and all sleepers
have arrived before now. -/
structure StampInv (s : StampedWorld) : Prop where
  /-- Altering entries stand in the order of their arrival. -/
  sorted : s.world.sma.semPending.Pairwise (fun a b => a.alter=true → b.alter=true →
    s.arrived a.sleeper<s.arrived b.sleeper)
  /-- Stamps lie in the past. -/
  past : ∀ q∈s.world.sma.semPending, s.arrived q.sleeper<s.clock

/-- Removing entries without a new arrival keeps the order. -/
theorem StampInv.sublist (hi : StampInv s) (h : w.sma.semPending.Sublist s.world.sma.semPending) :
    StampInv ⟨w,s.clock+1,s.arrived⟩ :=
  ⟨hi.sorted.sublist h,fun q hq => Nat.lt_succ_of_lt (hi.past q (h.subset hq))⟩

/-- A new sleeper is stamped later than all others; if it alters it is last. -/
theorem StampInv.sleep (hi : StampInv s) {q : SemQueue} (hp : w.sma.semPending=addQueue q s.world.sma.semPending)
    (hn : ∀ x∈s.world.sma.semPending, x.sleeper≠q.sleeper) :
    StampInv ⟨w,s.clock+1,update s.arrived q.sleeper s.clock⟩ := by
  have hold : ∀ x∈s.world.sma.semPending,
      update s.arrived q.sleeper s.clock x.sleeper=s.arrived x.sleeper :=
    fun x hx => update_of_ne (hn x hx) _ _
  have hkeep : s.world.sma.semPending.Pairwise (fun a b => a.alter=true → b.alter=true →
      update s.arrived q.sleeper s.clock a.sleeper<
        update s.arrived q.sleeper s.clock b.sleeper) := by
    refine hi.sorted.imp_of_mem (fun ha hb h => ?_)
    rw [hold _ ha,hold _ hb]
    exact h
  refine ⟨?_,fun x hx => ?_⟩
  · simp only [hp,addQueue]
    split
    · refine pairwise_append.mpr ⟨hkeep,pairwise_singleton _ _,fun a ha b hb _ _ => ?_⟩
      rw [mem_singleton.mp hb,hold a ha,update_self]
      exact hi.past a ha
    · rename_i halter
      exact pairwise_cons.mpr ⟨fun b _ hq => absurd hq halter,hkeep⟩
  · rcases mem_addQueue.mp (show x∈addQueue q _ from hp ▸ hx) with rfl|hx
    · simp
    · simp only [hold x hx]
      exact Nat.lt_succ_of_lt (hi.past x hx)

/-- Every critical section keeps the queue sorted by arrival. -/
theorem StampInv.step (hi : StampInv s) (h : QueueStep s.world e r) : StampInv ⟨r.world,s.clock+1,arrivals s e r⟩ := by
  have hkeep : r.result≠none → arrivals s e r=s.arrived := by
    intro hr
    unfold arrivals
    split
    · rename_i hn
      exact absurd hn hr
    · rfl
  cases h with
  | drained hu hp _ hw _ hr =>
    rw [hkeep (by simp [hr])]
    refine hi.sublist ?_
    rw [hw,←hp]
    exact hu.drains.sublist
  | @slept c _ hn hp _ hr =>
    have ha : arrivals s (.semtimedop c) r=update s.arrived c.task s.clock := by
      simp [arrivals,hr]
    rw [ha]
    exact hi.sleep hp hn
  | left hs _ hr =>
    rw [hkeep hr]
    exact hi.sublist hs

/-- The queue is sorted by arrival in every state of every run. -/
theorem stampedReachable_inv (h : StampedReachable s) : StampInv s := by
  refine Reachable.invariant ?_ ?_ h
  · rintro s ⟨nsems,now,_,hs⟩
    have hp : s.world.sma.semPending=[] := by
      rw [hs]
      rfl
    exact ⟨by simp [hp],by simp [hp]⟩
  · rintro s e t hr hi ⟨r,hstep,rfl⟩
    exact hi.step (queueStep_of_shape (semReachable_inv (StampedReachable.unstamped hr))
      (semStep_shape hstep))

/-- In a drain an entry is not served successfully while an equal plain vector
that stands in front of it remains. -/
theorem drained_earlier {v t : SemValues} {pend rest : List SemQueue} {early late : List (SemQueue×ℤ)}
    {earlier later : SemQueue} (hd : Drains semAttempt competes v pend done t rest)
    (hdone : done=early++(later,0)::late) (hc : competes earlier later) (hs : later.sops=earlier.sops)
    (hplain : ∀ sop∈earlier.sops, sop.undoFlag=false) (hmem : earlier∈pend)
    (hfront : ∀ before after, (before++later::after).Sublist pend → earlier∉later::after) :
    earlier∈early.map Prod.fst := by
  obtain ⟨u,before,after,hperm,hsub,hb,h0⟩ := hd.served hdone
  by_contra hne
  have hm : earlier∈done.map Prod.fst++rest := hd.perm.subset hmem
  have hrest : earlier∈before++later::after := by
    refine hperm.symm.subset ?_
    rw [hdone] at hm
    simp only [map_append,map_cons,mem_append,mem_cons] at hm hne ⊢
    tauto
  rcases mem_append.mp hrest with hm|hm
  · have hblocked := hb earlier hm hc
    unfold Blocked semAttempt at hblocked
    unfold semAttempt at h0
    rw [hs,tryAtomicSemop_error_plain later.undo earlier.undo later.pid earlier.pid hplain] at h0
    exact absurd hblocked (by rw [h0]; exact lt_irrefl _)
  · exact hfront before after hsub hm

/-- While an altering vector without SEM_UNDO sleeps, no equal vector that
arrives later is completed successfully: a new caller does not succeed at
once, and when a scan completes a later sleeper with result zero it has
already taken the earlier one off the queue. -/
theorem fifo_of_equal_requests {s : StampedWorld} (h : StampedReachable s) {e : SemEvent}
    {r : StepReport} (hr : semStep s.world e=some r) {earlier : SemQueue}
    (hq : earlier∈s.world.sma.semPending) (halter : isAlter earlier.sops=true)
    (hplain : ∀ sop∈earlier.sops, sop.undoFlag=false) :
    (∀ c, e=.semtimedop c → c.sops=earlier.sops → r.result≠some 0) ∧
    ∀ pre later post, r.tasks=pre++later::post → later.pid=0 → later.sops=earlier.sops →
      s.arrived earlier.sleeper<s.arrived later.sleeper → ∃ x∈pre, x.sleeper=earlier.sleeper := by
  have hi := semReachable_inv h.unstamped
  have hstamp := stampedReachable_inv h
  have hshape := semStep_shape hr
  have ha : earlier.alter=true := (hi.queue.entries earlier hq).alter_eq.trans halter
  refine ⟨fun c hc hs h0 => ?_,fun pre later post ht h0 hs hlt => ?_⟩
  · subst hc
    have hne : (firstAttempt s.world c).outcome.error≠0 := by
      have hb : 0<(tryAtomicSemop s.world.sma.toSemValues earlier.sops earlier.undo earlier.pid).error :=
        hi.blocked earlier hq
      rw [←hs,←tryAtomicSemop_error_plain (undoOf s.world c) earlier.undo c.pid earlier.pid
        (hs ▸ hplain)] at hb
      exact ne_of_gt hb
    cases hshape with
    | @fails _ code hneg =>
      have hcode : code=0 := Option.some.inj h0
      omega
    | returned _ _ _ => exact hne (Option.some.inj h0)
    | performed _ herr _ => exact hne herr
    | sleeps _ _ => exact absurd h0 (by simp)
  · cases queueStep_of_shape hi hshape with
    | @drained _ _ sma scan competes done hu hp hcomp _ htasks _ =>
      rw [htasks,hu.pt_eq] at ht
      obtain ⟨early,tail,hdone,rfl,htail⟩ := map_eq_append_iff.mp ht
      obtain ⟨⟨q,code⟩,late,rfl,rfl,rfl⟩ := map_eq_cons_iff.mp htail
      have hcode : code=0 := h0
      subst hcode
      have hsops : q.sops=earlier.sops := hs
      have hqm : q∈s.world.sma.semPending :=
        hp ▸ hu.drains.perm.symm.subset (by simp [hdone])
      have hqa : q.alter=true := by
        rw [(hi.queue.entries q hqm).alter_eq,hsops]
        exact halter
      have hin := drained_earlier hu.drains hdone (hcomp _ _ hsops.symm) hsops hplain (hp ▸ hq)
        (fun before after hsub hm => by
          have hord := hstamp.sorted.sublist (hp ▸ hsub)
          have hlt' : s.arrived earlier.sleeper<s.arrived q.sleeper := hlt
          rcases mem_cons.mp hm with rfl|hm
          · exact lt_irrefl _ hlt'
          · have hgt := (pairwise_cons.mp (pairwise_append.mp hord).2.1).1 earlier hm hqa ha
            exact lt_asymm hlt' hgt)
      obtain ⟨p,hp',rfl⟩ := mem_map.mp hin
      exact ⟨_,mem_map_of_mem hp',rfl⟩
    | slept _ _ htasks _ => simp [htasks] at ht
    | left _ htasks _ => exact absurd h0 (htasks later (by simp [ht]))

/-- The stamped state after tasks 7 and 8 went to sleep with equal vectors. -/
def twoAsleep : StampedWorld :=
  ⟨(semtimedop oneAsleep (lowerCall 8 0)).world,2,
    update (update (fun _ => 0) 7 0) 8 1⟩

/-- That state is reached by a stamped run. -/
theorem twoAsleep_reachable : StampedReachable twoAsleep := by
  have h0 : StampedReachable ⟨newWorld 1 0,0,fun _ => 0⟩ := Reachable.start ⟨1,0,by decide,rfl⟩
  have h1 : StampedReachable ⟨oneAsleep,1,update (fun _ => 0) 7 0⟩ :=
    Reachable.next (a:=.semtimedop (lowerCall 7 0)) h0 ⟨_,rfl,rfl⟩
  exact Reachable.next (a:=.semtimedop (lowerCall 8 0)) h1 ⟨_,rfl,rfl⟩

/-- A call of task 9 that raises the first semaphore by two. -/
def raiseCall : SemopCall := ⟨9,[⟨0,2,0,by decide⟩],300,0,32,none,.noMemory,none⟩

/-- Raising the semaphore completes both sleepers, the earlier one first. -/
theorem fifo_twoAsleep : StampedReachable twoAsleep ∧
    (semtimedop twoAsleep.world raiseCall).tasks.map (fun q => (q.sleeper,q.pid))=[(7,0),(8,0)] ∧
    ∃ x∈(semtimedop twoAsleep.world raiseCall).tasks.take 1, x.sleeper=7 := by
  have hf := fifo_of_equal_requests twoAsleep_reachable (e:=.semtimedop raiseCall) rfl
    (show sleepEntry (newWorld 1 0) (lowerCall 7 0)∈twoAsleep.world.sma.semPending from
      mem_cons_self ..) rfl (fun sop hs => by
        rw [mem_singleton.mp hs]
        rfl)
  exact ⟨twoAsleep_reachable,rfl,hf.2 _ _ [] rfl rfl rfl (by decide)⟩

end BlockIpc.SemFifo
