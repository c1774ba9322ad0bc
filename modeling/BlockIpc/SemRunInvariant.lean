import BlockIpc.SemRuns
import BlockIpc.ReferenceCounts

/-!
# Invariants of every run of a semaphore array

In every state in which the array lock is free the queue is represented
correctly, values and adjustments are in range, and every sleeper still has
to wait. An undo record used by a sleeper is owned by the undo list of that
task and is linked to the array, because a sleeping task keeps its reference
to the list. No assertion of the restart test ever fails.
-/

namespace BlockIpc.SemRunInvariant

open Function List KernelNumbers SemAtomicOps PendingScan SemQueueScan SemQueueInvariant SemScanDrains
  TransitionRuns ReferenceCounts SemRuns

/-- What holds in every state of a run in which the array lock is free. -/
structure SemInv (w : SemWorld) : Prop where
  /-- The lists and the counter represent the sleepers. -/
  queue : QueueInv w.sma
  /-- Values and adjustments are in range. -/
  values : ValueInv w.sma.toSemValues
  /-- Every sleeper still has to wait. -/
  blocked : ∀ q∈w.sma.semPending, Blocked semAttempt w.sma.toSemValues q
  /-- A sleeper's undo record belongs to its undo list and is linked. -/
  undo : ∀ q∈w.sma.semPending, ∀ u, q.undo=some u →
    w.undoList q.sleeper=some u ∧ u∈w.sma.listId
  /-- A sleeping vector with SEM_UNDO has an undo record. -/
  given : ∀ q∈w.sma.semPending, q.sops.any Sembuf.undoFlag=true → q.undo≠none
  /-- The reference count of an undo list is the number of its tasks. -/
  refs : Counts w.refcnt w.undoList

/-- A new array satisfies the invariant. -/
theorem newWorld_inv (nsems now : ℕ) : SemInv (newWorld nsems now) := by
  refine ⟨⟨fun _ => rfl,rfl,List.Pairwise.nil,nodup_nil,by simp [newWorld,newary]⟩,
    ⟨fun _ => ⟨le_refl 0,show (0 : ℤ) ≤ semvmx by decide⟩,fun _ _ => show IsShort 0 by decide⟩,
    by simp [newWorld,newary],by simp [newWorld,newary],by simp [newWorld,newary],counts_none⟩

variable {w : SemWorld} {sma : SemArray} {l : List SemQueue} {q : SemQueue} {c : SemopCall} {task ulp : ℕ}

/-- Updating the queue of an array whose sleepers and values are in order
establishes the invariant. -/
theorem SemInv.update {competes : SemQueue → SemQueue → Prop} {r : ScanReport} {done : List (SemQueue×ℤ)}
    (hi : SemInv w) (hu : UpdateSpec sma competes r done) (hq : QueueInv sma) (hv : ValueInv sma.toSemValues)
    (hp : sma.semPending=w.sma.semPending) (hl : ∀ q∈w.sma.semPending, ∀ u, q.undo=some u → u∈sma.listId) :
    SemInv {w with sma := r.array} := by
  obtain ⟨otime,hc⟩ := hu.completes
  have hsub : ∀ q∈r.array.semPending, q∈w.sma.semPending := fun q hm => hp ▸ hu.subset q hm
  have hlist : r.array.listId=sma.listId := hc.frame.2.1
  refine ⟨hu.queueInv hq,hu.valueInv hv,hu.blocked,fun q hm u hqu => ?_,
    fun q hm => hi.given q (hsub q hm),hi.refs⟩
  exact ⟨(hi.undo q (hsub q hm) u hqu).1,hlist ▸ hl q (hsub q hm) u hqu⟩

/-- A change of values, undo records and times of an array under the lock. -/
structure ControlChange (w : SemWorld) (sma : SemArray) : Prop where
  queue : QueueInv sma
  /-- Values and adjustments stay in range. -/
  values : ValueInv sma.toSemValues
  /-- The sleepers stay. -/
  pending : sma.semPending=w.sma.semPending
  /-- The records of the sleepers stay linked. -/
  listId : ∀ q∈w.sma.semPending, ∀ u, q.undo=some u → u∈sma.listId
  /-- The array is not removed. -/
  deleted : sma.deleted=w.sma.deleted

/-- Setting a semaphore is such a change. -/
theorem setval_control (hi : SemInv w) {i : ℕ} {val : ℤ} (pid : ℤ) (now : ℕ) (hv : 0≤val ∧ val ≤ semvmx) :
    ControlChange w (setvalArray w.sma i val pid now) := by
  refine ⟨{hi.queue with},
    ⟨fun j => ?_,fun u j => ?_⟩,rfl,fun q hq u hu => (hi.undo q hq u hu).2,rfl⟩
  · by_cases hj : j=i
    · subst hj
      simpa [setvalArray] using hv
    · simpa [setvalArray,hj] using hi.values.bounds j
  · dsimp only [setvalArray]
    split
    · decide
    · exact hi.values.shorts u j

/-- Setting all semaphores is such a change. -/
theorem setall_control (hi : SemInv w) {semIo : ℕ → ℕ} (now : ℕ) (hv : ∀ i<w.sma.semNsems, (semIo i : ℤ) ≤ semvmx) :
    ControlChange w (setallArray w.sma semIo now) := by
  refine ⟨{hi.queue with},
    ⟨fun j => ?_,fun u j => ?_⟩,rfl,fun q hq u hu => (hi.undo q hq u hu).2,rfl⟩
  · dsimp only [setallArray]
    split
    · rename_i hj
      exact ⟨Int.natCast_nonneg _,hv j hj⟩
    · exact hi.values.bounds j
  · dsimp only [setallArray]
    split
    · decide
    · exact hi.values.shorts u j

/-- An adjusted semaphore has an admissible value. -/
theorem adjustSem_bounds {sem : Sem} (adj pid : ℤ) (h : 0 ≤ sem.semval ∧ sem.semval ≤ semvmx) :
    0≤(adjustSem sem adj pid).semval ∧ (adjustSem sem adj pid).semval ≤ semvmx := by
  unfold adjustSem semvmx at *
  by_cases ha : adj≠0
  · rw [if_pos ha]
    dsimp only
    split_ifs <;> omega
  · rw [if_neg ha]
    exact h

/-- Performing the adjustments of an abandoned undo list is such a change:
no sleeper uses its record. -/
theorem exitSem_control (hi : SemInv w) {u : ℕ} (pid : ℤ) (hr : w.refcnt u=0) :
    ControlChange w (exitSemArray w.sma u pid) := by
  refine ⟨{hi.queue with},
    ⟨fun j => ?_,hi.values.shorts⟩,rfl,fun q hq x hx => ?_,rfl⟩
  · dsimp only [exitSemArray]
    split
    · exact adjustSem_bounds _ _ (hi.values.bounds j)
    · exact hi.values.bounds j
  · obtain ⟨ht,hl⟩ := hi.undo q hq x hx
    refine mem_filter.mpr ⟨hl,decide_eq_true ?_⟩
    rintro rfl
    exact hi.refs.not_owner hr q.sleeper ht

/-- A change under the lock followed by a full update keeps the invariant. -/
theorem SemInv.control (hi : SemInv w) (hc : ControlChange w sma) (otime : Bool) (now : ℕ) (frames : List SemAttempt) :
    SemInv (w.updated sma none otime now frames).world ∧
      (w.updated sma none otime now frames).bug=false := by
  obtain ⟨done,hu⟩ := doSmartUpdate_none_spec sma otime now hc.queue hc.values
  exact ⟨hi.update hu hc.queue hc.values hc.pending hc.listId,hu.bug_eq⟩

/-- Updating the queue after a performed vector drains it. -/
theorem SemInv.performed_spec (hi : SemInv w) {sops : List Sembuf} {un : Option ℕ} {pid : ℤ}
    (h : (tryAtomicSemop w.sma.toSemValues sops un pid).error=0) (otime : Bool) (now : ℕ) :
    ∃ done, UpdateSpec {w.sma with toSemValues := (tryAtomicSemop w.sma.toSemValues sops un pid).values}
      (updateCompetes w.sma) (doSmartUpdate {w.sma with toSemValues :=
        (tryAtomicSemop w.sma.toSemValues sops un pid).values} (some sops) otime now) done := by
  refine doSmartUpdate_some_spec _ sops otime now (hi.queue.withValues _)
    ⟨tryAtomicSemop_bounds sops un pid hi.values.bounds hi.values.shorts,
      tryAtomicSemop_short sops un pid hi.values.shorts⟩ (fun hc x hx hb => ?_)
  exact trigger_of_unblocked hi.values h (hi.queue.entries x hx)
    (hi.queue.single_of_complexCount hc hx) (hi.blocked x hx) hb

/-- Adding an entry at the right end keeps non-altering entries in front. -/
theorem addQueue_ordered (h : l.Pairwise (fun a b => a.alter=true → b.alter=true)) :
    (addQueue q l).Pairwise (fun a b => a.alter=true → b.alter=true) := by
  unfold addQueue
  split
  · rename_i ha
    refine pairwise_append.mpr ⟨h,pairwise_singleton _ _,fun a _ b hb _ => ?_⟩
    rw [mem_singleton.mp hb]
    exact ha
  · rename_i ha
    exact pairwise_cons.mpr ⟨fun b _ hq => absurd hq ha,h⟩

/-- Adding an entry adds exactly that entry. -/
theorem mem_addQueue {x : SemQueue} : x∈addQueue q l ↔ x=q ∨ x∈l := by
  unfold addQueue
  split
  · simp [or_comm]
  · simp

/-- Selecting from a list with an added entry. -/
theorem addQueue_filter (p : SemQueue → Bool) (q : SemQueue) (l : List SemQueue) :
    (addQueue q l).filter p=if p q=true then addQueue q (l.filter p) else l.filter p := by
  unfold addQueue
  by_cases hp : p q=true <;> split <;> simp [hp]

/-- Distinct sleepers stay distinct when another task goes to sleep. -/
theorem addQueue_distinct (h : (l.map SemQueue.sleeper).Nodup) (hn : ∀ x∈l, x.sleeper≠q.sleeper) :
    ((addQueue q l).map SemQueue.sleeper).Nodup := by
  have hq : q.sleeper∉l.map SemQueue.sleeper := by
    intro hm
    obtain ⟨x,hx,he⟩ := mem_map.mp hm
    exact hn x hx he
  unfold addQueue
  split
  · rw [map_append,map_singleton]
    refine nodup_append.mpr ⟨h,nodup_singleton _,fun a ha b hb he => ?_⟩
    rw [mem_singleton.mp hb] at he
    exact hq (he ▸ ha)
  · exact nodup_cons.mpr ⟨hq,h⟩

/-- Linking an entry touches only the queue. -/
theorem enqueue_frame (sma : SemArray) (q : SemQueue) : (enqueue sma q).toSemValues=sma.toSemValues ∧
      (enqueue sma q).semPending=addQueue q sma.semPending ∧
      (enqueue sma q).semNsems=sma.semNsems ∧ (enqueue sma q).listId=sma.listId ∧
      (enqueue sma q).deleted=sma.deleted := by
  unfold enqueue
  dsimp only
  split <;> exact ⟨rfl,rfl,rfl,rfl,rfl⟩

/-- Linking an entry that may sleep keeps the representation. -/
theorem SemInv.enqueue_queueInv (hi : SemInv w) (he : EntryInv w.sma.semNsems q)
    (hn : ∀ x∈w.sma.semPending, x.sleeper≠q.sleeper) : QueueInv (enqueue w.sma q) := by
  obtain ⟨_,hp,hs,_,_⟩ := enqueue_frame w.sma q
  have hne := he.nonempty
  refine ⟨fun i => ?_,?_,hp ▸ addQueue_ordered hi.queue.ordered,
    hp ▸ addQueue_distinct hi.queue.distinct hn,fun x hx => ?_⟩
  · rw [hp,addQueue_filter,←hi.queue.simple i]
    unfold enqueue
    dsimp only
    by_cases h1 : q.nsops=1
    · by_cases h2 : q.semnum=i
      · subst h2
        simp [h1]
      · simp [h1,h2,update_of_ne (Ne.symm h2)]
    · simp [h1]
  · have hc := hi.queue.complex
    rw [hp,addQueue_filter]
    unfold enqueue
    dsimp only
    by_cases h1 : q.nsops=1
    · simpa [h1] using hc
    · have h2 : 1<q.nsops := by omega
      have hl : ∀ l : List SemQueue, (addQueue q l).length=l.length+1 := by
        intro l
        unfold addQueue
        split <;> simp
      simp only [h1,h2,decide_true,if_true,if_false,hl,Nat.cast_add,Nat.cast_one]
      omega
  · rw [hs]
    rcases mem_addQueue.mp (hp ▸ hx) with rfl|hx
    · exact he
    · exact hi.queue.entries x hx

/-- The entry of a caller that has to sleep may sleep. -/
theorem SemInv.sleepEntry_inv (hi : SemInv w) (hr : SemopReady w c) (h : 0<(firstAttempt w c).outcome.error) :
    EntryInv w.sma.semNsems (sleepEntry w c) := by
  refine ⟨hr.nonempty,rfl,?_,hr.inRange⟩
  have h1 : (tryAtomicSemop w.sma.toSemValues c.sops (undoOf w c) c.pid).error=1 :=
    tryAtomicSemop_error_pos h
  cases hs : (semopForward (undoOf w c) w.sma.toSemValues [] c.sops).stop with
  | none =>
    rw [tryAtomicSemop_of_complete c.pid hs] at h1
    exact absurd h1 (by simp)
  | some code =>
    rw [tryAtomicSemop_of_stop c.pid hs] at h1
    have hc : code=1 := h1
    exact semopForward_sleeps hi.values.bounds (hc ▸ hs)

/-- A caller that goes to sleep keeps the invariant. -/
theorem SemInv.sleeps (hi : SemInv w) (hr : SemopReady w c) (h : 0<(firstAttempt w c).outcome.error) :
    SemInv {w with sma := enqueue w.sma (sleepEntry w c)} := by
  obtain ⟨hv,hp,_,hl,_⟩ := enqueue_frame w.sma (sleepEntry w c)
  refine ⟨hi.enqueue_queueInv (hi.sleepEntry_inv hr h) hr.awake,hv ▸ hi.values,fun q hq => ?_,
    fun q hq u hu => ?_,fun q hq hf => ?_,hi.refs⟩
  all_goals rcases mem_addQueue.mp (hp ▸ hq) with rfl|hq
  · exact hv ▸ h
  · exact hv ▸ hi.blocked q hq
  · have hflag : c.sops.any Sembuf.undoFlag=true := by
      by_contra hn
      simp [sleepEntry,undoOf,hn] at hu
    obtain ⟨x,hx,ht,hm⟩ := hr.linked hflag
    have he : x=u := by
      rw [show undoOf w c=some u from hu] at hx
      exact (Option.some.inj hx).symm
    exact ⟨he ▸ ht,hl ▸ he ▸ hm⟩
  · exact ⟨(hi.undo q hq u hu).1,hl ▸ (hi.undo q hq u hu).2⟩
  · obtain ⟨x,hx,_⟩ := hr.linked hf
    rw [show (sleepEntry w c).undo=some x from hx]
    simp
  · exact hi.given q hq hf

/-- A change that keeps the queue and what the sleepers read keeps them
blocked. -/
theorem SemInv.quiet (hi : SemInv w) {v : SemValues} (hv : ValueInv v)
    (h : ∀ q∈w.sma.semPending, ∀ i, SameView q.undo i v w.sma.toSemValues) :
    SemInv {w with sma := {w.sma with toSemValues := v}} :=
  ⟨hi.queue.withValues v,hv,
    fun q hq => (blocked_congr (fun sop _ => h q hq sop.semNum)).mpr (hi.blocked q hq),
    hi.undo,hi.given,hi.refs⟩

/-- A call that changes no value keeps the invariant. -/
theorem SemInv.returned (hi : SemInv w) (ha : (firstAttempt w c).outcome.error=0 → isAlter c.sops=false) :
    SemInv {w with sma := attemptedArray w c} := by
  by_cases h0 : (firstAttempt w c).outcome.error=0
  · have hz : ∀ sop∈c.sops, sop.semOp=0 := by
      intro sop hsop
      simpa using any_eq_false.mp (ha h0) sop hsop
    refine hi.quiet ⟨tryAtomicSemop_bounds c.sops _ c.pid hi.values.bounds hi.values.shorts,
      tryAtomicSemop_short c.sops _ c.pid hi.values.shorts⟩ (fun q _ i => ?_)
    obtain ⟨hval,hadj⟩ := tryAtomicSemop_of_zero (undoOf w c) c.pid hi.values.shorts hz i
    exact SameView.of_eq hval hadj
  · rw [attemptedArray_of_error h0]
    exact hi

/-- Removing a sleeper keeps the invariant. -/
theorem SemInv.interrupt (hi : SemInv w) (hq : q∈w.sma.semPending) :
    SemInv {w with sma := unlinkQueue w.sma q} := by
  obtain ⟨hv,hp,_,hl,_⟩ := unlinkQueue_frame w.sma q
  have hsub : ∀ x∈(unlinkQueue w.sma q).semPending, x∈w.sma.semPending :=
    fun x hx => (mem_listDel.mp (hp ▸ hx)).1
  exact ⟨hi.queue.unlink hq,hv ▸ hi.values,fun x hx => hv ▸ hi.blocked x (hsub x hx),
    fun x hx u hu => ⟨(hi.undo x (hsub x hx) u hu).1,hl ▸ (hi.undo x (hsub x hx) u hu).2⟩,
    fun x hx => hi.given x (hsub x hx),hi.refs⟩

/-- Giving a task without undo list one keeps the invariant. -/
theorem SemInv.share (hi : SemInv w) (ulp : ℕ) (ht : w.undoList task=none) : SemInv {w with
      undoList := Function.update w.undoList task (some ulp)
      refcnt := Function.update w.refcnt ulp (w.refcnt ulp+1)} := by
  refine ⟨hi.queue,hi.values,hi.blocked,fun q hq u hu => ?_,hi.given,hi.refs.acquire ht⟩
  obtain ⟨hs,hl⟩ := hi.undo q hq u hu
  have hne : q.sleeper≠task := by
    rintro rfl
    simp [ht] at hs
  exact ⟨by simpa [update_of_ne hne] using hs,hl⟩

/-- A task that gives its undo list up keeps the invariant, since it does not
sleep. -/
theorem SemInv.exit (hi : SemInv w) (ht : w.undoList task=some ulp) (ha : ∀ q∈w.sma.semPending, q.sleeper≠task) :
    SemInv {w with
      undoList := Function.update w.undoList task none
      refcnt := Function.update w.refcnt ulp (w.refcnt ulp-1)} := by
  refine ⟨hi.queue,hi.values,hi.blocked,fun q hq u hu => ?_,hi.given,hi.refs.release ht⟩
  obtain ⟨hs,hl⟩ := hi.undo q hq u hu
  exact ⟨by simpa [update_of_ne (ha q hq)] using hs,hl⟩

/-- Linking a zeroed undo record keeps the invariant: no sleeper uses it yet. -/
theorem SemInv.link (hi : SemInv w) (hl : ulp∉w.sma.listId) : SemInv {w with sma := {w.sma with
      listId := ulp::w.sma.listId
      semadj := fun u i => if u=ulp then 0 else w.sma.semadj u i}} := by
  have hquiet := @SemInv.quiet w hi ⟨w.sma.semBase,fun u i => if u=ulp then 0 else w.sma.semadj u i⟩
    ⟨hi.values.bounds,fun u i => by
      dsimp only
      split
      · decide
      · exact hi.values.shorts u i⟩ (fun q hq i => by
      refine ⟨rfl,?_⟩
      cases hu : q.undo with
      | none => rfl
      | some u =>
        have hne : u≠ulp := fun he => hl (he ▸ (hi.undo q hq u hu).2)
        simp [SemValues.semadjOf,hne])
  exact ⟨{hquiet.queue with},hquiet.values,hquiet.blocked,
    fun q hq u hu => ⟨(hi.undo q hq u hu).1,mem_cons_of_mem _ (hi.undo q hq u hu).2⟩,
    hi.given,hi.refs⟩

/-- Unlinking all entries one by one leaves an empty queue. -/
theorem unlink_all (l : List SemQueue) (sma : SemArray) (hi : QueueInv sma) (hl : sma.semPending=l) :
    QueueInv (l.foldl unlinkQueue sma) ∧ (l.foldl unlinkQueue sma).semPending=[] ∧
      (l.foldl unlinkQueue sma).toSemValues=sma.toSemValues ∧
      (l.foldl unlinkQueue sma).listId=sma.listId := by
  induction l generalizing sma with
  | nil => exact ⟨hi,hl,rfl,rfl⟩
  | cons q l ih =>
    obtain ⟨hv,hp,_,hlist,_⟩ := unlinkQueue_frame sma q
    have hd := hl ▸ hi.distinct
    have hdel : listDel q ([]++q::l)=[]++l := listDel_split hd
    rw [hl,show listDel q (q::l)=l from hdel] at hp
    obtain ⟨h1,h2,h3,h4⟩ := ih (unlinkQueue sma q) (hi.unlink (by simp [hl])) hp
    exact ⟨h1,h2,h3.trans hv,h4.trans hlist⟩

/-- The queue of an array does not depend on its undo records. -/
theorem QueueInv.withListId (hi : QueueInv sma) (l : List ℕ) : QueueInv {sma with listId := l} := {hi with}

/-- Removing the array unlinks every sleeper and every undo record and leaves
the values. -/
theorem SemInv.freeary_frame (hi : SemInv w) : (freearyArray w.sma).semPending=[] ∧ (freearyArray w.sma).listId=[] ∧
      (freearyArray w.sma).toSemValues=w.sma.toSemValues := by
  obtain ⟨_,hp,hv,hl⟩ := unlink_all w.sma.semPending _ (QueueInv.withListId hi.queue []) rfl
  exact ⟨hp,hl,hv⟩

/-- Removing the array keeps the invariant; nothing sleeps any more. -/
theorem SemInv.freeary (hi : SemInv w) : SemInv {w with sma := freearyArray w.sma} := by
  obtain ⟨hq,_⟩ := unlink_all w.sma.semPending _ (QueueInv.withListId hi.queue []) rfl
  obtain ⟨hp,_,hv⟩ := hi.freeary_frame
  exact ⟨{hq with},hv ▸ hi.values,
    by simp [hp],by simp [hp],by simp [hp],hi.refs⟩

/-- Every critical section keeps the invariant, and no assertion of the
restart test fails in it. -/
theorem SemInv.step (hi : SemInv w) {e : SemEvent} {r : StepReport} (h : SemShape w e r) :
    SemInv r.world ∧ r.bug=false := by
  cases h with
  | fails _ => exact ⟨hi,rfl⟩
  | returned _ _ ha => exact ⟨hi.returned ha,rfl⟩
  | @performed c hr h ha =>
    obtain ⟨done,hu⟩ := hi.performed_spec h true c.now
    refine ⟨hi.update hu (hi.queue.withValues _) ⟨?_,?_⟩ rfl
      (fun q hq u hu => (hi.undo q hq u hu).2),hu.bug_eq⟩
    · exact tryAtomicSemop_bounds c.sops _ c.pid hi.values.bounds hi.values.shorts
    · exact tryAtomicSemop_short c.sops _ c.pid hi.values.shorts
  | sleeps hr h => exact ⟨hi.sleeps hr h,rfl⟩
  | @setval c hv => exact hi.control (setval_control hi c.pid c.now hv) _ _ _
  | @setall c hv => exact hi.control (setall_control hi c.now hv) _ _ _
  | interrupt hq => exact ⟨hi.interrupt hq,rfl⟩
  | @getUndoList task ulp ht hr _ =>
    have hs := hi.share ulp ht
    rw [hr] at hs
    exact ⟨hs,rfl⟩
  | copySemundo _ hc => exact ⟨hi.share _ hc,rfl⟩
  | findAllocUndo _ hl => exact ⟨hi.link hl,rfl⟩
  | exitNone => exact ⟨hi,rfl⟩
  | exitSem ha ht => exact ⟨hi.exit ht ha,rfl⟩
  | @exitSemAdjust ulp pid now hr hl => exact hi.control (exitSem_control hi pid hr) _ _ _
  | freeary => exact ⟨hi.freeary,rfl⟩

theorem semReachable_inv (h : SemReachable w) : SemInv w := by
  refine Reachable.invariant ?_ ?_ h
  · rintro _ ⟨nsems,now,_,rfl⟩
    exact newWorld_inv nsems now
  · rintro s e t _ hi ⟨r,hr,rfl⟩
    exact (hi.step (semStep_shape hr)).1

/-- In every state of every run in which the array lock is free, every entry
still queued would have to sleep if it were tried again. -/
theorem no_lost_wakeup {w : SemWorld} (h : SemReachable w) {q : SemQueue} (hq : q∈w.sma.semPending) :
    (tryAtomicSemop w.sma.toSemValues q.sops q.undo q.pid).error=1 :=
  tryAtomicSemop_error_pos ((semReachable_inv h).blocked q hq)

theorem isShort_neg_one : IsShort (-1) := by decide

/-- A call of a task that wants to lower the first semaphore by one. -/
def lowerCall (task : ℕ) (flags : BitVec 16) : SemopCall :=
  ⟨task,[⟨0,-1,flags,isShort_neg_one⟩],100,0,32,none,.noMemory,none⟩

/-- The state after a task went to sleep on a new array. -/
def oneAsleep : SemWorld := (semtimedop (newWorld 1 0) (lowerCall 7 0)).world

/-- That state is reached by a run. -/
theorem oneAsleep_reachable : SemReachable oneAsleep :=
  Reachable.next (a:=.semtimedop (lowerCall 7 0)) (Reachable.start ⟨1,0,by decide,rfl⟩)
    ⟨_,rfl,rfl⟩

/-- A task that went to sleep on a new array is queued, and it has to wait. -/
theorem no_lost_wakeup_oneAsleep : SemReachable oneAsleep ∧ ∃ q∈oneAsleep.sma.semPending, q.sleeper=7 ∧
      (tryAtomicSemop oneAsleep.sma.toSemValues q.sops q.undo q.pid).error=1 := by
  have hq : sleepEntry (newWorld 1 0) (lowerCall 7 0)∈oneAsleep.sma.semPending :=
    mem_singleton.mpr rfl
  exact ⟨oneAsleep_reachable,_,hq,rfl,no_lost_wakeup oneAsleep_reachable hq⟩

/-- Number of waiting operations on a semaphore that satisfy a test. -/
def countWaiting (test : Sembuf → Bool) (sma : SemArray) (semnum : ℕ) : ℕ :=
  (sma.semPending.map (fun q => (q.sops.filter (fun sop =>
    decide (sop.semNum=semnum) && test sop && !sop.nowaitFlag)).length)).sum

/-- Number of operations that wait for a semaphore to rise. -/
def countSemncnt : SemArray → ℕ → ℕ := countWaiting (fun sop => sop.semOp<0)

/-- Number of operations that wait for a semaphore to become zero. -/
def countSemzcnt : SemArray → ℕ → ℕ := countWaiting (fun sop => sop.semOp=0)

/-- A queued operation that may wait and passes the test is counted. -/
theorem countWaiting_pos {test : Sembuf → Bool} {sop : Sembuf} (hq : q∈sma.semPending) (hs : sop∈q.sops)
    (ht : test sop=true) (hw : sop.nowaitFlag=false) : 0<countWaiting test sma sop.semNum := by
  have hpos : 0<(q.sops.filter (fun x =>
      decide (x.semNum=sop.semNum) && test x && !x.nowaitFlag)).length :=
    length_pos_of_mem (mem_filter.mpr ⟨hs,by simp [ht,hw]⟩)
  exact lt_of_lt_of_le hpos (single_le_sum (by simp) _ (mem_map_of_mem hq))

/-- Every sleeper is visible in one of the two counts. -/
theorem SemInv.counted (hi : SemInv w) (hq : q∈w.sma.semPending) :
    ∃ sop∈q.sops, sop.nowaitFlag=false ∧ sop.semOp≤0 ∧
      (0<countSemncnt w.sma sop.semNum ∨ 0<countSemzcnt w.sma sop.semNum) := by
  obtain ⟨sop,hs,hw,h0⟩ := (hi.queue.entries q hq).waits
  refine ⟨sop,hs,hw,h0,?_⟩
  by_cases hz : sop.semOp=0
  · exact .inr (countWaiting_pos hq hs (by simpa using hz) hw)
  · exact .inl (countWaiting_pos hq hs (by simpa using lt_of_le_of_ne h0 hz) hw)

/-- In every state of every run in which the array lock is free, the semaphore
lists are the single operations of the array list in its order, the counter
is the number of complex ones, non-altering entries precede altering ones on
every list, a single altering entry is a decrement, and every entry waits by
an operation that the counts show. No assertion of the restart test fails. -/
theorem queue_represented {w : SemWorld} (h : SemReachable w) : (∀ i, w.sma.simplePending i=
      w.sma.semPending.filter (fun q => decide (q.nsops=1) && decide (q.semnum=i))) ∧
    w.sma.complexCount=(w.sma.semPending.filter (fun q => 1<q.nsops)).length ∧
    w.sma.semPending.Pairwise (fun a b => a.alter=true → b.alter=true) ∧
    (∀ i, (w.sma.simplePending i).Pairwise (fun a b => a.alter=true → b.alter=true)) ∧
    (∀ q∈w.sma.semPending, q.nsops=1 → q.alter=true → ∃ sop, q.sops=[sop] ∧ sop.semOp<0) ∧
    (∀ q∈w.sma.semPending, ∃ sop∈q.sops, sop.nowaitFlag=false ∧ sop.semOp≤0 ∧
      (0<countSemncnt w.sma sop.semNum ∨ 0<countSemzcnt w.sma sop.semNum)) ∧
    ∀ e r, semStep w e=some r → r.bug=false := by
  have hi := semReachable_inv h
  refine ⟨hi.queue.simple,hi.queue.complex,hi.queue.ordered,fun i => ?_,fun q hq h1 ha => ?_,
    fun q hq => hi.counted hq,fun e r hr => (hi.step (semStep_shape hr)).2⟩
  · rw [hi.queue.simple i]
    exact hi.queue.ordered.sublist filter_sublist
  · obtain ⟨sop,hs,_,_,_,_,halter⟩ := (hi.queue.entries q hq).single h1
    exact ⟨sop,hs,halter.mp ha⟩

/-- The state with one sleeper has one entry on the list of its semaphore, and
the next call on it fails no assertion. -/
theorem queue_represented_oneAsleep : SemReachable oneAsleep ∧
    (oneAsleep.sma.simplePending 0).length=1 ∧ oneAsleep.sma.complexCount=0 ∧
    (semtimedop oneAsleep (lowerCall 8 0)).bug=false := by
  obtain ⟨hs,hc,_,_,_,_,hb⟩ := queue_represented oneAsleep_reachable
  refine ⟨oneAsleep_reachable,?_,hc.trans rfl,hb (.semtimedop (lowerCall 8 0)) _ rfl⟩
  rw [hs 0]
  rfl

end BlockIpc.SemRunInvariant
