import BlockIpc.SemScanDrains
import BlockIpc.TransitionRuns

/-!
# Runs of one semaphore array

Every call on an array does its work while it holds the array lock, so a run
is a sequence of such critical sections: operation vectors, the two setting
controls, the adjustments of an exiting process, removals of a sleeper by a
signal or timeout, the linking of undo records and the removal of the array.
-/

namespace BlockIpc.SemRuns

open Function (update)
open KernelNumbers SemAtomicOps SemQueueScan
  TransitionRuns

/-- One semaphore array with the undo lists of the tasks that use it. An undo
record of the array is named by the undo list that owns it. -/
structure SemWorld where
  sma : SemArray
  /-- Undo list of each task, current->sysvsem.undo_list. -/
  undoList : ℕ → Option ℕ
  /-- Number of tasks that share an undo list. -/
  refcnt : ℕ → ℕ

/-- What one critical section did. -/
structure StepReport where
  /-- The state when the lock is released. -/
  world : SemWorld
  /-- Returned code; absent while the caller goes to sleep. -/
  result : Option ℤ
  /-- Entries to be woken by the caller, in order. -/
  tasks : List SemQueue
  /-- An assertion of the restart test failed. -/
  bug : Bool
  /-- Attempts made, oldest first. -/
  frames : List SemAttempt

/-- Some sleeper of the queue is this task. -/
def SemWorld.asleep (w : SemWorld) (task : ℕ) : Bool := w.sma.semPending.any (fun q => q.sleeper=task)

/-- A call that returns an error and touches nothing. -/
def SemWorld.fails (w : SemWorld) (code : ℤ) : StepReport := ⟨w,some code,[],false,[]⟩

/-- A call that changed the array, updates the queue and returns zero. -/
def SemWorld.updated (w : SemWorld) (sma : SemArray) (sops : Option (List Sembuf)) (otime : Bool)
    (now : ℕ) (frames : List SemAttempt) : StepReport :=
  let r := doSmartUpdate sma sops otime now
  ⟨{w with sma := r.array},some 0,r.pt,r.bug,frames++r.frames⟩

/-- Arguments of an operation call and what its environment answers. -/
structure SemopCall where
  task : ℕ
  /-- The operation vector. -/
  sops : List Sembuf
  /-- Process identifier of the caller. -/
  pid : ℤ
  /-- Current time in seconds. -/
  now : ℕ
  /-- Limit on the length of a vector, ns->sc_semopm. -/
  scSemopm : ℕ
  /-- Failure to copy the vector or the timeout in. -/
  copyError : Option Errno
  /-- Failure of the undo record allocation, if one is needed. -/
  undoError : Errno
  /-- Refusal by the permission bits or the security hook. -/
  denied : Option Errno

/-- Largest semaphore index of a vector, by the loop over its operations. -/
def maxSemNum (sops : List Sembuf) : ℕ := sops.foldl (fun max sop => if max ≤ sop.semNum then sop.semNum else max) 0

/-- Some operation of the vector changes a value. -/
def isAlter (sops : List Sembuf) : Bool := sops.any (fun sop => sop.semOp≠0)

/-- The undo record a vector is run with. -/
def undoOf (w : SemWorld) (c : SemopCall) : Option ℕ :=
  if c.sops.any Sembuf.undoFlag then w.undoList c.task else none

/-- A vector with SEM_UNDO whose task has no record linked to the array. -/
def undoMissing (w : SemWorld) (c : SemopCall) : Bool :=
  c.sops.any Sembuf.undoFlag && !(w.undoList c.task).any (fun u => decide (u∈w.sma.listId))

/-- The entry with which a caller goes to sleep. -/
def sleepEntry (w : SemWorld) (c : SemopCall) : SemQueue := ⟨c.task,c.sops,undoOf w c,c.pid,-eintr,isAlter c.sops⟩

/-- Append an altering entry, put another one in front. -/
def addQueue (q : SemQueue) (l : List SemQueue) : List SemQueue := if q.alter=true then l++[q] else q::l

/-- Link an entry to the array list and to its semaphore's list or count. -/
def enqueue (sma : SemArray) (q : SemQueue) : SemArray :=
  let sma := {sma with semPending := addQueue q sma.semPending}
  if q.nsops=1 then {sma with
    simplePending := update sma.simplePending q.semnum
      (addQueue q (sma.simplePending q.semnum))}
  else {sma with complexCount := sma.complexCount+1}

/-- The attempt an admitted call makes first. -/
def firstAttempt (w : SemWorld) (c : SemopCall) : SemAttempt := ⟨w.sma.toSemValues,c.sops,undoOf w c,c.pid⟩

/-- The array after the first attempt of a call. -/
def attemptedArray (w : SemWorld) (c : SemopCall) : SemArray :=
  {w.sma with toSemValues := (firstAttempt w c).outcome.values}

/-- The part of an operation call that runs under the array lock: it returns
at once, updating the queue after a change, or goes to sleep. -/
def semopLocked (w : SemWorld) (c : SemopCall) : StepReport :=
  let error := (firstAttempt w c).outcome.error
  if error≤0 then
    if isAlter c.sops=true ∧ error=0 then
      w.updated (attemptedArray w c) (some c.sops) true c.now [firstAttempt w c]
    else ⟨{w with sma := attemptedArray w c},some error,[],false,[firstAttempt w c]⟩
  else ⟨{w with sma := enqueue (attemptedArray w c) (sleepEntry w c)},none,[],false,
    [firstAttempt w c]⟩

/-- Perform a vector of operations, or go to sleep until it can be performed. -/
def semtimedop (w : SemWorld) (c : SemopCall) : StepReport :=
  if c.sops.length<1 then w.fails (-einval)
  else if c.scSemopm<c.sops.length then w.fails (-e2big)
  else match c.copyError with
    | some e => w.fails e.code
    | none =>
      if w.sma.deleted=true then w.fails (-einval)
      else if undoMissing w c=true then w.fails c.undoError.code
      else if w.sma.semNsems ≤ maxSemNum c.sops then w.fails (-efbig)
      else match c.denied with
        | some e => w.fails e.code
        | none => semopLocked w c

/-- Arguments of SETVAL and the answer of the permission checks. -/
structure SetvalCall where
  semnum : ℤ
  /-- The new value. -/
  val : ℤ
  /-- Process identifier of the caller. -/
  pid : ℤ
  /-- Current time in seconds. -/
  now : ℕ
  /-- Refusal by the permission bits or the security hook. -/
  denied : Option Errno

/-- The array after SETVAL stored a value and cleared its adjustments. -/
def setvalArray (sma : SemArray) (i : ℕ) (val pid : ℤ) (now : ℕ) : SemArray :=
  { sma with
    semBase := update sma.semBase i ⟨val,pid⟩
    semadj := fun u j => if u∈sma.listId ∧ j=i then 0 else sma.semadj u j
    semCtime := now }

/-- Set one semaphore. -/
def semctlSetval (w : SemWorld) (c : SetvalCall) : StepReport :=
  if w.sma.deleted=true then w.fails (-einval)
  else match c.denied with
    | some e => w.fails e.code
    | none =>
      if c.semnum<0 ∨ (w.sma.semNsems : ℤ)≤c.semnum then w.fails (-einval)
      else if semvmx<c.val ∨ c.val<0 then w.fails (-erange)
      else w.updated (setvalArray w.sma c.semnum.toNat c.val c.pid c.now) none false c.now []

/-- Arguments of SETALL and the answer of what precedes its critical section. -/
structure SetallCall where
  /-- The values copied in, unsigned shorts. -/
  semIo : ℕ → ℕ
  /-- Current time in seconds. -/
  now : ℕ
  /-- Failure of the first lookup, of the permission checks or of the copy. -/
  denied : Option Errno

/-- The array after SETALL stored all values and cleared all adjustments. -/
def setallArray (sma : SemArray) (semIo : ℕ → ℕ) (now : ℕ) : SemArray :=
  { sma with
    semBase := fun i => if i<sma.semNsems then ⟨semIo i,(sma.semBase i).sempid⟩ else sma.semBase i
    semadj := fun u i => if u∈sma.listId ∧ i<sma.semNsems then 0 else sma.semadj u i
    semCtime := now }

/-- Set all semaphores. -/
def semctlSetall (w : SemWorld) (c : SetallCall) : StepReport :=
  match c.denied with
  | some e => w.fails e.code
  | none =>
    if (List.range w.sma.semNsems).any (fun i => semvmx<c.semIo i)=true then w.fails (-erange)
    else if w.sma.deleted=true then w.fails (-eidrm)
    else w.updated (setallArray w.sma c.semIo c.now) none false c.now []

/-- The value of a semaphore after an adjustment, capped at both ends. -/
def adjustSem (sem : Sem) (adj pid : ℤ) : Sem :=
  if adj≠0 then
    let semval := sem.semval+adj
    let semval := if semval<0 then 0 else semval
    let semval := if semvmx<semval then semvmx else semval
    ⟨semval,pid⟩
  else sem

/-- The array after an exiting process unlinked its record and added the
recorded adjustments. -/
def exitSemArray (sma : SemArray) (u : ℕ) (pid : ℤ) : SemArray :=
  { sma with
    listId := sma.listId.filter (fun x => x≠u)
    semBase := fun i => if i<sma.semNsems then adjustSem (sma.semBase i) (sma.semadj u i) pid
      else sma.semBase i }

/-- The array after its removal: no undo record is linked and every sleeper
was unlinked. -/
def freearyArray (sma : SemArray) : SemArray :=
  {sma.semPending.foldl unlinkQueue {sma with listId := []} with deleted := true}

/-- Critical sections on an array and on the undo lists of its users. -/
inductive SemEvent where
  | semtimedop (c : SemopCall)
  /-- A task calls semctl with SETVAL. -/
  | setval (c : SetvalCall)
  /-- A task calls semctl with SETALL. -/
  | setall (c : SetallCall)
  /-- A signal or the timeout ends a sleep; the sleeper unlinks itself. -/
  | interrupt (task : ℕ) (timedOut : Bool)
  /-- A task without an undo list gets a new one. -/
  | getUndoList (task ulp : ℕ)
  /-- A new task shares the undo list of its parent. -/
  | copySemundo (parent child : ℕ)
  /-- A new undo record of a task's undo list is linked to the array. -/
  | findAllocUndo (task : ℕ)
  /-- An exiting task gives up its undo list. -/
  | exitSem (task : ℕ)
  /-- The last user of an undo list performs its adjustments. -/
  | exitSemAdjust (ulp : ℕ) (pid : ℤ) (now : ℕ)
  /-- The array is removed. -/
  | freeary

/-- A critical section, when its task can be executing it. A task does one
thing at a time, and exit_sem walks an undo list that no task owns any more. -/
def semStep (w : SemWorld) : SemEvent → Option StepReport
  | .semtimedop c => if w.asleep c.task=true then none else some (semtimedop w c)
  | .setval c => some (semctlSetval w c)
  | .setall c => some (semctlSetall w c)
  | .interrupt task timedOut =>
    match w.sma.semPending.find? (fun q => q.sleeper=task) with
    | none => none
    | some q => some ⟨{w with sma := unlinkQueue w.sma q},
        some (if timedOut=true then -eagain else -eintr),[],false,[]⟩
  | .getUndoList task ulp =>
    if w.undoList task=none ∧ w.asleep task=false ∧ w.refcnt ulp=0 ∧ ulp∉w.sma.listId then
      some ⟨{w with
        undoList := update w.undoList task (some ulp)
        refcnt := update w.refcnt ulp 1},some 0,[],false,[]⟩
    else none
  | .copySemundo parent child =>
    match w.undoList parent with
    | none => none
    | some ulp =>
      if w.undoList child=none ∧ w.asleep child=false then
        some ⟨{w with
          undoList := update w.undoList child (some ulp)
          refcnt := update w.refcnt ulp (w.refcnt ulp+1)},some 0,[],false,[]⟩
      else none
  | .findAllocUndo task =>
    match w.undoList task with
    | none => none
    | some ulp =>
      if w.sma.deleted=false ∧ ulp∉w.sma.listId then
        some ⟨{w with sma := {w.sma with
          listId := ulp::w.sma.listId
          semadj := fun u i => if u=ulp then 0 else w.sma.semadj u i}},some 0,[],false,[]⟩
      else none
  | .exitSem task =>
    if w.asleep task=true then none
    else match w.undoList task with
      | none => some ⟨w,some 0,[],false,[]⟩
      | some ulp => some ⟨{w with
          undoList := update w.undoList task none
          refcnt := update w.refcnt ulp (w.refcnt ulp-1)},some 0,[],false,[]⟩
  | .exitSemAdjust ulp pid now =>
    if w.refcnt ulp=0 ∧ ulp∈w.sma.listId then
      some (w.updated (exitSemArray w.sma ulp pid) none true now [])
    else none
  | .freeary =>
    if w.sma.deleted=true then none
    else some ⟨{w with sma := freearyArray w.sma},some 0,
      w.sma.semPending.map (fun q => wakeUpSemQueuePrepare q (-eidrm)),false,[]⟩

/-- A freshly created array: every value is zero and nothing is queued. -/
def newary (nsems now : ℕ) : SemArray := ⟨⟨fun _ => ⟨0,0⟩,fun _ _ => 0⟩,[],fun _ => [],0,nsems,[],0,now,false⟩

/-- The world in which an array was just created. -/
def newWorld (nsems now : ℕ) : SemWorld := ⟨newary nsems now,fun _ => none,fun _ => 0⟩

/-- Runs start with a new array of at least one semaphore. -/
def SemStart (w : SemWorld) : Prop := ∃ nsems now, 0<nsems ∧ w=newWorld nsems now

/-- One critical section leads from one state to another. -/
def SemNext (w : SemWorld) (e : SemEvent) (w' : SemWorld) : Prop := ∃ r, semStep w e=some r ∧ r.world=w'

/-- States that a run of critical sections reaches. -/
def SemReachable (w : SemWorld) : Prop := Reachable SemStart SemNext w

/-- What an operation call that reaches its critical section has checked. -/
structure SemopReady (w : SemWorld) (c : SemopCall) : Prop where
  /-- The caller is not asleep. -/
  awake : ∀ q∈w.sma.semPending, q.sleeper≠c.task
  /-- The array has not been removed. -/
  present : w.sma.deleted=false
  /-- The vector is not empty. -/
  nonempty : 0<c.sops.length
  /-- Every operation names a semaphore of the array. -/
  inRange : ∀ sop∈c.sops, sop.semNum<w.sma.semNsems
  /-- With SEM_UNDO the caller's undo list has a record linked to the array. -/
  linked : c.sops.any Sembuf.undoFlag=true → ∃ u, undoOf w c=some u ∧ w.undoList c.task=some u ∧
    u∈w.sma.listId

/-- Everything a critical section can do. -/
inductive SemShape (w : SemWorld) : SemEvent → StepReport → Prop
  /-- An error is returned and nothing is touched. -/
  | fails {e : SemEvent} {code : ℤ} (h : code<0) : SemShape w e (w.fails code)
  /-- A vector is rejected by its attempt, or it only tested for zero. -/
  | returned {c : SemopCall} (hr : SemopReady w c) (h : (firstAttempt w c).outcome.error≤0)
      (ha : (firstAttempt w c).outcome.error=0 → isAlter c.sops=false) :
      SemShape w (.semtimedop c) ⟨{w with sma := attemptedArray w c},
        some (firstAttempt w c).outcome.error,[],false,[firstAttempt w c]⟩
  /-- An altering vector is performed and the queue is updated. -/
  | performed {c : SemopCall} (hr : SemopReady w c) (h : (firstAttempt w c).outcome.error=0)
      (ha : isAlter c.sops=true) : SemShape w (.semtimedop c)
        (w.updated (attemptedArray w c) (some c.sops) true c.now [firstAttempt w c])
  /-- The caller goes to sleep. -/
  | sleeps {c : SemopCall} (hr : SemopReady w c) (h : 0<(firstAttempt w c).outcome.error) :
      SemShape w (.semtimedop c) ⟨{w with sma := enqueue w.sma (sleepEntry w c)},none,[],false,
        [firstAttempt w c]⟩
  /-- One semaphore is set. -/
  | setval {c : SetvalCall} (hv : 0≤c.val ∧ c.val ≤ semvmx) : SemShape w (.setval c)
        (w.updated (setvalArray w.sma c.semnum.toNat c.val c.pid c.now) none false c.now [])
  /-- All semaphores are set. -/
  | setall {c : SetallCall} (hv : ∀ i<w.sma.semNsems, (c.semIo i : ℤ) ≤ semvmx) :
      SemShape w (.setall c) (w.updated (setallArray w.sma c.semIo c.now) none false c.now [])
  /-- A sleeper is removed. -/
  | interrupt {task : ℕ} {timedOut : Bool} {q : SemQueue} (hq : q∈w.sma.semPending) :
      SemShape w (.interrupt task timedOut) ⟨{w with sma := unlinkQueue w.sma q},
        some (if timedOut=true then -eagain else -eintr),[],false,[]⟩
  | getUndoList {task ulp : ℕ} (ht : w.undoList task=none) (hr : w.refcnt ulp=0)
      (hl : ulp∉w.sma.listId) : SemShape w (.getUndoList task ulp) ⟨{w with
        undoList := update w.undoList task (some ulp)
        refcnt := update w.refcnt ulp 1},some 0,[],false,[]⟩
  /-- A task shares an undo list. -/
  | copySemundo {parent child ulp : ℕ} (hp : w.undoList parent=some ulp)
      (hc : w.undoList child=none) : SemShape w (.copySemundo parent child) ⟨{w with
        undoList := update w.undoList child (some ulp)
        refcnt := update w.refcnt ulp (w.refcnt ulp+1)},some 0,[],false,[]⟩
  /-- A zeroed undo record is linked. -/
  | findAllocUndo {task ulp : ℕ} (ht : w.undoList task=some ulp) (hl : ulp∉w.sma.listId) :
      SemShape w (.findAllocUndo task) ⟨{w with sma := {w.sma with
        listId := ulp::w.sma.listId
        semadj := fun u i => if u=ulp then 0 else w.sma.semadj u i}},some 0,[],false,[]⟩
  /-- A task without an undo list exits. -/
  | exitNone {task : ℕ} : SemShape w (.exitSem task) ⟨w,some 0,[],false,[]⟩
  /-- A task gives its undo list up. -/
  | exitSem {task ulp : ℕ} (ha : ∀ q∈w.sma.semPending, q.sleeper≠task)
      (ht : w.undoList task=some ulp) : SemShape w (.exitSem task) ⟨{w with
        undoList := update w.undoList task none
        refcnt := update w.refcnt ulp (w.refcnt ulp-1)},some 0,[],false,[]⟩
  /-- The adjustments of an abandoned undo list are performed. -/
  | exitSemAdjust {ulp : ℕ} {pid : ℤ} {now : ℕ} (hr : w.refcnt ulp=0) (hl : ulp∈w.sma.listId) :
      SemShape w (.exitSemAdjust ulp pid now)
        (w.updated (exitSemArray w.sma ulp pid) none true now [])
  /-- The array is removed and every sleeper fails. -/
  | freeary : SemShape w .freeary ⟨{w with sma := freearyArray w.sma},some 0,
      w.sma.semPending.map (fun q => wakeUpSemQueuePrepare q (-eidrm)),false,[]⟩

/-- The loop computes an upper bound of all indices of a vector. -/
theorem le_maxSemNum {sops : List Sembuf} {sop : Sembuf} (h : sop∈sops) : sop.semNum ≤ maxSemNum sops := by
  have hfold : ∀ (l : List Sembuf) (m : ℕ),
      m≤l.foldl (fun max sop => if max ≤ sop.semNum then sop.semNum else max) m ∧
      ∀ x∈l, x.semNum≤l.foldl (fun max sop => if max ≤ sop.semNum then sop.semNum else max) m := by
    intro l
    induction l with
    | nil => simp
    | cons y l ih =>
      intro m
      obtain ⟨hm,hl⟩ := ih (if m≤y.semNum then y.semNum else m)
      rw [List.foldl_cons]
      refine ⟨le_trans (by split <;> omega) hm,fun x hx => ?_⟩
      rcases List.mem_cons.mp hx with rfl|hx
      · exact le_trans (by split <;> omega) hm
      · exact hl x hx
  exact (hfold sops 0).2 sop h

variable {w : SemWorld} {c : SemopCall}

/-- A task that is not asleep sleeps in no entry. -/
theorem not_asleep {task : ℕ} (h : w.asleep task=false) : ∀ q∈w.sma.semPending, q.sleeper≠task := by
  intro q hq
  have hn := List.any_eq_false.mp h q hq
  simpa using hn

/-- A call that has to sleep enters the queue of an unchanged array. -/
theorem attemptedArray_of_error (h : (firstAttempt w c).outcome.error≠0) : attemptedArray w c=w.sma := by
  have hv : (firstAttempt w c).outcome.values=w.sma.toSemValues := tryAtomicSemop_values_of_error h
  unfold attemptedArray
  rw [hv]

/-- The undo record of an admitted vector with SEM_UNDO is linked. -/
theorem undoOf_linked (h : ¬undoMissing w c=true) (hu : c.sops.any Sembuf.undoFlag=true) :
    ∃ u, undoOf w c=some u ∧ w.undoList c.task=some u ∧ u∈w.sma.listId := by
  unfold undoMissing at h
  rw [hu,Bool.true_and] at h
  cases ht : w.undoList c.task with
  | none => simp [ht] at h
  | some u => exact ⟨u,by rw [undoOf,if_pos hu,ht],rfl,by simpa [ht] using h⟩

/-- What an operation call can do. -/
theorem semtimedop_shape (ha : w.asleep c.task=false) : SemShape w (.semtimedop c) (semtimedop w c) := by
  unfold semtimedop
  split
  · exact .fails (by decide)
  rename_i hlen
  split
  · exact .fails (by decide)
  cases c.copyError with
  | some e => exact .fails e.neg
  | none =>
    dsimp only
    split
    · exact .fails (by decide)
    rename_i hgone
    split
    · exact .fails c.undoError.neg
    rename_i hundo
    split
    · exact .fails (by decide)
    rename_i hmax
    cases c.denied with
    | some e => exact .fails e.neg
    | none =>
      have hr : SemopReady w c := ⟨not_asleep ha,by simpa using hgone,by omega,
        fun sop hs => lt_of_le_of_lt (le_maxSemNum hs) (not_le.mp hmax),undoOf_linked hundo⟩
      dsimp only [semopLocked]
      split
      · rename_i hle
        split
        · rename_i halter
          exact .performed hr halter.2 halter.1
        · rename_i halter
          refine .returned hr hle (fun h0 => ?_)
          by_contra hc
          exact halter ⟨by simpa using hc,h0⟩
      · rename_i hpos
        rw [attemptedArray_of_error (by omega)]
        exact .sleeps hr (by omega)

/-- Every critical section has one of the listed shapes. -/
theorem semStep_shape {e : SemEvent} {r : StepReport} (h : semStep w e=some r) : SemShape w e r := by
  cases e with
  | semtimedop c =>
    obtain ⟨ha,h⟩ := Option.ite_none_left_eq_some.mp h
    cases h
    exact semtimedop_shape (by simpa using ha)
  | setval c =>
    cases h
    unfold semctlSetval
    split
    · exact .fails (by decide)
    cases c.denied with
    | some e => exact .fails e.neg
    | none =>
      dsimp only
      split
      · exact .fails (by decide)
      split
      · exact .fails (by decide)
      · exact .setval (by omega)
  | setall c =>
    cases h
    unfold semctlSetall
    cases c.denied with
    | some e => exact .fails e.neg
    | none =>
      dsimp only
      split
      · exact .fails (by decide)
      rename_i hv
      split
      · exact .fails (by decide)
      refine .setall (fun i hi => ?_)
      rw [Bool.not_eq_true,List.any_eq_false] at hv
      simpa using hv i (List.mem_range.mpr hi)
  | interrupt task timedOut =>
    simp only [semStep] at h
    split at h
    · cases h
    · rename_i q hq
      cases h
      exact .interrupt (List.mem_of_find?_eq_some hq)
  | getUndoList task ulp =>
    obtain ⟨hg,h⟩ := Option.ite_none_right_eq_some.mp h
    cases h
    exact .getUndoList hg.1 hg.2.2.1 hg.2.2.2
  | copySemundo parent child =>
    simp only [semStep] at h
    split at h
    · cases h
    · rename_i ulp hp
      obtain ⟨hc,h⟩ := Option.ite_none_right_eq_some.mp h
      cases h
      exact .copySemundo hp hc.1
  | findAllocUndo task =>
    simp only [semStep] at h
    split at h
    · cases h
    · rename_i ulp hp
      obtain ⟨hc,h⟩ := Option.ite_none_right_eq_some.mp h
      cases h
      exact .findAllocUndo hp hc.2
  | exitSem task =>
    obtain ⟨ha,h⟩ := Option.ite_none_left_eq_some.mp h
    split at h
    · cases h
      exact .exitNone
    · rename_i ulp ht
      cases h
      exact .exitSem (not_asleep (by simpa using ha)) ht
  | exitSemAdjust ulp pid now =>
    obtain ⟨hc,h⟩ := Option.ite_none_right_eq_some.mp h
    cases h
    exact .exitSemAdjust hc.1 hc.2
  | freeary =>
    obtain ⟨_,h⟩ := Option.ite_none_left_eq_some.mp h
    cases h
    exact .freeary

end BlockIpc.SemRuns
