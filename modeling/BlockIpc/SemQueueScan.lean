import BlockIpc.SemAtomicOps
import BlockIpc.PendingScan

/-!
# Scanning the queue of sleeping semaphore operations

A semaphore array keeps its sleeping operations on one list and, when they
consist of a single operation, also on a list of the semaphore they name.
Complex ones are counted. The scan retries sleepers in list order, unlinks
those that no longer wait and restarts only when a completed operation may
have unblocked an earlier one.
-/

namespace BlockIpc.SemQueueScan

open SemAtomicOps

/-- IN_WAKEUP, the status of an entry whose result is imminent. -/
def inWakeup : ℤ := 1

/-- A sleeping operation, struct sem_queue on the stack of its sleeper. -/
structure SemQueue where
  /-- The sleeping task; it identifies the entry, since a task sleeps once. -/
  sleeper : ℕ
  /-- The submitted operation vector. -/
  sops : List Sembuf
  /-- Undo record used by the operations with SEM_UNDO. -/
  undo : Option ℕ
  /-- Process identifier of the sleeper, later its result. -/
  pid : ℤ
  /-- Completion status polled by the sleeper. -/
  status : ℤ
  /-- Some operation of the vector changes a value. -/
  alter : Bool
  deriving DecidableEq

/-- Number of operations of an entry. -/
def SemQueue.nsops (q : SemQueue) : ℕ := q.sops.length

/-- Semaphore of the first operation, q->sops[0].sem_num. -/
def SemQueue.semnum (q : SemQueue) : ℕ := (q.sops.head?.map Sembuf.semNum).getD 0

/-- Amount of the first operation, q->sops[0].sem_op. -/
def SemQueue.firstOp (q : SemQueue) : ℤ := (q.sops.head?.map Sembuf.semOp).getD 0

/-- A semaphore array, struct sem_array, with the lists its lock protects. -/
structure SemArray extends SemValues where
  /-- All sleeping operations, sma->sem_pending. -/
  semPending : List SemQueue
  /-- Sleeping single operations of each semaphore, its own sem_pending. -/
  simplePending : ℕ → List SemQueue
  /-- Number of sleeping operations with more than one operation. -/
  complexCount : ℤ
  /-- Number of semaphores. -/
  semNsems : ℕ
  /-- Undo records linked to the array, sma->list_id. -/
  listId : List ℕ
  /-- Time of the last successful operation. -/
  semOtime : ℕ
  /-- Time of the last control operation. -/
  semCtime : ℕ
  /-- The array has been removed from its identifier table. -/
  deleted : Bool

/-- Deleting a node takes the entry off whatever list holds it. -/
def listDel (q : SemQueue) (l : List SemQueue) : List SemQueue := l.filter (fun r => r.sleeper≠q.sleeper)

/-- Take an entry off the array list and off its semaphore list or count. -/
def unlinkQueue (sma : SemArray) (q : SemQueue) : SemArray :=
  let sma := {sma with semPending := listDel q sma.semPending}
  if q.nsops=1 then {sma with simplePending := fun i => listDel q (sma.simplePending i)}
  else {sma with complexCount := sma.complexCount-1}

/-- Decision of the restart test and whether one of its assertions failed. -/
structure RestartReport where
  /-- The scan must start again from the head of its list. -/
  restart : Bool
  /-- A BUG_ON of the test fired. -/
  bug : Bool

/-- Decide whether completing an entry can have unblocked an earlier one. -/
def checkRestart (sma : SemArray) (q : SemQueue) : RestartReport :=
  if q.alter=false then ⟨false,false⟩
  else if sma.complexCount≠0 then ⟨true,false⟩
  else if 1<q.nsops then ⟨true,false⟩
  else match sma.simplePending q.semnum with
    | [] => ⟨false,false⟩
    | h::_ =>
      if (sma.semBase q.semnum).semval≠0 then ⟨false,decide (0≤q.firstOp)⟩
      else ⟨decide (h.firstOp=0),decide (h.nsops≠1)||decide (h.semnum≠q.semnum)⟩

/-- Mark an entry as being woken and store the result it will return. -/
def wakeUpSemQueuePrepare (q : SemQueue) (error : ℤ) : SemQueue := {q with status := inWakeup, pid := error}

/-- Values and arguments of one executed attempt. -/
structure SemAttempt where
  /-- The values the attempt started from. -/
  values : SemValues
  /-- The attempted vector. -/
  sops : List Sembuf
  /-- The undo record handed to the attempt. -/
  undo : Option ℕ
  /-- The process identifier handed to the attempt. -/
  pid : ℤ

/-- Return code and resulting values of a recorded attempt. -/
def SemAttempt.outcome (a : SemAttempt) : SemopReport := tryAtomicSemop a.values a.sops a.undo a.pid

structure ScanReport where
  /-- The array with all completions so far. -/
  array : SemArray
  /-- Entries to be woken, in completion order. -/
  pt : List SemQueue
  /-- Some operation was completed successfully. -/
  completed : Bool
  /-- The scan has to start again from the head of its list. -/
  restart : Bool
  /-- An assertion of the restart test failed. -/
  bug : Bool
  /-- Every executed attempt, oldest first. -/
  frames : List SemAttempt

/-- In a single-semaphore scan a zero value ends the scan at the first
altering entry. -/
def zeroBreak (semnum : Option ℕ) (sma : SemArray) (q : SemQueue) : Bool :=
  match semnum with
  | none => false
  | some i => decide ((sma.semBase i).semval=0) && q.alter

/-- Retry one entry; unless it still has to sleep, unlink it, decide about a
restart and put it on the wake-up list with its result. -/
def visitQueue (r : ScanReport) (q : SemQueue) : ScanReport :=
  let attempt := tryAtomicSemop r.array.toSemValues q.sops q.undo q.pid
  let sma := {r.array with toSemValues := attempt.values}
  let frames := r.frames++[⟨r.array.toSemValues,q.sops,q.undo,q.pid⟩]
  if 0<attempt.error then {r with array := sma, restart := false, frames := frames}
  else
    let sma := unlinkQueue sma q
    let check := if attempt.error=0 then checkRestart sma q else ⟨false,false⟩
    { array := sma
      pt := r.pt++[wakeUpSemQueuePrepare q attempt.error]
      completed := r.completed || decide (attempt.error=0)
      restart := check.restart
      bug := r.bug || check.bug
      frames := frames }

/-- One pass over the rest of the scanned list, ended early by a restart. -/
def scanPass (semnum : Option ℕ) : ScanReport → List SemQueue → ScanReport
  | r,[] => r
  | r,q::walk =>
    if zeroBreak semnum r.array q=true then r
    else if (visitQueue r q).restart=true then visitQueue r q
    else scanPass semnum (visitQueue r q) walk

/-- The list a scan walks: one semaphore's list, or the array list. -/
def scanList (sma : SemArray) : Option ℕ → List SemQueue
  | none => sma.semPending
  | some i => sma.simplePending i

/-- Passes from the head of the list until one asks for no restart. The flag
stays set only when the fuel is exhausted. -/
def updateQueueLoop (semnum : Option ℕ) : ℕ → ScanReport → ScanReport
  | 0,r => r
  | fuel+1,r =>
    let p := scanPass semnum {r with restart := false} (scanList r.array semnum)
    if p.restart=true then updateQueueLoop semnum fuel p else p

/-- Complete every sleeping operation that can be completed. Pending complex
operations force a scan of the array list. Each restart follows a removal,
so the fuel is one more than the number of sleepers. -/
def updateQueue (semnum : Option ℕ) (r : ScanReport) : ScanReport :=
  let semnum := if r.array.complexCount≠0 then none else semnum
  updateQueueLoop semnum (r.array.semPending.length+1) {r with restart := true}

/-- Scan only the semaphores that a vector raised or brought to zero. -/
def smartScan : ScanReport → List Sembuf → ScanReport
  | r,[] => r
  | r,sop::sops =>
    if 0<sop.semOp ∨ (sop.semOp<0 ∧ (r.array.semBase sop.semNum).semval=0) then
      smartScan (updateQueue (some sop.semNum) r) sops
    else smartScan r sops

/-- Update the queue after the given operations were performed; an absent
vector means that any semaphore may have changed. -/
def doSmartUpdate (sma : SemArray) (sops : Option (List Sembuf)) (otime : Bool) (now : ℕ) : ScanReport :=
  let r : ScanReport := ⟨sma,[],false,false,false,[]⟩
  let r := match sops with
    | none => updateQueue none r
    | some sops => if sma.complexCount≠0 then updateQueue none r else smartScan r sops
  if (otime || r.completed)=true then {r with array := {r.array with semOtime := now}} else r

end BlockIpc.SemQueueScan
