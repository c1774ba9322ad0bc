import BlockIpc.KernelNumbers

/-!
# Atomic semaphore operation vectors

The value part of a System V semaphore array and the function that applies a
whole operation vector or nothing. The forward loop stops at the first
operation that cannot proceed and the rollback loop removes what it applied;
a completed vector is committed backwards, recording the process identifier
and the sixteen-bit undo adjustments.
-/

namespace BlockIpc.SemAtomicOps

open Function List KernelNumbers

/-- SEMVMX, the largest semaphore value. -/
def semvmx : ℤ := 32767

/-- SEMAEM, the largest adjustment recorded for process exit. -/
def semaem : ℤ := semvmx

/-- The SEM_UNDO operation flag. -/
def semUndo : BitVec 16 := 0x1000#16

/-- The IPC_NOWAIT operation flag. -/
def ipcNowait : BitVec 16 := 0x0800#16

/-- Membership in the range of a C short is decided by two comparisons. -/
instance (x : ℤ) : Decidable (IsShort x) := inferInstanceAs (Decidable (_ ∧ _))

/-- One user-supplied semaphore operation, struct sembuf. -/
structure Sembuf where
  /-- Index of the semaphore in its array. -/
  semNum : ℕ
  /-- Amount added to the value; zero waits for the value zero. -/
  semOp : ℤ
  /-- Flag bits, of which SEM_UNDO and IPC_NOWAIT are interpreted. -/
  semFlg : BitVec 16
  /-- The operation is stored in a C short. -/
  semOp_short : IsShort semOp := by decide
  deriving DecidableEq

/-- The operation asks for its effect to be reverted at process exit. -/
def Sembuf.undoFlag (sop : Sembuf) : Bool := sop.semFlg &&& semUndo != 0

/-- The operation must fail rather than sleep. -/
def Sembuf.nowaitFlag (sop : Sembuf) : Bool := sop.semFlg &&& ipcNowait != 0

/-- Value and last process of one semaphore. -/
structure Sem where
  /-- Current value. -/
  semval : ℤ
  /-- Process identifier of the last operation. -/
  sempid : ℤ

/-- The data an operation vector reads and writes: the semaphores of one
array and the adjustment arrays of the undo records linked to it. -/
structure SemValues where
  /-- The semaphores, sma->sem_base. -/
  semBase : ℕ → Sem
  /-- Recorded adjustment of each undo record at each semaphore. -/
  semadj : ℕ → ℕ → ℤ

/-- Assign a semaphore value. -/
def SemValues.setSemval (v : SemValues) (i : ℕ) (x : ℤ) : SemValues :=
  {v with semBase := update v.semBase i ⟨x,(v.semBase i).sempid⟩}

/-- The adjustment an operation with this undo pointer reads. A vector with
SEM_UNDO always carries a record, so the absent case is never consulted. -/
def SemValues.semadjOf (v : SemValues) (un : Option ℕ) (i : ℕ) : ℤ := un.elim 0 (fun u => v.semadj u i)

/-- Result of an operation that finds it must wait. -/
def wouldBlock (sop : Sembuf) : ℤ := if sop.nowaitFlag=true then -eagain else 1

/-- The body of the forward loop: the code with which an operation stops the
vector, if it does. The undo range is tested against the adjustment recorded
before the whole vector. -/
def sopCheck (un : Option ℕ) (v : SemValues) (sop : Sembuf) : Option ℤ :=
  let result := (v.semBase sop.semNum).semval
  let undo := v.semadjOf un sop.semNum-sop.semOp
  if sop.semOp=0 ∧ result≠0 then some (wouldBlock sop)
  else if result+sop.semOp<0 then some (wouldBlock sop)
  else if semvmx<result+sop.semOp then some (-erange)
  else if sop.undoFlag=true ∧ (undo< -semaem-1 ∨ semaem<undo) then some (-erange)
  else none

/-- State of the forward loop when it ends. -/
structure ForwardReport where
  /-- Code of the stopping operation; absent after a complete vector. -/
  stop : Option ℤ
  /-- Values with the applied operations added. -/
  values : SemValues
  /-- Applied operations, the most recent first. -/
  applied : List Sembuf

/-- Add each operation to its semaphore until one stops the vector. -/
def semopForward (un : Option ℕ) (v : SemValues) (applied : List Sembuf) : List Sembuf → ForwardReport
  | [] => ⟨none,v,applied⟩
  | sop::sops =>
    match sopCheck un v sop with
    | some code => ⟨some code,v,applied⟩
    | none => semopForward un
        (v.setSemval sop.semNum ((v.semBase sop.semNum).semval+sop.semOp)) (sop::applied) sops

/-- One turn of the rollback loop at the undo label. -/
def rollbackSop (v : SemValues) (sop : Sembuf) : SemValues :=
  v.setSemval sop.semNum ((v.semBase sop.semNum).semval-sop.semOp)

/-- One turn of the commit loop: record the process, and under SEM_UNDO
subtract the operation from the sixteen-bit adjustment. -/
def commitSop (un : Option ℕ) (pid : ℤ) (v : SemValues) (sop : Sembuf) : SemValues :=
  { semBase := update v.semBase sop.semNum ⟨(v.semBase sop.semNum).semval,pid⟩
    semadj := fun u i => if un=some u ∧ sop.undoFlag=true ∧ i=sop.semNum then
      toShort (v.semadj u i-sop.semOp) else v.semadj u i }

/-- Return code and resulting values of one attempt. -/
structure SemopReport where
  /-- Zero on success, one when the caller must sleep, else a negated errno. -/
  error : ℤ
  /-- The values after commit or rollback. -/
  values : SemValues

/-- Apply a vector of operations all at once or not at all. -/
def tryAtomicSemop (v : SemValues) (sops : List Sembuf) (un : Option ℕ) (pid : ℤ) : SemopReport :=
  let r := semopForward un v [] sops
  match r.stop with
  | none => ⟨0,r.applied.foldl (commitSop un pid) r.values⟩
  | some error => ⟨error,r.applied.foldl rollbackSop r.values⟩

/-- Reading back an assigned value. -/
theorem setSemval_semval (v : SemValues) (i j : ℕ) (x : ℤ) :
    ((v.setSemval i x).semBase j).semval=if j=i then x else (v.semBase j).semval := by
  by_cases h : j=i
  · subst h
    simp [SemValues.setSemval]
  · simp [SemValues.setSemval,h]

/-- Assigning a value keeps every recorded process identifier. -/
theorem setSemval_sempid (v : SemValues) (i j : ℕ) (x : ℤ) :
    ((v.setSemval i x).semBase j).sempid=(v.semBase j).sempid := by
  by_cases h : j=i
  · subst h
    simp [SemValues.setSemval]
  · simp [SemValues.setSemval,update_of_ne h]

/-- Assigning the current value changes nothing, also after an assignment. -/
theorem setSemval_restore (v : SemValues) (i : ℕ) (x : ℤ) :
    (v.setSemval i x).setSemval i (v.semBase i).semval=v := by
  cases v with
  | mk semBase semadj => simp [SemValues.setSemval]

/-- Rolling an added operation back restores the values before it. -/
theorem rollbackSop_setSemval (v : SemValues) (sop : Sembuf) :
    rollbackSop (v.setSemval sop.semNum ((v.semBase sop.semNum).semval+sop.semOp)) sop=v := by
  unfold rollbackSop
  rw [setSemval_semval,if_pos rfl,add_sub_cancel_right,setSemval_restore]

/-- The forward loop never applies an operation that the rollback loop would
not remove: both start from the same values. -/
theorem semopForward_rollback (un : Option ℕ) (v : SemValues) (applied sops : List Sembuf) :
    (semopForward un v applied sops).applied.foldl rollbackSop
      (semopForward un v applied sops).values=applied.foldl rollbackSop v := by
  induction sops generalizing v applied with
  | nil => rfl
  | cons sop sops ih =>
    rw [semopForward]
    split
    · rfl
    · rw [ih,foldl_cons,rollbackSop_setSemval]

variable {v w : SemValues} {sops applied : List Sembuf} {un : Option ℕ} {code pid : ℤ} {sop : Sembuf}

/-- A vector that meets no stop is committed. -/
theorem tryAtomicSemop_of_complete (pid : ℤ) (h : (semopForward un v [] sops).stop=none) :
    tryAtomicSemop v sops un pid=⟨0,(semopForward un v [] sops).applied.foldl (commitSop un pid)
      (semopForward un v [] sops).values⟩ := by
  simp only [tryAtomicSemop,h]

/-- A stopped vector returns the code of its stop and the original values. -/
theorem tryAtomicSemop_of_stop (pid : ℤ) (h : (semopForward un v [] sops).stop=some code) :
    tryAtomicSemop v sops un pid=⟨code,v⟩ := by
  have hr := semopForward_rollback un v [] sops
  simp only [foldl_nil] at hr
  simp only [tryAtomicSemop,h,hr]

/-- Codes with which one operation stops a vector. -/
theorem sopCheck_codes (h : sopCheck un v sop=some code) : code=1 ∨ code= -eagain ∨ code= -erange := by
  unfold sopCheck at h
  dsimp only [wouldBlock] at h
  split_ifs at h <;> simp_all

/-- The code of a stopped vector is the code of one of its operations. -/
theorem semopForward_codes (h : (semopForward un v applied sops).stop=some code) :
    code=1 ∨ code= -eagain ∨ code= -erange := by
  induction sops generalizing v applied with
  | nil => simp [semopForward] at h
  | cons sop sops ih =>
    rw [semopForward] at h
    cases hc : sopCheck un v sop with
    | some c =>
      rw [hc] at h
      exact sopCheck_codes (hc.trans h)
    | none =>
      rw [hc] at h
      exact ih h

/-- An attempt returns zero, one, -EAGAIN or -ERANGE. -/
theorem tryAtomicSemop_codes (v : SemValues) (sops : List Sembuf) (un : Option ℕ) (pid : ℤ) :
    (tryAtomicSemop v sops un pid).error=0 ∨ (tryAtomicSemop v sops un pid).error=1 ∨
      (tryAtomicSemop v sops un pid).error= -eagain ∨
      (tryAtomicSemop v sops un pid).error= -erange := by
  cases hs : (semopForward un v [] sops).stop with
  | none =>
    rw [tryAtomicSemop_of_complete pid hs]
    exact .inl rfl
  | some code =>
    rw [tryAtomicSemop_of_stop pid hs]
    exact .inr (semopForward_codes hs)

/-- The attempt succeeds exactly when the forward loop meets no stop. -/
theorem tryAtomicSemop_error_zero :
    (tryAtomicSemop v sops un pid).error=0 ↔ (semopForward un v [] sops).stop=none := by
  cases hs : (semopForward un v [] sops).stop with
  | none => simp [tryAtomicSemop_of_complete pid hs]
  | some code =>
    have hc := semopForward_codes hs
    rw [tryAtomicSemop_of_stop pid hs]
    simp only [eagain,erange,reduceCtorEq,iff_false] at hc ⊢
    omega

/-- A vector that does not succeed leaves the values exactly as they were. -/
theorem tryAtomicSemop_values_of_error (h : (tryAtomicSemop v sops un pid).error≠0) :
    (tryAtomicSemop v sops un pid).values=v := by
  cases hs : (semopForward un v [] sops).stop with
  | none => exact absurd (tryAtomicSemop_error_zero.mpr hs) h
  | some code => rw [tryAtomicSemop_of_stop pid hs]

/-- A positive code is the request to sleep. -/
theorem tryAtomicSemop_error_pos (h : 0<(tryAtomicSemop v sops un pid).error) :
    (tryAtomicSemop v sops un pid).error=1 := by
  have hc := tryAtomicSemop_codes v sops un pid
  simp only [eagain,erange] at hc
  omega

/-- Sum of the operations of a vector on one semaphore. -/
def opTotal (i : ℕ) (sops : List Sembuf) : ℤ := ((sops.filter (fun sop => sop.semNum=i)).map Sembuf.semOp).sum

/-- Sum of the operations of a vector on one semaphore that carry SEM_UNDO. -/
def undoTotal (i : ℕ) (sops : List Sembuf) : ℤ := opTotal i (sops.filter Sembuf.undoFlag)

/-- Operation sums of a longer vector. -/
theorem opTotal_cons (i : ℕ) (sop : Sembuf) (sops : List Sembuf) :
    opTotal i (sop::sops)=(if sop.semNum=i then sop.semOp else 0)+opTotal i sops := by
  by_cases h : sop.semNum=i <;> simp [opTotal,h]

/-- Undo sums of a longer vector. -/
theorem undoTotal_cons (i : ℕ) (sop : Sembuf) (sops : List Sembuf) : undoTotal i (sop::sops)=
      (if sop.undoFlag=true ∧ sop.semNum=i then sop.semOp else 0)+undoTotal i sops := by
  by_cases h : sop.undoFlag=true
  · simp [undoTotal,h,opTotal_cons]
  · simp [undoTotal,h]

/-- The order in which the commit loop visits a vector does not change its sums. -/
theorem undoTotal_reverse (i : ℕ) (sops : List Sembuf) : undoTotal i sops.reverse=undoTotal i sops := by
  simp [undoTotal,opTotal,filter_reverse,map_reverse,sum_reverse]

/-- A complete forward loop applied every operation, the last one first in
its record, and added each of them to its semaphore. -/
theorem semopForward_complete (h : (semopForward un v applied sops).stop=none) :
    (semopForward un v applied sops).applied=sops.reverse++applied ∧
      (semopForward un v applied sops).values.semadj=v.semadj ∧
      ∀ i, ((semopForward un v applied sops).values.semBase i).semval=
          (v.semBase i).semval+opTotal i sops ∧
        ((semopForward un v applied sops).values.semBase i).sempid=(v.semBase i).sempid := by
  induction sops generalizing v applied with
  | nil => simp [semopForward,opTotal]
  | cons sop sops ih =>
    rw [semopForward] at h ⊢
    cases hc : sopCheck un v sop with
    | some code => simp [hc] at h
    | none =>
      simp only [hc] at h ⊢
      obtain ⟨ha,hadj,hv⟩ := ih h
      refine ⟨by simp [ha],hadj,fun i => ?_⟩
      rw [(hv i).1,(hv i).2,setSemval_semval,setSemval_sempid,opTotal_cons]
      by_cases hi : i=sop.semNum
      · subst hi
        simp [add_assoc]
      · simp [hi,Ne.symm hi]

/-- The commit loop keeps values and stamps the named semaphores. -/
theorem commit_foldl_base (un : Option ℕ) (pid : ℤ) (v : SemValues) (sops : List Sembuf) (i : ℕ) :
    ((sops.foldl (commitSop un pid) v).semBase i).semval=(v.semBase i).semval ∧
      ((sops.foldl (commitSop un pid) v).semBase i).sempid=
        (if i∈sops.map Sembuf.semNum then pid else (v.semBase i).sempid) := by
  induction sops generalizing v with
  | nil => simp
  | cons sop sops ih =>
    obtain ⟨hv,hp⟩ := ih (commitSop un pid v sop)
    rw [foldl_cons,hv,hp]
    by_cases hi : i=sop.semNum
    · subst hi
      simp [commitSop]
    · simp [commitSop,hi]

/-- The commit loop subtracts the undo sum of the vector from the short
adjustments of its record. -/
theorem commit_foldl_semadj (un : Option ℕ) (pid : ℤ) (v : SemValues) (sops : List Sembuf)
    (hs : ∀ u i, IsShort (v.semadj u i)) (u i : ℕ) : (sops.foldl (commitSop un pid) v).semadj u i=
      if un=some u then toShort (v.semadj u i-undoTotal i sops) else v.semadj u i := by
  induction sops generalizing v with
  | nil => simp [undoTotal,opTotal,toShort_of_isShort (hs u i)]
  | cons sop sops ih =>
    have hs' : ∀ u i, IsShort ((commitSop un pid v sop).semadj u i) := by
      intro u i
      dsimp only [commitSop]
      split
      · exact toShort_isShort _
      · exact hs u i
    rw [foldl_cons,ih _ hs',undoTotal_cons]
    by_cases hu : un=some u
    · by_cases hf : sop.undoFlag=true ∧ sop.semNum=i
      · obtain ⟨hf,rfl⟩ := hf
        simp only [commitSop,hu,hf,and_self,if_true,toShort_sub_toShort]
        congr 1
        ring
      · have hn : ¬(sop.undoFlag=true ∧ i=sop.semNum) := fun h => hf ⟨h.1,h.2.symm⟩
        simp [commitSop,hu,hf,hn]
    · simp [commitSop,hu]

/-- A successful vector moves every semaphore by the sum of its operations and
stamps the named ones. -/
theorem tryAtomicSemop_success_base (h : (tryAtomicSemop v sops un pid).error=0) (i : ℕ) :
    ((tryAtomicSemop v sops un pid).values.semBase i).semval=
        (v.semBase i).semval+opTotal i sops ∧
      ((tryAtomicSemop v sops un pid).values.semBase i).sempid=
        (if i∈sops.map Sembuf.semNum then pid else (v.semBase i).sempid) := by
  have hn := tryAtomicSemop_error_zero.mp h
  obtain ⟨ha,_,hv⟩ := semopForward_complete hn
  have hc := commit_foldl_base un pid (semopForward un v [] sops).values sops.reverse i
  rw [append_nil] at ha
  rw [tryAtomicSemop_of_complete pid hn,ha]
  simp only [map_reverse,mem_reverse] at hc
  rw [hc.1,hc.2,(hv i).1,(hv i).2]
  exact ⟨rfl,rfl⟩

/-- Effect of a successful vector: every semaphore moves by the sum of its
operations, the named ones record the process, and the adjustments of the
undo record move by the undo sums, kept in shorts. -/
theorem tryAtomicSemop_success (h : (tryAtomicSemop v sops un pid).error=0) (hs : ∀ u i, IsShort (v.semadj u i))
    (i : ℕ) : ((tryAtomicSemop v sops un pid).values.semBase i).semval=
        (v.semBase i).semval+opTotal i sops ∧
      ((tryAtomicSemop v sops un pid).values.semBase i).sempid=
        (if i∈sops.map Sembuf.semNum then pid else (v.semBase i).sempid) ∧
      ∀ u, (tryAtomicSemop v sops un pid).values.semadj u i=
        if un=some u then toShort (v.semadj u i-undoTotal i sops) else v.semadj u i := by
  have hn := tryAtomicSemop_error_zero.mp h
  obtain ⟨ha,hadj,_⟩ := semopForward_complete hn
  obtain ⟨hval,hpid⟩ := tryAtomicSemop_success_base h i
  refine ⟨hval,hpid,fun u => ?_⟩
  have hc := commit_foldl_semadj un pid (semopForward un v [] sops).values sops.reverse
    (fun u j => by rw [hadj]; exact hs u j) u i
  rw [append_nil] at ha
  rw [tryAtomicSemop_of_complete pid hn,ha]
  simp only [undoTotal_reverse,hadj] at hc
  exact hc

/-- An operation that passes its checks leaves an admissible value. -/
theorem sopCheck_none_bounds (h : sopCheck un v sop=none) : 0≤(v.semBase sop.semNum).semval+sop.semOp ∧
      (v.semBase sop.semNum).semval+sop.semOp ≤ semvmx := by
  unfold sopCheck at h
  dsimp only at h
  split_ifs at h with h1 h2 h3 h4
  omega

/-- Every intermediate state of the forward loop has admissible values. -/
theorem semopForward_bounds (applied sops : List Sembuf)
    (hv : ∀ i, 0≤(v.semBase i).semval ∧ (v.semBase i).semval ≤ semvmx) (i : ℕ) :
    0≤((semopForward un v applied sops).values.semBase i).semval ∧
      ((semopForward un v applied sops).values.semBase i).semval ≤ semvmx := by
  induction sops generalizing v applied with
  | nil => exact hv i
  | cons sop sops ih =>
    rw [semopForward]
    cases hc : sopCheck un v sop with
    | some code => exact hv i
    | none =>
      refine ih _ (fun j => ?_)
      rw [setSemval_semval]
      split
      · exact sopCheck_none_bounds hc
      · exact hv j

/-- An attempt keeps every semaphore value between zero and SEMVMX. -/
theorem tryAtomicSemop_bounds (sops : List Sembuf) (un : Option ℕ) (pid : ℤ)
    (hv : ∀ i, 0≤(v.semBase i).semval ∧ (v.semBase i).semval ≤ semvmx) (hs : ∀ u i, IsShort (v.semadj u i)) (i : ℕ) :
    0≤((tryAtomicSemop v sops un pid).values.semBase i).semval ∧
      ((tryAtomicSemop v sops un pid).values.semBase i).semval ≤ semvmx := by
  by_cases h : (tryAtomicSemop v sops un pid).error=0
  · have hn := tryAtomicSemop_error_zero.mp h
    rw [(tryAtomicSemop_success h hs i).1,←((semopForward_complete hn).2.2 i).1]
    exact semopForward_bounds [] sops hv i
  · rw [tryAtomicSemop_values_of_error h]
    exact hv i

/-- An attempt keeps every adjustment in the range of a short. -/
theorem tryAtomicSemop_short (sops : List Sembuf) (un : Option ℕ) (pid : ℤ) (hs : ∀ u i, IsShort (v.semadj u i))
    (u i : ℕ) : IsShort ((tryAtomicSemop v sops un pid).values.semadj u i) := by
  by_cases h : (tryAtomicSemop v sops un pid).error=0
  · rw [(tryAtomicSemop_success h hs i).2.2 u]
    split
    · exact toShort_isShort _
    · exact hs u i
  · rw [tryAtomicSemop_values_of_error h]
    exact hs u i

/-- Two value states look the same to operations on one semaphore that carry
this undo pointer. -/
def SameView (un : Option ℕ) (i : ℕ) (v w : SemValues) : Prop :=
  (v.semBase i).semval=(w.semBase i).semval ∧ v.semadjOf un i=w.semadjOf un i

/-- States with equal values and adjustments at a semaphore look the same. -/
theorem SameView.of_eq {i : ℕ} (hv : (v.semBase i).semval=(w.semBase i).semval) (ha : ∀ u, v.semadj u i=w.semadj u i) :
    SameView un i v w := by
  refine ⟨hv,?_⟩
  cases un with
  | none => rfl
  | some u => exact ha u

theorem sopCheck_congr (h : SameView un sop.semNum v w) : sopCheck un v sop=sopCheck un w sop := by
  simp only [sopCheck,h.1,h.2]

/-- The forward loop stops alike in states that look alike to its vector. -/
theorem semopForward_stop_congr (applied applied' sops : List Sembuf) (h : ∀ sop∈sops, SameView un sop.semNum v w) :
    (semopForward un v applied sops).stop=(semopForward un w applied' sops).stop := by
  induction sops generalizing v w applied applied' with
  | nil => rfl
  | cons sop sops ih =>
    have hh := h sop (by simp)
    rw [semopForward,semopForward,sopCheck_congr hh]
    cases sopCheck un w sop with
    | some code => rfl
    | none =>
      refine ih _ _ (fun x hx => ?_)
      have hw := h x (by simp [hx])
      refine ⟨?_,hw.2⟩
      rw [setSemval_semval,setSemval_semval,hh.1,hw.1]

/-- The code of an attempt depends on where its forward loop stops. -/
theorem tryAtomicSemop_error_of_stop {un' : Option ℕ} (pid pid' : ℤ)
    (hs : (semopForward un v [] sops).stop=(semopForward un' w [] sops).stop) :
    (tryAtomicSemop v sops un pid).error=(tryAtomicSemop w sops un' pid').error := by
  cases hw : (semopForward un' w [] sops).stop with
  | none => rw [tryAtomicSemop_of_complete pid (hs.trans hw),tryAtomicSemop_of_complete pid' hw]
  | some code => rw [tryAtomicSemop_of_stop pid (hs.trans hw),tryAtomicSemop_of_stop pid' hw]

/-- The code of an attempt depends only on the values and adjustments of the
semaphores its vector names, never on the process identifier. -/
theorem tryAtomicSemop_error_congr (pid pid' : ℤ) (h : ∀ sop∈sops, SameView un sop.semNum v w) :
    (tryAtomicSemop v sops un pid).error=(tryAtomicSemop w sops un pid').error :=
  tryAtomicSemop_error_of_stop pid pid' (semopForward_stop_congr [] [] sops h)

/-- A vector that only tests for zero changes neither values nor adjustments. -/
theorem tryAtomicSemop_of_zero (un : Option ℕ) (pid : ℤ) (hs : ∀ u i, IsShort (v.semadj u i))
    (hz : ∀ sop∈sops, sop.semOp=0) (i : ℕ) :
    ((tryAtomicSemop v sops un pid).values.semBase i).semval=(v.semBase i).semval ∧
      ∀ u, (tryAtomicSemop v sops un pid).values.semadj u i=v.semadj u i := by
  have htot : ∀ l : List Sembuf, (∀ sop∈l, sop.semOp=0) → opTotal i l=0 := by
    intro l hl
    refine sum_eq_zero (fun x hx => ?_)
    obtain ⟨sop,hsop,rfl⟩ := mem_map.mp hx
    exact hl sop (mem_of_mem_filter hsop)
  by_cases h : (tryAtomicSemop v sops un pid).error=0
  · obtain ⟨hval,_,hadj⟩ := tryAtomicSemop_success h hs i
    have hu : undoTotal i sops=0 := htot _ (fun sop hm => hz sop (mem_of_mem_filter hm))
    refine ⟨?_,fun u => ?_⟩
    · rw [hval,htot _ hz,add_zero]
    · rw [hadj,hu,sub_zero,toShort_of_isShort (hs u i),ite_self]
  · rw [tryAtomicSemop_values_of_error h]
    exact ⟨rfl,fun _ => rfl⟩

/-- A vector without SEM_UNDO does not read its undo pointer. -/
theorem semopForward_stop_plain (un un' : Option ℕ) (applied applied' sops : List Sembuf)
    (h : ∀ sop∈sops, sop.undoFlag=false) :
    (semopForward un v applied sops).stop=(semopForward un' v applied' sops).stop := by
  induction sops generalizing v applied applied' with
  | nil => rfl
  | cons sop sops ih =>
    have hc : sopCheck un v sop=sopCheck un' v sop := by simp [sopCheck,h sop (by simp)]
    rw [semopForward,semopForward,hc]
    cases sopCheck un' v sop with
    | some code => rfl
    | none => exact ih _ _ (fun x hx => h x (by simp [hx]))

/-- Equal vectors without SEM_UNDO get equal codes, whoever submits them. -/
theorem tryAtomicSemop_error_plain (un un' : Option ℕ) (pid pid' : ℤ) (h : ∀ sop∈sops, sop.undoFlag=false) :
    (tryAtomicSemop v sops un pid).error=(tryAtomicSemop v sops un' pid').error :=
  tryAtomicSemop_error_of_stop pid pid' (semopForward_stop_plain un un' [] [] sops h)

/-- A one-operation attempt is one check followed by one commit. -/
theorem tryAtomicSemop_single (v : SemValues) (sop : Sembuf) (un : Option ℕ) (pid : ℤ) :
    tryAtomicSemop v [sop] un pid=
      match sopCheck un v sop with
      | some code => ⟨code,v⟩
      | none => ⟨0,commitSop un pid
          (v.setSemval sop.semNum ((v.semBase sop.semNum).semval+sop.semOp)) sop⟩ := by
  cases hc : sopCheck un v sop with
  | some code => exact tryAtomicSemop_of_stop pid (by simp [semopForward,hc])
  | none =>
    have hn : (semopForward un v [] [sop]).stop=none := by simp [semopForward,hc]
    rw [tryAtomicSemop_of_complete pid hn]
    simp [semopForward,hc]

/-- Some operation of a vector that must sleep may wait, and waits for a
value to fall to zero or to rise; increments never wait. -/
theorem semopForward_sleeps (hv : ∀ i, 0≤(v.semBase i).semval ∧ (v.semBase i).semval ≤ semvmx)
    (h : (semopForward un v applied sops).stop=some 1) : ∃ sop∈sops, sop.nowaitFlag=false ∧ sop.semOp≤0 := by
  induction sops generalizing v applied with
  | nil => simp [semopForward] at h
  | cons sop sops ih =>
    rw [semopForward] at h
    cases hc : sopCheck un v sop with
    | some code =>
      simp only [hc,Option.some.injEq] at h
      subst h
      refine ⟨sop,by simp,?_⟩
      have h0 := (hv sop.semNum).1
      simp only [sopCheck,wouldBlock,erange,eagain] at hc
      split_ifs at hc with h1 h2 h3 h4 h5 h6
      all_goals first
        | (simp only [Option.some.injEq] at hc; omega)
        | skip
      · exact ⟨by simpa using h2,h1.1.le⟩
      · exact ⟨by simpa using h4,by omega⟩
    | none =>
      simp only [hc] at h
      obtain ⟨x,hx,hw⟩ := ih (fun j => by
        rw [setSemval_semval]
        split
        · exact sopCheck_none_bounds hc
        · exact hv j) h
      exact ⟨x,by simp [hx],hw⟩

end BlockIpc.SemAtomicOps
