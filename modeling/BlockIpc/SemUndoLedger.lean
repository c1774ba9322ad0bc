import BlockIpc.SemRunInvariant

/-!
# Exactness of the undo bookkeeping

A ledger keeps, for every undo record and semaphore, the exact sum of the operations with SEM_UNDO
applied through the record since it was created or cleared. The recorded adjustment is a short. It
equals minus the ledger as long as no performed vector moves it out of range; the attempt tests
each operation against the adjustment before the whole vector, so a vector that names a semaphore
several times can pass and still wrap. The test admits -SEMAEM-1 for the adjustment, which is
minus the sum.
-/

namespace BlockIpc.SemUndoLedger

open List KernelNumbers SemAtomicOps SemQueueScan SemQueueInvariant SemScanDrains
  TransitionRuns SemRuns SemRunInvariant

/-- A recorded adjustment is admissible between -SEMAEM-1 and SEMAEM. -/
def UndoRange (x : ℤ) : Prop := -semaem-1≤x ∧ x ≤ semaem

theorem undoRange_iff {x : ℤ} : UndoRange x ↔ IsShort x := Iff.rfl

/-- The operations of a vector, one after the other, keep their values in
range and wait for nothing; adjustments are not looked at. -/
def ValuesPass (v : SemValues) : List Sembuf → Prop
  | [] => True
  | sop::sops =>
    ¬(sop.semOp=0 ∧ (v.semBase sop.semNum).semval≠0) ∧
      0≤(v.semBase sop.semNum).semval+sop.semOp ∧
      (v.semBase sop.semNum).semval+sop.semOp ≤ semvmx ∧
      ValuesPass (v.setSemval sop.semNum ((v.semBase sop.semNum).semval+sop.semOp)) sops

/-- Each operation with SEM_UNDO, taken alone, keeps the adjustment of its
semaphore in range. -/
def UndosPass (v : SemValues) (un : Option ℕ) (sops : List Sembuf) : Prop :=
  ∀ sop∈sops, sop.undoFlag=true → UndoRange (v.semadjOf un sop.semNum-sop.semOp)

/-- A world with the exact undo sums of its records. -/
structure LedgerWorld where
  /-- The array and the undo lists. -/
  world : SemWorld
  /-- Exact sum of the undo operations of a record on a semaphore. -/
  ledger : ℕ → ℕ → ℤ

variable {v : SemValues} {sops : List Sembuf} {a : SemAttempt} {ledger : ℕ → ℕ → ℤ} {u i : ℕ}
  {frames : List SemAttempt} {s : LedgerWorld} {w w' : SemWorld} {e : SemEvent} {result : Option ℤ} {r : StepReport}

/-- The check of an operation whose value passes is its undo test. -/
theorem sopCheck_of_valuesPass {sop : Sembuf} (un : Option ℕ) (h : ValuesPass v (sop::sops)) :
    ((sop.undoFlag=true → UndoRange (v.semadjOf un sop.semNum-sop.semOp)) ∧ sopCheck un v sop=none) ∨
    ((sop.undoFlag=true ∧ ¬UndoRange (v.semadjOf un sop.semNum-sop.semOp)) ∧
      sopCheck un v sop=some (-erange)) := by
  obtain ⟨h1,h2,h3,_⟩ := h
  simp only [sopCheck]
  rw [if_neg h1,if_neg (by omega),if_neg (by omega)]
  split
  · rename_i hu
    exact .inr ⟨⟨hu.1,fun hr => by unfold UndoRange at hr; omega⟩,rfl⟩
  · rename_i hu
    refine .inl ⟨fun hf => ?_,rfl⟩
    by_contra hr
    exact hu ⟨hf,by unfold UndoRange at hr; omega⟩

/-- A vector whose values pass succeeds exactly when its undo tests pass, and
is rejected as out of range otherwise. -/
theorem semopForward_of_valuesPass (un : Option ℕ) (applied : List Sembuf) (h : ValuesPass v sops) :
    (UndosPass v un sops ∧ (semopForward un v applied sops).stop=none) ∨
      (¬UndosPass v un sops ∧ (semopForward un v applied sops).stop=some (-erange)) := by
  induction sops generalizing v applied with
  | nil => exact .inl ⟨by simp [UndosPass],rfl⟩
  | cons sop sops ih =>
    rw [semopForward]
    rcases sopCheck_of_valuesPass un h with ⟨hhead,hc⟩|⟨hu,hc⟩
    · rw [hc]
      rcases ih (sop::applied) h.2.2.2 with ⟨hp,hs⟩|⟨hp,hs⟩
      · refine .inl ⟨fun x hx hf => ?_,hs⟩
        rcases mem_cons.mp hx with rfl|hx
        · exact hhead hf
        · exact hp x hx hf
      · exact .inr ⟨fun hall => hp (fun x hx => hall x (mem_cons_of_mem _ hx)),hs⟩
    · rw [hc]
      exact .inr ⟨fun hp => hu.2 (hp sop (by simp) hu.1),rfl⟩

/-- A vector that meets no stop has passing values. -/
theorem valuesPass_of_complete {un : Option ℕ} {applied : List Sembuf}
    (h : (semopForward un v applied sops).stop=none) : ValuesPass v sops := by
  induction sops generalizing v applied with
  | nil => trivial
  | cons sop sops ih =>
    rw [semopForward] at h
    cases hc : sopCheck un v sop with
    | some code => simp [hc] at h
    | none =>
      simp only [hc] at h
      have hb := sopCheck_none_bounds hc
      refine ⟨fun hz => ?_,hb.1,hb.2,ih h⟩
      simp [sopCheck,hz] at hc

/-- An attempt succeeds exactly when its values pass and each of its undo
tests, made against the adjustments before the whole vector, passes. -/
theorem attempt_success_iff (a : SemAttempt) :
    a.outcome.error=0 ↔ ValuesPass a.values a.sops ∧ UndosPass a.values a.undo a.sops := by
  refine tryAtomicSemop_error_zero.trans ⟨fun h => ?_,fun h => ?_⟩
  · have hv := valuesPass_of_complete h
    rcases semopForward_of_valuesPass a.undo [] hv with ⟨hu,_⟩|⟨_,hs⟩
    · exact ⟨hv,hu⟩
    · simp [hs] at h
  · rcases semopForward_of_valuesPass a.undo [] h.1 with ⟨_,hs⟩|⟨hn,_⟩
    · exact hs
    · exact absurd h.2 hn

/-- The exact sum that a vector would leave on a semaphore, by the adjustment before it. -/
def sumAfter (a : SemAttempt) (i : ℕ) : ℤ := undoTotal i a.sops-a.values.semadjOf a.undo i

/-- The exact sums are admissible with both signs. -/
def SumFits (x : ℤ) : Prop := -semaem≤x ∧ x ≤ semaem

/-- If each operation with SEM_UNDO, taken alone, keeps the adjustment in range, then the vector as a
whole keeps the sums of the semaphores that it names with SEM_UNDO. -/
def UndoFits (a : SemAttempt) : Prop :=
  UndosPass a.values a.undo a.sops → ∀ sop∈a.sops, sop.undoFlag=true → SumFits (sumAfter a sop.semNum)

instance (a : SemAttempt) : Decidable (UndoFits a) :=
  inferInstanceAs (Decidable ((∀ sop∈a.sops, sop.undoFlag=true →
      -semaem-1≤a.values.semadjOf a.undo sop.semNum-sop.semOp ∧
        a.values.semadjOf a.undo sop.semNum-sop.semOp ≤ semaem) →
    ∀ sop∈a.sops, sop.undoFlag=true → -semaem ≤ sumAfter a sop.semNum ∧ sumAfter a sop.semNum ≤ semaem))

/-- The vector would take a sum out of range. -/
def OutOfRange (a : SemAttempt) : Prop := ∃ sop∈a.sops, sop.undoFlag=true ∧ ¬UndoRange (sumAfter a sop.semNum)

/-- Add a performed vector to the exact sums of its undo record. -/
def creditAttempt (ledger : ℕ → ℕ → ℤ) (a : SemAttempt) : ℕ → ℕ → ℤ := fun u i =>
  if a.outcome.error=0 ∧ a.undo=some u then ledger u i+undoTotal i a.sops else ledger u i

/-- An adjustment is minus a sum that fits. -/
def Exact (x sum : ℤ) : Prop := x= -sum ∧ SumFits sum

/-- A semaphore that a vector does not name with SEM_UNDO has no part in it. -/
theorem undoTotal_eq_zero (h : ∀ sop∈sops, sop.undoFlag=true → sop.semNum≠i) : undoTotal i sops=0 := by
  induction sops with
  | nil => rfl
  | cons sop sops ih =>
    obtain ⟨hsop,hsops⟩ := forall_mem_cons.mp h
    rw [undoTotal_cons,if_neg (fun hc => hsop hc.1 hc.2),ih hsops,add_zero]

/-- A performed vector that fits keeps the sums of its record. -/
theorem sumFits_of_fits (hf : UndoFits a) (h0 : a.outcome.error=0) (hu : a.undo=some u)
    (h : Exact (a.values.semadj u i) (ledger u i)) : SumFits (ledger u i+undoTotal i a.sops) := by
  by_cases hnamed : ∃ sop∈a.sops, sop.undoFlag=true ∧ sop.semNum=i
  · obtain ⟨sop,hmem,hflag,rfl⟩ := hnamed
    have hsum := hf ((attempt_success_iff a).mp h0).2 sop hmem hflag
    rw [sumAfter,SemValues.semadjOf,hu,Option.elim_some,h.1,sub_neg_eq_add,add_comm] at hsum
    exact hsum
  · rw [undoTotal_eq_zero (fun sop hm hflag hi => hnamed ⟨sop,hm,hflag,hi⟩),add_zero]
    exact h.2

/-- One attempt that fits keeps adjustments equal to minus the sums. -/
theorem creditAttempt_exact (hf : UndoFits a) (hs : ∀ u i, IsShort (a.values.semadj u i))
    (h : Exact (a.values.semadj u i) (ledger u i)) :
    Exact (a.outcome.values.semadj u i) (creditAttempt ledger a u i) := by
  unfold creditAttempt
  by_cases h0 : a.outcome.error=0
  · have hadj := (tryAtomicSemop_success h0 hs i).2.2 u
    change a.outcome.values.semadj u i=_ at hadj
    by_cases hu : a.undo=some u
    · have hfits := sumFits_of_fits hf h0 hu h
      have hshort : IsShort (a.values.semadj u i-undoTotal i a.sops) := by
        rw [h.1]
        unfold SumFits at hfits
        exact undoRange_iff.mp ⟨by omega,by omega⟩
      rw [if_pos ⟨h0,hu⟩]
      rw [if_pos hu,toShort_of_isShort hshort,h.1] at hadj
      exact ⟨hadj.trans (by ring),hfits⟩
    · rw [if_neg (fun hc => hu hc.2)]
      rw [if_neg hu] at hadj
      rwa [hadj]
  · rw [if_neg (fun hc => h0 hc.1)]
    rwa [show a.outcome.values=a.values from tryAtomicSemop_values_of_error h0]

/-- The condition is needed: a performed vector that does not fit leaves a
wrong adjustment or a sum out of range. -/
theorem creditAttempt_wraps (h0 : a.outcome.error=0) (hs : ∀ u i, IsShort (a.values.semadj u i)) (hu : a.undo=some u)
    (h : a.values.semadj u i= -ledger u i) (hout : ¬SumFits (ledger u i+undoTotal i a.sops)) :
    a.outcome.values.semadj u i≠ -creditAttempt ledger a u i ∨ ¬UndoRange (creditAttempt ledger a u i) := by
  have hadj := (tryAtomicSemop_success h0 hs i).2.2 u
  change a.outcome.values.semadj u i=_ at hadj
  rw [if_pos hu,h] at hadj
  unfold creditAttempt
  rw [if_pos ⟨h0,hu⟩,← not_and_or]
  rintro ⟨he,hr⟩
  have hshort := toShort_isShort (-ledger u i-undoTotal i a.sops)
  rw [← hadj,he] at hshort
  have hr' := undoRange_iff.mpr hshort
  unfold UndoRange at hr hr'
  exact hout ⟨by omega,by omega⟩

/-- Recorded attempts that all fit keep adjustments equal to minus the sums. -/
theorem frameChain_exact {w : SemValues} (hc : FrameChain v frames w) (hf : ∀ a∈frames, UndoFits a)
    (hs : ∀ u i, IsShort (v.semadj u i)) (h : Exact (v.semadj u i) (ledger u i)) :
    Exact (w.semadj u i) ((frames.foldl creditAttempt ledger) u i) := by
  induction hc generalizing ledger with
  | nil => exact h
  | @cons a frames w _ ih =>
    exact ih (fun b hb => hf b (mem_cons_of_mem _ hb))
      (tryAtomicSemop_short a.sops a.undo a.pid hs)
      (creditAttempt_exact (hf a (by simp)) hs h)

/-- The sums that a control call or a new undo record sets to zero. -/
def cleared (w : SemWorld) (e : SemEvent) (u i : ℕ) : Bool :=
  match e with
  | .setval c => decide (u∈w.sma.listId) && decide (i=c.semnum.toNat)
  | .setall _ => decide (u∈w.sma.listId) && decide (i<w.sma.semNsems)
  | .findAllocUndo task => decide (w.undoList task=some u)
  | _ => false

/-- The sums after a successful call cleared its part of them. -/
def clearLedger (w : SemWorld) (e : SemEvent) (r : StepReport) (ledger : ℕ → ℕ → ℤ) : ℕ → ℕ → ℤ :=
  fun u i => if r.result=some 0 ∧ cleared w e u i=true then 0 else ledger u i

/-- The sums after a critical section: cleared ones, then every vector that
was performed in it. -/
def ledgerAfter (s : LedgerWorld) (e : SemEvent) (r : StepReport) : ℕ → ℕ → ℤ :=
  r.frames.foldl creditAttempt (clearLedger s.world e r s.ledger)

/-- One critical section with its bookkeeping. -/
def ledgerStep (s : LedgerWorld) (e : SemEvent) : Option LedgerWorld :=
  (semStep s.world e).map (fun r => ⟨r.world,ledgerAfter s e r⟩)

/-- Bookkeeping starts with a new array and empty sums. -/
def LedgerStart (s : LedgerWorld) : Prop := SemStart s.world ∧ s.ledger=fun _ _ => 0

/-- States that a run with bookkeeping reaches. -/
def LedgerReachable : LedgerWorld → Prop := Reachable LedgerStart (fun s e t => ledgerStep s e=some t)

/-- One critical section in which every attempt fits. -/
def fittingStep (s : LedgerWorld) (e : SemEvent) : Option LedgerWorld :=
  (semStep s.world e).bind (fun r => if ∀ a∈r.frames, UndoFits a then some ⟨r.world,ledgerAfter s e r⟩ else none)

/-- States reached by runs in which every attempt fits. -/
def FittingReachable : LedgerWorld → Prop := Reachable LedgerStart (fun s e t => fittingStep s e=some t)

theorem fittingStep_eq_some {t : LedgerWorld} (h : fittingStep s e=some t) :
    ∃ r, semStep s.world e=some r ∧ (∀ a∈r.frames, UndoFits a) ∧ t=⟨r.world,ledgerAfter s e r⟩ := by
  obtain ⟨r,hr,h⟩ := Option.bind_eq_some_iff.mp h
  obtain ⟨hf,ht⟩ := Option.ite_none_right_eq_some.mp h
  exact ⟨r,hr,hf,(Option.some.inj ht).symm⟩

/-- A run in which every attempt fits is a run. -/
theorem FittingReachable.plain (h : FittingReachable s) : SemReachable s.world := by
  refine Reachable.project LedgerWorld.world (fun _ h0 => h0.1) (fun a e b hb => ?_) h
  obtain ⟨r,hr,-,rfl⟩ := fittingStep_eq_some hb
  exact ⟨e,r,hr,rfl⟩

/-- The values from which the attempts of a critical section start. -/
structure FramesFrom (w : SemWorld) (e : SemEvent) (r : StepReport) (v : SemValues) : Prop where
  /-- The attempts lead from there to the values at its end. -/
  chain : FrameChain v r.frames r.world.sma.toSemValues
  shorts : ∀ u i, IsShort (v.semadj u i)
  /-- The records linked at the end were linked at the beginning or new. -/
  linked : ∀ u∈r.world.sma.listId, u∈w.sma.listId ∨ ∀ i, cleared w e u i=true ∧ r.result=some 0
  /-- Linked adjustments are those at the beginning, or zero where cleared. -/
  semadj : ∀ u∈r.world.sma.listId, ∀ i, v.semadj u i=
    if r.result=some 0 ∧ cleared w e u i=true then 0 else w.sma.semadj u i

/-- A full update after a change under the lock. -/
theorem FramesFrom.control {sma : SemArray} (hc : ControlChange w sma) {otime : Bool} {now : ℕ}
    (hl : ∀ u∈sma.listId, u∈w.sma.listId)
    (ha : ∀ u∈sma.listId, ∀ i, sma.semadj u i=if cleared w e u i=true then 0 else w.sma.semadj u i) :
    FramesFrom w e (w.updated sma none otime now []) sma.toSemValues := by
  obtain ⟨done,hu⟩ := doSmartUpdate_none_spec sma otime now hc.queue hc.values
  obtain ⟨_,hcomp⟩ := hu.completes
  have hlist : (doSmartUpdate sma none otime now).array.listId=sma.listId := hcomp.frame.2.1
  refine ⟨doSmartUpdate_frames sma none otime now,hc.values.shorts,fun u hm => ?_,fun u hm i => ?_⟩
  · exact .inl (hl u (hlist ▸ hm))
  · rw [ha u (hlist ▸ hm) i]
    simp [SemWorld.updated]

/-- A critical section without attempts that leaves the adjustments. -/
theorem FramesFrom.still {tasks : List SemQueue} {bug : Bool} (hs : ∀ u i, IsShort (w.sma.semadj u i))
    (hv : w'.sma.toSemValues=w.sma.toSemValues) (hl : ∀ u∈w'.sma.listId, u∈w.sma.listId)
    (hc : result=some 0 → ∀ u i, cleared w e u i=false) :
    FramesFrom w e ⟨w',result,tasks,bug,[]⟩ w.sma.toSemValues := by
  refine ⟨hv ▸ FrameChain.nil,hs,fun u hu => .inl (hl u hu),fun u _ i => ?_⟩
  rw [if_neg]
  rintro ⟨hr,ht⟩
  simp [hc hr u i] at ht

theorem FramesFrom.attempted {c : SemopCall} (hs : ∀ u i, IsShort (w.sma.semadj u i))
    (hv : w'.sma.toSemValues=(firstAttempt w c).outcome.values) (hl : w'.sma.listId=w.sma.listId) :
    FramesFrom w (.semtimedop c) ⟨w',result,[],false,[firstAttempt w c]⟩ w.sma.toSemValues := by
  refine ⟨?_,hs,fun u hu => .inl (hl ▸ hu),fun u _ i => by simp [cleared]⟩
  rw [hv]
  exact @FrameChain.cons (firstAttempt w c) [] _ FrameChain.nil

/-- Every critical section's attempts start from known adjustments. -/
theorem framesFrom_of_shape (hi : SemInv w) (h : SemShape w e r) : ∃ v, FramesFrom w e r v := by
  have hs := hi.values.shorts
  cases h with
  | @fails _ code hneg => exact ⟨_,FramesFrom.still hs rfl (fun _ h => h) (fun hc => by
      have h0 : code=0 := Option.some.inj hc
      omega)⟩
  | returned _ _ _ => exact ⟨_,FramesFrom.attempted hs rfl rfl⟩
  | @performed c hr h0 ha =>
    obtain ⟨done,hu⟩ := hi.performed_spec h0 true c.now
    obtain ⟨_,hcomp⟩ := hu.completes
    have hlist : (doSmartUpdate (attemptedArray w c) (some c.sops) true c.now).array.listId=
      w.sma.listId := hcomp.frame.2.1
    refine ⟨w.sma.toSemValues,?_,hs,fun u hm => .inl (hlist ▸ hm),fun u _ i => by simp [cleared]⟩
    exact @FrameChain.cons (firstAttempt w c) _ _
      (doSmartUpdate_frames (attemptedArray w c) (some c.sops) true c.now)
  | @sleeps c hr h0 =>
    refine ⟨_,FramesFrom.attempted hs ?_ (enqueue_frame _ _).2.2.2.1⟩
    rw [show (enqueue w.sma (sleepEntry w c)).toSemValues=_ from (enqueue_frame _ _).1]
    exact (tryAtomicSemop_values_of_error (ne_of_gt h0)).symm
  | @setval c hv =>
    refine ⟨_,FramesFrom.control (setval_control hi c.pid c.now hv) (fun _ h => h) (fun u _ i => ?_)⟩
    simp [setvalArray,cleared]
  | @setall c hv =>
    refine ⟨_,FramesFrom.control (setall_control hi c.now hv) (fun _ h => h) (fun u _ i => ?_)⟩
    simp [setallArray,cleared]
  | @interrupt task timedOut q hq =>
    obtain ⟨hv,_,_,hl,_⟩ := unlinkQueue_frame w.sma q
    exact ⟨_,FramesFrom.still hs hv (fun _ h => hl ▸ h) (fun _ _ _ => rfl)⟩
  | getUndoList | copySemundo | exitNone | exitSem =>
    exact ⟨_,FramesFrom.still hs rfl (fun _ h => h) (fun _ _ _ => rfl)⟩
  | @findAllocUndo task ulp ht hl =>
    refine ⟨_,FrameChain.nil,(hi.link hl).values.shorts,fun u hu => ?_,fun u hu i => ?_⟩
    · rcases mem_cons.mp hu with rfl|hu
      · exact .inr (fun _ => ⟨by simp [cleared,ht],rfl⟩)
      · exact .inl hu
    · simp [cleared,ht,eq_comm]
  | @exitSemAdjust ulp pid now hr hl =>
    refine ⟨_,FramesFrom.control (exitSem_control hi pid hr)
      (fun _ h => mem_of_mem_filter h) (fun u _ i => ?_)⟩
    simp [exitSemArray,cleared]
  | freeary =>
    obtain ⟨_,hl,hv⟩ := hi.freeary_frame
    exact ⟨_,FramesFrom.still hs hv (fun u h => by simp [hl] at h) (fun _ _ _ => rfl)⟩

/-- Every linked adjustment is minus the exact sum. -/
def LedgerExact (s : LedgerWorld) : Prop :=
  ∀ u∈s.world.sma.listId, ∀ i, Exact (s.world.sma.semadj u i) (s.ledger u i)

/-- A critical section in which every attempt fits keeps the sums exact. -/
theorem LedgerExact.step (hi : SemInv s.world) (hx : LedgerExact s) (h : SemShape s.world e r)
    (hf : ∀ a∈r.frames, UndoFits a) : LedgerExact ⟨r.world,ledgerAfter s e r⟩ := by
  obtain ⟨v,hv⟩ := framesFrom_of_shape hi h
  intro u hu i
  refine frameChain_exact hv.chain hf hv.shorts ?_
  rw [hv.semadj u hu i,clearLedger]
  split
  · exact ⟨rfl,by decide,by decide⟩
  · rename_i hc
    rcases hv.linked u hu with hm|hm
    · exact hx u hm i
    · exact absurd ⟨(hm i).2,(hm i).1⟩ hc

/-- Along runs in which every attempt fits the sums are exact. -/
theorem fittingReachable_exact (h : FittingReachable s) : LedgerExact s := by
  refine Reachable.invariant ?_ (fun s e t hr hx hstep => ?_) h
  · rintro s ⟨⟨nsems,now,_,hs⟩,hl⟩ u hu
    simp [hs,newWorld,newary] at hu
  · obtain ⟨r,hsem,hf,rfl⟩ := fittingStep_eq_some hstep
    exact hx.step (semReachable_inv (FittingReachable.plain hr)) (semStep_shape hsem) hf

/-- An attempt that fits and whose vector would leave the range is rejected as
out of range and changes nothing. -/
theorem UndoFits.rejects (hf : UndoFits a) (hv : ValuesPass a.values a.sops) (hl : OutOfRange a) :
    a.outcome.error= -erange ∧ a.outcome.values=a.values := by
  rcases semopForward_of_valuesPass a.undo [] hv with ⟨hu,_⟩|⟨_,hs⟩
  · obtain ⟨sop,hmem,hflag,hout⟩ := hl
    have hfits := hf hu sop hmem hflag
    unfold SumFits at hfits
    exact absurd ⟨by omega,hfits.2⟩ hout
  · have ho : a.outcome=⟨-erange,a.values⟩ := tryAtomicSemop_of_stop a.pid hs
    rw [ho]
    exact ⟨rfl,rfl⟩

/-- In a state of any run whose attempts all fit, each linked adjustment is
minus the exact sum of the undo operations applied through its record, and the
sum is in range. An attempt whose vector would leave the range is rejected with
-ERANGE and has no effect, and so is a call whose first attempt it is. -/
theorem undo_exact_of_fitting {s : LedgerWorld} (h : FittingReachable s) :
    (∀ u∈s.world.sma.listId, ∀ i, s.world.sma.semadj u i= -s.ledger u i ∧
      UndoRange (s.ledger u i)) ∧
    (∀ e r, semStep s.world e=some r → (∀ a∈r.frames, UndoFits a) →
      ∀ a∈r.frames, ValuesPass a.values a.sops → OutOfRange a →
        a.outcome.error= -erange ∧ a.outcome.values=a.values) ∧
    ∀ c r, semStep s.world (.semtimedop c)=some r → (∀ a∈r.frames, UndoFits a) →
      firstAttempt s.world c∈r.frames → ValuesPass s.world.sma.toSemValues c.sops →
      OutOfRange (firstAttempt s.world c) → r.result=some (-erange) ∧ r.world=s.world := by
  have hx := fittingReachable_exact h
  refine ⟨fun u hu i => ⟨(hx u hu i).1,?_⟩,fun e r _ hf a ha hv hl => (hf a ha).rejects hv hl,
    fun c r hr hf ha hv hl => ?_⟩
  · have hfits := (hx u hu i).2
    unfold SumFits at hfits
    exact ⟨by omega,hfits.2⟩
  · obtain ⟨herr,_⟩ := (hf _ ha).rejects hv hl
    cases semStep_shape hr with
    | fails _ => simp [SemWorld.fails] at ha
    | returned _ _ _ =>
      refine ⟨congrArg some herr,?_⟩
      rw [attemptedArray_of_error (by rw [herr]; decide)]
    | performed _ h0 _ => exact absurd (herr.symm.trans h0) (by decide)
    | sleeps _ h0 => exact absurd (herr ▸ h0) (by decide)

/-- A task that lowers or raises the first semaphore and asks for undo. -/
def undoCall (sops : List Sembuf) : SemEvent := .semtimedop ⟨1,sops,100,0,32,none,.noMemory,none⟩

/-- A new array whose first semaphore is set, with an undo record. -/
def undoSetup (val : ℤ) : List SemEvent := [.getUndoList 1 5,.findAllocUndo 1,.setval ⟨0,val,100,0,none⟩]

/-- The bookkeeping of a new array. -/
def newLedger : LedgerWorld := ⟨newWorld 1 0,fun _ _ => 0⟩

theorem newLedger_start : LedgerStart newLedger := ⟨⟨1,0,by decide,rfl⟩,rfl⟩

/-- Lowering a semaphore of value five by two with SEM_UNDO, and then twice by one in one vector, is a
run in which every attempt fits, and four is recorded. -/
theorem undo_exact_of_fitting_lowered : ∃ s : LedgerWorld, FittingReachable s ∧ 5∈s.world.sma.listId ∧
    s.ledger 5 0= -4 ∧ s.world.sma.semadj 5 0= -s.ledger 5 0 := by
  obtain ⟨s,hrun,hmem,hsum⟩ : ∃ s, FittingReachable s ∧ 5∈s.world.sma.listId ∧ s.ledger 5 0= -4 :=
    exists_run (fun _ _ _ => id) newLedger_start (undoSetup 5++[undoCall [⟨0,-2,semUndo,by decide⟩],
      undoCall [⟨0,-1,semUndo,by decide⟩,⟨0,-1,semUndo,by decide⟩]]) (by decide)
  exact ⟨s,hrun,hmem,hsum,((undo_exact_of_fitting hrun).1 5 hmem 0).1⟩

/-- Twice lowering by 20000 with undo and once raising without it. -/
def wrapSops : List Sembuf := [⟨0,-20000,semUndo,by decide⟩,⟨0,20000,0,by decide⟩,⟨0,-20000,semUndo,by decide⟩]

theorem isShort_one : IsShort 1 := by decide

/-- Raising by 32767 and by one with undo, with lowering in between. -/
def edgeSops : List Sembuf := [⟨0,32767,semUndo,by decide⟩,⟨0,-32767,0,by decide⟩,⟨0,1,semUndo,isShort_one⟩]

/-- A vector that names one semaphore twice with SEM_UNDO is performed and
returns zero although its exact adjustment is out of range: forty thousand is
recorded as a negative number. Another one leaves a sum above SEMAEM. -/
theorem undo_wraps_repeated :
    (∃ s, LedgerReachable s ∧ 5∈s.world.sma.listId ∧ s.world.sma.semadj 5 0= -25536 ∧ s.ledger 5 0= -40000) ∧
    ∃ s, LedgerReachable s ∧ 5∈s.world.sma.listId ∧ s.world.sma.semadj 5 0= -32768 ∧ s.ledger 5 0=32768 :=
  ⟨exists_run (fun _ _ _ => id) newLedger_start (undoSetup 20000++[undoCall wrapSops]) (by decide),
    exists_run (fun _ _ _ => id) newLedger_start (undoSetup 0++[undoCall edgeSops]) (by decide)⟩

end BlockIpc.SemUndoLedger
