import BlockIpc.SemQueueScan

/-!
# Representation invariant of the sleeping-operation queue

The array list, the per-semaphore lists and the count of complex operations
describe one set of sleepers. What may sleep is restricted: every entry has
an operation that may wait and does not raise a value, so a single altering
entry is a decrement. The restart test is then justified: when it asks for no
restart, completing an entry unblocks no earlier one.
-/

namespace BlockIpc.SemQueueInvariant

open List KernelNumbers SemAtomicOps PendingScan SemQueueScan

/-- What an entry on the queue of an array with this many semaphores satisfies. -/
structure EntryInv (nsems : ℕ) (q : SemQueue) : Prop where
  /-- The vector is not empty. -/
  nonempty : 0<q.nsops
  /-- The alter flag says whether some operation is not a test for zero. -/
  alter_eq : q.alter=q.sops.any (fun sop => sop.semOp≠0)
  /-- Some operation may wait and does not raise a value. -/
  waits : ∃ sop∈q.sops, sop.nowaitFlag=false ∧ sop.semOp≤0
  /-- Every operation names a semaphore of the array. -/
  inRange : ∀ sop∈q.sops, sop.semNum<nsems

/-- The queue of an array represents one set of sleepers. -/
structure QueueInv (sma : SemArray) : Prop where
  /-- Each semaphore lists its single operations in array-list order. -/
  simple : ∀ i, sma.simplePending i=
    sma.semPending.filter (fun q => decide (q.nsops=1) && decide (q.semnum=i))
  /-- The counter is the number of complex entries. -/
  complex : sma.complexCount=(sma.semPending.filter (fun q => 1<q.nsops)).length
  /-- Entries that alter nothing precede the altering ones. -/
  ordered : sma.semPending.Pairwise (fun a b => a.alter=true → b.alter=true)
  /-- No task sleeps twice. -/
  distinct : (sma.semPending.map SemQueue.sleeper).Nodup
  /-- Every entry is one that may sleep. -/
  entries : ∀ q∈sma.semPending, EntryInv sma.semNsems q

/-- Values and adjustments stay in the ranges of their C types and limits. -/
structure ValueInv (v : SemValues) : Prop where
  /-- Every semaphore value lies between zero and SEMVMX. -/
  bounds : ∀ i, 0≤(v.semBase i).semval ∧ (v.semBase i).semval ≤ semvmx
  shorts : ∀ u i, IsShort (v.semadj u i)

/-- Attempting a sleeping entry, as the drain library expects it. -/
def semAttempt (v : SemValues) (q : SemQueue) : ℤ×SemValues :=
  ((tryAtomicSemop v q.sops q.undo q.pid).error,(tryAtomicSemop v q.sops q.undo q.pid).values)

theorem semAttempt_frame (v : SemValues) (q : SemQueue) (h : (semAttempt v q).1≠0) :
    (semAttempt v q).2=v := tryAtomicSemop_values_of_error h

variable {v : SemValues} {l : List SemQueue} {q r x : SemQueue} {sma : SemArray} {nsems i : ℕ} {sop : Sembuf}

/-- Attempts keep values and adjustments in range. -/
theorem ValueInv.attempt (hv : ValueInv v) (q : SemQueue) : ValueInv (semAttempt v q).2 :=
  ⟨tryAtomicSemop_bounds q.sops q.undo q.pid hv.bounds hv.shorts,
    tryAtomicSemop_short q.sops q.undo q.pid hv.shorts⟩

theorem eq_of_sleeper (hd : (l.map SemQueue.sleeper).Nodup) (hq : q∈l) (hr : r∈l) (h : r.sleeper=q.sleeper) : r=q :=
  inj_on_of_nodup_map hd hr hq h

theorem mem_listDel : r∈listDel q l ↔ r∈l ∧ r.sleeper≠q.sleeper := by
  simp [listDel]

/-- Deleting an entry joins the lists before and after it. -/
theorem listDel_split {before after : List SemQueue} (hd : ((before++q::after).map SemQueue.sleeper).Nodup) :
    listDel q (before++q::after)=before++after := by
  simp only [map_append,map_cons,nodup_append,nodup_cons,
    mem_cons,mem_map] at hd
  obtain ⟨_,⟨ha,_⟩,hb⟩ := hd
  have h1 : listDel q before=before := by
    refine filter_eq_self.mpr (fun r hr => ?_)
    simpa using hb r.sleeper ⟨r,hr,rfl⟩ q.sleeper (.inl rfl)
  have h2 : listDel q after=after := by
    refine filter_eq_self.mpr (fun r hr => ?_)
    simpa using fun h => ha ⟨r,hr,h⟩
  have h3 : listDel q [q]=[] := by simp [listDel]
  calc listDel q (before++q::after)
      =listDel q before++(listDel q [q]++listDel q after) := by
        simp only [listDel,←filter_append,singleton_append]
    _=before++after := by rw [h1,h2,h3,nil_append]

/-- Deletion commutes with selecting a part of a list. -/
theorem listDel_filter (q : SemQueue) (p : SemQueue → Bool) (l : List SemQueue) :
    listDel q (l.filter p)=(listDel q l).filter p := by
  simp only [listDel,filter_filter]
  exact filter_congr (fun r _ => Bool.and_comm _ _)

/-- Unlinking does not touch values, undo records or times. -/
theorem unlinkQueue_frame (sma : SemArray) (q : SemQueue) : (unlinkQueue sma q).toSemValues=sma.toSemValues ∧
      (unlinkQueue sma q).semPending=listDel q sma.semPending ∧
      (unlinkQueue sma q).semNsems=sma.semNsems ∧ (unlinkQueue sma q).listId=sma.listId ∧
      (unlinkQueue sma q).deleted=sma.deleted := by
  unfold unlinkQueue
  dsimp only
  split <;> exact ⟨rfl,rfl,rfl,rfl,rfl⟩

/-- The semaphore lists after an unlink. -/
theorem unlinkQueue_simplePending (hi : QueueInv sma) (hq : q∈sma.semPending) (i : ℕ) :
    (unlinkQueue sma q).simplePending i=listDel q (sma.simplePending i) := by
  unfold unlinkQueue
  dsimp only
  split
  · rfl
  · rename_i hn
    refine (filter_eq_self.mpr (fun r hr => ?_)).symm
    rw [hi.simple i,mem_filter] at hr
    simp only [Bool.and_eq_true,decide_eq_true_eq] at hr
    simp only [ne_eq,decide_not,Bool.not_eq_eq_eq_not,Bool.not_true,decide_eq_false_iff_not]
    intro hs
    rw [eq_of_sleeper hi.distinct hq hr.1 hs] at hr
    exact hn hr.2.1

/-- The counter of complex entries after an unlink. -/
theorem unlinkQueue_complexCount (hi : QueueInv sma) (hq : q∈sma.semPending) : (unlinkQueue sma q).complexCount=
      ((listDel q sma.semPending).filter (fun q => 1<q.nsops)).length := by
  have hne := (hi.entries q hq).nonempty
  have hc := hi.complex
  have hd := hi.distinct
  obtain ⟨before,after,hl⟩ := append_of_mem hq
  rw [hl] at hc hd
  simp only [filter_append,filter_cons,length_append] at hc
  unfold unlinkQueue
  dsimp only
  rw [hl,listDel_split hd,filter_append,length_append]
  by_cases hn : q.nsops=1
  · have h1 : ¬1<q.nsops := by omega
    rw [if_pos hn]
    simpa [h1] using hc
  · have h1 : 1<q.nsops := by omega
    rw [if_neg hn]
    simp only [h1,decide_true,if_true,length_cons] at hc
    push_cast at hc ⊢
    omega

/-- Unlinking a queued entry keeps the representation. -/
theorem QueueInv.unlink (hi : QueueInv sma) (hq : q∈sma.semPending) : QueueInv (unlinkQueue sma q) := by
  obtain ⟨_,hp,hn,_,_⟩ := unlinkQueue_frame sma q
  have hsub : (listDel q sma.semPending).Sublist sma.semPending := filter_sublist
  refine ⟨fun i => ?_,?_,?_,?_,?_⟩
  · rw [unlinkQueue_simplePending hi hq,hp,hi.simple i,listDel_filter]
  · rw [unlinkQueue_complexCount hi hq,hp]
  · rw [hp]
    exact hi.ordered.sublist hsub
  · rw [hp]
    exact hi.distinct.sublist (hsub.map _)
  · rw [hp,hn]
    exact fun r hr => hi.entries r (hsub.subset hr)

/-- Changing values only keeps the representation. -/
theorem QueueInv.withValues (hi : QueueInv sma) (v : SemValues) : QueueInv {sma with toSemValues := v} := {hi with}

/-- A single sleeping operation may wait and does not raise its semaphore. -/
theorem EntryInv.single (he : EntryInv nsems q) (hn : q.nsops=1) :
    ∃ sop, q.sops=[sop] ∧ q.semnum=sop.semNum ∧ q.firstOp=sop.semOp ∧ sop.nowaitFlag=false ∧
      sop.semOp≤0 ∧ (q.alter=true ↔ sop.semOp<0) := by
  obtain ⟨sop,hs⟩ := length_eq_one_iff.mp hn
  obtain ⟨x,hx,hw,h0⟩ := he.waits
  have ha := he.alter_eq
  simp only [hs,mem_singleton] at hx
  subst hx
  refine ⟨x,hs,by simp [SemQueue.semnum,hs],by simp [SemQueue.firstOp,hs],hw,h0,?_⟩
  rw [ha,hs]
  simp only [any_cons,any_nil,Bool.or_false,decide_eq_true_eq]
  omega

/-- When a single sleeping operation still waits. -/
theorem blocked_single (hv : ValueInv v) (hs : q.sops=[sop]) (hw : sop.nowaitFlag=false) (h0 : sop.semOp≤0) :
    Blocked semAttempt v q ↔ (sop.semOp=0 ∧ (v.semBase sop.semNum).semval≠0) ∨
      (v.semBase sop.semNum).semval+sop.semOp<0 := by
  have hb := hv.bounds sop.semNum
  unfold Blocked semAttempt
  rw [hs,tryAtomicSemop_single]
  simp only [sopCheck,wouldBlock,hw,erange,Bool.false_eq_true,if_false]
  split_ifs with h1 h2 h3 h4 <;> simp <;> omega

/-- A completed single decrement lowers its semaphore by its amount and
touches no other one. -/
theorem semAttempt_single_values (hs : q.sops=[sop]) (h : (semAttempt v q).1=0) (i : ℕ) :
    ((semAttempt v q).2.semBase i).semval=
        (v.semBase i).semval+(if i=sop.semNum then sop.semOp else 0) ∧
      (i≠sop.semNum → ((semAttempt v q).2.semBase i).sempid=(v.semBase i).sempid ∧
        ∀ u, (semAttempt v q).2.semadj u i=v.semadj u i) := by
  have h' := h
  unfold semAttempt at h ⊢
  simp only [hs,tryAtomicSemop_single] at h ⊢
  cases hc : sopCheck q.undo v sop with
  | some code =>
    have hcode := sopCheck_codes hc
    simp only [hc] at h
    simp only [h,eagain,erange] at hcode
    omega
  | none =>
    dsimp only
    refine ⟨?_,fun hi => ⟨?_,fun u => ?_⟩⟩
    · by_cases hi : i=sop.semNum
      · subst hi
        simp [commitSop,setSemval_semval]
      · simp [commitSop,setSemval_semval,hi]
    · simp [commitSop,hi,setSemval_sempid]
    · simp [commitSop,hi,SemValues.setSemval]

/-- Attempting an entry whose operations all test for zero changes nothing
another entry reads. -/
theorem sameView_of_not_alter (hv : ValueInv v) (he : EntryInv nsems q) (ha : q.alter=false) (un : Option ℕ) (i : ℕ) :
    SameView un i (semAttempt v q).2 v := by
  have hz : ∀ sop∈q.sops, sop.semOp=0 := by
    have h := he.alter_eq
    rw [ha,eq_comm,any_eq_false] at h
    intro sop hsop
    simpa using h sop hsop
  obtain ⟨hval,hadj⟩ := tryAtomicSemop_of_zero q.undo q.pid hv.shorts hz i
  exact SameView.of_eq hval hadj

/-- Whether an entry blocks depends only on what its operations read. -/
theorem blocked_congr {w : SemValues} (h : ∀ sop∈q.sops, SameView q.undo sop.semNum v w) :
    Blocked semAttempt v q ↔ Blocked semAttempt w q := by
  unfold Blocked semAttempt
  rw [tryAtomicSemop_error_congr q.pid q.pid h]

/-- The array after a queued entry was attempted and unlinked. -/
def completeQueue (sma : SemArray) (q : SemQueue) : SemArray :=
  unlinkQueue {sma with toSemValues := (semAttempt sma.toSemValues q).2} q

theorem completeQueue_values (sma : SemArray) (q : SemQueue) :
    (completeQueue sma q).toSemValues=(semAttempt sma.toSemValues q).2 := (unlinkQueue_frame _ q).1

theorem completeQueue_semPending (sma : SemArray) (q : SemQueue) :
    (completeQueue sma q).semPending=listDel q sma.semPending := (unlinkQueue_frame _ q).2.1

theorem QueueInv.complete (hi : QueueInv sma) (hq : q∈sma.semPending) : QueueInv (completeQueue sma q) :=
  (hi.withValues _).unlink hq

/-- Completing an entry keeps values and adjustments in range. -/
theorem ValueInv.complete (hv : ValueInv sma.toSemValues) (q : SemQueue) :
    ValueInv (completeQueue sma q).toSemValues := by
  rw [completeQueue_values]
  exact hv.attempt q

/-- When the counter is zero every sleeping entry is a single operation. -/
theorem QueueInv.single_of_complexCount (hi : QueueInv sma) (hc : sma.complexCount=0) (hq : q∈sma.semPending) :
    q.nsops=1 := by
  have hl := hi.complex
  rw [hc] at hl
  have hnil : sma.semPending.filter (fun q => 1<q.nsops)=[] :=
    eq_nil_of_length_eq_zero (by omega)
  have hn := filter_eq_nil_iff.mp hnil q hq
  have hp := (hi.entries q hq).nonempty
  simp only [decide_eq_true_eq] at hn
  omega

/-- The entries of a semaphore list are single operations on it. -/
theorem QueueInv.mem_simplePending (hi : QueueInv sma) :
    q∈sma.simplePending i ↔ q∈sma.semPending ∧ q.nsops=1 ∧ q.semnum=i := by
  rw [hi.simple i,mem_filter,Bool.and_eq_true,decide_eq_true_eq,decide_eq_true_eq]

/-- A semaphore list whose head alters has altering entries only. -/
theorem QueueInv.alter_of_head (hi : QueueInv sma) {h : SemQueue} {tail : List SemQueue}
    (hl : sma.simplePending i=h::tail) (ha : h.alter=true) (hx : x∈sma.simplePending i) : x.alter=true := by
  have ho : (sma.simplePending i).Pairwise (fun a b => a.alter=true → b.alter=true) := by
    rw [hi.simple i]
    exact hi.ordered.sublist filter_sublist
  rw [hl] at ho hx
  rcases mem_cons.mp hx with rfl|hx
  · exact ha
  · exact (pairwise_cons.mp ho).1 x hx ha

/-- The five ways in which the restart test decides. -/
theorem checkRestart_cases (sma : SemArray) (q : SemQueue) : (q.alter=false ∧ checkRestart sma q=⟨false,false⟩) ∨
    (q.alter=true ∧ checkRestart sma q=⟨true,false⟩) ∨ (q.alter=true ∧ sma.complexCount=0 ∧ q.nsops≤1 ∧
      ((sma.simplePending q.semnum=[] ∧ checkRestart sma q=⟨false,false⟩) ∨
      (∃ h tail, sma.simplePending q.semnum=h::tail ∧ (sma.semBase q.semnum).semval≠0 ∧
        checkRestart sma q=⟨false,decide (0≤q.firstOp)⟩) ∨
      ∃ h tail, sma.simplePending q.semnum=h::tail ∧ (sma.semBase q.semnum).semval=0 ∧
        checkRestart sma q=⟨decide (h.firstOp=0),
          decide (h.nsops≠1)||decide (h.semnum≠q.semnum)⟩)) := by
  by_cases ha : q.alter=false
  · exact .inl ⟨ha,by simp [checkRestart,ha]⟩
  · have ha' : q.alter=true := by simpa using ha
    by_cases hc : sma.complexCount≠0
    · exact .inr (.inl ⟨ha',by simp [checkRestart,ha',hc]⟩)
    · by_cases hn : 1<q.nsops
      · exact .inr (.inl ⟨ha',by simp [checkRestart,ha',hn]⟩)
      · refine .inr (.inr ⟨ha',by simpa using hc,by omega,?_⟩)
        cases hl : sma.simplePending q.semnum with
        | nil => exact .inl ⟨rfl,by simp [checkRestart,ha',hc,hn,hl]⟩
        | cons h tail =>
          by_cases hz : (sma.semBase q.semnum).semval=0
          · exact .inr (.inr ⟨h,tail,rfl,hz,by simp [checkRestart,ha',hc,hn,hl,hz]⟩)
          · exact .inr (.inl ⟨h,tail,rfl,hz,by simp [checkRestart,ha',hc,hn,hl,hz]⟩)

/-- None of the three assertions of the restart test fails for an entry that
was queued. -/
theorem checkRestart_bug (hi : QueueInv sma) (hq : q∈sma.semPending) :
    (checkRestart (completeQueue sma q) q).bug=false := by
  have he := hi.entries q hq
  have hi' := hi.complete hq
  rcases checkRestart_cases (completeQueue sma q) q with
    ⟨_,hr⟩|⟨_,hr⟩|⟨ha,_,hn,⟨_,hr⟩|⟨h,tail,hl,_,hr⟩|⟨h,tail,hl,_,hr⟩⟩
  · rw [hr]
  · rw [hr]
  · rw [hr]
  · obtain ⟨sop,_,_,hop,_,_,halter⟩ := he.single (by have h := he.nonempty; omega)
    have hlt := halter.mp ha
    rw [hr,hop]
    simpa using hlt
  · have hm := hi'.mem_simplePending.mp (hl ▸ mem_cons_self (a:=h) (l:=tail))
    rw [hr]
    simp [hm.2.1,hm.2.2]

/-- When the restart test asks for no restart, every entry that was blocked
before the completion is blocked after it. An older decrement saw a larger
value, and a waiter for zero would be at the head of its semaphore list. -/
theorem checkRestart_blocked (hi : QueueInv sma) (hv : ValueInv sma.toSemValues) (hq : q∈sma.semPending)
    (hz : (semAttempt sma.toSemValues q).1=0) (hr : (checkRestart (completeQueue sma q) q).restart=false)
    (hx : x∈(completeQueue sma q).semPending) (hb : Blocked semAttempt sma.toSemValues x) :
    Blocked semAttempt (completeQueue sma q).toSemValues x := by
  have he := hi.entries q hq
  have hi' := hi.complete hq
  have hv' := hv.complete q
  rcases checkRestart_cases (completeQueue sma q) q with
    ⟨ha,_⟩|⟨_,hc⟩|⟨ha,hc,hn,hcase⟩
  · rw [completeQueue_values]
    exact (blocked_congr (fun sop _ => sameView_of_not_alter hv he ha x.undo sop.semNum)).mpr hb
  · simp [hc] at hr
  · obtain ⟨sop,hsop,hnum,_,_,_,halter⟩ := he.single (by have h := he.nonempty; omega)
    have hlt := halter.mp ha
    have hval := fun i => (semAttempt_single_values hsop hz i).1
    have hx1 := hi'.single_of_complexCount hc hx
    obtain ⟨y,hy,hynum,_,hyw,hy0,hyalter⟩ := (hi'.entries x hx).single hx1
    rw [blocked_single hv hy hyw hy0] at hb
    rw [blocked_single hv' hy hyw hy0,completeQueue_values,hval]
    by_cases hi0 : y.semNum=sop.semNum
    · rw [if_pos hi0]
      have hm : x∈(completeQueue sma q).simplePending q.semnum :=
        hi'.mem_simplePending.mpr ⟨hx,hx1,by rw [hynum,hnum,hi0]⟩
      rcases hcase with ⟨hl,_⟩|⟨h,tail,hl,hnz,_⟩|⟨h,tail,hl,_,hc'⟩
      · simp [hl] at hm
      · rw [completeQueue_values,hval,hnum,if_pos rfl,←hi0] at hnz
        rcases hb with ⟨h0,_⟩|h0
        · exact .inl ⟨h0,hnz⟩
        · exact .inr (by omega)
      · have hmem := hi'.mem_simplePending.mp (hl ▸ mem_cons_self (a:=h) (l:=tail))
        obtain ⟨z,_,_,hzop,_,hz0,hzalter⟩ := (hi'.entries h hmem.1).single hmem.2.1
        have hha : h.alter=true := hzalter.mpr (by
          simp only [hc',hzop,decide_eq_false_iff_not] at hr
          omega)
        have hyn := hyalter.mp (hi'.alter_of_head hl hha hm)
        exact .inr (by omega)
    · rwa [if_neg hi0,add_zero]

end BlockIpc.SemQueueInvariant
