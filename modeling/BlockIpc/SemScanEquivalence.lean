import BlockIpc.SemRunInvariant

/-!
# The optimised queue update agrees with the naive one

The reference procedure scans the whole queue from its head and starts over after every success.
The optimised update visits the lists of single semaphores, skips semaphores and restarts only
when the restart test says so. Both drain the queue, the second one in an order that may differ
between semaphores. Single operations on different semaphores do not interfere, so the results
agree.
-/

namespace BlockIpc.SemScanEquivalence

open SemAtomicOps PendingScan SemQueueScan SemQueueInvariant SemScanDrains
  SemRuns SemRunInvariant

/-- Two value states agree on one semaphore and its adjustments. -/
def semAgree (k : ℕ) (v w : SemValues) : Prop := v.semBase k=w.semBase k ∧ ∀ u, v.semadj u k=w.semadj u k

/-- A single operation reads and writes only its own semaphore. -/
theorem semAttempt_local {q : SemQueue} {sop : Sembuf} (hs : q.sops=[sop]) {v w : SemValues}
    (h : semAgree sop.semNum v w) : (semAttempt v q).1=(semAttempt w q).1 ∧
      semAgree sop.semNum (semAttempt v q).2 (semAttempt w q).2 := by
  have hc : sopCheck q.undo v sop=sopCheck q.undo w sop :=
    sopCheck_congr (SameView.of_eq (by rw [h.1]) h.2)
  simp only [semAttempt,hs,tryAtomicSemop_single,hc]
  cases sopCheck q.undo w sop with
  | some code => exact ⟨rfl,h⟩
  | none =>
    refine ⟨rfl,?_,fun u => ?_⟩
    · simp [commitSop,SemValues.setSemval,h.1]
    · simp [commitSop,SemValues.setSemval,h.2 u]

/-- A single operation leaves every other semaphore alone. -/
theorem semAttempt_other {q : SemQueue} {sop : Sembuf} (hs : q.sops=[sop]) {k : ℕ}
    (hk : sop.semNum≠k) {v w : SemValues} (h : semAgree k v w) : semAgree k (semAttempt v q).2 w := by
  by_cases h0 : (semAttempt v q).1=0
  · have hval := semAttempt_single_values hs h0 k
    obtain ⟨hp,ha⟩ := hval.2 (Ne.symm hk)
    have hv := hval.1
    rw [if_neg (Ne.symm hk),add_zero] at hv
    refine ⟨?_,fun u => (ha u).trans (h.2 u)⟩
    rw [←h.1]
    cases hb : (semAttempt v q).2.semBase k
    cases hc : v.semBase k
    simp_all
  · rw [semAttempt_frame v q h0]
    exact h

/-- Two drains of a queue without complex entries that keep each semaphore in
order have the same results. -/
theorem drains_single_unique {sma : SemArray} (hi : QueueInv sma) (hc : sma.complexCount=0)
    {v t t' : SemValues} {done done' : List (SemQueue×ℤ)} {rest rest' : List SemQueue}
    (h : Drains semAttempt sameSemaphore v sma.semPending done t rest)
    (h' : Drains semAttempt sameSemaphore v sma.semPending done' t' rest') :
    done.Perm done' ∧ rest=rest' ∧ t=t' := by
  have hsingle : ∀ q∈sma.semPending, ∃ sop, q.sops=[sop] ∧ q.semnum=sop.semNum := by
    intro q hq
    obtain ⟨sop,hs,hn,_⟩ := (hi.entries q hq).single (hi.single_of_complexCount hc hq)
    exact ⟨sop,hs,hn⟩
  obtain ⟨hp,hr,ha⟩ := h.components_unique SemQueue.semnum semAgree
    (fun _ _ he => he)
    (fun k q u w hq hk ha => by
      obtain ⟨sop,hs,hn⟩ := hsingle q hq
      rw [hn] at hk
      subst hk
      exact semAttempt_local hs ha)
    (fun k q u w hq hk ha => by
      obtain ⟨sop,hs,hn⟩ := hsingle q hq
      exact semAttempt_other hs (hn ▸ hk) ha)
    (fun _ => ⟨rfl,fun _ => rfl⟩) (List.Nodup.of_map _ hi.distinct) h'
  refine ⟨hp,hr,?_⟩
  have hb : t.semBase=t'.semBase := by
    funext k
    obtain ⟨w,hw,hw'⟩ := ha k
    exact hw.1.trans hw'.1.symm
  have hadj : t.semadj=t'.semadj := by
    funext u k
    obtain ⟨w,hw,hw'⟩ := ha k
    exact (hw.2 u).trans (hw'.2 u).symm
  cases t
  cases t'
  simp_all

/-- The reference procedure on the queue of an array: full scans from the
head, with one unit of fuel per sleeper and one more. -/
def naiveUpdate (sma : SemArray) : NaiveReport SemValues SemQueue :=
  naiveScan semAttempt (sma.semPending.length+1) sma.toSemValues sma.semPending []

/-- The array in which a vector was just performed. -/
def performedArray (sma : SemArray) (sops : List Sembuf) (un : Option ℕ) (pid : ℤ) : SemArray :=
  {sma with toSemValues := (tryAtomicSemop sma.toSemValues sops un pid).values}

/-- After a successful vector in any state of a run, the optimised
update and the reference procedure end with the same values, process
identifiers and adjustments, have completed the same entries with the same
results and leave the same queue. The reference procedure ends by itself. -/
theorem doSmartUpdate_eq_naive {w : SemWorld} (h : SemReachable w) {sops : List Sembuf}
    {un : Option ℕ} {pid : ℤ} (h0 : (tryAtomicSemop w.sma.toSemValues sops un pid).error=0)
    (otime : Bool) (now : ℕ) : let sma := performedArray w.sma sops un pid
    let r := doSmartUpdate sma (some sops) otime now
    (naiveUpdate sma).again=false ∧ r.array.toSemValues=(naiveUpdate sma).state ∧
      r.pt.Perm ((naiveUpdate sma).done.map (fun p => wakeUpSemQueuePrepare p.1 p.2)) ∧
      r.array.semPending=(naiveUpdate sma).pending := by
  intro sma r
  have hi := semReachable_inv h
  obtain ⟨done,hu⟩ := hi.performed_spec h0 otime now
  obtain ⟨hend,served,hs,hd⟩ := naiveScan_drains semAttempt_frame (sma.semPending.length+1)
    sma.toSemValues sma.semPending [] (Nat.lt_succ_self _)
  rw [List.nil_append] at hs
  have hq : QueueInv sma := hi.queue.withValues _
  have hsame : done.Perm served ∧ r.array.semPending=(naiveUpdate sma).pending ∧
      r.array.toSemValues=(naiveUpdate sma).state := by
    have hdrain : Drains semAttempt (updateCompetes w.sma) sma.toSemValues sma.semPending done
      r.array.toSemValues r.array.semPending := hu.drains
    by_cases hc : w.sma.complexCount=0
    · rw [updateCompetes,if_neg (by simpa using hc)] at hdrain
      exact drains_single_unique hq hc hdrain (hd.mono (fun _ _ _ => trivial))
    · rw [updateCompetes,if_pos hc] at hdrain
      obtain ⟨hp,ht,hr⟩ := hdrain.deterministic hd
      exact ⟨hp ▸ List.Perm.refl _,hr,ht⟩
  have hpt : r.pt=done.map (fun p => wakeUpSemQueuePrepare p.1 p.2) := hu.pt_eq
  refine ⟨hend,hsame.2.2,?_,hsame.2.1⟩
  rw [hpt,show (naiveUpdate sma).done=served from hs]
  exact hsame.1.map _

/-- An operation that raises the first semaphore by one. -/
def raiseOne : Sembuf := ⟨0,1,0,by decide⟩

/-- Raising the semaphore of the only sleeper: both procedures complete it
with result zero and leave an empty queue. -/
theorem doSmartUpdate_eq_naive_oneAsleep : let sma := performedArray oneAsleep.sma [raiseOne] none 200
    let r := doSmartUpdate sma (some [raiseOne]) true 5
    SemReachable oneAsleep ∧ r.pt.map (fun q => (q.sleeper,q.pid))=[(7,0)] ∧
      r.pt.Perm ((naiveUpdate sma).done.map (fun p => wakeUpSemQueuePrepare p.1 p.2)) ∧
      r.array.semPending=[] ∧ (naiveUpdate sma).pending=[] := by
  intro sma r
  have he := doSmartUpdate_eq_naive oneAsleep_reachable
    (show (tryAtomicSemop oneAsleep.sma.toSemValues [raiseOne] none 200).error=0 by rfl) true 5
  have hr : r.array.semPending=[] := rfl
  exact ⟨oneAsleep_reachable,rfl,he.2.2.1,hr,he.2.2.2.symm.trans hr⟩

end BlockIpc.SemScanEquivalence
