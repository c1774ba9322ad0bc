import BlockIpc.SemQueueInvariant

/-!
# Queue scans complete exactly what can be completed

A scan of the array list, or of one semaphore's list when no complex
operation sleeps, is a drain of that list: it serves the first servable
entry although it restarts only when the restart test says so and ends early
at a zero value. The supplied fuel is never exhausted.
-/

namespace BlockIpc.SemScanDrains

open List KernelNumbers SemAtomicOps PendingScan SemQueueScan SemQueueInvariant

/-- Successive completions of queued entries, with their results in order. -/
inductive Completes : SemArray → List (SemQueue×ℤ) → SemArray → Prop
  | nil {sma : SemArray} : Completes sma [] sma
  /-- A queued entry that does not block is completed first. -/
  | cons {sma sma' : SemArray} {q : SemQueue} {done : List (SemQueue×ℤ)}
      (hq : q∈sma.semPending) (hb : ¬Blocked semAttempt sma.toSemValues q)
      (h : Completes (completeQueue sma q) done sma') :
      Completes sma ((q,(semAttempt sma.toSemValues q).1)::done) sma'

variable {a b sma : SemArray} {done more : List (SemQueue×ℤ)} {semnum : Option ℕ} {q : SemQueue}
  {before walk : List SemQueue} {r r' r'' : ScanReport} {competes : SemQueue → SemQueue → Prop} {sops : List Sembuf}
  {v : SemValues} {frames : List SemAttempt}

/-- Chains of completions compose. -/
theorem Completes.trans {c : SemArray} (h : Completes a done b) (h' : Completes b more c) :
    Completes a (done++more) c := by
  induction h with
  | nil => exact h'
  | cons hq hb _ ih => exact Completes.cons hq hb (ih h')

/-- Completions keep the representation of the queue. -/
theorem Completes.queueInv (h : Completes a done b) (hi : QueueInv a) : QueueInv b := by
  induction h with
  | nil => exact hi
  | cons hq _ _ ih => exact ih (hi.complete hq)

/-- Completions keep values and adjustments in range. -/
theorem Completes.valueInv (h : Completes a done b) (hv : ValueInv a.toSemValues) : ValueInv b.toSemValues := by
  induction h with
  | nil => exact hv
  | cons _ _ _ ih => exact ih (hv.complete _)

/-- Completions change nothing but values and queue lists. -/
theorem Completes.frame (h : Completes a done b) :
    b.semNsems=a.semNsems ∧ b.listId=a.listId ∧ b.deleted=a.deleted := by
  induction h with
  | nil => exact ⟨rfl,rfl,rfl⟩
  | @cons sma sma' q done _ _ _ ih =>
    obtain ⟨_,_,hn,hl,hd⟩ := unlinkQueue_frame
      {sma with toSemValues := (semAttempt sma.toSemValues q).2} q
    exact ⟨ih.1.trans hn,ih.2.1.trans hl,ih.2.2.trans hd⟩

/-- The entries that remain are those of the other sleepers, in order. -/
theorem Completes.semPending (h : Completes a done b) :
    b.semPending=a.semPending.filter (fun q => q.sleeper∉done.map (fun p => p.1.sleeper)) := by
  induction h with
  | nil => simp
  | @cons sma sma' q done _ _ _ ih =>
    rw [ih,completeQueue_semPending,listDel,filter_filter]
    refine filter_congr (fun r _ => ?_)
    simp only [map_cons,mem_cons,not_or,Bool.decide_and]
    exact Bool.and_comm _ _

/-- Every completed entry was queued, and its result is zero or negative. -/
theorem Completes.mem (h : Completes a done b) :
    ∀ p∈done, p.1∈a.semPending ∧ (p.2=0 ∨ p.2= -eagain ∨ p.2= -erange) := by
  induction h with
  | nil => simp
  | @cons sma sma' q done hq hb _ ih =>
    intro p hp
    rcases mem_cons.mp hp with rfl|hp
    · refine ⟨hq,?_⟩
      rcases tryAtomicSemop_codes sma.toSemValues q.sops q.undo q.pid with h|h|h
      · exact .inl h
      · exact absurd (show 0<(tryAtomicSemop _ _ _ _).error by rw [h]; exact one_pos) hb
      · exact .inr h
    · have hm := ih p hp
      rw [completeQueue_semPending] at hm
      exact ⟨(mem_listDel.mp hm.1).1,hm.2⟩

/-- A scan of this list may start: the queue and the values are in order and
a single-semaphore scan has no complex entry to consider. -/
structure ScanReady (semnum : Option ℕ) (sma : SemArray) : Prop where
  /-- The lists and the counter represent the sleepers. -/
  queue : QueueInv sma
  /-- Values and adjustments are in range. -/
  values : ValueInv sma.toSemValues
  /-- One semaphore's list is scanned only without complex entries. -/
  single : semnum≠none → sma.complexCount=0

/-- Scanned entries are queued entries. -/
theorem mem_scanList (hi : QueueInv sma) (hq : q∈scanList sma semnum) : q∈sma.semPending := by
  cases semnum with
  | none => exact hq
  | some i => exact (hi.mem_simplePending.mp hq).1

/-- Scanned lists have distinct sleepers. -/
theorem scanList_distinct (hi : QueueInv sma) : ((scanList sma semnum).map SemQueue.sleeper).Nodup := by
  cases semnum with
  | none => exact hi.distinct
  | some i =>
    rw [scanList,hi.simple i]
    exact hi.distinct.sublist (filter_sublist.map _)

/-- Completing an entry deletes it from the scanned list. -/
theorem scanList_complete (hi : QueueInv sma) (hq : q∈sma.semPending) :
    scanList (completeQueue sma q) semnum=listDel q (scanList sma semnum) := by
  cases semnum with
  | none => exact completeQueue_semPending sma q
  | some i =>
    exact unlinkQueue_simplePending (hi.withValues (semAttempt sma.toSemValues q).2) hq i

/-- Without complex entries a completion leaves none. -/
theorem ScanReady.complete (hr : ScanReady semnum sma) (hq : q∈sma.semPending) :
    ScanReady semnum (completeQueue sma q) := by
  refine ⟨hr.queue.complete hq,hr.values.complete q,fun hs => ?_⟩
  have hi := hr.queue.complete hq
  rw [hi.complex,completeQueue_semPending]
  have hnil : (listDel q sma.semPending).filter (fun q => 1<q.nsops)=[] := by
    refine filter_eq_nil_iff.mpr (fun r hm => ?_)
    have h1 := hr.queue.single_of_complexCount (hr.single hs) (mem_listDel.mp hm).1
    simp [h1]
  rw [hnil]
  rfl

/-- A zero value blocks the altering entry at which a single-semaphore scan
ends, and every entry after it. -/
theorem zeroBreak_blocked (hr : ScanReady semnum sma) (hl : scanList sma semnum=before++q::walk)
    (hz : zeroBreak semnum sma q=true) : ∀ x∈q::walk, Blocked semAttempt sma.toSemValues x := by
  cases semnum with
  | none => simp [zeroBreak] at hz
  | some i =>
    simp only [zeroBreak,Bool.and_eq_true,decide_eq_true_eq] at hz
    have ho : (sma.simplePending i).Pairwise (fun a b => a.alter=true → b.alter=true) := by
      rw [hr.queue.simple i]
      exact hr.queue.ordered.sublist filter_sublist
    intro x hx
    have hmem : x∈sma.simplePending i := by
      rw [show sma.simplePending i=before++q::walk from hl]
      exact mem_append_right _ hx
    have hxa : x.alter=true := by
      rw [show sma.simplePending i=before++q::walk from hl] at ho
      rcases mem_cons.mp hx with rfl|hx
      · exact hz.2
      · exact (pairwise_cons.mp (pairwise_append.mp ho).2.1).1 x hx hz.2
    obtain ⟨hp,h1,hnum⟩ := hr.queue.mem_simplePending.mp hmem
    obtain ⟨y,hy,hynum,_,hyw,hy0,hyalter⟩ := (hr.queue.entries x hp).single h1
    have hlt := hyalter.mp hxa
    rw [blocked_single hr.values hy hyw hy0]
    rw [←hnum,hynum] at hz
    exact .inr (by omega)

/-- Visiting a blocked entry only records the attempt. -/
theorem visitQueue_blocked (hb : Blocked semAttempt r.array.toSemValues q) : visitQueue r q={r with
      restart := false
      frames := r.frames++[⟨r.array.toSemValues,q.sops,q.undo,q.pid⟩]} := by
  have hf : (tryAtomicSemop r.array.toSemValues q.sops q.undo q.pid).values=r.array.toSemValues :=
    semAttempt_frame _ q (ne_of_gt hb)
  have hp : 0<(tryAtomicSemop r.array.toSemValues q.sops q.undo q.pid).error := hb
  simp only [visitQueue,if_pos hp,hf]

theorem visitQueue_complete (hb : ¬Blocked semAttempt r.array.toSemValues q) :
    (visitQueue r q).array=completeQueue r.array q ∧
      (visitQueue r q).pt=
        r.pt++[wakeUpSemQueuePrepare q (semAttempt r.array.toSemValues q).1] ∧
      (visitQueue r q).restart=(decide ((semAttempt r.array.toSemValues q).1=0) &&
        (checkRestart (completeQueue r.array q) q).restart) ∧
      (visitQueue r q).bug=(r.bug || (decide ((semAttempt r.array.toSemValues q).1=0) &&
        (checkRestart (completeQueue r.array q) q).bug)) := by
  have hp : ¬0<(tryAtomicSemop r.array.toSemValues q.sops q.undo q.pid).error := hb
  simp only [visitQueue,if_neg hp,semAttempt,completeQueue]
  by_cases hz : (tryAtomicSemop r.array.toSemValues q.sops q.undo q.pid).error=0
  · simp [hz]
  · simp [hz]

/-- Sleepers of one semaphore compete for it. -/
def sameSemaphore (x q : SemQueue) : Prop := x.semnum=q.semnum

/-- Which earlier sleepers a scan proves blocked before it completes an entry:
all of them on the array list, those of its semaphore on a semaphore list. -/
def scanCompetes : Option ℕ → SemQueue → SemQueue → Prop
  | none => inOrder
  | some _ => sameSemaphore

/-- What scanning between two reports did: a chain of completions that extends
every drain of the remaining sleepers to one of the original sleepers. -/
structure DrainSpec (competes : SemQueue → SemQueue → Prop) (r r' : ScanReport)
    (done : List (SemQueue×ℤ)) : Prop where
  /-- The array evolved by completions only. -/
  completes : Completes r.array done r'.array
  /-- The wake-up list received exactly the completed entries. -/
  pt_eq : r'.pt=r.pt++done.map (fun p => wakeUpSemQueuePrepare p.1 p.2)
  /-- The completions are the ones a drain makes. -/
  drains : ∀ more t rest,
    Drains semAttempt competes r'.array.toSemValues r'.array.semPending more t rest →
    Drains semAttempt competes r.array.toSemValues r.array.semPending (done++more) t rest
  /-- No assertion failed. -/
  bug_eq : r'.bug=r.bug

theorem DrainSpec.refl (competes : SemQueue → SemQueue → Prop) (r : ScanReport) : DrainSpec competes r r [] :=
  ⟨Completes.nil,by simp,fun _ _ _ h => h,rfl⟩

/-- Completions of successive scans compose. -/
theorem DrainSpec.trans (h : DrainSpec competes r r' done) (h' : DrainSpec competes r' r'' more) :
    DrainSpec competes r r'' (done++more) := by
  refine ⟨h.completes.trans h'.completes,?_,fun rest t left hd => ?_,h'.bug_eq.trans h.bug_eq⟩
  · rw [h'.pt_eq,h.pt_eq,append_assoc,map_append]
  · rw [append_assoc]
    exact h.drains _ _ _ (h'.drains _ _ _ hd)

/-- What a scan of one list did: it completed entries of that list. -/
structure ScanSpec (semnum : Option ℕ) (r r' : ScanReport) (done : List (SemQueue×ℤ)) : Prop
    extends DrainSpec (scanCompetes semnum) r r' done where
  /-- Only entries of the scanned list were completed. -/
  scanned : ∀ p∈done, p.1∈scanList r.array semnum
  /-- The scanned list only shrank. -/
  shrinks : ∀ x∈scanList r'.array semnum, x∈scanList r.array semnum

theorem ScanSpec.refl (semnum : Option ℕ) (r : ScanReport) : ScanSpec semnum r r [] :=
  ⟨DrainSpec.refl _ r,by simp,fun _ h => h⟩

/-- Scans of one list compose. -/
theorem ScanSpec.trans (h : ScanSpec semnum r r' done) (h' : ScanSpec semnum r' r'' more) :
    ScanSpec semnum r r'' (done++more) := by
  refine ⟨h.toDrainSpec.trans h'.toDrainSpec,fun p hp => ?_,fun x hx => h.shrinks x (h'.shrinks x hx)⟩
  rcases mem_append.mp hp with hp|hp
  · exact h.scanned p hp
  · exact h.shrinks _ (h'.scanned p hp)

/-- A scan only looks at the array, the wake-up list and the assertion flag. -/
theorem ScanSpec.congr {s : ScanReport} (h : ScanSpec semnum s r' done) (ha : s.array=r.array) (hp : s.pt=r.pt)
    (hb : s.bug=r.bug) : ScanSpec semnum r r' done :=
  ⟨⟨ha ▸ h.completes,hp ▸ h.pt_eq,ha ▸ h.drains,hb ▸ h.bug_eq⟩,ha ▸ h.scanned,ha ▸ h.shrinks⟩

/-- The array list around an entry of the scanned list: every competitor in
front of the entry is in front of it on the scanned list too. -/
theorem semPending_split (hr : ScanReady semnum sma) (hl : scanList sma semnum=before++q::walk) :
    ∃ front back, sma.semPending=front++q::back ∧
      ∀ x∈front, scanCompetes semnum x q → x∈before := by
  cases semnum with
  | none => exact ⟨before,walk,hl,fun x hx _ => hx⟩
  | some i =>
    have hq : q∈sma.simplePending i := by
      rw [show sma.simplePending i=before++q::walk from hl]
      simp
    obtain ⟨hp,h1,hnum⟩ := hr.queue.mem_simplePending.mp hq
    obtain ⟨front,back,hsplit⟩ := append_of_mem hp
    refine ⟨front,back,hsplit,fun x hx hc => ?_⟩
    have hd := hr.queue.distinct
    have hd' : ((scanList sma (some i)).map SemQueue.sleeper).Nodup := scanList_distinct hr.queue
    have hf : scanList sma (some i)=_ := hr.queue.simple i
    rw [hsplit] at hd
    rw [hl] at hf hd'
    rw [hsplit,filter_append,filter_cons_of_pos (by simp [h1,hnum])] at hf
    have hne : ∀ l : List SemQueue, ∀ m, ((l++q::m).map SemQueue.sleeper).Nodup → ∀ y∈l, y≠q := by
      intro l m hn y hy he
      simp only [map_append,map_cons,nodup_append,mem_cons,mem_map] at hn
      exact hn.2.2 y.sleeper ⟨y,hy,rfl⟩ q.sleeper (.inl rfl) (by rw [he])
    have hu := first_split_unique (P:=fun y => y≠q) (hne _ _ hd') (by simp)
      (fun y hy => hne _ _ hd y (mem_of_mem_filter hy)) (by simp) hf
    have hx1 := hr.queue.single_of_complexCount (hr.single (by simp))
      (show x∈sma.semPending by rw [hsplit]; simp [hx])
    rw [hu.1,mem_filter]
    exact ⟨hx,by simp [hx1,show x.semnum=i from (show x.semnum=q.semnum from hc).trans hnum]⟩

/-- Completing the first entry that does not block is a scan step. -/
theorem visitQueue_spec (hr : ScanReady semnum r.array) (hl : scanList r.array semnum=before++q::walk)
    (hbefore : ∀ x∈before, Blocked semAttempt r.array.toSemValues x) (hb : ¬Blocked semAttempt r.array.toSemValues q) :
    ScanSpec semnum r (visitQueue r q) [(q,(semAttempt r.array.toSemValues q).1)] ∧
      scanList (visitQueue r q).array semnum=before++walk ∧
      ((visitQueue r q).restart=false →
        ∀ x∈before, Blocked semAttempt (visitQueue r q).array.toSemValues x) := by
  obtain ⟨harray,hpt,hrestart,hbug⟩ := visitQueue_complete hb
  have hq : q∈r.array.semPending := mem_scanList hr.queue
    (by rw [hl]; simp : q∈scanList r.array semnum)
  have hlist : scanList (completeQueue r.array q) semnum=before++walk := by
    have hd : ((scanList r.array semnum).map SemQueue.sleeper).Nodup := scanList_distinct hr.queue
    rw [hl] at hd
    rw [scanList_complete hr.queue hq,hl,listDel_split hd]
  refine ⟨⟨⟨?_,?_,fun more t rest hd => ?_,?_⟩,by simp [hl],fun x hx => ?_⟩,?_,fun hn x hx => ?_⟩
  · rw [harray]
    exact Completes.cons hq hb Completes.nil
  · rw [hpt]
    rfl
  · obtain ⟨front,back,hsplit,hfront⟩ := semPending_split hr hl
    have hdist := hsplit ▸ hr.queue.distinct
    rw [harray,completeQueue_values,completeQueue_semPending,hsplit,listDel_split hdist] at hd
    rw [hsplit]
    exact Drains.fire (fun x hx hc => hbefore x (hfront x hx hc)) hb hd
  · rw [hbug,checkRestart_bug hr.queue hq,Bool.and_false,Bool.or_false]
  · rw [harray,hlist] at hx
    rw [hl]
    simp only [mem_append,mem_cons] at hx ⊢
    tauto
  · rw [harray,hlist]
  · rw [harray]
    by_cases hz : (semAttempt r.array.toSemValues q).1=0
    · have hxm : x∈(completeQueue r.array q).semPending :=
        mem_scanList (hr.queue.complete hq)
          (by rw [hlist]; simp [hx] : x∈scanList (completeQueue r.array q) semnum)
      rw [hrestart] at hn
      exact checkRestart_blocked hr.queue hr.values hq hz (by simpa [hz] using hn) hxm (hbefore x hx)
    · rw [completeQueue_values,semAttempt_frame _ q hz]
      exact hbefore x hx

/-- A pass over the rest of the list, started when everything before it
blocks, is a scan; without a restart it leaves blocked entries only. -/
theorem scanPass_spec (semnum : Option ℕ) (r : ScanReport) (before walk : List SemQueue)
    (hr : ScanReady semnum r.array) (hl : scanList r.array semnum=before++walk)
    (hbefore : ∀ x∈before, Blocked semAttempt r.array.toSemValues x) (hn : r.restart=false) :
    ∃ done, ScanSpec semnum r (scanPass semnum r walk) done ∧
      ((scanPass semnum r walk).restart=true → done≠[]) ∧
      ((scanPass semnum r walk).restart=false → ∀ x∈scanList (scanPass semnum r walk).array semnum,
        Blocked semAttempt (scanPass semnum r walk).array.toSemValues x) := by
  induction walk generalizing before r with
  | nil =>
    refine ⟨[],ScanSpec.refl _ _,by simp [scanPass,hn],fun _ => ?_⟩
    rw [scanPass,hl,append_nil]
    exact hbefore
  | cons q walk ih =>
    rw [scanPass]
    by_cases hz : zeroBreak semnum r.array q=true
    · rw [if_pos hz]
      refine ⟨[],ScanSpec.refl _ _,by simp [hn],fun _ x hx => ?_⟩
      rw [hl] at hx
      rcases mem_append.mp hx with hx|hx
      · exact hbefore x hx
      · exact zeroBreak_blocked hr hl hz x hx
    · rw [if_neg hz]
      by_cases hb : Blocked semAttempt r.array.toSemValues q
      · rw [visitQueue_blocked hb,if_neg (by simp)]
        obtain ⟨done,hs,hrest⟩ := ih {r with
            restart := false
            frames := r.frames++[⟨r.array.toSemValues,q.sops,q.undo,q.pid⟩]} (before++[q]) hr
          (by simpa using hl) (fun x hx => by
            rcases mem_append.mp hx with hx|hx
            · exact hbefore x hx
            · rw [mem_singleton.mp hx]
              exact hb) rfl
        exact ⟨done,hs.congr rfl rfl rfl,hrest⟩
      · obtain ⟨hs,hlist,hblocked⟩ := visitQueue_spec hr hl hbefore hb
        by_cases hv : (visitQueue r q).restart=true
        · rw [if_pos hv]
          exact ⟨_,hs,by simp,by simp [hv]⟩
        · have hv' : (visitQueue r q).restart=false := by simpa using hv
          have hr' : ScanReady semnum (visitQueue r q).array := by
            rw [(visitQueue_complete hb).1]
            exact hr.complete (mem_scanList hr.queue (by rw [hl]; simp))
          obtain ⟨done,hs',_,hstop⟩ := ih (visitQueue r q) before hr' hlist (hblocked hv') hv'
          rw [if_neg hv]
          exact ⟨_,hs.trans hs',by simp,hstop⟩

/-- Each completion removes one sleeper. -/
theorem Completes.length (h : Completes a done b) (hi : QueueInv a) :
    b.semPending.length+done.length=a.semPending.length := by
  induction h with
  | nil => rfl
  | @cons sma sma' q done hq _ _ ih =>
    obtain ⟨front,back,hsplit⟩ := append_of_mem hq
    have hd := hsplit ▸ hi.distinct
    have hl := ih (hi.complete hq)
    rw [completeQueue_semPending,hsplit,listDel_split hd] at hl
    rw [hsplit]
    simp only [length_append,length_cons] at hl ⊢
    omega

theorem Completes.scanReady (h : Completes a done b) (hr : ScanReady semnum a) : ScanReady semnum b := by
  induction h with
  | nil => exact hr
  | cons hq _ _ ih => exact ih (hr.complete hq)

/-- With more fuel than sleepers the passes end without a pending restart,
and every entry left on the scanned list blocks. -/
theorem updateQueueLoop_spec (semnum : Option ℕ) (fuel : ℕ) (r : ScanReport)
    (hr : ScanReady semnum r.array) (hf : r.array.semPending.length<fuel) :
    ∃ done, ScanSpec semnum r (updateQueueLoop semnum fuel r) done ∧
      (updateQueueLoop semnum fuel r).restart=false ∧
      ∀ x∈scanList (updateQueueLoop semnum fuel r).array semnum,
        Blocked semAttempt (updateQueueLoop semnum fuel r).array.toSemValues x := by
  induction fuel generalizing r with
  | zero => omega
  | succ fuel ih =>
    obtain ⟨done,hs,hmore,hstop⟩ := scanPass_spec semnum {r with restart := false} []
      (scanList r.array semnum) hr rfl (by simp) rfl
    have hs : ScanSpec semnum r (scanPass semnum {r with restart := false}
        (scanList r.array semnum)) done := hs.congr rfl rfl rfl
    cases ha : (scanPass semnum {r with restart := false} (scanList r.array semnum)).restart with
    | true =>
      have hl := hs.completes.length hr.queue
      have hpos := length_pos_of_ne_nil (hmore ha)
      obtain ⟨more,hs',hend,hb⟩ := ih _ (hs.completes.scanReady hr) (by omega)
      simp only [updateQueueLoop,ha,if_true]
      exact ⟨_,hs.trans hs',hend,hb⟩
    | false =>
      simp only [updateQueueLoop,ha,Bool.false_eq_true,if_false]
      exact ⟨done,hs,trivial,hstop ha⟩

/-- The list a call of the update really scans. -/
def scannedSemnum (sma : SemArray) (semnum : Option ℕ) : Option ℕ := if sma.complexCount≠0 then none else semnum

/-- An update scans its list to the end and leaves it blocked. -/
theorem updateQueue_spec (semnum : Option ℕ) (r : ScanReport) (hi : QueueInv r.array)
    (hv : ValueInv r.array.toSemValues) :
    ∃ done, ScanSpec (scannedSemnum r.array semnum) r (updateQueue semnum r) done ∧
      (updateQueue semnum r).restart=false ∧
      ∀ x∈scanList (updateQueue semnum r).array (scannedSemnum r.array semnum),
        Blocked semAttempt (updateQueue semnum r).array.toSemValues x := by
  have hr : ScanReady (scannedSemnum r.array semnum) r.array := by
    refine ⟨hi,hv,fun hn => ?_⟩
    by_contra hc
    exact hn (if_pos hc)
  obtain ⟨done,hs,hrest⟩ := updateQueueLoop_spec (scannedSemnum r.array semnum)
    (r.array.semPending.length+1) {r with restart := true} hr (Nat.lt_succ_self _)
  exact ⟨done,hs.congr rfl rfl rfl,hrest⟩

/-- Completing single operations on one semaphore leaves every other one. -/
theorem Completes.other (h : Completes a done b) {n k : ℕ} (hi : QueueInv a) (hd : ∀ p∈done, p.1.nsops=1 ∧ p.1.semnum=n)
    (hk : k≠n) : (b.semBase k).semval=(a.semBase k).semval ∧ ∀ u, b.semadj u k=a.semadj u k := by
  induction h with
  | nil => exact ⟨rfl,fun _ => rfl⟩
  | @cons sma sma' q done hq _ _ ih =>
    obtain ⟨h1,hnum⟩ := hd _ (mem_cons_self ..)
    obtain ⟨sop,hsop,hn,_⟩ := (hi.entries q hq).single h1
    have hrest := ih (hi.complete hq) (fun p hp => hd p (mem_cons_of_mem _ hp))
    rw [completeQueue_values] at hrest
    by_cases hz : (semAttempt sma.toSemValues q).1=0
    · have hne : k≠sop.semNum := by rw [←hn,hnum]; exact hk
      have hval := semAttempt_single_values hsop hz k
      rw [if_neg hne,add_zero] at hval
      exact ⟨hrest.1.trans hval.1,fun u => (hrest.2 u).trans ((hval.2 hne).2 u)⟩
    · rwa [semAttempt_frame _ q hz] at hrest

/-- An operation of a performed vector for which its semaphore is rescanned. -/
def Triggers (v : SemValues) (sop : Sembuf) : Prop := 0<sop.semOp ∨ (sop.semOp<0 ∧ (v.semBase sop.semNum).semval=0)

/-- Whether an operation triggers a rescan is decided by comparisons. -/
instance (v : SemValues) (sop : Sembuf) : Decidable (Triggers v sop) := inferInstanceAs (Decidable (_ ∨ _))

/-- The scan after a vector, told by its triggering operations. -/
theorem smartScan_cons (r : ScanReport) (sop : Sembuf) (sops : List Sembuf) :
    smartScan r (sop::sops)=if Triggers r.array.toSemValues sop then
      smartScan (updateQueue (some sop.semNum) r) sops else smartScan r sops := by
  rw [smartScan]
  rfl

/-- Rescanning the triggered semaphores one after the other leaves no sleeper
that could proceed, provided each such sleeper waits for a triggered one. -/
theorem smartScan_spec (sops : List Sembuf) (r : ScanReport) (hi : QueueInv r.array)
    (hv : ValueInv r.array.toSemValues) (hc : r.array.complexCount=0)
    (ht : ∀ x∈r.array.semPending, ¬Blocked semAttempt r.array.toSemValues x →
      ∃ sop∈sops, sop.semNum=x.semnum ∧ Triggers r.array.toSemValues sop) :
    ∃ done, DrainSpec sameSemaphore r (smartScan r sops) done ∧
      ∀ x∈(smartScan r sops).array.semPending,
        Blocked semAttempt (smartScan r sops).array.toSemValues x := by
  induction sops generalizing r with
  | nil =>
    refine ⟨[],DrainSpec.refl _ r,fun x hx => ?_⟩
    by_contra hb
    simpa using ht x hx hb
  | cons sop sops ih =>
    rw [smartScan_cons]
    by_cases htr : Triggers r.array.toSemValues sop
    · rw [if_pos htr]
      obtain ⟨done,hs,_,hb⟩ := updateQueue_spec (some sop.semNum) r hi hv
      have hnum : scannedSemnum r.array (some sop.semNum)=some sop.semNum := by
        simp [scannedSemnum,hc]
      rw [hnum] at hs hb
      have hready : ScanReady (some sop.semNum) (updateQueue (some sop.semNum) r).array :=
        hs.completes.scanReady ⟨hi,hv,fun _ => hc⟩
      have hc' := hready.single (by simp)
      have hother := fun k (hk : k≠sop.semNum) =>
        hs.completes.other hi (fun p hp => (hi.mem_simplePending.mp (hs.scanned p hp)).2) hk
      obtain ⟨more,hs',hend⟩ := ih (updateQueue (some sop.semNum) r) hready.queue hready.values hc'
        (fun x hx hbx => by
          have hx1 := hready.queue.single_of_complexCount hc' hx
          obtain ⟨y,hy,hynum,_⟩ := (hready.queue.entries x hx).single hx1
          have hne : x.semnum≠sop.semNum := fun he =>
            hbx (hb x (hready.queue.mem_simplePending.mpr ⟨hx,hx1,he⟩))
          have hsame := hother x.semnum hne
          have hxr : x∈r.array.semPending :=
            (mem_filter.mp (hs.completes.semPending ▸ hx)).1
          obtain ⟨z,hz,hznum,hzt⟩ := ht x hxr (fun hbr => hbx ((blocked_congr (fun w hw => by
            rw [hy,mem_singleton] at hw
            rw [hw,←hynum]
            exact SameView.of_eq hsame.1 hsame.2)).mpr hbr))
          rcases mem_cons.mp hz with rfl|hz
          · exact absurd hznum.symm hne
          · refine ⟨z,hz,hznum,?_⟩
            unfold Triggers at hzt ⊢
            rwa [hznum,hsame.1,←hznum])
      exact ⟨done++more,hs.toDrainSpec.trans hs',hend⟩
    · rw [if_neg htr]
      refine ih r hi hv hc (fun x hx hb => ?_)
      obtain ⟨y,hy,hnum,hty⟩ := ht x hx hb
      rcases mem_cons.mp hy with rfl|hy
      · exact absurd hty htr
      · exact ⟨y,hy,hnum,hty⟩

/-- Operations that never raise a semaphore have a sum at most zero, and it is
negative only through a decrement. -/
theorem opTotal_nonpos {i : ℕ} (h : ∀ sop∈sops, sop.semNum=i → sop.semOp≤0) :
    opTotal i sops≤0 ∧ (opTotal i sops=0 ∨ ∃ sop∈sops, sop.semNum=i ∧ sop.semOp<0) := by
  induction sops with
  | nil => simp [opTotal]
  | cons sop sops ih =>
    obtain ⟨hle,hcase⟩ := ih (fun x hx => h x (by simp [hx]))
    have hs := h sop (by simp)
    rw [opTotal_cons]
    by_cases hn : sop.semNum=i
    · rw [if_pos hn]
      have hop := hs hn
      refine ⟨by omega,?_⟩
      by_cases h0 : sop.semOp<0
      · exact .inr ⟨sop,by simp,hn,h0⟩
      · rcases hcase with hz|⟨x,hx,hxn,hx0⟩
        · exact .inl (by omega)
        · exact .inr ⟨x,by simp [hx],hxn,hx0⟩
    · rw [if_neg hn,zero_add]
      refine ⟨hle,?_⟩
      rcases hcase with hz|⟨x,hx,hxn,hx0⟩
      · exact .inl hz
      · exact .inr ⟨x,by simp [hx],hxn,hx0⟩

/-- A successful vector lets a blocked single operation proceed only through
an operation that triggers a rescan of its semaphore. -/
theorem trigger_of_unblocked (hv : ValueInv v) {un : Option ℕ} {pid : ℤ} (h : (tryAtomicSemop v sops un pid).error=0)
    {nsems : ℕ} {x : SemQueue} (he : EntryInv nsems x) (h1 : x.nsops=1) (hb : Blocked semAttempt v x)
    (hn : ¬Blocked semAttempt (tryAtomicSemop v sops un pid).values x) :
    ∃ sop∈sops, sop.semNum=x.semnum ∧ Triggers (tryAtomicSemop v sops un pid).values sop := by
  obtain ⟨y,hy,hynum,_,hyw,hy0,_⟩ := he.single h1
  have hv' : ValueInv (tryAtomicSemop v sops un pid).values :=
    ⟨tryAtomicSemop_bounds sops un pid hv.bounds hv.shorts,tryAtomicSemop_short sops un pid hv.shorts⟩
  have hval := (tryAtomicSemop_success h hv.shorts y.semNum).1
  rw [blocked_single hv hy hyw hy0] at hb
  rw [blocked_single hv' hy hyw hy0,hval] at hn
  by_contra hnone
  have hno : ∀ sop∈sops, sop.semNum=y.semNum → ¬Triggers (tryAtomicSemop v sops un pid).values sop :=
    fun sop hs hnum ht => hnone ⟨sop,hs,by rw [hynum,hnum],ht⟩
  obtain ⟨hle,hz|⟨sop,hs,hnum,hlt⟩⟩ := opTotal_nonpos (fun sop hs hnum => show sop.semOp≤0 by
    have ht := hno sop hs hnum
    unfold Triggers at ht
    omega)
  · exact hn (by rw [hz,add_zero]; exact hb)
  · have ht := hno sop hs hnum
    unfold Triggers at ht
    rw [hnum,hval] at ht
    omega

/-- What an update of the queue did to the array it was called on. -/
structure UpdateSpec (sma : SemArray) (competes : SemQueue → SemQueue → Prop) (r : ScanReport)
    (done : List (SemQueue×ℤ)) : Prop where
  /-- Up to the operation time the array evolved by completions only. -/
  completes : ∃ otime, Completes sma done {r.array with semOtime := otime}
  /-- The wake-up list holds exactly the completed entries. -/
  pt_eq : r.pt=done.map (fun p => wakeUpSemQueuePrepare p.1 p.2)
  /-- The completions drain the queue. -/
  drains : Drains semAttempt competes sma.toSemValues sma.semPending done
    r.array.toSemValues r.array.semPending
  /-- No assertion of the restart test failed. -/
  bug_eq : r.bug=false

/-- The empty report with which an update starts. -/
def startReport (sma : SemArray) : ScanReport := ⟨sma,[],false,false,false,[]⟩

/-- A scan that leaves blocked entries only is an update, also after the
operation time was set. -/
theorem DrainSpec.update (h : DrainSpec competes (startReport sma) r done)
    (hb : ∀ x∈r.array.semPending, Blocked semAttempt r.array.toSemValues x) (otime : Bool) (now : ℕ) :
    UpdateSpec sma competes
      (if (otime || r.completed)=true then {r with array := {r.array with semOtime := now}} else r)
      done := by
  have hd := h.drains [] _ _ (Drains.stop hb)
  rw [append_nil] at hd
  split
  · exact ⟨⟨r.array.semOtime,h.completes⟩,h.pt_eq,hd,h.bug_eq⟩
  · exact ⟨⟨r.array.semOtime,h.completes⟩,h.pt_eq,hd,h.bug_eq⟩

/-- A full scan drains the queue in list order. -/
theorem updateQueue_none_spec (sma : SemArray) (hi : QueueInv sma) (hv : ValueInv sma.toSemValues) :
    ∃ done, DrainSpec inOrder (startReport sma) (updateQueue none (startReport sma)) done ∧
      ∀ x∈(updateQueue none (startReport sma)).array.semPending,
        Blocked semAttempt (updateQueue none (startReport sma)).array.toSemValues x := by
  obtain ⟨done,hs,_,hb⟩ := updateQueue_spec none (startReport sma) hi hv
  have hnum : scannedSemnum (startReport sma).array none=none := ite_self _
  rw [hnum] at hs hb
  exact ⟨done,hs.toDrainSpec,hb⟩

/-- An update without a vector drains the queue in list order. -/
theorem doSmartUpdate_none_spec (sma : SemArray) (otime : Bool) (now : ℕ) (hi : QueueInv sma)
    (hv : ValueInv sma.toSemValues) : ∃ done, UpdateSpec sma inOrder (doSmartUpdate sma none otime now) done := by
  obtain ⟨done,hs,hb⟩ := updateQueue_none_spec sma hi hv
  exact ⟨done,hs.update hb otime now⟩

/-- Which entries an update after a vector keeps in order. -/
def updateCompetes (sma : SemArray) : SemQueue → SemQueue → Prop :=
  if sma.complexCount≠0 then inOrder else sameSemaphore

/-- An update after a performed vector drains the queue, provided a sleeper
that could proceed waits for a semaphore the vector triggers. -/
theorem doSmartUpdate_some_spec (sma : SemArray) (sops : List Sembuf) (otime : Bool) (now : ℕ)
    (hi : QueueInv sma) (hv : ValueInv sma.toSemValues)
    (ht : sma.complexCount=0 → ∀ x∈sma.semPending, ¬Blocked semAttempt sma.toSemValues x →
      ∃ sop∈sops, sop.semNum=x.semnum ∧ Triggers sma.toSemValues sop) :
    ∃ done, UpdateSpec sma (updateCompetes sma) (doSmartUpdate sma (some sops) otime now) done := by
  by_cases hc : sma.complexCount=0
  · obtain ⟨done,hs,hb⟩ := smartScan_spec sops (startReport sma) hi hv hc (ht hc)
    have hu := hs.update hb otime now
    simp only [doSmartUpdate,updateCompetes,ne_eq,hc,not_true,if_false]
    exact ⟨done,hu⟩
  · obtain ⟨done,hs,hb⟩ := updateQueue_none_spec sma hi hv
    have hu := hs.update hb otime now
    simp only [doSmartUpdate,updateCompetes,ne_eq,hc,not_false_eq_true,if_true]
    exact ⟨done,hu⟩

theorem UpdateSpec.blocked (h : UpdateSpec sma competes r done) :
    ∀ x∈r.array.semPending, Blocked semAttempt r.array.toSemValues x := h.drains.blocked

theorem UpdateSpec.queueInv (h : UpdateSpec sma competes r done) (hi : QueueInv sma) : QueueInv r.array := by
  obtain ⟨otime,hc⟩ := h.completes
  have hq := hc.queueInv hi
  exact {hq with}

/-- An update keeps values and adjustments in range. -/
theorem UpdateSpec.valueInv (h : UpdateSpec sma competes r done) (hv : ValueInv sma.toSemValues) :
    ValueInv r.array.toSemValues := by
  obtain ⟨otime,hc⟩ := h.completes
  exact hc.valueInv hv

theorem UpdateSpec.subset (h : UpdateSpec sma competes r done) :
    ∀ x∈r.array.semPending, x∈sma.semPending := fun _ hx => h.drains.sublist.subset hx

/-- The recorded attempts lead from one value state to another: each starts
where the previous one ended. -/
inductive FrameChain : SemValues → List SemAttempt → SemValues → Prop
  /-- No attempt changes nothing. -/
  | nil {v : SemValues} : FrameChain v [] v
  /-- The first attempt starts in the first state. -/
  | cons {a : SemAttempt} {frames : List SemAttempt} {w : SemValues}
      (h : FrameChain a.outcome.values frames w) : FrameChain a.values (a::frames) w

/-- Recorded attempts compose. -/
theorem FrameChain.trans {u w : SemValues} {more : List SemAttempt} (h : FrameChain u frames v)
    (h' : FrameChain v more w) : FrameChain u (frames++more) w := by
  induction h with
  | nil => exact h'
  | cons _ ih => exact FrameChain.cons (ih h')

/-- Everything a scan does to the values is in its recorded attempts. -/
structure FrameSpec (r r' : ScanReport) (frames : List SemAttempt) : Prop where
  /-- The attempts were recorded. -/
  frames_eq : r'.frames=r.frames++frames
  /-- They lead from the first values to the last. -/
  chain : FrameChain r.array.toSemValues frames r'.array.toSemValues

/-- Recorded parts of successive scans compose. -/
theorem FrameSpec.trans {more : List SemAttempt} (h : FrameSpec r r' frames) (h' : FrameSpec r' r'' more) :
    FrameSpec r r'' (frames++more) := ⟨by rw [h'.frames_eq,h.frames_eq,append_assoc],h.chain.trans h'.chain⟩

/-- A visit records its attempt. -/
theorem visitQueue_frames (r : ScanReport) (q : SemQueue) :
    FrameSpec r (visitQueue r q) [⟨r.array.toSemValues,q.sops,q.undo,q.pid⟩] := by
  have hc : ∀ w, w=(tryAtomicSemop r.array.toSemValues q.sops q.undo q.pid).values →
      FrameChain r.array.toSemValues [⟨r.array.toSemValues,q.sops,q.undo,q.pid⟩] w := by
    rintro w rfl
    exact @FrameChain.cons ⟨r.array.toSemValues,q.sops,q.undo,q.pid⟩ [] _ FrameChain.nil
  unfold visitQueue
  dsimp only
  split
  · exact ⟨rfl,hc _ rfl⟩
  · exact ⟨rfl,hc _ (unlinkQueue_frame _ q).1⟩

/-- A pass records its attempts. -/
theorem scanPass_frames (semnum : Option ℕ) (r : ScanReport) (walk : List SemQueue) :
    ∃ frames, FrameSpec r (scanPass semnum r walk) frames := by
  induction walk generalizing r with
  | nil => exact ⟨[],by simp [scanPass],FrameChain.nil⟩
  | cons q walk ih =>
    rw [scanPass]
    have hv := visitQueue_frames r q
    split
    · exact ⟨[],by simp,FrameChain.nil⟩
    · split
      · exact ⟨_,hv⟩
      · obtain ⟨frames,hf⟩ := ih (visitQueue r q)
        exact ⟨_,hv.trans hf⟩

/-- An update of the queue records its attempts. -/
theorem updateQueue_frames (semnum : Option ℕ) (r : ScanReport) :
    ∃ frames, FrameSpec r (updateQueue semnum r) frames := by
  have hloop : ∀ (semnum : Option ℕ) (fuel : ℕ) (r : ScanReport),
      ∃ frames, FrameSpec r (updateQueueLoop semnum fuel r) frames := by
    intro semnum fuel
    induction fuel with
    | zero => exact fun r => ⟨[],by simp [updateQueueLoop],FrameChain.nil⟩
    | succ fuel ih =>
      intro r
      obtain ⟨frames,hf⟩ := scanPass_frames semnum {r with restart := false} (scanList r.array semnum)
      have hf' : FrameSpec r (scanPass semnum {r with restart := false} (scanList r.array semnum))
          frames := ⟨hf.frames_eq,hf.chain⟩
      rw [updateQueueLoop]
      split
      · obtain ⟨more,hm⟩ := ih (scanPass semnum {r with restart := false} (scanList r.array semnum))
        exact ⟨_,hf'.trans hm⟩
      · exact ⟨_,hf'⟩
  obtain ⟨frames,hf⟩ := hloop (scannedSemnum r.array semnum) (r.array.semPending.length+1)
    {r with restart := true}
  exact ⟨frames,hf.frames_eq,hf.chain⟩

/-- Every change of values during an update is a recorded attempt. -/
theorem doSmartUpdate_frames (sma : SemArray) (sops : Option (List Sembuf)) (otime : Bool) (now : ℕ) :
    FrameChain sma.toSemValues (doSmartUpdate sma sops otime now).frames
      (doSmartUpdate sma sops otime now).array.toSemValues := by
  have hsmart : ∀ (sops : List Sembuf) (r : ScanReport), ∃ frames, FrameSpec r (smartScan r sops) frames := by
    intro sops
    induction sops with
    | nil => exact fun r => ⟨[],by simp [smartScan],FrameChain.nil⟩
    | cons sop sops ih =>
      intro r
      rw [smartScan]
      split
      · obtain ⟨frames,hf⟩ := updateQueue_frames (some sop.semNum) r
        obtain ⟨more,hm⟩ := ih (updateQueue (some sop.semNum) r)
        exact ⟨_,hf.trans hm⟩
      · exact ih r
  have hend : ∀ r : ScanReport, (∃ frames, FrameSpec (startReport sma) r frames) →
      FrameChain sma.toSemValues
        (if (otime || r.completed)=true then {r with array := {r.array with semOtime := now}}
          else r : ScanReport).frames
        (if (otime || r.completed)=true then {r with array := {r.array with semOtime := now}}
          else r : ScanReport).array.toSemValues := by
    rintro r ⟨frames,hf⟩
    have he : r.frames=frames := hf.frames_eq
    split
    · exact he ▸ hf.chain
    · exact he ▸ hf.chain
  refine hend _ ?_
  cases sops with
  | none => exact updateQueue_frames none (startReport sma)
  | some sops =>
    dsimp only
    split
    · exact updateQueue_frames none (startReport sma)
    · exact hsmart sops (startReport sma)

end BlockIpc.SemScanDrains
