import BlockIpc.FlushDurability

/-!
# What a flush sequence loses to its surroundings

Two events from outside reach into flush sequencing. The driver may withdraw the flags of
the device before a request is inserted; and elv_abort_queue takes the requests off the
lists of the machinery and fails what is on queue_head, while the driver still holds others.
-/

namespace BlockIpc.FlushLoss

open Function List KernelNumbers TransitionRuns IntrusiveLists FlushSequence FlushInvariant FlushDurability

variable {w hz r : ℕ} {s₀ s t : Queue w} {y : Insertion} {F : Prop}

/-- Whatever becomes of the flags of the device, a request with data that was inserted while the device
had a cache to flush completes without error only after the driver took it and ended its data
without error. -/
theorem flush_data_executed (hr : FlushRun hz s) (hy : s.inserted r=some y) (hfl : y.flags.flush=true)
    (hs : y.rq.sectors≠0) (hc : .completed r 0∈s.trace) :
    (∃ fua, .dispatched r fua∈s.trace) ∧ .performed r fseqData 0∈s.trace := by
  obtain ⟨hone,hp,-⟩ := ((FlushRun.durable hr).owed r y hy ⟨hfl,hs⟩ nofun).final hc
  rw [held_eq] at hone
  have hpos : 0<dispatches s.trace r := by omega
  obtain ⟨mark,hm,hd⟩ := countP_pos_iff.mp hpos
  cases mark with
  | dispatched q fua =>
    obtain rfl : q=r := of_decide_eq_true hd
    exact ⟨⟨fua,hm⟩,hp⟩
  | _ => cases hd

/-- The device loses its cache while the request is in the sequence; its data is still written. -/
theorem flush_data_executed_late : ∃ s : Queue 32, FlushRun 100 s ∧ .completed 0 0∈s.trace ∧
    (∃ fua, .dispatched 0 fua∈s.trace) ∧ .performed 0 fseqData 0∈s.trace := by
  obtain ⟨s,hr,hi,hc⟩ : ∃ s, FlushRun 100 s ∧ s.inserted 0=some ⟨⟨true,false⟩,freshRequest true false 8 7⟩ ∧
      .completed 0 0∈s.trace :=
    exists_run (fun _ _ _ => id) newQueue_start [.insert 0 true false 8 7,.setFlags ⟨false,false⟩,.fetch,
      .complete .flushRq 0,.fetch,.complete (.rq 0) 0] (by decide)
  exact ⟨s,hr,hc,flush_data_executed hr hi rfl (by decide) hc⟩

/-- The device loses its cache before the request is inserted: the policy is empty, and the request
completes without error although no driver ever saw its data. -/
theorem data_lost_without_flush : ∃ s : Queue 32, FlushRun 100 s ∧
    s.inserted 0=some ⟨⟨false,false⟩,freshRequest true false 8 7⟩ ∧ .completed 0 0∈s.trace ∧
    dispatches s.trace 0=0 ∧ .performed 0 fseqData 0∉s.trace :=
  exists_run (fun _ _ _ => id) newQueue_start [.setFlags ⟨false,false⟩,.insert 0 true false 8 7] (by decide)

/-- Take a request off its list and make it a normal one; requests that wait for a flush go to
queue_head. -/
def abortRequest (waits : Bool) (s : Queue w) (r : ℕ) : Queue w :=
  let s := {s with lists := unlink s.lists r}
  let s := s.setRq r (blkFlushRestoreRequest (s.rqs r))
  {s with queueHead := if waits=true then s.queueHead++[.rq r] else s.queueHead}

def blkAbortFlushes (s : Queue w) : Queue w :=
  let s := (s.lists .inFlight).foldl (abortRequest false) s
  let s := (s.lists (.queue false)).foldl (abortRequest true) s
  (s.lists (.queue true)).foldl (abortRequest true) s

/-- __blk_end_request_all: the bio is ended, or left to the flush sequence, and end_io is called. -/
def blkEndRequestAll (hz : ℕ) (s : Queue w) (e : Entry) (error : ℤ) : Queue w :=
  match e with
  | .other _ => s
  | .flushRq => flushEndIo hz s error
  | .rq r =>
    let s := blkUpdateRequest s r error
    match (s.rqs r).endIo with
    | none => s
    | some .flushData => flushDataEndIo hz s r error

/-- The loop of elv_abort_queue, cut off after as many entries as queue_head has at first. -/
def elvAbortLoop (hz : ℕ) : ℕ → Queue w → Queue w
  | 0,s => {s with hung := s.hung || decide (s.queueHead≠[])}
  | fuel+1,s =>
    match s.queueHead with
    | [] => s
    | e::es => elvAbortLoop hz fuel (blkEndRequestAll hz {s with queueHead := es} e (-eio))

def elvAbortQueue (hz : ℕ) (s : Queue w) : Queue w :=
  let s := blkAbortFlushes s
  elvAbortLoop hz s.queueHead.length s

/-- The request has data and needs a flush after it. -/
def NeedsPostflush (y : Insertion) : Prop := y.rq.sectors≠0 ∧ blkFlushPolicy y.flags y.rq &&& fseqPostflush≠0

instance (y : Insertion) : Decidable (NeedsPostflush y) := inferInstanceAs (Decidable (_ ∧ _))

/-- The driver ends an entry that it holds. -/
def DriverEnds (hz : ℕ) (s : Queue w) (a : Entry×ℤ) (t : Queue w) : Prop := a.1∈s.driver ∧ t=driverEnd hz s a.1 a.2

/-- The driver ends an entry that it holds, with an error if the request needs a flush after its data. -/
def DriverFails (hz : ℕ) (s : Queue w) (a : Entry×ℤ) (t : Queue w) : Prop :=
  DriverEnds hz s a t ∧ ∀ r y, a.1=.rq r → s.inserted r=some y → NeedsPostflush y → a.2≠0

/-- What a flush needs is what the device lacks. -/
theorem NeedsPostflush.carries (h : NeedsPostflush y) : Carries y ∧ y.rq.fua=true ∧ y.flags.fua=false := by
  obtain ⟨hs,hp⟩ := h
  unfold blkFlushPolicy at hp
  by_cases hf : y.flags.flush=true
  · refine ⟨⟨hf,hs⟩,?_⟩
    rw [if_pos hf,if_pos hs] at hp
    revert hp
    cases y.rq.flush <;> cases y.flags.fua <;> cases y.rq.fua <;> decide
  · rw [if_neg hf] at hp
    exact absurd rfl hp

/-- What is left of a queue when some requests were taken off its lists. -/
structure GaveAway (s t : Queue w) (l : List ℕ) (head : List Entry) : Prop where
  /-- Nothing else changed. -/
  rest : t={s with
    lists := t.lists
    rqs := t.rqs
    queueHead := s.queueHead++head}
  /-- No request is on two lists. -/
  separate : Separate t.lists
  /-- The others are where they were. -/
  lists : ∀ i r, r∈t.lists i ↔ r∈s.lists i ∧ r∉l
  /-- The requests are normal ones. -/
  rqs : ∀ r, t.rqs r=if r∈l then blkFlushRestoreRequest (s.rqs r) else s.rqs r

/-- Taking requests off one after the other. -/
theorem foldl_abortRequest (waits : Bool) (l : List ℕ) (hs : Separate s.lists) :
    GaveAway s (l.foldl (abortRequest waits) s) l (if waits=true then l.map .rq else []) := by
  induction l generalizing s with
  | nil =>
    refine ⟨?_,hs,fun i r => by simp,fun r => by simp⟩
    cases waits <;> simp
  | cons a l ih =>
    have hstep : Separate (abortRequest waits s a).lists := hs.unlink a
    obtain ⟨hrest,hsep,hlists,hrqs⟩ := ih hstep
    refine ⟨?_,hsep,fun i r => ?_,fun r => ?_⟩
    · rw [foldl_cons,hrest]
      cases waits <;> simp [abortRequest,Queue.setRq]
    · rw [foldl_cons,hlists,mem_cons,not_or]
      rw [show r∈(abortRequest waits s a).lists i ↔ r≠a ∧ r∈s.lists i from hs.mem_unlink]
      tauto
    · have ha : (abortRequest waits s a).rqs r=if r=a then blkFlushRestoreRequest (s.rqs r) else s.rqs r := by
        by_cases hr : r=a
        · rw [hr,if_pos rfl]
          exact update_self ..
        · rw [if_neg hr]
          exact update_of_ne hr ..
      rw [foldl_cons,hrqs,ha]
      by_cases hr : r=a
      · rw [if_pos hr,if_pos (c := r∈a::l) (mem_cons.mpr (.inl hr))]
        split <;> rfl
      · rw [if_neg hr]
        simp [hr]

/-- What holds from blk_abort_flushes on, over the queue that was aborted and with or without failing data. -/
structure Ending (fails : Prop) (s₀ s : Queue w) : Prop where
  empty : ∀ l, s.lists l=[]
  /-- No check failed and no walk was cut off. -/
  sound : s.bug=false ∧ s.hung=false
  inserted : s.inserted=s₀.inserted
  /-- Each request of the machinery is at most once on queue_head or with the driver. -/
  single : ∀ e, (∀ n, e≠.other n) → (s.queueHead++s.driver).count e≤1
  /-- The flush request is in use exactly while the indices differ. -/
  outstanding : .flushRq∈s.queueHead++s.driver ↔ s.pendingIdx≠s.runningIdx
  /-- A request that did not complete is a normal one, on queue_head or with the driver. -/
  normal : ∀ r, .rq r∈s.queueHead++s.driver → completions s.trace r=0 ∧ (s.rqs r).bio≠none ∧
    (s.rqs r).flushSeq=false ∧ (s.rqs r).endIo=none
  /-- The others have completed once. -/
  ended : ∀ r, s₀.inserted r≠none → .rq r∉s.queueHead++s.driver → completions s.trace r=1
  /-- What happened before stays. -/
  past : s₀.trace <+: s.trace
  /-- No request that needs a flush completes without error any more. -/
  failed : fails → ∀ r y, s₀.inserted r=some y → NeedsPostflush y → .completed r 0∈s.trace → .completed r 0∈s₀.trace

/-- Without waiters the end of a flush only flips the running index. -/
theorem flushEndIo_empty (hz : ℕ) (error : ℤ) (hl : s.lists (.queue s.runningIdx)=[]) :
    flushEndIo hz s error={accountFlush s error with
      runs := s.runs+(if s.delayed then 1 else 0)
      delayed := false} := by
  have hl' : (accountFlush s error).lists (.queue s.runningIdx)=[] := hl
  rw [flushEndIo,pushWaiters,hl']
  simp [flushWalk,first,Queue.bugOn,accountFlush,Queue.mark]

/-- One entry of queue_head or of the driver ends; a mark that ends no request may come before. -/
theorem Ending.endEntry (h : Ending F s₀ s) {e : Entry} {a b : List Entry} {m : List Mark} (hz : ℕ) (error : ℤ)
    (hp : (s.queueHead++s.driver).Perm (e::(a++b))) (hm : ∀ x∈m, ∀ r, endOf r x=false)
    (he : F → ∀ r y, e=.rq r → s₀.inserted r=some y → NeedsPostflush y → error≠0) :
    let t := blkEndRequestAll hz {s with queueHead := a, driver := b, trace := s.trace++m} e error
    Ending F s₀ t ∧ t.queueHead=a := by
  have hmem : ∀ f, f∈s.queueHead++s.driver ↔ f=e ∨ f∈a++b := fun f => hp.mem_iff.trans mem_cons
  have hcount : ∀ r, completions (s.trace++m) r=completions s.trace r := fun r => by
    have hzero : m.countP (endOf r)=0 := countP_eq_zero.mpr (fun x hx => by rw [hm x hx r]; exact Bool.false_ne_true)
    rw [completions,countP_append,hzero]
    rfl
  have hnew : ∀ r, .completed r 0∈s.trace++m → .completed r 0∈s.trace := fun r hr =>
    (mem_append.mp hr).resolve_right (fun hc => by simpa [endOf] using hm _ hc r)
  have hsingle : ∀ f, (∀ n, f≠.other n) → (a++b).count f≤1 := fun f hf =>
    (sublist_cons_self e (a++b)).count_le f |>.trans (hp.count_eq f ▸ h.single f hf)
  have hgone : (∀ n, e≠.other n) → e∉a++b := fun hn => not_mem_rest hp (h.single e hn)
  have hpast : s₀.trace <+: s.trace++m := h.past.trans (prefix_append _ _)
  cases e with
  | other n =>
    have hflush : .flushRq∈s.queueHead++s.driver ↔ .flushRq∈a++b := (hmem _).trans (or_iff_right (by simp))
    have hkeep : ∀ {r}, .rq r∈s.queueHead++s.driver ↔ .rq r∈a++b := fun {r} => (hmem _).trans (or_iff_right (by simp))
    exact ⟨⟨h.empty,h.sound,h.inserted,hsingle,hflush.symm.trans h.outstanding,
      fun r hr => ⟨(hcount r).trans (h.normal r (hkeep.mpr hr)).1,(h.normal r (hkeep.mpr hr)).2⟩,
      fun r hi hr => (hcount r).trans (h.ended r hi (fun hc => hr (hkeep.mp hc))),hpast,
      fun hf r y hy hn hc => h.failed hf r y hy hn (hnew r hc)⟩,rfl⟩
  | flushRq =>
    have hkeep : ∀ {r}, .rq r∈s.queueHead++s.driver ↔ .rq r∈a++b := fun {r} => (hmem _).trans (or_iff_right (by simp))
    have hidx := h.outstanding.mp ((hmem _).mpr (.inl rfl))
    have hend := flushEndIo_empty (s := {s with queueHead := a, driver := b, trace := s.trace++m}) hz error
      (h.empty _)
    rw [show blkEndRequestAll hz _ .flushRq error=_ from hend]
    have hcount' : ∀ r, completions (s.trace++m++[.flushed (s.issued-1) error]) r=completions s.trace r := fun r => by
      rw [completions_append,hcount]
      rfl
    refine ⟨⟨h.empty,⟨?_,h.sound.2⟩,h.inserted,hsingle,?_,fun r hr => ?_,fun r hi hr => ?_,
      hpast.trans (prefix_append _ _),fun hf r y hy hn hc => ?_⟩,rfl⟩
    · change (s.bug || decide (s.pendingIdx=s.runningIdx))=false
      rw [h.sound.1,decide_eq_false hidx]
      rfl
    · refine iff_of_false (hgone (by simp)) (fun hc => hc ?_)
      change s.pendingIdx=!s.runningIdx
      revert hidx
      cases s.pendingIdx <;> cases s.runningIdx <;> decide
    · exact ⟨(hcount' r).trans (h.normal r (hkeep.mpr hr)).1,(h.normal r (hkeep.mpr hr)).2⟩
    · exact (hcount' r).trans (h.ended r hi (fun hc => hr (hkeep.mp hc)))
    · refine h.failed hf r y hy hn (hnew r ((mem_append.mp hc).resolve_right (fun hc => ?_)))
      cases mem_singleton.mp hc
  | rq q =>
    have hkeep : ∀ {r}, r≠q → (.rq r∈s.queueHead++s.driver ↔ .rq r∈a++b) := fun {r} hr =>
      (hmem _).trans (or_iff_right (fun hc => hr (Entry.rq.inj hc)))
    obtain ⟨hc0,hbio,hflag,hio⟩ := h.normal q ((hmem _).mpr (.inl rfl))
    have hend : blkEndRequestAll hz {s with queueHead := a, driver := b, trace := s.trace++m} (.rq q) error=
        {s with
          queueHead := a
          driver := b
          rqs := update s.rqs q {s.rqs q with bio := none}
          trace := s.trace++m++[.completed q error]} := by
      simp [blkEndRequestAll,blkUpdateRequest,if_neg hbio,hflag,hio,Queue.setRq,Queue.mark]
    rw [hend]
    have hcount' : ∀ r, completions (s.trace++m++[.completed q error]) r=
        completions s.trace r+if q=r then 1 else 0 := fun r => by
      rw [completions_append,hcount]
      simp [endOf]
    have hflush : .flushRq∈s.queueHead++s.driver ↔ .flushRq∈a++b := (hmem _).trans (or_iff_right (by simp))
    refine ⟨⟨h.empty,h.sound,h.inserted,hsingle,hflush.symm.trans h.outstanding,fun r hr => ?_,
      fun r hi hr => ?_,hpast.trans (prefix_append _ _),fun hf r y hy hn hc => ?_⟩,rfl⟩
    · have hne : r≠q := fun hc => hgone (by simp) (hc ▸ hr)
      obtain ⟨h1,h2⟩ := h.normal r ((hkeep hne).mpr hr)
      dsimp only
      rw [hcount',update_of_ne hne,if_neg (Ne.symm hne),h1]
      exact ⟨rfl,h2⟩
    · dsimp only
      rw [hcount']
      by_cases hne : r=q
      · rw [if_pos hne.symm,hne,hc0]
      · rw [if_neg (Ne.symm hne),h.ended r hi (fun hc => hr ((hkeep hne).mp hc))]
    · rcases mem_append.mp hc with hc | hc
      · exact h.failed hf r y hy hn (hnew r hc)
      · obtain ⟨rfl,h0⟩ := Mark.completed.inj (mem_singleton.mp hc)
        exact absurd h0.symm (he hf r y rfl hy hn)

/-- The loop of elv_abort_queue empties queue_head. -/
theorem Ending.abortLoop (h : Ending F s₀ s) (hz fuel : ℕ) (hf : s.queueHead.length=fuel) :
    Ending F s₀ (elvAbortLoop hz fuel s) ∧ (elvAbortLoop hz fuel s).queueHead=[] := by
  induction fuel generalizing s with
  | zero =>
    have hnil := length_eq_zero_iff.mp hf
    rw [elvAbortLoop,decide_eq_false (not_not_intro hnil),Bool.or_false]
    exact ⟨h,hnil⟩
  | succ fuel ih =>
    cases hq : s.queueHead with
    | nil => rw [hq] at hf; cases hf
    | cons e es =>
      have hp : (s.queueHead++s.driver).Perm (e::(es++s.driver)) := by rw [hq]; exact List.Perm.refl _
      obtain ⟨hend,hhead⟩ := h.endEntry (m := []) hz (-eio) hp nofun (fun _ _ _ _ _ _ => by decide)
      rw [append_nil] at hend hhead
      rw [elvAbortLoop,hq]
      rw [hq] at hf
      exact ih hend (by rw [hhead]; exact Nat.succ.inj hf)

theorem Ending.driverEnds {a : Entry×ℤ} (h : Ending F s₀ s) (hd : DriverEnds hz s a t)
    (he : F → ∀ r y, a.1=.rq r → s.inserted r=some y → NeedsPostflush y → a.2≠0) :
    Ending F s₀ t ∧ t.queueHead=s.queueHead := by
  obtain ⟨hm,rfl⟩ := hd
  obtain ⟨e,error⟩ := a
  have hp : (s.queueHead++s.driver).Perm (e::(s.queueHead++s.driver.erase e)) :=
    ((perm_cons_erase hm).append_left s.queueHead).trans perm_middle
  rw [h.inserted] at he
  cases e with
  | rq r => exact h.endEntry (m := [.performed r fseqData error]) hz error hp (by simp [endOf]) he
  | other n | flushRq =>
    have hend := h.endEntry (m := []) hz error hp (forall_mem_nil _) he
    rw [append_nil] at hend
    exact hend

/-- blk_abort_flushes empties the lists, makes all requests on them normal ones and puts those that
wait for a flush on queue_head. -/
theorem blkAbortFlushes_eq (hs : Separate s.lists) : ∃ l : List ℕ, l.Nodup ∧
    (∀ r, r∈l ↔ ∃ i, r∈s.lists (.queue i)) ∧ blkAbortFlushes s={s with
      lists := fun _ => []
      rqs := (blkAbortFlushes s).rqs
      queueHead := s.queueHead++l.map .rq} ∧
    ∀ r, ((∃ i, r∈s.lists i) → (blkAbortFlushes s).rqs r=blkFlushRestoreRequest (s.rqs r)) ∧
      ((∀ i, r∉s.lists i) → (blkAbortFlushes s).rqs r=s.rqs r) := by
  obtain ⟨e1,p1,m1,r1⟩ := foldl_abortRequest false (s.lists .inFlight) hs
  generalize ht1 : (s.lists .inFlight).foldl (abortRequest false) s=t₁ at e1 p1 m1 r1
  obtain ⟨e2,p2,m2,r2⟩ := foldl_abortRequest true (t₁.lists (.queue false)) p1
  generalize ht2 : (t₁.lists (.queue false)).foldl (abortRequest true) t₁=t₂ at e2 p2 m2 r2
  obtain ⟨e3,p3,m3,r3⟩ := foldl_abortRequest true (t₂.lists (.queue true)) p2
  have hout : (t₂.lists (.queue true)).foldl (abortRequest true) t₂=blkAbortFlushes s := by
    rw [← ht2,← ht1]
    rfl
  rw [hout] at e3 p3 m3 r3
  have hfalse : ∀ r, r∈t₁.lists (.queue false) ↔ r∈s.lists (.queue false) := fun r =>
    (m1 _ r).trans (and_iff_left_of_imp (fun h hc => nomatch hs.unique _ _ r h hc))
  have htrue : ∀ r, r∈t₂.lists (.queue true) ↔ r∈s.lists (.queue true) := fun r => by
    rw [m2,m1,hfalse]
    exact ⟨fun h => h.1.1,fun h => ⟨⟨h,fun hc => nomatch hs.unique _ _ r h hc⟩,fun hc => nomatch hs.unique _ _ r h hc⟩⟩
  have hempty : ∀ i, (blkAbortFlushes s).lists i=[] := fun i => by
    refine eq_nil_iff_forall_not_mem.mpr (fun r hr => ?_)
    obtain ⟨h2,hn3⟩ := (m3 i r).mp hr
    obtain ⟨h1,hn2⟩ := (m2 i r).mp h2
    obtain ⟨h0,hn1⟩ := (m1 i r).mp h1
    cases i with
    | inFlight => exact hn1 h0
    | queue i => cases i with
      | false => exact hn2 h1
      | true => exact hn3 h2
  refine ⟨t₁.lists (.queue false)++t₂.lists (.queue true),?_,fun r => ?_,?_,fun r => ⟨fun hr => ?_,fun hr => ?_⟩⟩
  · refine (p1.nodup _).append (p2.nodup _) (fun r h1 h2 => ?_)
    cases hs.unique _ _ r ((hfalse r).mp h1) ((htrue r).mp h2)
  · rw [mem_append,hfalse,htrue]
    exact ⟨fun h => h.elim (fun h => ⟨false,h⟩) (fun h => ⟨true,h⟩),fun ⟨i,h⟩ => by
      cases i with
      | false => exact .inl h
      | true => exact .inr h⟩
  · rw [e3,e2,e1]
    simp [funext hempty]
  · obtain ⟨i,hi⟩ := hr
    rw [r3,r2,r1]
    simp only [hfalse,htrue]
    cases i with
    | inFlight => rw [if_pos hi]; split <;> split <;> rfl
    | queue i => cases i with
      | false | true => rw [if_pos hi]; split <;> split <;> rfl
  · rw [r3,r2,r1]
    simp only [hfalse,htrue,if_neg (hr _)]

/-- After blk_abort_flushes only normal requests are left. -/
theorem abortFlushes_ending (F : Prop) (h : Stable s) : Ending F s (blkAbortFlushes s) := by
  obtain ⟨l,hl,hmem,heq,hrqs⟩ := blkAbortFlushes_eq h.inv.separate
  generalize blkAbortFlushes s=t at heq hrqs
  have hsplit : ∀ r, .rq r∈t.queueHead++t.driver ↔ .rq r∈s.queueHead++s.driver ∨ r∈l := fun r => by
    rw [heq]
    simp only [mem_append,mem_map,Entry.rq.injEq,exists_eq_right]
    tauto
  have hflush : .flushRq∈t.queueHead++t.driver ↔ .flushRq∈s.queueHead++s.driver := by
    rw [heq]
    simp
  have htrace : t.trace=s.trace := by rw [heq]
  -- a request is on queue_head or with the driver exactly while it did not complete
  have hopen : ∀ r, .rq r∈t.queueHead++t.driver ↔ s.inserted r≠none ∧ completions s.trace r=0 := fun r => by
    have hlist := h.inv.listed r nofun
    rw [hsplit,h.inv.linked,hmem]
    constructor
    · rintro (⟨-,hr | ⟨hd,hc⟩⟩ | ⟨i,hr⟩)
      · obtain ⟨hq,hc⟩ := hlist.mp ⟨_,hr⟩
        exact ⟨fun hn => by simp [Sequenced,way,hn] at hq,hc⟩
      · exact ⟨fun hn => by simp [Direct,way,hn] at hd,hc⟩
      · obtain ⟨hq,hc⟩ := hlist.mp ⟨_,hr⟩
        exact ⟨fun hn => by simp [Sequenced,way,hn] at hq,hc⟩
    · rintro ⟨hi,hc⟩
      obtain ⟨y,hy⟩ := Option.ne_none_iff_exists'.mp hi
      cases hd : isDirect (blkFlushPolicy y.flags y.rq) with
      | true => exact .inl ⟨nofun,.inr ⟨by simp [Direct,way,hy,hd],hc⟩⟩
      | false =>
        obtain ⟨i,hr⟩ := hlist.mpr ⟨by simp [Sequenced,way,hy,hd],hc⟩
        cases i with
        | inFlight => exact .inl ⟨nofun,.inl hr⟩
        | queue i => exact .inr ⟨i,hr⟩
  refine ⟨fun _ => by rw [heq],by rw [heq]; exact ⟨h.inv.bug,h.inv.hung⟩,by rw [heq],fun e he => ?_,?_,fun r hr => ?_,
    fun r hi hr => ?_,htrace ▸ prefix_refl _,fun _ r y _ _ hc => htrace ▸ hc⟩
  · have hcount : (t.queueHead++t.driver).count e=(s.queueHead++s.driver).count e+(l.map Entry.rq).count e := by
      rw [heq]
      simp only [count_append]
      omega
    rw [hcount]
    have hle := h.inv.single e he
    by_cases hin : e∈l.map Entry.rq
    · obtain ⟨r,hr,rfl⟩ := mem_map.mp hin
      have hzero : (s.queueHead++s.driver).count (.rq r)=0 := count_eq_zero.mpr (fun hc => ?_)
      · rw [hzero,Nat.zero_add]
        exact nodup_iff_count_le_one.mp (hl.map (fun _ _ => Entry.rq.inj)) _
      · obtain ⟨i,hi⟩ := (hmem r).mp hr
        rcases ((h.inv.linked r).mp hc).2 with hf | hf
        · cases h.inv.separate.unique _ _ r hi hf
        · exact Sequenced.not_direct ((h.inv.listed r nofun).mp ⟨_,hi⟩).1 hf.1
    · rw [count_eq_zero.mpr hin]
      exact hle
  · rw [hflush,h.inv.outstanding,heq]
  · obtain ⟨hi,hc⟩ := (hopen r).mp hr
    obtain ⟨y,hy⟩ := Option.ne_none_iff_exists'.mp hi
    refine ⟨htrace ▸ hc,?_⟩
    cases hd : isDirect (blkFlushPolicy y.flags y.rq) with
    | true =>
      have hdirect : Direct s r := by simp [Direct,way,hy,hd]
      obtain ⟨-,hflag,hbio,hio⟩ := h.inv.directFields hy hd hc
      rw [(hrqs r).2 (fun i hr => Sequenced.not_direct ((h.inv.listed r nofun).mp ⟨_,hr⟩).1 hdirect)]
      exact ⟨hbio,hflag,hio⟩
    | false =>
      have hq : Sequenced s r := by simp [Sequenced,way,hy,hd]
      rw [(hrqs r).1 ((h.inv.listed r nofun).mpr ⟨hq,hc⟩)]
      exact ⟨(h.inv.fields hy hd hc).2.2.1,rfl,rfl⟩
  · obtain ⟨y,hy⟩ := Option.ne_none_iff_exists'.mp hi
    have hled := h.inv.ledger r
    rw [hy] at hled
    have hle := hled.1
    have hne : completions s.trace r≠0 := fun hc => hr ((hopen r).mpr ⟨hi,hc⟩)
    rw [htrace]
    omega

/-- What holds from elv_abort_queue on, whatever the driver ends. -/
theorem abortQueue_ending {u : Queue w} {step : Queue w → Entry×ℤ → Queue w → Prop} (hr : FlushRun hz s)
    (hu : Reachable (· = elvAbortQueue hz s) step u) (hs : ∀ v a t, step v a t → DriverEnds hz v a t)
    (he : F → ∀ v a t, step v a t → DriverFails hz v a t) : Ending F s u ∧ u.queueHead=[] := by
  refine Reachable.invariant (I := fun u => Ending F s u ∧ u.queueHead=[]) ?_ (fun v a t _ hi ht => ?_) hu
  · rintro _ rfl
    exact (abortFlushes_ending F (FlushRun.stable hr)).abortLoop hz _ rfl
  · have hnext := hi.1.driverEnds (hs v a t ht) (fun hf => (he hf v a t ht).2)
    exact ⟨hnext.1,hnext.2.trans hi.2⟩

/-- After elv_abort_queue, whatever the driver ends then: the lists of the machinery are empty; every
request completes once, as soon as the driver has ended what it held; the indices are equal unless the
flush request is outstanding; and what needed a flush after its data completes without error only
with such a flush behind it, provided that the driver ends the data it still holds of such requests with
an error. -/
theorem flush_abort_settles {u : Queue w} (hr : FlushRun hz s)
    (hu : Reachable (· = elvAbortQueue hz s) (DriverEnds hz) u) : (∀ l, u.lists l=[]) ∧ u.bug=false ∧ u.hung=false ∧
    (∀ r, s.inserted r≠none → completions u.trace r≤1 ∧ (.rq r∉u.driver → completions u.trace r=1)) ∧
    (¬u.Outstanding → u.pendingIdx=u.runningIdx) ∧
    (Reachable (· = elvAbortQueue hz s) (DriverFails hz) u → ∀ r y, s.inserted r=some y → NeedsPostflush y →
      .completed r 0∈u.trace →
        ∃ k, [.performed r fseqData 0,.issued k,.flushed k 0,.completed r 0].Sublist u.trace) := by
  obtain ⟨h,hhead⟩ : Ending False s u ∧ u.queueHead=[] := abortQueue_ending hr hu (fun _ _ _ => id) nofun
  refine ⟨h.empty,h.sound.1,h.sound.2,fun r hi => ?_,fun ho => ?_,fun hfails r y hy hn hc => ?_⟩
  · by_cases hd : .rq r∈u.queueHead++u.driver
    · have hzero := (h.normal r hd).1
      rw [hhead,nil_append] at hd
      exact ⟨by omega,fun hnd => absurd hd hnd⟩
    · have hone := h.ended r hi hd
      exact ⟨hone.le,fun _ => hone⟩
  · by_contra hne
    exact ho (mem_append.mp (h.outstanding.mpr hne))
  · obtain ⟨hcar,hfua,hlack⟩ := hn.carries
    obtain ⟨hend,-⟩ : Ending True s u ∧ u.queueHead=[] :=
      abortQueue_ending hr hfails (fun _ _ _ => And.left) (fun _ _ _ _ => id)
    have hold := hend.failed trivial r y hy hn hc
    obtain ⟨-,-,-,hflush⟩ := ((FlushRun.durable hr).owed r y hy hcar nofun).final hold
    rcases hflush hfua with ⟨hhas,-⟩ | ⟨k,hk⟩
    · rw [hlack] at hhas
      cases hhas
    · exact ⟨k,hk.trans h.past.sublist⟩

/-- A request waits for its flush after the data when the queue is aborted: it fails. -/
theorem flush_abort_settles_waiting : ∃ s u : Queue 32, FlushRun 100 s ∧
    Reachable (· = elvAbortQueue 100 s) (DriverEnds 100) u ∧ .completed 0 (-eio)∈u.trace ∧
    completions u.trace 0≤1 ∧ u.pendingIdx=u.runningIdx := by
  obtain ⟨s,hr,hi,hc,ho⟩ : ∃ s, FlushRun 100 s ∧ s.inserted 0≠none ∧ .completed 0 (-eio)∈(elvAbortQueue 100 s).trace ∧
      ¬(elvAbortQueue 100 s).Outstanding :=
    exists_run (fun _ _ _ => id) newQueue_start [.insert 0 false true 8 7,.fetch,.complete (.rq 0) 0] (by decide)
  have hu : Reachable (· = elvAbortQueue 100 s) (DriverEnds 100) (elvAbortQueue 100 s) := .start rfl
  obtain ⟨-,-,-,hone,hidx,-⟩ := flush_abort_settles hr hu
  exact ⟨s,_,hr,hu,hc,(hone 0 hi).1,hidx ho⟩

/-- The driver holds the data of a request that needs a flush after it when the queue is aborted, and
ends it without error: the request completes without error and no flush was ever issued. -/
theorem aborted_write_succeeds : ∃ s : Queue 32, FlushRun 100 s ∧
    (∃ y, s.inserted 0=some y ∧ NeedsPostflush y) ∧ .rq 0∈(elvAbortQueue 100 s).driver ∧
    .completed 0 0∈(driverEnd 100 (elvAbortQueue 100 s) (.rq 0) 0).trace ∧
    (driverEnd 100 (elvAbortQueue 100 s) (.rq 0) 0).issued=0 := by
  obtain ⟨s,hr,hi,h⟩ : ∃ s, FlushRun 100 s ∧ s.inserted 0=some ⟨⟨true,false⟩,freshRequest false true 8 7⟩ ∧
      .rq 0∈(elvAbortQueue 100 s).driver ∧
      .completed 0 0∈(driverEnd 100 (elvAbortQueue 100 s) (.rq 0) 0).trace ∧
      (driverEnd 100 (elvAbortQueue 100 s) (.rq 0) 0).issued=0 :=
    exists_run (fun _ _ _ => id) newQueue_start [.insert 0 false true 8 7,.fetch] (by decide)
  exact ⟨s,hr,⟨_,hi,by decide⟩,h⟩

end BlockIpc.FlushLoss
