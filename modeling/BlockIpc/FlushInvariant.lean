import BlockIpc.FlushSequence

/-!
# The invariant of flush sequencing

Every sequenced request is on one list until it completes, the flush request is in use exactly
while the two indices differ, and a waiting request has something to wait for. One request may be
in hand: the one whose sequence is being advanced. The walk of flush_end_io keeps its position at
the front of the list it walks, and each visit lowers the number of steps that the entries of
that list still wait for.
-/

namespace BlockIpc.FlushInvariant

open Function List TransitionRuns IntrusiveLists FlushSequence

variable {w : ℕ}

/-- The step of one request that a mark records. -/
def stepOf (r : ℕ) : Mark → Option Fseq
  | .performed q b _ => if q=r then some b else none
  | _ => none

/-- The steps a request has gone through. -/
def steps (t : List Mark) (r : ℕ) : List Fseq := t.filterMap (stepOf r)

/-- A mark records the end of a request. -/
def endOf (r : ℕ) : Mark → Bool
  | .completed q _ => q=r
  | _ => false

/-- How often a request was completed. -/
def completions (t : List Mark) (r : ℕ) : ℕ := t.countP (endOf r)

theorem steps_append (t : List Mark) (m : Mark) (r : ℕ) : steps (t++[m]) r=steps t r++(stepOf r m).toList := by
  rw [steps,filterMap_append,steps]
  cases h : stepOf r m <;> simp [h]

theorem completions_append (t : List Mark) (m : Mark) (r : ℕ) :
    completions (t++[m]) r=completions t r+if endOf r m then 1 else 0 := by
  rw [completions,countP_append,completions,countP_singleton]

/-- The steps of a policy, in order. -/
def policySteps (policy : Fseq) : List Fseq :=
  [fseqPreflush,fseqData,fseqPostflush].filter (fun b => policy &&& b≠0)

/-- The steps of a policy that flush.seq shows as done. -/
def doneSteps (policy seq : Fseq) : List Fseq := (policySteps policy).filter (fun b => seq &&& b≠0)

/-- The values flush.seq takes under a policy: the steps left out, and those done so far. -/
def Progress (policy seq : Fseq) : Prop :=
  ∃ m∈([0,1,3,7] : List Fseq), seq=(fseqActions &&& ~~~policy) ||| (policy &&& m)

/-- Being such a value is decidable. -/
instance (policy seq : Fseq) : Decidable (Progress policy seq) := inferInstanceAs (Decidable (∃ m∈_, _))

/-- The next step, from flush.seq. -/
def curSeq (seq : Fseq) : Fseq := 1 <<< ffz seq

/-- A step of a policy, or the end. -/
abbrev IsStep (b : Fseq) : Prop := b=fseqPreflush ∨ b=fseqData ∨ b=fseqPostflush ∨ b=fseqDone

/-- The next step is one of the policy, or none is left. -/
theorem curSeq_cases : ∀ policy seq, Progress policy seq →
    IsStep (curSeq seq) ∧ (curSeq seq=fseqDone ∨ seq &&& curSeq seq=0) := by
  decide

theorem progress_next : ∀ policy seq, Progress policy seq → curSeq seq≠fseqDone →
    Progress policy (seq ||| curSeq seq) ∧
      doneSteps policy (seq ||| curSeq seq)=doneSteps policy seq++[curSeq seq] := by
  decide

theorem curSeq_next : ∀ policy seq, Progress policy seq → curSeq seq≠fseqDone →
    curSeq (seq ||| curSeq seq)≠fseqPreflush ∧
      (curSeq seq=fseqPostflush → curSeq (seq ||| curSeq seq)=fseqDone) := by
  decide

/-- The first value of flush.seq. -/
theorem progress_start : ∀ policy : Fseq, Progress policy (0 ||| (fseqActions &&& ~~~policy)) ∧
    doneSteps policy (0 ||| (fseqActions &&& ~~~policy))=[] := by
  decide

/-- Whether the request went to queue_head directly, once it was inserted. -/
def way (s : Queue w) (r : ℕ) : Option Bool := (s.inserted r).map (fun y => isDirect (blkFlushPolicy y.flags y.rq))

/-- The request was inserted and goes through the machinery. -/
abbrev Sequenced (s : Queue w) (r : ℕ) : Prop := way s r=some false

/-- The request was inserted and went to queue_head directly. -/
abbrev Direct (s : Queue w) (r : ℕ) : Prop := way s r=some true

/-- What is recorded of one request: nothing before it is inserted; then at most one
completion and steps of its policy in order; until it completes, the fields that its
way through the machinery rests on. -/
def Ledger (y : Option Insertion) (rq : Request) (ended : ℕ) (done : List Fseq) : Prop :=
  match y with
  | none => ended=0 ∧ done=[]
  | some y =>
    let policy := blkFlushPolicy y.flags y.rq
    ended≤1 ∧ done.Sublist (policySteps policy) ∧
      (ended=0 → if isDirect policy then
          done=[] ∧ rq.flushSeq=false ∧ rq.bio≠none ∧ rq.endIo=none
        else rq.flushSeq=true ∧ rq.endIo=some .flushData ∧ rq.biotail≠none ∧ Progress policy rq.seq ∧
          done=doneSteps policy rq.seq)

/-- The invariant, with a request in hand whose place is left open. -/
structure FlushInv (s : Queue w) (x : Option ℕ) : Prop where
  /-- No check of the source failed. -/
  bug : s.bug=false
  /-- The flush request was not set up while in use. -/
  reinit : s.reinit=false
  /-- No walk was cut off. -/
  hung : s.hung=false
  /-- No request is on two lists. -/
  separate : Separate s.lists
  /-- The requests on a list are the sequenced ones that did not complete. -/
  listed : ∀ r, x≠some r → ((∃ l, r∈s.lists l) ↔ Sequenced s r ∧ completions s.trace r=0)
  /-- Each request of the machinery is at most once on queue_head or with the driver. -/
  single : ∀ e, (∀ n, e≠.other n) → (s.queueHead++s.driver).count e≤1
  /-- The flush request is in use exactly while the indices differ. -/
  outstanding : .flushRq∈s.queueHead++s.driver ↔ s.pendingIdx≠s.runningIdx
  /-- A request is on queue_head or with the driver exactly while it is in flight. -/
  linked : ∀ r, .rq r∈s.queueHead++s.driver ↔
    x≠some r ∧ (r∈s.lists .inFlight ∨ (Direct s r ∧ completions s.trace r=0))
  /-- Those that wait for a flush are at a flush. -/
  waiting : ∀ r i, x≠some r → r∈s.lists (.queue i) →
    curSeq (s.rqs r).seq=fseqPreflush ∨ curSeq (s.rqs r).seq=fseqPostflush
  /-- Those in flight are at their data. -/
  flying : ∀ r, x≠some r → r∈s.lists .inFlight → curSeq (s.rqs r).seq=fseqData
  /-- What is recorded of each request. -/
  ledger : ∀ r, Ledger (s.inserted r) (s.rqs r) (completions s.trace r) (steps s.trace r)
  /-- The flush under way has a waiter. -/
  running : s.pendingIdx≠s.runningIdx → ∃ r∈s.lists (.queue s.runningIdx), x≠some r

/-- The pending list has something to wait for. -/
def Awaited (s : Queue w) : Prop :=
  s.lists (.queue s.pendingIdx)≠[] → s.pendingIdx≠s.runningIdx ∨ s.lists .inFlight≠[]

variable {s : Queue w} {r : ℕ} {hz : ℕ} {error : ℤ}

theorem Sequenced.not_direct (h : Sequenced s r) : ¬Direct s r := by
  rw [Sequenced,Direct,h] at *
  exact nofun

variable {x : Option ℕ} {y : Insertion} {m : Mark} {t : Queue w} {seq : Fseq} {rest : List ℕ} {i : Bool}
  {J : Queue w → Prop}

/-- A sequenced request that did not complete has its fields. -/
theorem FlushInv.fields (h : FlushInv s x) (hy : s.inserted r=some y)
    (hd : isDirect (blkFlushPolicy y.flags y.rq)=false) (hc : completions s.trace r=0) :
    (s.rqs r).flushSeq=true ∧ (s.rqs r).endIo=some .flushData ∧ (s.rqs r).biotail≠none ∧
      Progress (blkFlushPolicy y.flags y.rq) (s.rqs r).seq ∧
      steps s.trace r=doneSteps (blkFlushPolicy y.flags y.rq) (s.rqs r).seq := by
  have hl := h.ledger r
  rw [hy] at hl
  have hf := hl.2.2 hc
  rw [hd] at hf
  exact hf

/-- A request on a list is a sequenced one that did not complete, and has its fields. -/
theorem FlushInv.member (h : FlushInv s none) {l : FlushList} (hm : r∈s.lists l) :
    Sequenced s r ∧ completions s.trace r=0 ∧ ∃ y, s.inserted r=some y ∧ (s.rqs r).flushSeq=true ∧
      (s.rqs r).endIo=some .flushData ∧ (s.rqs r).biotail≠none ∧
      Progress (blkFlushPolicy y.flags y.rq) (s.rqs r).seq := by
  obtain ⟨hq,hc⟩ := (h.listed r nofun).mp ⟨_,hm⟩
  obtain ⟨y,hy,hd⟩ := Option.map_eq_some_iff.mp hq
  obtain ⟨hf,he,hb,hp,_⟩ := h.fields hy hd hc
  exact ⟨hq,hc,y,hy,hf,he,hb,hp⟩

/-- The end of a step does not end the request. -/
theorem completions_performed {q : ℕ} (hc : completions s.trace r=0) :
    completions (s.mark (.performed q seq error)).trace r=0 := by
  rw [Queue.mark,completions_append,hc]
  rfl

/-- A mark that neither ends a request nor records a step of one. -/
def Quiet (m : Mark) : Prop := ∀ r, endOf r m=false ∧ stepOf r m=none

/-- A quiet mark changes nothing that is recorded of a request. -/
theorem Quiet.append (hm : Quiet m) (t : List Mark) (r : ℕ) :
    completions (t++[m]) r=completions t r ∧ steps (t++[m]) r=steps t r := by
  rw [completions_append,steps_append,(hm r).1,(hm r).2]
  exact ⟨rfl,append_nil _⟩

/-- What a request that waits for a flush is at is not its end. -/
theorem FlushInv.not_done (h : FlushInv s none) (hm : r∈s.lists (.queue i)) : curSeq (s.rqs r).seq≠fseqDone := by
  rcases h.waiting r i nofun hm with hw|hw <;> rw [hw] <;> decide

/-- The request in hand is neither on queue_head nor with the driver. -/
theorem FlushInv.free (h : FlushInv s (some r)) : .rq r∉s.queueHead++s.driver := fun hm => ((h.linked r).mp hm).1 rfl

/-- What the invariant says about one request. -/
structure RqInv (s : Queue w) (x : Option ℕ) (r : ℕ) : Prop where
  listed : x≠some r → ((∃ l, r∈s.lists l) ↔ Sequenced s r ∧ completions s.trace r=0)
  single : (s.queueHead++s.driver).count (.rq r)≤1
  linked : .rq r∈s.queueHead++s.driver ↔
    x≠some r ∧ (r∈s.lists .inFlight ∨ (Direct s r ∧ completions s.trace r=0))
  waiting : ∀ i, x≠some r → r∈s.lists (.queue i) →
    curSeq (s.rqs r).seq=fseqPreflush ∨ curSeq (s.rqs r).seq=fseqPostflush
  flying : x≠some r → r∈s.lists .inFlight → curSeq (s.rqs r).seq=fseqData
  ledger : Ledger (s.inserted r) (s.rqs r) (completions s.trace r) (steps s.trace r)

theorem FlushInv.rqInv (h : FlushInv s x) (r : ℕ) : RqInv s x r :=
  ⟨h.listed r,h.single (.rq r) nofun,h.linked r,h.waiting r,h.flying r,h.ledger r⟩

/-- A request in hand has its record, and no place on queue_head or with the driver. -/
theorem RqInv.hand (hr : .rq r∉s.queueHead++s.driver)
    (hl : Ledger (s.inserted r) (s.rqs r) (completions s.trace r) (steps s.trace r)) : RqInv s (some r) r :=
  ⟨fun hx => absurd rfl hx,(count_eq_zero.mpr hr).trans_le (Nat.zero_le _),
    ⟨fun hm => absurd hm hr,fun hm => absurd rfl hm.1⟩,fun _ hx => absurd rfl hx,fun hx => absurd rfl hx,hl⟩

/-- A request is where it was, and nothing is recorded of it. -/
structure Unmoved (s t : Queue w) (r : ℕ) : Prop where
  lists : ∀ l, r∈t.lists l ↔ r∈s.lists l
  entries : (t.queueHead++t.driver).count (.rq r)=(s.queueHead++s.driver).count (.rq r)
  inserted : t.inserted r=s.inserted r
  rqs : t.rqs r=s.rqs r
  quiet : completions t.trace r=completions s.trace r ∧ steps t.trace r=steps s.trace r

theorem RqInv.unmoved {x' : Option ℕ} (h : RqInv s x r) (hu : Unmoved s t r) (hx : x'≠some r ↔ x≠some r) :
    RqInv t x' r := by
  have hway : way t r=way s r := by rw [way,way,hu.inserted]
  have hent : .rq r∈t.queueHead++t.driver ↔ .rq r∈s.queueHead++s.driver := by
    rw [← count_pos_iff,hu.entries,count_pos_iff]
  refine ⟨?_,hu.entries.trans_le h.single,?_,fun i => ?_,?_,?_⟩
  · rw [hx,hu.quiet.1,Sequenced,hway]
    simp only [hu.lists]
    exact h.listed
  · rw [hent,hx,hu.lists,hu.quiet.1,Direct,hway]
    exact h.linked
  · rw [hx,hu.lists,hu.rqs]
    exact h.waiting i
  · rw [hx,hu.lists,hu.rqs]
    exact h.flying
  · rw [hu.inserted,hu.rqs,hu.quiet.1,hu.quiet.2]
    exact h.ledger

/-- The invariant from what it says about the flush request and about each request. -/
theorem FlushInv.of_rqInv (hf : s.bug=false ∧ s.reinit=false ∧ s.hung=false) (hs : Separate s.lists)
    (hone : (s.queueHead++s.driver).count .flushRq≤1)
    (ho : .flushRq∈s.queueHead++s.driver ↔ s.pendingIdx≠s.runningIdx)
    (hrun : s.pendingIdx≠s.runningIdx → ∃ r∈s.lists (.queue s.runningIdx), x≠some r) (hr : ∀ r, RqInv s x r) :
    FlushInv s x := by
  refine ⟨hf.1,hf.2.1,hf.2.2,hs,fun r => (hr r).listed,fun e he => ?_,ho,fun r => (hr r).linked,fun r => (hr r).waiting,
    fun r => (hr r).flying,fun r => (hr r).ledger,hrun⟩
  cases e with
  | flushRq => exact hone
  | rq r => exact (hr r).single
  | other n => exact absurd rfl (he n)

/-- One request changes, and may be taken in hand or get its place. -/
theorem FlushInv.change {x' : Option ℕ} (h : FlushInv s x) (hf : t.bug=s.bug ∧ t.reinit=s.reinit ∧ t.hung=s.hung)
    (hs : Separate t.lists) (hi : t.pendingIdx=s.pendingIdx ∧ t.runningIdx=s.runningIdx)
    (he : (t.queueHead++t.driver).count .flushRq=(s.queueHead++s.driver).count .flushRq)
    (hx : ∀ q, q≠r → x≠some q ∧ x'≠some q) (hu : ∀ q, q≠r → Unmoved s t q)
    (hrun : ∀ q∈s.lists (.queue s.runningIdx), x≠some q → q≠r) (hr : RqInv t x' r) : FlushInv t x' := by
  refine .of_rqInv ⟨hf.1.trans h.bug,hf.2.1.trans h.reinit,hf.2.2.trans h.hung⟩ hs
    (he.trans_le (h.single _ nofun)) ?_ (fun hn => ?_) (fun q => ?_)
  · rw [← count_pos_iff,he,count_pos_iff,hi.1,hi.2]
    exact h.outstanding
  · rw [hi.1,hi.2] at hn
    obtain ⟨q,hq,hqx⟩ := h.running hn
    have hqr := hrun q hq hqx
    rw [hi.2]
    exact ⟨q,((hu q hqr).lists _).mpr hq,(hx q hqr).2⟩
  · by_cases hqr : q=r
    · rw [hqr]
      exact hr
    · exact (h.rqInv q).unmoved (hu q hqr) (iff_of_true (hx q hqr).2 (hx q hqr).1)

/-- Only the entries of other requests, fields that the invariant does not read and quiet marks change. -/
theorem FlushInv.same (h : FlushInv s x) (hf : t.bug=s.bug ∧ t.reinit=s.reinit ∧ t.hung=s.hung) (hl : t.lists=s.lists)
    (he : ∀ e, (∀ n, e≠.other n) → (t.queueHead++t.driver).count e=(s.queueHead++s.driver).count e)
    (hi : t.pendingIdx=s.pendingIdx ∧ t.runningIdx=s.runningIdx) (hins : t.inserted=s.inserted) (hrq : t.rqs=s.rqs)
    (hq : ∀ q, completions t.trace q=completions s.trace q ∧ steps t.trace q=steps s.trace q) : FlushInv t x := by
  have hflush := he .flushRq nofun
  refine .of_rqInv ⟨hf.1.trans h.bug,hf.2.1.trans h.reinit,hf.2.2.trans h.hung⟩ (hl ▸ h.separate)
    (hflush.trans_le (h.single _ nofun)) ?_ ?_ (fun q => (h.rqInv q).unmoved
      ⟨fun l => by rw [hl],he _ nofun,by rw [hins],by rw [hrq],hq q⟩ Iff.rfl)
  · rw [← count_pos_iff,hflush,count_pos_iff,hi.1,hi.2]
    exact h.outstanding
  · rw [hi.1,hi.2,hl]
    exact h.running

theorem issue_inv (h : FlushInv s none) (hi : s.pendingIdx=s.runningIdx)
    (hne : s.lists (.queue s.pendingIdx)≠[]) : FlushInv (issueFlush s) none := by
  have hout : .flushRq∉s.queueHead++s.driver := fun ho => h.outstanding.mp ho hi
  have hcount : ∀ e, (s.queueHead++[Entry.flushRq]++s.driver).count e=
      (s.queueHead++s.driver).count e+[Entry.flushRq].count e := by
    intro e
    simp only [count_append]
    omega
  have hone := hcount Entry.flushRq
  rw [count_eq_zero.mpr hout,count_singleton_self] at hone
  have hdiff : (!s.pendingIdx)≠s.runningIdx := by
    rw [hi]
    simp
  refine .of_rqInv ⟨h.bug,?_,h.hung⟩ h.separate hone.le
    (iff_of_true (count_pos_iff.mp (hone.symm ▸ Nat.one_pos)) hdiff) (fun _ => ?_)
    (fun q => (h.rqInv q).unmoved ⟨fun _ => Iff.rfl,hcount (.rq q),rfl,rfl,
      Quiet.append (fun _ => ⟨rfl,rfl⟩) s.trace q⟩ Iff.rfl)
  · show (s.reinit || decide s.Outstanding)=false
    have hn : ¬s.Outstanding := fun ho => hout (mem_append.mpr ho)
    rw [h.reinit,decide_eq_false hn,Bool.or_false]
  · obtain ⟨a,as,hl⟩ := exists_cons_of_ne_nil hne
    refine ⟨a,?_,nofun⟩
    show a∈s.lists (.queue s.runningIdx)
    rw [← hi,hl]
    exact mem_cons_self

/-- The attempt to issue a flush keeps the invariant. -/
theorem kick_inv (h : FlushInv s none) : FlushInv (blkKickFlush hz s).1 none := by
  unfold blkKickFlush
  split
  · exact h
  split
  · exact h
  · rename_i hp _
    obtain ⟨hi,hne⟩ := not_or.mp hp
    exact issue_inv h (not_not.mp hi) hne

/-- After the attempt to issue a flush nobody waits in vain. -/
theorem kick_awaited (s : Queue w) : Awaited (blkKickFlush hz s).1 := by
  unfold blkKickFlush
  split
  · rename_i hp
    intro hne
    exact .inl (hp.resolve_right hne)
  split
  · rename_i hf
    exact fun _ => .inr hf.1
  · rename_i hp _
    intro _
    have hidx : s.pendingIdx=s.runningIdx := not_not.mp (not_or.mp hp).1
    left
    show (!s.pendingIdx)≠s.runningIdx
    rw [hidx]
    simp

/-- The request in hand gets its place: on a list, or none because it completed. The
other requests keep theirs. -/
structure Placed (s t : Queue w) (r : ℕ) (place : Option FlushList) : Prop where
  /-- The checks held. -/
  flags : t.bug=s.bug ∧ t.reinit=s.reinit ∧ t.hung=s.hung
  /-- The lists stay apart. -/
  separate : Separate t.lists
  /-- Only the request moved. -/
  mem : ∀ q l, q∈t.lists l ↔ (q=r ∧ place=some l) ∨ (q≠r ∧ q∈s.lists l)
  entries : ∀ e, (t.queueHead++t.driver).count e=
    (s.queueHead++s.driver).count e+if place=some .inFlight ∧ e=.rq r then 1 else 0
  /-- The indices are unchanged. -/
  idx : t.pendingIdx=s.pendingIdx ∧ t.runningIdx=s.runningIdx
  inserted : t.inserted=s.inserted
  /-- The other requests are unchanged. -/
  others : ∀ q, q≠r → t.rqs q=s.rqs q ∧ completions t.trace q=completions s.trace q ∧
    steps t.trace q=steps s.trace q
  ended : completions t.trace r=0 ↔ place≠none
  /-- Its list is that of its next step. -/
  stage : ∀ l, place=some l → if l=.inFlight then curSeq (t.rqs r).seq=fseqData
    else curSeq (t.rqs r).seq=fseqPreflush ∨ curSeq (t.rqs r).seq=fseqPostflush
  ledger : Ledger (t.inserted r) (t.rqs r) (completions t.trace r) (steps t.trace r)

/-- The request in hand is not any other one. -/
theorem some_ne {q : ℕ} (h : q≠r) : some r≠some q := fun he => h (Option.some.inj he).symm

/-- The invariant holds once the request in hand has its place. -/
theorem Placed.inv {place : Option FlushList} (hp : Placed s t r place) (h : FlushInv s (some r)) (hq : Sequenced s r) :
    FlushInv t none := by
  have hself : ∀ l, r∈t.lists l ↔ place=some l := fun l => by simp [hp.mem]
  have hcount := hp.entries (.rq r)
  rw [count_eq_zero.mpr h.free,Nat.zero_add] at hcount
  refine h.change hp.flags hp.separate hp.idx ((hp.entries _).trans (by simp)) (fun q hqr => ⟨some_ne hqr,nofun⟩)
    (fun q hqr => ⟨fun l => ?_,?_,by rw [hp.inserted],(hp.others q hqr).1,(hp.others q hqr).2⟩)
    (fun q _ hqx he => hqx (by rw [he]))
    ⟨fun _ => ?_,?_,?_,fun i _ hi => hp.stage _ ((hself _).mp hi),fun _ hi => hp.stage _ ((hself _).mp hi),hp.ledger⟩
  · rw [hp.mem]
    simp [hqr]
  · rw [hp.entries,if_neg (fun hf => hqr (Entry.rq.inj hf.2)),Nat.add_zero]
  · rw [Sequenced,way,hp.inserted,hp.ended]
    simp only [hself]
    exact ⟨fun ⟨l,hl⟩ => ⟨hq,hl ▸ nofun⟩,fun hn => Option.ne_none_iff_exists'.mp hn.2⟩
  · rw [hcount]
    split <;> decide
  · have hd : ¬Direct t r := by
      rw [Direct,way,hp.inserted]
      exact hq.not_direct
    rw [← count_pos_iff,hcount,hself]
    split <;> simp_all

/-- The request in hand starts to wait for a flush. -/
theorem queueForFlush_placed (h : FlushInv s (some r)) (hc : completions s.trace r=0)
    (hw : curSeq (s.rqs r).seq=fseqPreflush ∨ curSeq (s.rqs r).seq=fseqPostflush) :
    Placed s (queueForFlush s r) r (some (.queue s.pendingIdx)) where
  flags := ⟨rfl,rfl,rfl⟩
  separate := h.separate.moveTail r _
  mem q l := by
    rw [Option.some_inj,@eq_comm _ (FlushList.queue _)]
    exact h.separate.mem_moveTail
  entries e := by
    rw [if_neg (fun hf => nomatch hf.1)]
    rfl
  idx := ⟨rfl,rfl⟩
  inserted := rfl
  others _ _ := ⟨rfl,rfl,rfl⟩
  ended := ⟨fun _ => nofun,fun _ => hc⟩
  stage l hl := by
    cases hl
    exact hw
  ledger := h.ledger r

/-- The request in hand goes to queue_head for its data. -/
theorem queueForData_placed (h : FlushInv s (some r)) (hc : completions s.trace r=0)
    (hw : curSeq (s.rqs r).seq=fseqData) : Placed s (queueForData s r) r (some .inFlight) := by
  have hm : ∀ q, completions (queueForData s r).trace q=completions s.trace q ∧
      steps (queueForData s r).trace q=steps s.trace q :=
    fun q => Quiet.append (fun _ => ⟨rfl,rfl⟩) s.trace q
  refine ⟨⟨rfl,rfl,rfl⟩,h.separate.moveTail r _,fun q l => ?_,fun e => ?_,⟨rfl,rfl⟩,rfl,
    fun q _ => ⟨rfl,hm q⟩,?_,fun l hl => ?_,?_⟩
  · rw [Option.some_inj,@eq_comm _ FlushList.inFlight]
    exact h.separate.mem_moveTail
  · show (Entry.rq r::(s.queueHead++s.driver)).count e=_
    rw [count_cons]
    by_cases he : e=.rq r
    · simp [he]
    · simp [he,Ne.symm he]
  · rw [(hm r).1]
    exact ⟨fun _ => nofun,fun _ => hc⟩
  · cases hl
    exact hw
  · rw [(hm r).1,(hm r).2]
    exact h.ledger r

/-- What ending the sequence of a request leaves. -/
theorem endSequence_eq (hb : (s.rqs r).biotail≠none) :
    endSequence s r error={(s.bugOn (decide (.rq r∈s.queueHead))).mark (.completed r error) with
      lists := unlink s.lists r,
      rqs := update s.rqs r {blkFlushRestoreRequest (s.rqs r) with bio := none}} := by
  simp [endSequence,blkUpdateRequest,Queue.setRq,Queue.bugOn,Queue.mark,blkFlushRestoreRequest,hb]

/-- The request in hand completes. -/
theorem endSequence_placed (h : FlushInv s (some r)) (hq : Sequenced s r) (hc : completions s.trace r=0) :
    Placed s (endSequence s r error) r none := by
  obtain ⟨y,hy,hd⟩ := Option.map_eq_some_iff.mp hq
  have hb := (h.fields hy hd hc).2.2.1
  have ht : (endSequence s r error).trace=s.trace++[.completed r error] := by rw [endSequence_eq hb]; rfl
  have hl : (endSequence s r error).lists=unlink s.lists r := by rw [endSequence_eq hb]
  have hcm : ∀ q, completions (endSequence s r error).trace q=completions s.trace q+if r=q then 1 else 0 := by
    intro q
    rw [ht,completions_append]
    simp [endOf]
  have hst : ∀ q, steps (endSequence s r error).trace q=steps s.trace q := by
    intro q
    rw [ht,steps_append]
    exact append_nil _
  refine ⟨⟨?_,?_,?_⟩,?_,fun q l => ?_,fun e => ?_,⟨?_,?_⟩,?_,fun q hqr => ⟨?_,?_,hst q⟩,?_,nofun,?_⟩
  · rw [endSequence_eq hb]
    show (s.bug || decide (.rq r∈s.queueHead))=s.bug
    rw [decide_eq_false (fun hm => h.free (mem_append_left _ hm)),Bool.or_false]
  · rw [endSequence_eq hb]; rfl
  · rw [endSequence_eq hb]; rfl
  · rw [hl]
    exact h.separate.unlink r
  · rw [hl,h.separate.mem_unlink]
    simp
  · rw [endSequence_eq hb,if_neg (fun hf => nomatch hf.1)]
    rfl
  · rw [endSequence_eq hb]; rfl
  · rw [endSequence_eq hb]; rfl
  · rw [endSequence_eq hb]; rfl
  · rw [endSequence_eq hb]
    exact update_of_ne hqr _ _
  · rw [hcm,if_neg (Ne.symm hqr),Nat.add_zero]
  · rw [hcm,if_pos rfl]
    simp
  · have hins : (endSequence s r error).inserted=s.inserted := by rw [endSequence_eq hb]; rfl
    have hled := h.ledger r
    rw [hins,hcm,if_pos rfl,hst,hc]
    rw [hy] at hled ⊢
    exact ⟨le_rfl,hled.2.1,nofun⟩

/-- The invariant holds after the switch of blk_flush_complete_seq. -/
theorem dispatchSeq_inv (h : FlushInv s (some r)) (hq : Sequenced s r) (hc : completions s.trace r=0)
    (hs : seq=curSeq (s.rqs r).seq ∨ seq=fseqDone) : FlushInv (dispatchSeq s r seq error).1 none := by
  obtain ⟨y,hy,hd⟩ := Option.map_eq_some_iff.mp hq
  have hp := (curSeq_cases _ _ (h.fields hy hd hc).2.2.2.1).1
  unfold dispatchSeq
  split
  · rename_i hw
    refine (queueForFlush_placed h hc ?_).inv h hq
    rcases hs with rfl|rfl
    · exact hw
    · exact absurd hw (by decide)
  split
  · rename_i hw
    refine (queueForData_placed h hc ?_).inv h hq
    rcases hs with rfl|rfl
    · exact hw
    · exact absurd hw (by decide)
  split
  · exact (endSequence_placed h hq hc).inv h hq
  · rename_i h1 h2 h3
    rcases hs with rfl|rfl
    · tauto
    · exact absurd rfl h3

theorem bugOn_false (s : Queue w) : s.bugOn false=s := by
  rw [Queue.bugOn,Bool.or_false]

/-- What recording a step leaves as it was. -/
theorem record_fields (s : Queue w) (r : ℕ) (x : Request) (m : Mark) (seq : Fseq) :
    let t := recordSeq ((s.setRq r x).mark m) r seq
    (t.lists=s.lists ∧ t.inserted=s.inserted ∧ t.trace=s.trace++[m] ∧ t.reinit=s.reinit ∧ t.hung=s.hung) ∧
      (t.queueHead=s.queueHead ∧ t.driver=s.driver) ∧ t.pendingIdx=s.pendingIdx ∧ t.runningIdx=s.runningIdx := by
  simp only [recordSeq,Queue.setRq,Queue.mark,Queue.bugOn,and_self]

/-- The request in hand has done its next step. -/
theorem record_inv (error : ℤ) (h : FlushInv s (some r)) (hq : Sequenced s r) (hc : completions s.trace r=0)
    (hn : curSeq (s.rqs r).seq≠fseqDone) (b : Option ℕ) :
    FlushInv (recordSeq ((s.setRq r {s.rqs r with bio := b}).mark
      (.performed r (curSeq (s.rqs r).seq) error)) r (curSeq (s.rqs r).seq)) (some r) := by
  obtain ⟨y,hy,hd⟩ := Option.map_eq_some_iff.mp hq
  obtain ⟨hf1,hf2,hf3,hpr,hst⟩ := h.fields hy hd hc
  obtain ⟨hnext,hdone⟩ := progress_next _ _ hpr hn
  have hzero := (curSeq_cases _ _ hpr).2.resolve_left hn
  obtain ⟨⟨hl,hins,htr,hre,hhu⟩,he,hi⟩ := record_fields s r {s.rqs r with bio := b}
    (.performed r (curSeq (s.rqs r).seq) error) (curSeq (s.rqs r).seq)
  generalize ht : recordSeq ((s.setRq r {s.rqs r with bio := b}).mark
    (.performed r (curSeq (s.rqs r).seq) error)) r (curSeq (s.rqs r).seq)=t at *
  have hrq : t.rqs=update s.rqs r
      {s.rqs r with bio := b, seq := (s.rqs r).seq ||| curSeq (s.rqs r).seq} := by
    rw [← ht]
    simp [recordSeq,Queue.setRq,Queue.mark,Queue.bugOn]
  have hbug : t.bug=(s.bug || decide ((s.rqs r).seq &&& curSeq (s.rqs r).seq≠0)) := by
    rw [← ht]
    simp [recordSeq,Queue.setRq,Queue.mark,Queue.bugOn]
  have hcm : ∀ q, completions t.trace q=completions s.trace q := by
    intro q
    rw [htr,completions_append]
    rfl
  have hstq : ∀ q, q≠r → steps t.trace q=steps s.trace q := by
    intro q hqr
    rw [htr,steps_append,stepOf,if_neg (Ne.symm hqr)]
    exact append_nil _
  refine h.change ⟨?_,hre,hhu⟩ (hl ▸ h.separate) hi (by rw [he.1,he.2]) (fun q hqr => ⟨some_ne hqr,some_ne hqr⟩)
    (fun q hqr => ⟨fun l => by rw [hl],by rw [he.1,he.2],by rw [hins],by rw [hrq,update_of_ne hqr],hcm q,hstq q hqr⟩)
    (fun q _ hqx he => hqx (by rw [he])) (.hand (by rw [he.1,he.2]; exact h.free) ?_)
  · rw [hbug,hzero]
    exact Bool.or_false _
  · have hs : steps t.trace r=steps s.trace r++[curSeq (s.rqs r).seq] := by
      rw [htr,steps_append,stepOf,if_pos rfl]
      rfl
    rw [hins,hcm,hs,hst,← hdone,hy,hc]
    refine ⟨Nat.zero_le _,filter_sublist,fun _ => ?_⟩
    rw [hd,hrq,update_self]
    exact ⟨hf1,hf2,hf3,hnext,rfl⟩

/-- blk_flush_complete_seq gives the request in hand its place and looks for a flush. -/
theorem complete_inv (hz : ℕ) (error : ℤ) (h : FlushInv (recordSeq s r seq) (some r)) (hq : Sequenced s r)
    (hc : completions s.trace r=0) : FlushInv (blkFlushCompleteSeq hz s r seq error).1 none ∧
      Awaited (blkFlushCompleteSeq hz s r seq error).1 := by
  refine ⟨kick_inv (dispatchSeq_inv h hq hc ?_),kick_awaited _⟩
  by_cases he : error=0
  · rw [if_pos he]
    exact .inl rfl
  · rw [if_neg he]
    exact .inr rfl

/-- The lists that an attempt to issue a flush leaves. -/
theorem kick_lists (hz : ℕ) (s : Queue w) : (blkKickFlush hz s).1.lists=s.lists ∧
    (blkKickFlush hz s).1.runningIdx=s.runningIdx ∧ (blkKickFlush hz s).1.rqs=s.rqs ∧
    ((blkKickFlush hz s).1.pendingIdx=s.pendingIdx ∨
      (s.pendingIdx=s.runningIdx ∧ (blkKickFlush hz s).1.pendingIdx≠s.runningIdx)) := by
  unfold blkKickFlush
  split
  · exact ⟨rfl,rfl,rfl,.inl rfl⟩
  split
  · exact ⟨rfl,rfl,rfl,.inl rfl⟩
  · rename_i hp _
    have hi : s.pendingIdx=s.runningIdx := not_not.mp (not_or.mp hp).1
    refine ⟨rfl,rfl,rfl,.inr ⟨hi,?_⟩⟩
    show (!s.pendingIdx)≠s.runningIdx
    rw [hi]
    simp

/-- Where the switch of blk_flush_complete_seq puts a request. -/
theorem dispatchSeq_lists (error : ℤ) (hb : (s.rqs r).biotail≠none) (hs : IsStep seq) :
    (dispatchSeq s r seq error).1.pendingIdx=s.pendingIdx ∧
      (dispatchSeq s r seq error).1.runningIdx=s.runningIdx ∧
      (∀ q, q≠r → (dispatchSeq s r seq error).1.rqs q=s.rqs q) ∧
      (((dispatchSeq s r seq error).1.lists=moveTail s.lists r (.queue s.pendingIdx) ∧
          (dispatchSeq s r seq error).1.rqs=s.rqs ∧ (seq=fseqPreflush ∨ seq=fseqPostflush)) ∨
        (dispatchSeq s r seq error).1.lists=moveTail s.lists r .inFlight ∨
        (dispatchSeq s r seq error).1.lists=unlink s.lists r) := by
  unfold dispatchSeq
  split
  · rename_i hw
    exact ⟨rfl,rfl,fun _ _ => rfl,.inl ⟨rfl,rfl,hw⟩⟩
  split
  · exact ⟨rfl,rfl,fun _ _ => rfl,.inr (.inl rfl)⟩
  split
  · rw [endSequence_eq hb]
    exact ⟨rfl,rfl,fun q hq => update_of_ne hq _ _,.inr (.inr rfl)⟩
  · tauto

theorem recordSeq_rqs (s : Queue w) (r : ℕ) (seq : Fseq) : (recordSeq s r seq).rqs=
    update s.rqs r {s.rqs r with seq := (s.rqs r).seq ||| seq} := rfl

/-- What blk_flush_complete_seq moves. -/
theorem complete_moves (hz : ℕ) (error : ℤ) (hb : (s.rqs r).biotail≠none)
    (hs : IsStep (curSeq ((s.rqs r).seq ||| seq))) :
    (blkFlushCompleteSeq hz s r seq error).1.runningIdx=s.runningIdx ∧
      (∀ q, q≠r → (blkFlushCompleteSeq hz s r seq error).1.rqs q=s.rqs q) ∧
      ((blkFlushCompleteSeq hz s r seq error).1.pendingIdx=s.pendingIdx ∨
        (s.pendingIdx=s.runningIdx ∧ (blkFlushCompleteSeq hz s r seq error).1.pendingIdx≠s.runningIdx)) ∧
      (((blkFlushCompleteSeq hz s r seq error).1.lists=moveTail s.lists r (.queue s.pendingIdx) ∧
          ((blkFlushCompleteSeq hz s r seq error).1.rqs r).seq=(s.rqs r).seq ||| seq ∧
          (curSeq ((s.rqs r).seq ||| seq)=fseqPreflush ∨ curSeq ((s.rqs r).seq ||| seq)=fseqPostflush)) ∨
        (blkFlushCompleteSeq hz s r seq error).1.lists=moveTail s.lists r .inFlight ∨
        (blkFlushCompleteSeq hz s r seq error).1.lists=unlink s.lists r) := by
  have hrr : (recordSeq s r seq).rqs r={s.rqs r with seq := (s.rqs r).seq ||| seq} := by
    rw [recordSeq_rqs,update_self]
  have hb1 : ((recordSeq s r seq).rqs r).biotail≠none := by rw [hrr]; exact hb
  have hnext : ∃ x, x=(if error=0 then blkFlushCurSeq ((recordSeq s r seq).rqs r) else fseqDone) ∧
      IsStep x ∧ (x=curSeq ((s.rqs r).seq ||| seq) ∨ x=fseqDone) := by
    by_cases he : error=0
    · rw [if_pos he,hrr]
      exact ⟨_,rfl,hs,.inl rfl⟩
    · rw [if_neg he]
      exact ⟨_,rfl,.inr (.inr (.inr rfl)),.inr rfl⟩
  obtain ⟨x,hx,hx4,hxc⟩ := hnext
  obtain ⟨hp,hr,ho,hcase⟩ := dispatchSeq_lists error hb1 hx4
  obtain ⟨hkl,hkr,hkq,hkp⟩ := kick_lists hz (dispatchSeq (recordSeq s r seq) r x error).1
  have hdef : (blkFlushCompleteSeq hz s r seq error).1=
      (blkKickFlush hz (dispatchSeq (recordSeq s r seq) r x error).1).1 := by
    rw [hx]
    rfl
  rw [hdef,hkl,hkr,hkq]
  rw [hp,hr] at hkp
  refine ⟨hr,fun q hq => ?_,hkp,?_⟩
  · rw [ho q hq,recordSeq_rqs,update_of_ne hq]
  · rcases hcase with ⟨h1,h2,h3⟩|h1
    · refine .inl ⟨h1,?_,?_⟩
      · rw [h2,hrr]
      · rcases hxc with hxc|hxc
        · rw [← hxc]
          exact h3
        · rw [hxc] at h3
          exact absurd h3 (by decide)
    · exact .inr h1

/-- The steps that the entries of a flush list still wait for. -/
def weight (s : Queue w) (i : Bool) : ℕ :=
  ((s.lists (.queue i)).map (fun r => if curSeq (s.rqs r).seq=fseqPreflush then 2 else 1)).sum

/-- What one visit of the walk leaves. -/
structure Visited (s t : Queue w) (i : Bool) (r : ℕ) (rest : List ℕ) : Prop where
  inv : FlushInv t none
  /-- Nobody waits in vain. -/
  awaited : Awaited t
  /-- The flush that ended stays ended. -/
  running : t.runningIdx=s.runningIdx
  /-- The entry left the list, or is at its end and waits for the flush that was issued. -/
  list : t.lists (.queue i)=rest ∨ (t.lists (.queue i)=rest++[r] ∧ t.pendingIdx≠t.runningIdx)
  /-- Fewer steps are waited for. -/
  less : weight t i<weight s i

/-- The entries of a list other than the first weigh the same when only the first changed. -/
theorem weight_rest (hr : r∉rest) (ho : ∀ q, q≠r → t.rqs q=s.rqs q) :
    (rest.map (fun r => if curSeq (t.rqs r).seq=fseqPreflush then 2 else 1)).sum=
      (rest.map (fun r => if curSeq (s.rqs r).seq=fseqPreflush then 2 else 1)).sum := by
  congr 1
  refine map_congr_left (fun q hq => ?_)
  rw [ho q (fun he => hr (he ▸ hq))]

/-- A request that waits for a flush can be taken in hand when the flush under way, if
any, waits on the other list. -/
theorem FlushInv.take (h : FlushInv s none) (hm : r∈s.lists (.queue i)) (hi : s.runningIdx=!i) :
    FlushInv s (some r) := by
  have hq := ((h.listed r nofun).mp ⟨_,hm⟩).1
  refine h.change ⟨rfl,rfl,rfl⟩ h.separate ⟨rfl,rfl⟩ rfl (fun q hqr => ⟨nofun,some_ne hqr⟩)
    (fun q _ => ⟨fun _ => Iff.rfl,rfl,rfl,rfl,rfl,rfl⟩) (fun q hqm _ he => ?_)
    (.hand (fun hin => ?_) (h.ledger r))
  · have := h.separate.unique _ _ r (he ▸ hqm) hm
    rw [hi] at this
    cases i <;> cases this
  · rcases ((h.linked r).mp hin).2 with hf|hf
    · cases h.separate.unique _ _ r hf hm
    · exact hq.not_direct hf.1

theorem setRq_rqs (s : Queue w) (r : ℕ) (x : Request) : (s.setRq r x).rqs r=x := update_self ..

theorem setRq_self (s : Queue w) (r : ℕ) : s.setRq r (s.rqs r)=s := by
  rw [Queue.setRq,update_eq_self]

/-- The entry that the walk visits, in hand with its step done. -/
theorem visit_record (error : ℤ) (h : FlushInv s none) (hm : r∈s.lists (.queue i)) (hi : s.runningIdx=!i) :
    FlushInv (recordSeq (s.mark (.performed r (curSeq (s.rqs r).seq) error)) r (curSeq (s.rqs r).seq)) (some r) := by
  obtain ⟨hq,hc⟩ := (h.listed r nofun).mp ⟨_,hm⟩
  have hrec := record_inv error (h.take hm hi) hq hc (h.not_done hm) (s.rqs r).bio
  have hself : s.setRq r {s.rqs r with bio := (s.rqs r).bio}=s := setRq_self s r
  rw [hself] at hrec
  exact hrec

abbrev visited (hz : ℕ) (error : ℤ) (s : Queue w) (r : ℕ) : Queue w :=
  (blkFlushCompleteSeq hz (s.mark (.performed r (curSeq (s.rqs r).seq) error)) r (curSeq (s.rqs r).seq) error).1

theorem visit (hz : ℕ) (error : ℤ) (h : FlushInv s none) (hl : s.lists (.queue i)=r::rest) (hi : s.runningIdx=!i) :
    Visited s (visited hz error s r) i r rest := by
  have hmem : r∈s.lists (.queue i) := by rw [hl]; exact mem_cons_self
  have hw := h.waiting r i nofun hmem
  obtain ⟨hq,hc,y,_,_,_,hb,hpr⟩ := h.member hmem
  have hn := h.not_done hmem
  have hnr : r∉rest := (nodup_cons.mp (hl ▸ h.separate.nodup (.queue i))).1
  have hrec := visit_record error h hmem hi
  obtain ⟨hinv,haw⟩ := complete_inv hz error hrec hq (completions_performed hc)
  have hnext := (curSeq_cases _ _ (progress_next _ _ hpr hn).1).1
  obtain ⟨hrun,hoth,hpen,hmove⟩ := complete_moves hz error
    (s := s.mark (.performed r (curSeq (s.rqs r).seq) error)) hb hnext
  unfold visited
  generalize (blkFlushCompleteSeq hz _ r _ error).1=t at *
  have hlist : t.lists (.queue i)=rest ∨ (t.lists (.queue i)=rest++[r] ∧ s.pendingIdx=i ∧
      curSeq (t.rqs r).seq≠fseqPreflush ∧ curSeq (s.rqs r).seq=fseqPreflush) := by
    have hun : unlink s.lists r (.queue i)=rest := by rw [unlink,hl,erase_cons_head]
    rcases hmove with ⟨hml,hms,hmc⟩|hml|hml
    · by_cases hpi : s.pendingIdx=i
      · have hafter := curSeq_next _ _ hpr hn
        refine .inr ⟨?_,hpi,?_,hw.resolve_right (fun hp => ?_)⟩
        · rw [hml]
          show moveTail s.lists r (.queue s.pendingIdx) (.queue i)=_
          rw [hpi,moveTail_self,hl,erase_cons_head]
        · rw [hms]
          exact hafter.1
        · rw [show (s.mark _).rqs r=s.rqs r from rfl,hafter.2 hp] at hmc
          exact absurd hmc (by decide)
      · left
        rw [hml]
        show moveTail s.lists r (.queue s.pendingIdx) (.queue i)=_
        rw [moveTail_of_ne _ _ (fun he => hpi (FlushList.queue.inj he).symm)]
        exact hun
    · left
      rw [hml]
      show moveTail s.lists r .inFlight (.queue i)=_
      rw [moveTail_of_ne _ _ FlushList.noConfusion]
      exact hun
    · left
      rw [hml]
      exact hun
  have hrest := weight_rest hnr hoth
  have hws : weight s i=(if curSeq (s.rqs r).seq=fseqPreflush then 2 else 1)+
      (rest.map (fun r => if curSeq (s.rqs r).seq=fseqPreflush then 2 else 1)).sum := by
    rw [weight,hl,map_cons,sum_cons]
  refine ⟨hinv,haw,hrun,hlist.imp_right (fun h => ⟨h.1,?_⟩),?_⟩
  · have hne : s.pendingIdx≠s.runningIdx := by
      rw [h.2.1,hi]
      simp
    rw [hrun]
    exact hpen.elim (fun he => he ▸ hne) (fun he => he.2)
  · rcases hlist with hlist|⟨hlist,_,hpost,hpre⟩
    · rw [hws,weight,hlist]
      have := hrest
      simp only [show (s.mark _).rqs=s.rqs from rfl] at this
      rw [this]
      split <;> omega
    · rw [hws,weight,hlist,map_append,sum_append,map_singleton,sum_singleton,if_neg hpost,
        if_pos hpre]
      have := hrest
      simp only [show (s.mark _).rqs=s.rqs from rfl] at this
      rw [this]
      omega

/-- The invariant whenever the queue lock is free. -/
structure Stable (s : Queue w) : Prop where
  /-- No request is in hand. -/
  inv : FlushInv s none
  /-- Nobody waits in vain. -/
  awaited : Awaited s
  /-- With no flush under way nobody waits for one that ended. -/
  idle : s.pendingIdx=s.runningIdx → s.lists (.queue (!s.pendingIdx))=[]

theorem weight_pos (hl : s.lists (.queue i)=r::rest) : 0<weight s i := by
  rw [weight,hl,map_cons,sum_cons]
  split <;> omega

/-- A property that each visit of a walk keeps. -/
def Kept (hz : ℕ) (error : ℤ) (i : Bool) (J : Queue w → Prop) : Prop :=
  ∀ s r rest, FlushInv s none → s.lists (.queue i)=r::rest → s.runningIdx=!i → J s → J (visited hz error s r)

/-- The walk over the waiters of a flush that ended, with any property that each visit
keeps. -/
theorem walk_stable (hz : ℕ) (error : ℤ) {fuel : ℕ} {queued : Bool} (hJ : Kept hz error i J) (h : FlushInv s none)
    (hs : J s) (hl : s.lists (.queue i)=r::rest) (hi : s.runningIdx=!i) (hf : weight s i<fuel) :
    Stable (flushWalk hz (.queue i) error fuel s (.entry r) (first (.queue i) rest) queued).1 ∧
      J (flushWalk hz (.queue i) error fuel s (.entry r) (first (.queue i) rest) queued).1 := by
  -- on the number of visits left; the position stays at the front of the list
  induction fuel generalizing s r rest queued with
  | zero => omega
  | succ fuel ih =>
    have hv := visit hz error h hl hi
    have hjt := hJ s r rest h hl hi hs
    have hw := h.waiting r i nofun (by rw [hl]; exact mem_cons_self)
    have hbug : decide (blkFlushCurSeq (s.rqs r)≠fseqPreflush ∧ blkFlushCurSeq (s.rqs r)≠fseqPostflush)=false :=
      decide_eq_false (fun hn => hw.elim hn.1 hn.2)
    rw [flushWalk,hbug,bugOn_false]
    unfold visited at hv hjt
    generalize ht : blkFlushCompleteSeq hz (s.mark (.performed r (curSeq (s.rqs r).seq) error)) r
      (curSeq (s.rqs r).seq) error=out at *
    have hout : blkFlushCompleteSeq hz (s.mark (.performed r (blkFlushCurSeq (s.rqs r)) error)) r
      (blkFlushCurSeq (s.rqs r)) error=out := ht
    rw [hout]
    have hti : out.1.runningIdx=!i := hv.running.trans hi
    have hpos := weight_pos hl
    cases rest with
    | nil =>
      obtain ⟨fuel,rfl⟩ := Nat.exists_eq_succ_of_ne_zero (show fuel≠0 by omega)
      rw [first,flushWalk,decide_eq_false (not_not.mpr rfl),bugOn_false]
      refine ⟨⟨hv.inv,hv.awaited,fun hp => ?_⟩,hjt⟩
      rw [hp,hti,Bool.not_not]
      exact hv.list.resolve_right (fun hn => hn.2 hp)
    | cons r' rest =>
      have htl : ∃ rest', out.1.lists (.queue i)=r'::rest' := by
        rcases hv.list with he|⟨he,_⟩
        · exact ⟨_,he⟩
        · exact ⟨_,he⟩
      obtain ⟨rest',hrest⟩ := htl
      rw [first,hv.inv.separate.next_of_cons (mem_flushLists _) hrest]
      exact ih hv.inv hjt hrest hti (by have := hv.less; omega)

theorem count_ended (s : Queue w) {e d : Entry} (h : e≠d) :
    (s.queueHead++s.driver.erase d).count e=(s.queueHead++s.driver).count e := by
  rw [count_append,count_append,count_erase_of_ne h]

/-- An entry that stands once is not in the rest. -/
theorem not_mem_rest {e : Entry} {l rest : List Entry} (hp : l.Perm (e::rest)) (h : l.count e≤1) : e∉rest := by
  rw [hp.count_eq,count_cons_self] at h
  exact count_eq_zero.mp (by omega)

/-- What the driver ends is gone. -/
theorem FlushInv.gone (h : FlushInv s none) {e : Entry} (he : ∀ n, e≠.other n) (hm : e∈s.driver) :
    e∉s.queueHead++s.driver.erase e :=
  not_mem_rest (((perm_cons_erase hm).append_left _).trans perm_middle) (h.single e he)

/-- The flush request leaves the driver. -/
theorem accountFlush_inv (error : ℤ) (h : FlushInv s none) (hm : .flushRq∈s.driver) :
    FlushInv (accountFlush (s.ended .flushRq) error) none := by
  have hne := h.outstanding.mp (mem_append_right _ hm)
  have hidx : s.pendingIdx=!s.runningIdx := by
    revert hne
    cases s.pendingIdx <;> cases s.runningIdx <;> decide
  have hgone := h.gone (e := .flushRq) nofun hm
  refine .of_rqInv ⟨?_,h.reinit,h.hung⟩ h.separate ((count_eq_zero.mpr hgone).trans_le (Nat.zero_le _))
    (iff_of_false hgone (fun hn => hn hidx)) (fun hn => absurd hidx hn)
    (fun q => (h.rqInv q).unmoved ⟨fun _ => Iff.rfl,count_ended s nofun,rfl,rfl,
      Quiet.append (fun _ => ⟨rfl,rfl⟩) s.trace q⟩ Iff.rfl)
  show (s.bug || decide (s.pendingIdx=s.runningIdx))=false
  rw [h.bug,decide_eq_false hne,Bool.or_false]

/-- Fields that the invariant does not read. -/
theorem Stable.frame (h : Stable s) (flags : FlushFlags) (notQueueable delayed : Bool) (jiffies : BitVec w)
    (runs : ℕ) : Stable {s with
      flags := flags
      notQueueable := notQueueable
      delayed := delayed
      jiffies := jiffies
      runs := runs} := by
  exact ⟨h.inv.same ⟨rfl,rfl,rfl⟩ rfl (fun _ _ => rfl) ⟨rfl,rfl⟩ rfl rfl (fun _ => ⟨rfl,rfl⟩),h.awaited,h.idle⟩

/-- The walk starts at the front of the list and is not cut off. -/
theorem pushWaiters_stable (hz : ℕ) (error : ℤ) (hJ : Kept hz error i J) (h : FlushInv s none) (hs : J s)
    (hi : s.runningIdx=!i) (hne : s.lists (.queue i)≠[]) :
    Stable (pushWaiters hz (.queue i) error s).1 ∧ J (pushWaiters hz (.queue i) error s).1 := by
  obtain ⟨r,rest,hl⟩ := exists_cons_of_ne_nil hne
  have hw : weight s i<2*(s.lists (.queue i)).length+1 := by
    rw [weight,Nat.lt_succ_iff]
    refine (sum_le_card_nsmul _ 2 ?_).trans (by simp [Nat.mul_comm])
    intro x hx
    obtain ⟨q,_,rfl⟩ := mem_map.mp hx
    split <;> omega
  have hfirst : first (FlushList.queue i) (s.lists (.queue i))=.entry r := by rw [hl,first]
  rw [pushWaiters,hfirst,h.separate.next_of_cons (mem_flushLists _) hl]
  exact walk_stable hz error hJ h hs hl hi hw

theorem flushEndIo_stable (h : Stable s) (hm : .flushRq∈s.driver) :
    Stable (flushEndIo hz (s.ended .flushRq) error) := by
  obtain ⟨q,hq,_⟩ := h.inv.running (h.inv.outstanding.mp (mem_append_right _ hm))
  have hf := accountFlush_inv error h.inv hm
  have hs := pushWaiters_stable hz error (J := fun _ => True) (fun _ _ _ _ _ _ _ => trivial) hf trivial
    (i := s.runningIdx) rfl (ne_nil_of_mem hq)
  exact hs.1.frame _ _ _ _ _

/-- A request that is in flight can be taken from the driver. -/
theorem FlushInv.takeDriver (h : FlushInv s none) (hm : .rq r∈s.driver) (hf : r∈s.lists .inFlight) :
    FlushInv (s.ended (.rq r)) (some r) :=
  h.change ⟨rfl,rfl,rfl⟩ h.separate ⟨rfl,rfl⟩ (count_ended s nofun) (fun _ hqr => ⟨nofun,some_ne hqr⟩)
    (fun _ hqr => ⟨fun _ => Iff.rfl,count_ended s (fun he => hqr (Entry.rq.inj he)),rfl,rfl,rfl,rfl⟩)
    (fun _ hq _ he => FlushList.noConfusion (h.separate.unique _ _ r (he ▸ hq) hf))
    (.hand (h.gone nofun hm) (h.ledger r))

/-- Advancing the sequence of a request keeps the lists of an idle queue. -/
theorem complete_idle (hb : (s.rqs r).biotail≠none)
    (hs : IsStep (curSeq ((s.rqs r).seq ||| seq))) (h : s.pendingIdx=s.runningIdx → s.lists (.queue (!s.pendingIdx))=[])
    (hp : (blkFlushCompleteSeq hz s r seq error).1.pendingIdx=
      (blkFlushCompleteSeq hz s r seq error).1.runningIdx) :
    (blkFlushCompleteSeq hz s r seq error).1.lists
      (.queue (!(blkFlushCompleteSeq hz s r seq error).1.pendingIdx))=[] := by
  obtain ⟨hrun,_,hpen,hmove⟩ := complete_moves hz error hb hs
  generalize (blkFlushCompleteSeq hz s r seq error).1=t at *
  rw [hrun] at hp
  have hpt : t.pendingIdx=s.pendingIdx := hpen.resolve_right (fun hn => hn.2 hp)
  have hempty := h (hpt ▸ hp)
  have hun : unlink s.lists r (.queue (!s.pendingIdx))=[] := by rw [unlink,hempty,erase_nil]
  rw [hpt]
  rcases hmove with ⟨hm,_⟩|hm|hm
  · rw [hm,moveTail_of_ne _ _ (by simp)]
    exact hun
  · rw [hm,moveTail_of_ne _ _ FlushList.noConfusion]
    exact hun
  · rw [hm]
    exact hun

/-- The end of the bio is left to the flush sequence. -/
theorem blkUpdateRequest_sequenced (error : ℤ) (hf : (s.rqs r).flushSeq=true) :
    ∃ b, blkUpdateRequest s r error=s.setRq r {s.rqs r with bio := b} := by
  unfold blkUpdateRequest
  split
  · exact ⟨(s.rqs r).bio,(setRq_self s r).symm⟩
  · exact ⟨none,rfl⟩

/-- The driver ends the data of a sequenced request. -/
theorem dataEnd_eq (hz : ℕ) (error : ℤ) (hf : (s.rqs r).flushSeq=true) (he : (s.rqs r).endIo=some .flushData) :
    ∃ b, driverEnd hz s (.rq r) error=flushDataEndIo hz
      (((s.ended (.rq r)).setRq r {s.rqs r with bio := b}).mark (.performed r fseqData error)) r error := by
  obtain ⟨b,hb⟩ := blkUpdateRequest_sequenced error
    (s := (s.ended (.rq r)).mark (.performed r fseqData error)) (r := r) hf
  have hv : ((((s.ended (.rq r)).mark (.performed r fseqData error)).setRq r {s.rqs r with bio := b}).rqs r).endIo=
      some .flushData := by
    rw [setRq_rqs]
    exact he
  refine ⟨b,?_⟩
  have hb' : blkUpdateRequest ((s.ended (.rq r)).mark (.performed r fseqData error)) r error=
    ((s.ended (.rq r)).mark (.performed r fseqData error)).setRq r {s.rqs r with bio := b} := hb
  rw [driverEnd]
  simp only [hb',hv]
  rfl

/-- What the end of the data of a sequenced request leaves for its sequence. -/
theorem dataEnd_record (error : ℤ) (h : Stable s) (hm : .rq r∈s.driver) (hf : r∈s.lists .inFlight) (b : Option ℕ) :
    FlushInv (recordSeq (((s.ended (.rq r)).setRq r {s.rqs r with bio := b}).mark
      (.performed r fseqData error)) r fseqData) (some r) := by
  obtain ⟨hq,hc⟩ := (h.inv.listed r nofun).mp ⟨_,hf⟩
  have hcur := h.inv.flying r nofun hf
  have hn : curSeq (s.rqs r).seq≠fseqDone := by rw [hcur]; decide
  have hrec := record_inv error (h.inv.takeDriver hm hf) hq hc hn b
  rw [show curSeq ((s.ended (.rq r)).rqs r).seq=fseqData from hcur] at hrec
  exact hrec

/-- The driver ends the data of a sequenced request. -/
theorem dataEnd_stable (h : Stable s) (hm : .rq r∈s.driver) (hf : r∈s.lists .inFlight) :
    Stable (driverEnd hz s (.rq r) error) := by
  obtain ⟨hq,hc,y,_,hfs,hend,hb,hpr⟩ := h.inv.member hf
  have hcur := h.inv.flying r nofun hf
  have hn : curSeq (s.rqs r).seq≠fseqDone := by rw [hcur]; decide
  have hnext := (curSeq_cases _ _ (progress_next _ _ hpr hn).1).1
  obtain ⟨b,hdef⟩ := dataEnd_eq hz error hfs hend
  have hrec := dataEnd_record error h hm hf b
  have hv : (((s.ended (.rq r)).setRq r {s.rqs r with bio := b}).mark (.performed r fseqData error)).rqs r=
      {s.rqs r with bio := b} := update_self ..
  obtain ⟨hinv,haw⟩ := complete_inv hz error hrec hq (completions_performed hc)
  rw [hdef]
  refine Stable.frame ⟨hinv,haw,complete_idle ?_ ?_ h.idle⟩ _ _ _ _ _
  · rw [hv]
    exact hb
  · rw [hcur] at hnext
    rw [hv]
    exact hnext

theorem policySteps_direct : ∀ policy, isDirect policy=true → policySteps policy=[fseqData] := by
  decide

/-- What the end of a direct request leaves. -/
theorem directEnd_eq (hb : (s.rqs r).bio≠none) (hf : (s.rqs r).flushSeq=false) (he : (s.rqs r).endIo=none) :
    driverEnd hz s (.rq r) error={s.ended (.rq r) with
      rqs := update s.rqs r {s.rqs r with bio := none}
      trace := s.trace++[.performed r fseqData error,.completed r error]} := by
  simp [driverEnd,blkUpdateRequest,Queue.mark,Queue.setRq,Queue.ended,hb,hf,he]

theorem FlushInv.directFields (h : FlushInv s none) (hy : s.inserted r=some y)
    (hd : isDirect (blkFlushPolicy y.flags y.rq)=true) (hc : completions s.trace r=0) :
    steps s.trace r=[] ∧ (s.rqs r).flushSeq=false ∧ (s.rqs r).bio≠none ∧ (s.rqs r).endIo=none := by
  have hled := h.ledger r
  rw [hy] at hled
  have hfields := hled.2.2 hc
  rw [hd,if_pos rfl] at hfields
  exact hfields

theorem directEnd_stable (h : Stable s) (hm : .rq r∈s.driver) (hd : Direct s r)
    (hc : completions s.trace r=0) : Stable (driverEnd hz s (.rq r) error) := by
  obtain ⟨y,hy,hdir⟩ := Option.map_eq_some_iff.mp hd
  obtain ⟨hst,hfs,hb,hend⟩ := h.inv.directFields hy hdir hc
  rw [directEnd_eq hb hfs hend]
  have hnl : ∀ l, r∉s.lists l := fun l hl =>
    ((h.inv.listed r nofun).mp ⟨l,hl⟩).1.not_direct hd
  have hcm : ∀ q, completions (s.trace++[.performed r fseqData error,.completed r error]) q=
      completions s.trace q+if r=q then 1 else 0 := by
    intro q
    rw [append_cons,completions_append,completions_append]
    simp [endOf]
  have hsq : ∀ q, steps (s.trace++[.performed r fseqData error,.completed r error]) q=
      steps s.trace q++if r=q then [fseqData] else [] := by
    intro q
    rw [append_cons,steps_append,steps_append]
    simp only [stepOf]
    split <;> simp
  have hgone := h.inv.gone (e := .rq r) nofun hm
  have hended := hcm r
  rw [if_pos rfl] at hended
  refine ⟨h.inv.change (r := r) ⟨rfl,rfl,rfl⟩ h.inv.separate ⟨rfl,rfl⟩ (count_ended s nofun) (fun _ _ => ⟨nofun,nofun⟩)
    (fun q hqr => ⟨fun _ => Iff.rfl,count_ended s (fun he => hqr (Entry.rq.inj he)),rfl,update_of_ne hqr _ _,?_,?_⟩)
    (fun q hq _ he => hnl _ (he ▸ hq))
    ⟨fun _ => ⟨fun hn => absurd hn.choose_spec (hnl _),fun hn => absurd hd hn.1.not_direct⟩,
      (count_eq_zero.mpr hgone).trans_le (Nat.zero_le _),⟨fun hin => absurd hin hgone,fun hn => ?_⟩,
      fun i _ hi => absurd hi (hnl _),fun _ hi => absurd hi (hnl _),?_⟩,h.awaited,h.idle⟩
  · exact (hcm q).trans (by rw [if_neg (Ne.symm hqr),Nat.add_zero])
  · exact (hsq q).trans (by rw [if_neg (Ne.symm hqr),append_nil])
  · rcases hn.2 with hn|hn
    · exact absurd hn (hnl _)
    · exact absurd (hended.symm.trans hn.2) (Nat.succ_ne_zero _)
  · show Ledger (s.inserted r) _ (completions (s.trace++[.performed r fseqData error,.completed r error]) r)
      (steps (s.trace++[.performed r fseqData error,.completed r error]) r)
    rw [hended,hsq,if_pos rfl,hc,hst,hy]
    refine ⟨le_rfl,?_,nofun⟩
    rw [policySteps_direct _ hdir]
    exact List.Sublist.refl _

/-- A queue to which a request is added that is on no list. -/
structure Admitted (s t : Queue w) (r : ℕ) (y : Insertion) : Prop where
  /-- The checks held. -/
  flags : t.bug=s.bug ∧ t.reinit=s.reinit ∧ t.hung=s.hung
  lists : t.lists=s.lists
  /-- The indices are unchanged. -/
  idx : t.pendingIdx=s.pendingIdx ∧ t.runningIdx=s.runningIdx
  driver : t.driver=s.driver
  /-- The insertion is recorded. -/
  inserted : t.inserted=update s.inserted r (some y)
  /-- The other requests are unchanged. -/
  others : ∀ q, q≠r → t.rqs q=s.rqs q
  /-- Nothing ends. -/
  quiet : ∀ q, completions t.trace q=completions s.trace q ∧ steps t.trace q=steps s.trace q

theorem FlushInv.fresh (h : FlushInv s none) (hr : s.inserted r=none) :
    (∀ l, r∉s.lists l) ∧ .rq r∉s.queueHead++s.driver ∧ completions s.trace r=0 ∧ steps s.trace r=[] := by
  have hw : way s r=none := by rw [way,hr]; rfl
  have hl := h.ledger r
  rw [hr] at hl
  have hnl : ∀ l, r∉s.lists l := fun l hm => by
    have := ((h.listed r nofun).mp ⟨l,hm⟩).1
    rw [Sequenced,hw] at this
    cases this
  refine ⟨hnl,fun hm => ?_,hl⟩
  rcases ((h.linked r).mp hm).2 with hf|hf
  · exact hnl _ hf
  · have := hf.1
    rw [Direct,hw] at this
    cases this

/-- The invariant with a new request in hand, or directly on queue_head. -/
theorem Admitted.inv (ha : Admitted s t r y) (h : FlushInv s none) (hr : s.inserted r=none) (hx : ∀ q, q≠r → x≠some q)
    (hway : isDirect (blkFlushPolicy y.flags y.rq)=decide (x=none))
    (hhead : t.queueHead=s.queueHead++if x=none then [.rq r] else []) (hl : Ledger (some y) (t.rqs r) 0 [])
    (hxr : x=none ∨ x=some r) : FlushInv t x := by
  obtain ⟨hnl,hne,hc,hst⟩ := h.fresh hr
  have hwr : way t r=some (decide (x=none)) := by
    rw [way,ha.inserted,update_self,Option.map_some,hway]
  have hcount : ∀ e, (t.queueHead++t.driver).count e=
      (s.queueHead++s.driver).count e+if x=none ∧ e=.rq r then 1 else 0 := by
    intro e
    rw [hhead,ha.driver,append_assoc,count_append,count_append,count_append]
    by_cases hxn : x=none
    · rw [if_pos hxn,count_singleton]
      by_cases he : e=.rq r
      · simp [he,hxn]
        omega
      · simp [he,Ne.symm he]
    · rw [if_neg hxn,if_neg (fun hn => hxn hn.1)]
      simp
  have hself := hcount (.rq r)
  rw [count_eq_zero.mpr hne,Nat.zero_add] at hself
  have hledger : Ledger (t.inserted r) (t.rqs r) (completions t.trace r) (steps t.trace r) := by
    rw [(ha.quiet r).1,(ha.quiet r).2,ha.inserted,update_self,hc,hst]
    exact hl
  refine h.change ha.flags (ha.lists ▸ h.separate) ha.idx ((hcount _).trans (by simp)) (fun q hqr => ⟨nofun,hx q hqr⟩)
    (fun q hqr => ⟨fun l => by rw [ha.lists],?_,by rw [ha.inserted,update_of_ne hqr],ha.others q hqr,ha.quiet q⟩)
    (fun q hq _ he => hnl _ (he ▸ hq)) ?_
  · rw [hcount,if_neg (fun hn => hqr (Entry.rq.inj hn.2)),Nat.add_zero]
  · rcases hxr with rfl|rfl
    · rw [if_pos ⟨rfl,rfl⟩] at hself
      refine ⟨fun _ => ?_,hself.le,?_,fun i _ hi => ?_,fun _ hi => ?_,hledger⟩
      · rw [ha.lists,Sequenced,hwr]
        exact ⟨fun ⟨l,hm⟩ => absurd hm (hnl l),fun hn => nomatch hn.1⟩
      · exact iff_of_true (count_pos_iff.mp (hself.symm ▸ Nat.one_pos)) ⟨nofun,.inr ⟨hwr,(ha.quiet r).1.trans hc⟩⟩
      · exact absurd (ha.lists ▸ hi) (hnl _)
      · exact absurd (ha.lists ▸ hi) (hnl _)
    · rw [if_neg (fun hn => nomatch hn.1)] at hself
      exact .hand (count_eq_zero.mp hself) hledger

/-- A queue with a new request. -/
def accept (s : Queue w) (r : ℕ) (y : Insertion) (rq : Request) : Queue w :=
  {s with
    trace := s.trace++[.inserted r]
    inserted := update s.inserted r (some y)
    rqs := update s.rqs r rq}

theorem accept_rqs (s : Queue w) (r : ℕ) (y : Insertion) (rq : Request) : (accept s r y rq).rqs r=rq :=
  update_self ..

/-- What blk_insert_flush does with a new request. -/
theorem insertEvent_eq (flush fua : Bool) (sectors bio : ℕ) :
    insertEvent hz s r (freshRequest flush fua sectors bio)=
      let rq := freshRequest flush fua sectors bio
      let policy := blkFlushPolicy s.flags rq
      let adjusted := adjustFlags s.flags rq
      if isDirect policy then
        {(accept s r ⟨s.flags,rq⟩ adjusted).mark (.queued r) with queueHead := s.queueHead++[.rq r]}
      else (blkFlushCompleteSeq hz (accept s r ⟨s.flags,rq⟩ (enterSequence adjusted)) r
        (fseqActions &&& ~~~policy) 0).1 := by
  simp [insertEvent,blkInsertFlush,accept,Queue.mark,Queue.setRq,Queue.bugOn,freshRequest]

/-- A new request that enters a sequence is on no list at first. -/
theorem admitted_record (s : Queue w) (r : ℕ) (y : Insertion) (rq : Request) (seq : Fseq) :
    Admitted s (recordSeq (accept s r y (enterSequence rq)) r seq) r y := by
  refine ⟨⟨?_,?_,?_⟩,?_,⟨?_,?_⟩,?_,?_,fun q hq => ?_,fun q => Quiet.append (fun _ => ⟨rfl,rfl⟩) s.trace q⟩
  all_goals simp [recordSeq,accept,enterSequence,Queue.setRq,Queue.bugOn]
  exact update_of_ne hq _ _

/-- A new request in hand, at the first step of its policy. -/
theorem insert_record (h : FlushInv s none) (hr : s.inserted r=none) {flags : FlushFlags} {rq : Request}
    (hb : rq.biotail≠none) (hd : isDirect (blkFlushPolicy flags rq)=false) :
    FlushInv (recordSeq (accept s r ⟨flags,rq⟩ (enterSequence (adjustFlags flags rq))) r
      (fseqActions &&& ~~~blkFlushPolicy flags rq)) (some r) := by
  obtain ⟨hprog,hdone⟩ := progress_start (blkFlushPolicy flags rq)
  have hadm := admitted_record s r ⟨flags,rq⟩ (adjustFlags flags rq) (fseqActions &&& ~~~blkFlushPolicy flags rq)
  have hrq : (recordSeq (accept s r ⟨flags,rq⟩ (enterSequence (adjustFlags flags rq))) r
      (fseqActions &&& ~~~blkFlushPolicy flags rq)).rqs r={enterSequence (adjustFlags flags rq) with
        seq := 0 ||| (fseqActions &&& ~~~blkFlushPolicy flags rq)} := by
    rw [recordSeq_rqs,update_self,accept_rqs]
    rfl
  refine hadm.inv h hr (fun q hq he => hq (Option.some.inj he).symm) hd (append_nil _).symm ?_ (.inr rfl)
  refine ⟨Nat.zero_le _,nil_sublist _,fun _ => ?_⟩
  rw [if_neg (by rw [hd]; exact nofun),hrq]
  exact ⟨rfl,rfl,hb,hprog,hdone.symm⟩

/-- A new request is inserted. -/
theorem insert_stable (h : Stable s) (hr : s.inserted r=none) (flush fua : Bool) (sectors bio : ℕ) :
    Stable (insertEvent hz s r (freshRequest flush fua sectors bio)) := by
  have hquiet : ∀ q, completions (s.trace++[.inserted r]) q=completions s.trace q ∧
      steps (s.trace++[.inserted r]) q=steps s.trace q :=
    fun q => Quiet.append (fun _ => ⟨rfl,rfl⟩) s.trace q
  rw [insertEvent_eq]
  generalize hrq : freshRequest flush fua sectors bio=rq
  have hbio : rq.bio≠none ∧ rq.flushSeq=false ∧ rq.endIo=none ∧ rq.biotail≠none := by
    rw [← hrq]
    exact ⟨nofun,rfl,rfl,nofun⟩
  dsimp only
  split
  · rename_i hd
    refine ⟨Admitted.inv (y := ⟨s.flags,rq⟩) (r := r) (s := s) ⟨⟨rfl,rfl,rfl⟩,rfl,⟨rfl,rfl⟩,rfl,rfl,
      fun q hq => update_of_ne hq _ _,fun q => ?_⟩ h.inv hr nofun hd rfl ?_ (.inl rfl),h.awaited,h.idle⟩
    · rw [← (hquiet q).1,← (hquiet q).2]
      exact Quiet.append (fun _ => ⟨rfl,rfl⟩) _ q
    · refine ⟨Nat.zero_le _,nil_sublist _,fun _ => ?_⟩
      rw [if_pos hd]
      show _ ∧ (update s.rqs r _ r).flushSeq=false ∧ (update s.rqs r _ r).bio≠none ∧
        (update s.rqs r _ r).endIo=none
      rw [update_self]
      exact ⟨rfl,hbio.2.1,hbio.1,hbio.2.2.1⟩
  · rename_i hd
    have hdir : isDirect (blkFlushPolicy s.flags rq)=false := Bool.eq_false_of_not_eq_true hd
    have hrec := insert_record h.inv hr hbio.2.2.2 hdir
    generalize hu : accept s r ⟨s.flags,rq⟩ (enterSequence (adjustFlags s.flags rq))=u at *
    have hur : u.rqs r=enterSequence (adjustFlags s.flags rq) := by rw [← hu]; exact update_self ..
    have hui : u.inserted r=some ⟨s.flags,rq⟩ := by rw [← hu]; exact update_self ..
    have huq : Sequenced u r := by rw [Sequenced,way,hui,Option.map_some,hdir]
    have huc : completions u.trace r=0 := by
      rw [← hu,accept,(hquiet r).1]
      exact (h.inv.fresh hr).2.2.1
    have hidle : u.pendingIdx=u.runningIdx → u.lists (.queue (!u.pendingIdx))=[] := by
      rw [← hu]
      exact h.idle
    obtain ⟨hinv,haw⟩ := complete_inv hz 0 hrec huq huc
    refine ⟨hinv,haw,complete_idle ?_ ?_ hidle⟩
    · rw [hur]
      exact hbio.2.2.2
    · rw [hur]
      exact (curSeq_cases _ _ (progress_start _).1).1

/-- A mark that records nothing of a request. -/
theorem Stable.mark (h : Stable s) (hm : Quiet m) : Stable (s.mark m) :=
  ⟨h.inv.same ⟨rfl,rfl,rfl⟩ rfl (fun _ _ => rfl) ⟨rfl,rfl⟩ rfl rfl (hm.append s.trace),h.awaited,h.idle⟩

/-- An entry moves between queue_head and the driver. -/
theorem Stable.moved (h : Stable s) {a b : List Entry} (hp : (a++b).Perm (s.queueHead++s.driver)) :
    Stable {s with queueHead := a, driver := b} :=
  ⟨h.inv.same ⟨rfl,rfl,rfl⟩ rfl (fun e _ => hp.count_eq e) ⟨rfl,rfl⟩ rfl rfl (fun _ => ⟨rfl,rfl⟩),h.awaited,h.idle⟩

/-- The driver takes a request from queue_head. -/
theorem fetch_stable (h : Stable s) : Stable (driverFetch s) := by
  unfold driverFetch
  split
  · split
    · exact h.frame _ _ _ _ _
    · exact h
  · rename_i e es hq
    have hmoved := h.moved (a := es) (b := e::s.driver) (by rw [hq]; exact perm_middle)
    cases e with
    | flushRq | other n => exact hmoved
    | rq r => exact hmoved.mark (fun _ => ⟨rfl,rfl⟩)

/-- The driver gives an entry back. -/
theorem requeue_stable (h : Stable s) {e : Entry} (he : e∈s.driver) : Stable (blkRequeueRequest s e) := by
  have hmoved := h.moved (a := e::s.queueHead) (b := s.driver.erase e)
    (perm_middle.symm.trans ((perm_cons_erase he).symm.append_left _))
  cases e with
  | flushRq | other n => exact hmoved
  | rq r => exact hmoved.mark (fun _ => ⟨rfl,rfl⟩)

/-- Another request is linked into queue_head. -/
theorem link_stable (h : Stable s) (i n : ℕ) : Stable {s with queueHead := s.queueHead.insertIdx i (.other n)} := by
  refine ⟨h.inv.same ⟨rfl,rfl,rfl⟩ rfl (fun e he => ?_) ⟨rfl,rfl⟩ rfl rfl (fun _ => ⟨rfl,rfl⟩),h.awaited,h.idle⟩
  show (s.queueHead.insertIdx i (.other n)++s.driver).count e=_
  rw [count_append,count_append]
  congr 1
  by_cases hi : i ≤ s.queueHead.length
  · rw [(perm_insertIdx _ _ hi).count_eq,count_cons_of_ne (Ne.symm (he n))]
  · rw [insertIdx_of_length_lt (by omega)]

theorem driverEnd_stable (h : Stable s) {e : Entry} (he : e∈s.driver) : Stable (driverEnd hz s e error) := by
  cases e with
  | flushRq => exact flushEndIo_stable h he
  | other n =>
    refine ⟨h.inv.same ⟨rfl,rfl,rfl⟩ rfl (fun e he => ?_) ⟨rfl,rfl⟩ rfl rfl (fun _ => ⟨rfl,rfl⟩),h.awaited,h.idle⟩
    show (s.queueHead++s.driver.erase (.other n)).count e=_
    rw [count_append,count_append,count_erase_of_ne (he n)]
  | rq r =>
    rcases ((h.inv.linked r).mp (mem_append_right _ he)).2 with hf|hf
    · exact dataEnd_stable h he hf
    · exact directEnd_stable h he hf.1 hf.2

theorem flushStep_stable {a : Event} (h : Stable s) (ht : flushStep hz s a=some t) : Stable t := by
  cases a with
  | insert r flush fua sectors bio =>
    obtain ⟨hr,rfl⟩ := of_guard ht
    exact insert_stable h hr flush fua sectors bio
  | setFlags flags | setQueueable b | tick n =>
    cases ht
    exact h.frame _ _ _ _ _
  | link i n =>
    cases ht
    exact link_stable h i n
  | fetch =>
    cases ht
    exact fetch_stable h
  | requeue e =>
    obtain ⟨he,rfl⟩ := of_guard ht
    exact requeue_stable h he
  | complete e error =>
    obtain ⟨he,rfl⟩ := of_guard ht
    exact driverEnd_stable h he

theorem start_stable (h : Start s) : Stable s := by
  obtain ⟨hl,hi,hh,hd,hins,ht,_,hb,hre,hhu⟩ := h
  have hw : ∀ r, way s r=none := fun r => by rw [way,hins]; rfl
  have hent : s.queueHead++s.driver=[] := by rw [hh,hd]; rfl
  have hno : ∀ {r l}, r∉s.lists l := fun {r l} hm => absurd (hl l ▸ hm) not_mem_nil
  have hzero : ∀ e, (s.queueHead++s.driver).count e=0 := fun e => by rw [hent]; rfl
  have hout : ∀ e, e∉s.queueHead++s.driver := fun e => count_eq_zero.mp (hzero e)
  refine ⟨.of_rqInv ⟨hb,hre,hhu⟩ ⟨fun i => by rw [hl]; exact nodup_nil,fun i j a hm => absurd hm hno⟩
    ((hzero _).trans_le (Nat.zero_le _)) (iff_of_false (hout _) (fun hn => hn hi)) (fun hn => absurd hi hn)
    (fun r => ⟨fun _ => ⟨fun hm => absurd hm.choose_spec hno,fun hn => ?_⟩,(hzero _).trans_le (Nat.zero_le _),
      ⟨fun hm => absurd hm (hout _),fun hn => ?_⟩,fun _ _ hm => absurd hm hno,fun _ hm => absurd hm hno,?_⟩),
    fun hn => absurd (hl _) hn,fun _ => hl _⟩
  · rw [Sequenced,hw] at hn
    cases hn.1
  · rw [Direct,hw] at hn
    exact hn.2.elim (fun hm => absurd hm hno) (fun hm => nomatch hm.1)
  · rw [hins,ht]
    exact ⟨rfl,rfl⟩

/-- The states a queue goes through. -/
abbrev FlushRun (hz : ℕ) (s : Queue w) : Prop :=
  Reachable Start (fun s a t => flushStep hz s a=some t) s

theorem FlushRun.stable (hr : FlushRun hz s) : Stable s :=
  Reachable.invariant (I := Stable) (fun _ => start_stable) (fun _ _ _ _ h ht => flushStep_stable h ht) hr

/-- A sequenced request is on one list exactly until it completes. -/
theorem Stable.listed (h : Stable s) (hq : Sequenced s r) :
    (completions s.trace r=0 ∧ (∃! l, r∈s.lists l) ∧ ∀ l, (s.lists l).count r≤1) ∨
      (completions s.trace r=1 ∧ ∀ l, r∉s.lists l) := by
  have hl := h.inv.listed r nofun
  by_cases hc : completions s.trace r=0
  · obtain ⟨l,hm⟩ := hl.mpr ⟨hq,hc⟩
    exact .inl ⟨hc,⟨l,hm,fun k hk => h.inv.separate.unique k l r hk hm⟩,
      fun k => nodup_iff_count_le_one.mp (h.inv.separate.nodup k) r⟩
  · obtain ⟨y,hy,_⟩ := Option.map_eq_some_iff.mp hq
    have hled := h.inv.ledger r
    rw [hy] at hled
    have := hled.1
    exact .inr ⟨by omega,fun l hm => hc (hl.mp ⟨l,hm⟩).2⟩

/-- A request goes through steps of its policy, in order. -/
theorem Stable.steps_sublist (h : Stable s) (hy : s.inserted r=some y) :
    (steps s.trace r).Sublist (policySteps (blkFlushPolicy y.flags y.rq)) := by
  have hled := h.inv.ledger r
  rw [hy] at hled
  exact hled.2.1

/-- Once nothing is outstanding every sequenced request has completed. -/
theorem Stable.settled (h : Stable s) (ho : ¬s.Outstanding) (hf : s.lists .inFlight=[]) (hq : Sequenced s r) :
    completions s.trace r=1 := by
  have hi : s.pendingIdx=s.runningIdx := by
    by_contra hn
    exact ho (mem_append.mp (h.inv.outstanding.mpr hn))
  have hp : s.lists (.queue s.pendingIdx)=[] := by
    by_contra hn
    exact (h.awaited hn).elim (fun hne => hne hi) (fun hne => hne hf)
  rcases h.listed hq with ⟨_,⟨l,hm,_⟩,_⟩|hd
  · exfalso
    cases l with
    | inFlight => exact absurd (hf ▸ hm) not_mem_nil
    | queue i =>
      by_cases hip : i=s.pendingIdx
      · rw [hip,hp] at hm
        cases hm
      · rw [show i=!s.pendingIdx by revert hip; cases i <;> cases s.pendingIdx <;> decide,h.idle hi] at hm
        cases hm
  · exact hd.1

/-- Whenever the queue lock is free: the indices differ exactly while the flush request
is outstanding, which is never set up again before it ends; a sequenced request is on
exactly one list until it completes, once, having gone through steps of its policy in
order; no check of blk-flush.c fails and no walk of flush_end_io fails to end; a waiter
on the pending list has a flush or data in flight to wait for, and when neither is left
every sequenced request has completed. -/
theorem flush_sequencing_invariant (hr : FlushRun hz s) :
    (s.pendingIdx≠s.runningIdx ↔ s.Outstanding) ∧ s.reinit=false ∧
      (∀ r, Sequenced s r →
        (completions s.trace r=0 ∧ (∃! l, r∈s.lists l) ∧ ∀ l, (s.lists l).count r≤1) ∨
          (completions s.trace r=1 ∧ ∀ l, r∉s.lists l)) ∧
      (∀ r y, s.inserted r=some y → (steps s.trace r).Sublist (policySteps (blkFlushPolicy y.flags y.rq))) ∧
      s.bug=false ∧ s.hung=false ∧
      (s.lists (.queue s.pendingIdx)≠[] → s.Outstanding ∨ s.lists .inFlight≠[]) ∧
      (¬s.Outstanding → s.lists .inFlight=[] → ∀ r, Sequenced s r → completions s.trace r=1) := by
  have h := hr.stable
  have ho : s.pendingIdx≠s.runningIdx ↔ s.Outstanding :=
    h.inv.outstanding.symm.trans mem_append
  exact ⟨ho,h.inv.reinit,fun _ => h.listed,fun _ _ => h.steps_sublist,h.inv.bug,h.inv.hung,
    fun hn => (h.awaited hn).imp_left ho.mp,fun hn hf _ => h.settled hn hf⟩

/-- An empty queue of a device with a cache and without REQ_FUA. -/
def newQueue : Queue 32 :=
  ⟨⟨true,false⟩,false,false,fun _ => [],false,false,0,0,[],[],fun _ => freshRequest false false 0 0,0,
    fun _ => none,0,[],false,false,false⟩

theorem newQueue_start : Start newQueue := ⟨fun _ => rfl,rfl,rfl,rfl,fun _ => rfl,rfl,rfl,rfl,rfl,rfl⟩

/-- Three requests with both flushes and no data share flushes. The walk at the end of
the second flush issues the third one, puts an entry back on the list it walks and
meets it again. -/
theorem flush_sequencing_invariant_shared : ∃ s : Queue 32, FlushRun 100 s ∧
    s.trace.count (.issued 2)=1 ∧ steps s.trace 2=[fseqPreflush,fseqPostflush] ∧
    completions s.trace 2=1 ∧ Sequenced s 1 ∧ s.bug=false ∧ s.hung=false ∧
    ((completions s.trace 1=0 ∧ (∃! l, 1∈s.lists l) ∧ ∀ l, (s.lists l).count 1≤1) ∨
      (completions s.trace 1=1 ∧ ∀ l, 1∉s.lists l)) := by
  obtain ⟨s,hr,hi,hst,hc,hseq⟩ : ∃ s : Queue 32, FlushRun 100 s ∧ s.trace.count (.issued 2)=1 ∧
      steps s.trace 2=[fseqPreflush,fseqPostflush] ∧ completions s.trace 2=1 ∧ Sequenced s 1 :=
    exists_run (fun _ _ _ => id) newQueue_start [.insert 0 true true 0 7,.insert 1 true true 0 8,
      .insert 2 true true 0 9,.fetch,.complete .flushRq 0,.fetch,.complete .flushRq 0] (by decide +kernel)
  obtain ⟨_,_,hone,_,hbug,hhung,_⟩ := flush_sequencing_invariant hr
  exact ⟨s,hr,hi,hst,hc,hseq,hbug,hhung,hone 1 hseq⟩

end BlockIpc.FlushInvariant
