import BlockIpc.FlushInvariant

/-!
# Durability of flush and write-through requests

What a request that completes without error has behind it, on a queue whose device
always has a cache to flush. A request waits for a flush with something to show: its
insertion, or the end of its data. The flush that it is taken off the list for was
issued after that, since a request joins only the list of the flush to come.
-/

namespace BlockIpc.FlushDurability

open Function List TransitionRuns IntrusiveLists FlushSequence FlushInvariant

variable {w : ℕ}

/-- A mark records that the driver took a request. -/
def dispatchOf (r : ℕ) : Mark → Bool
  | .dispatched q _ => q=r
  | _ => false

/-- How often the driver took a request. -/
def dispatches (t : List Mark) (r : ℕ) : ℕ := t.countP (dispatchOf r)

/-- A mark records that the driver gave a request back. -/
def requeueOf (r : ℕ) : Mark → Bool
  | .requeued q => q=r
  | _ => false

/-- How often the driver gave a request back. -/
def requeues (t : List Mark) (r : ℕ) : ℕ := t.countP (requeueOf r)

/-- What a mark adds to the times that the driver has a request. -/
def moveOf (r : ℕ) : Mark → ℤ
  | .dispatched q _ => if q=r then 1 else 0
  | .requeued q => if q=r then -1 else 0
  | _ => 0

/-- How often the driver took a request that it did not give back. -/
def held (t : List Mark) (r : ℕ) : ℤ := (t.map (moveOf r)).sum

/-- A flush issued after the insertion has ended without error before the data was put
on queue_head. -/
def Preflushed (t : List Mark) (r : ℕ) (y : Insertion) : Prop :=
  y.rq.flush=true → ∃ k, [.inserted r,.issued k,.flushed k 0,.queued r].Sublist t

/-- The driver took the request once, with REQ_FUA if the device knows it. -/
def Dispatched (t : List Mark) (r : ℕ) (y : Insertion) : Prop :=
  held t r=1 ∧ .dispatched r (y.flags.fua && y.rq.fua)∈t

/-- What stands behind a request that completed without error. -/
def Written (t : List Mark) (r : ℕ) (y : Insertion) : Prop :=
  held t r=1 ∧ .performed r fseqData 0∈t ∧ Preflushed t r y ∧
    (y.rq.fua=true → (y.flags.fua=true ∧ .dispatched r true∈t) ∨
      ∃ k, [.performed r fseqData 0,.issued k,.flushed k 0,.completed r 0].Sublist t)

/-- What a request that waits for a flush has to show. -/
def anchor (r : ℕ) (seq : Fseq) : Mark := if curSeq seq=fseqPreflush then .inserted r else .performed r fseqData 0

/-- What holds of a request with data wherever it is. -/
structure Owed (s : Queue w) (r : ℕ) (y : Insertion) : Prop where
  /-- REQ_FUA is left to the driver if the device knows it. -/
  fua : completions s.trace r=0 → (s.rqs r).fua=(y.flags.fua && y.rq.fua)
  /-- A waiting request has something to show. -/
  waits : ∀ i, r∈s.lists (.queue i) → anchor r (s.rqs r).seq∈s.trace
  /-- The flush it waits for was issued after that. -/
  covered : s.pendingIdx≠s.runningIdx → r∈s.lists (.queue s.runningIdx) →
    [anchor r (s.rqs r).seq,.issued (s.issued-1)].Sublist s.trace
  /-- Before its data it was not with the driver. -/
  before : ∀ i, r∈s.lists (.queue i) → curSeq (s.rqs r).seq=fseqPreflush → held s.trace r=0
  /-- After its data it was with the driver once. -/
  after : ∀ i, r∈s.lists (.queue i) → curSeq (s.rqs r).seq=fseqPostflush →
    Preflushed s.trace r y ∧ Dispatched s.trace r y
  /-- On queue_head it was not yet with the driver. -/
  head : .rq r∈s.queueHead → Preflushed s.trace r y ∧ held s.trace r=0
  driver : .rq r∈s.driver → Preflushed s.trace r y ∧ Dispatched s.trace r y
  /-- Its completion without error has everything behind it. -/
  final : .completed r 0∈s.trace → Written s.trace r y

variable {s t : Queue w} {r : ℕ} {y : Insertion} {hz : ℕ} {error : ℤ}

variable {l m : List Mark} {q k : ℕ} {seq : Fseq} {i : Bool} {rq : Request} {a : Event}

theorem Preflushed.append (h : Preflushed l r y) (m : List Mark) : Preflushed (l++m) r y :=
  fun hf => (h hf).imp (fun _ hk => hk.trans (sublist_append_left _ _))

/-- A request is taken once more than it is given back while the driver has it. -/
theorem held_eq (t : List Mark) (r : ℕ) : held t r=dispatches t r-requeues t r := by
  induction t with
  | nil => rfl
  | cons a t ih =>
    have hcons : held (a::t) r=moveOf r a+held t r := sum_cons
    rw [hcons,ih]
    cases a with
    | dispatched q _ | requeued q =>
      by_cases hq : q=r
      · simp [dispatches,requeues,moveOf,dispatchOf,requeueOf,hq]
        omega
      · simp [dispatches,requeues,moveOf,dispatchOf,requeueOf,hq]
    | _ => simp [dispatches,requeues,moveOf,dispatchOf,requeueOf]

/-- A mark behind the others. -/
theorem held_concat (t : List Mark) (a : Mark) : held (t++[a]) r=held t r+moveOf r a := by
  rw [held,map_append,sum_append,map_singleton,sum_singleton,held]

/-- Marks that do not concern the dispatch of a request. -/
theorem held_append (hm : ∀ a∈m, moveOf r a=0) : held (l++m) r=held l r := by
  have hz : (m.map (moveOf r)).sum=0 := sum_eq_zero (fun x hx => by
    obtain ⟨a,ha,rfl⟩ := mem_map.mp hx
    exact hm a ha)
  rw [held,map_append,sum_append,hz,Int.add_zero,held]

/-- A dispatched request stays so. -/
theorem Dispatched.append (h : Dispatched l r y) (hm : ∀ a∈m, moveOf r a=0) : Dispatched (l++m) r y :=
  ⟨(held_append hm).trans h.1,mem_append_left _ h.2⟩

/-- What stands behind a completed request stays. -/
theorem Written.append (h : Written l r y) (hm : ∀ a∈m, moveOf r a=0) : Written (l++m) r y := by
  obtain ⟨hd,hp,hf,hu⟩ := h
  refine ⟨(held_append hm).trans hd,mem_append_left _ hp,hf.append m,fun hfua => ?_⟩
  rcases hu hfua with hu|⟨k,hk⟩
  · exact .inl ⟨hu.1,mem_append_left _ hu.2⟩
  · exact .inr ⟨k,hk.trans (sublist_append_left _ _)⟩

/-- What is owed to a request that neither moves nor changes. -/
theorem Owed.frame (h : Owed s r y) (ht : t.trace=s.trace++m) (hm : ∀ a∈m, moveOf r a=0 ∧ a≠.completed r 0)
    (hrq : t.rqs r=s.rqs r) (hl : ∀ i, r∈t.lists (.queue i) → r∈s.lists (.queue i))
    (hh : .rq r∈t.queueHead → .rq r∈s.queueHead) (hd : .rq r∈t.driver → .rq r∈s.driver)
    (hc : t.pendingIdx≠t.runningIdx → r∈t.lists (.queue t.runningIdx) →
      [anchor r (s.rqs r).seq,.issued (t.issued-1)].Sublist t.trace) : Owed t r y := by
  have hdm : ∀ a∈m, moveOf r a=0 := fun a ha => (hm a ha).1
  have hda : held t.trace r=held s.trace r := by rw [ht,held_append hdm]
  have hpre : Preflushed s.trace r y → Preflushed t.trace r y := fun hp => ht ▸ hp.append m
  have hdis : Dispatched s.trace r y → Dispatched t.trace r y := fun hp => ht ▸ hp.append hdm
  refine ⟨fun hz => ?_,fun i hi => ?_,fun hn hi => ?_,fun i hi hq => ?_,fun i hi hq => ?_,fun hi => ?_,fun hi => ?_,
    fun hi => ?_⟩
  · rw [hrq]
    refine h.fua ?_
    rw [ht,completions,countP_append] at hz
    exact (Nat.add_eq_zero_iff.mp hz).1
  · rw [hrq,ht]
    exact mem_append_left _ (h.waits i (hl i hi))
  · rw [hrq]
    exact hc hn hi
  · rw [hda]
    rw [hrq] at hq
    exact h.before i (hl i hi) hq
  · rw [hrq] at hq
    exact (h.after i (hl i hi) hq).imp hpre hdis
  · rw [hda]
    exact (h.head (hh hi)).imp_left hpre
  · exact (h.driver (hd hi)).imp hpre hdis
  · rw [ht] at hi ⊢
    refine (h.final ((mem_append.mp hi).resolve_right (fun ha => (hm _ ha).2 rfl))).append hdm

/-- A dispatch or a completion of another request. -/
theorem other_mark (hq : q≠r) (a : Mark) (ha : a=.queued r ∨ (∃ e, a=.completed r e) ∨
    (∃ b e, a=.performed r b e) ∨ (∃ k, a=.issued k) ∨ (∃ k e, a=.flushed k e) ∨ a=.inserted r ∨
    ∃ f, a=.dispatched r f) : moveOf q a=0 ∧ a≠.completed q 0 := by
  rcases ha with rfl|⟨e,rfl⟩|⟨b,e,rfl⟩|⟨k,rfl⟩|⟨k,e,rfl⟩|rfl|⟨f,rfl⟩
  · exact ⟨rfl,nofun⟩
  · exact ⟨rfl,fun he => hq (Mark.completed.inj he).1.symm⟩
  · exact ⟨rfl,nofun⟩
  · exact ⟨rfl,nofun⟩
  · exact ⟨rfl,nofun⟩
  · exact ⟨rfl,nofun⟩
  · exact ⟨if_neg (Ne.symm hq),nofun⟩

/-- What the request in hand has behind it, from the step it is at. -/
structure Hand (s : Queue w) (r : ℕ) (y : Insertion) (error : ℤ) : Prop where
  fresh : .completed r 0∉s.trace
  /-- REQ_FUA is left to the driver if the device knows it. -/
  fua : (s.rqs r).fua=(y.flags.fua && y.rq.fua)
  /-- At its first flush it was inserted. -/
  pre : error=0 → curSeq (s.rqs r).seq=fseqPreflush → .inserted r∈s.trace ∧ held s.trace r=0
  data : error=0 → curSeq (s.rqs r).seq=fseqData → held s.trace r=0 ∧
    (y.rq.flush=true → ∃ k, [.inserted r,.issued k,.flushed k 0].Sublist s.trace)
  /-- At its second flush its data is done. -/
  post : error=0 → curSeq (s.rqs r).seq=fseqPostflush →
    .performed r fseqData 0∈s.trace ∧ Preflushed s.trace r y ∧ Dispatched s.trace r y
  /-- At its end everything is done. -/
  done : error=0 → curSeq (s.rqs r).seq=fseqDone →
    .performed r fseqData 0∈s.trace ∧ Preflushed s.trace r y ∧ Dispatched s.trace r y ∧
      (y.rq.fua=true → y.flags.fua=true ∨
        ∃ k, [.performed r fseqData 0,.issued k,.flushed k 0].Sublist s.trace)

theorem Hand.of_step (hc : .completed r 0∉s.trace) (hfua : (s.rqs r).fua=(y.flags.fua && y.rq.fua))
    (h : error=0 → curSeq (s.rqs r).seq=fseqPreflush ∧ .inserted r∈s.trace ∧ held s.trace r=0 ∨
      curSeq (s.rqs r).seq=fseqData ∧ held s.trace r=0 ∧
        (y.rq.flush=true → ∃ k, [.inserted r,.issued k,.flushed k 0].Sublist s.trace) ∨
      (.performed r fseqData 0∈s.trace ∧ Preflushed s.trace r y ∧ Dispatched s.trace r y) ∧
        (curSeq (s.rqs r).seq=fseqPostflush ∨ curSeq (s.rqs r).seq=fseqDone ∧ (y.rq.fua=true → y.flags.fua=true ∨
          ∃ k, [.performed r fseqData 0,.issued k,.flushed k 0].Sublist s.trace))) : Hand s r y error := by
  refine ⟨hc,hfua,fun he hp => ?_,fun he hp => ?_,fun he hp => ?_,fun he hp => ?_⟩ <;>
    obtain ⟨hw,hx⟩|⟨hw,hx⟩|⟨hx,hw|⟨hw,hu⟩⟩ := h he <;> rw [hw] at hp
  -- one of the four is the step, the others are different
  all_goals first
    | exact absurd hp (by decide)
    | exact hx
    | exact ⟨hx.1,hx.2.1,hx.2.2,hu⟩

/-- The request in hand starts to wait for a flush. -/
theorem Hand.queueForFlush (h : Hand s r y error) (hi : FlushInv s (some r)) (he : error=0)
    (hw : curSeq (s.rqs r).seq=fseqPreflush ∨ curSeq (s.rqs r).seq=fseqPostflush) :
    Owed (queueForFlush s r) r y := by
  have hpp : fseqPostflush≠fseqPreflush := by decide
  refine ⟨fun _ => h.fua,fun i _ => ?_,fun hn hm => ?_,fun _ _ hp => (h.pre he hp).2,
    fun _ _ hp => (h.post he hp).2,fun hm => absurd (mem_append_left _ hm) hi.free,
    fun hm => absurd (mem_append_right _ hm) hi.free,fun hm => absurd hm h.fresh⟩
  · show anchor r (s.rqs r).seq∈s.trace
    rcases hw with hp|hp
    · rw [anchor,if_pos hp]
      exact (h.pre he hp).1
    · rw [anchor,if_neg (fun hn => hpp (hp ▸ hn))]
      exact (h.post he hp).1
  · rcases hi.separate.mem_moveTail.mp hm with ⟨_,hr⟩|⟨hr,_⟩
    · exact absurd (FlushList.queue.inj hr).symm hn
    · exact absurd rfl hr

/-- The request in hand goes to queue_head for its data. -/
theorem Hand.queueForData (h : Hand s r y error) (hi : FlushInv s (some r)) (he : error=0)
    (hw : curSeq (s.rqs r).seq=fseqData) : Owed (queueForData s r) r y := by
  have hnl : ∀ i, r∉(FlushSequence.queueForData s r).lists (.queue i) := by
    intro i hm
    change r∈moveTail s.lists r .inFlight (.queue i) at hm
    rcases hi.separate.mem_moveTail.mp hm with ⟨_,hr⟩|⟨hr,_⟩
    · cases hr
    · exact hr rfl
  obtain ⟨hd,hf⟩ := h.data he hw
  refine ⟨fun _ => h.fua,fun i hm => absurd hm (hnl i),fun _ hm => absurd hm (hnl _),fun i hm => absurd hm (hnl i),
    fun i hm => absurd hm (hnl i),fun _ => ⟨fun hfl => ?_,?_⟩,
    fun hm => absurd (mem_append_right _ hm) hi.free,fun hm => ?_⟩
  · obtain ⟨k,hk⟩ := hf hfl
    exact ⟨k,hk.append (List.Sublist.refl [Mark.queued r])⟩
  · show held (s.trace++[.queued r]) r=0
    rw [held_append (by simp [moveOf])]
    exact hd
  · rcases mem_append.mp hm with hm|hm
    · exact absurd hm h.fresh
    · cases mem_singleton.mp hm

/-- The request in hand completes. -/
theorem Hand.endSequence (h : Hand s r y error) (hi : FlushInv s (some r)) (hq : Sequenced s r)
    (hc : completions s.trace r=0) (hw : error=0 → curSeq (s.rqs r).seq=fseqDone) :
    Owed (endSequence s r error) r y := by
  obtain ⟨x,hx,hd⟩ := Option.map_eq_some_iff.mp hq
  have hb := (hi.fields hx hd hc).2.2.1
  have hnl : ∀ i, r∉(FlushSequence.endSequence s r error).lists (.queue i) := by
    intro i hm
    rw [endSequence_eq hb] at hm
    exact (hi.separate.mem_unlink.mp hm).1 rfl
  have ht : (FlushSequence.endSequence s r error).trace=s.trace++[.completed r error] := by
    rw [endSequence_eq hb]
    rfl
  have hqd : (FlushSequence.endSequence s r error).queueHead=s.queueHead ∧
      (FlushSequence.endSequence s r error).driver=s.driver := by
    rw [endSequence_eq hb]
    exact ⟨rfl,rfl⟩
  have hdm : ∀ a∈([.completed r error] : List Mark), moveOf r a=0 := by simp [moveOf]
  refine ⟨fun hz => ?_,fun i hm => absurd hm (hnl i),fun _ hm => absurd hm (hnl _),fun i hm => absurd hm (hnl i),
    fun i hm => absurd hm (hnl i),fun hm => ?_,fun hm => ?_,fun hm => ?_⟩
  · rw [ht,completions_append,endOf] at hz
    simp at hz
  · rw [hqd.1] at hm
    exact absurd (mem_append_left _ hm) hi.free
  · rw [hqd.2] at hm
    exact absurd (mem_append_right _ hm) hi.free
  · rw [ht] at hm ⊢
    have he : error=0 := by
      rcases mem_append.mp hm with hm|hm
      · exact absurd hm h.fresh
      · exact (Mark.completed.inj (mem_singleton.mp hm)).2.symm
    obtain ⟨hp,hf,hdi,hu⟩ := h.done he (hw he)
    refine ⟨(held_append hdm).trans hdi.1,mem_append_left _ hp,hf.append _,fun hfua => ?_⟩
    rcases hu hfua with hu|⟨k,hk⟩
    · refine .inl ⟨hu,mem_append_left _ ?_⟩
      have := hdi.2
      rw [hu,hfua] at this
      exact this
    · rw [he]
      exact .inr ⟨k,hk.append (List.Sublist.refl [Mark.completed r 0])⟩

/-- The request in hand after the switch of blk_flush_complete_seq. -/
theorem Hand.dispatchSeq (h : Hand s r y error) (hi : FlushInv s (some r)) (hq : Sequenced s r)
    (hc : completions s.trace r=0) :
    Owed (dispatchSeq s r (if error=0 then curSeq (s.rqs r).seq else fseqDone) error).1 r y := by
  obtain ⟨x,hx,hd⟩ := Option.map_eq_some_iff.mp hq
  have hp := (curSeq_cases _ _ (hi.fields hx hd hc).2.2.2.1).1
  by_cases he : error=0
  · rw [if_pos he]
    unfold FlushSequence.dispatchSeq
    split
    · rename_i hw
      exact h.queueForFlush hi he hw
    split
    · rename_i hw
      exact h.queueForData hi he hw
    split
    · rename_i hw
      exact h.endSequence hi hq hc (fun _ => hw)
    · tauto
  · rw [if_neg he]
    exact h.endSequence hi hq hc (fun hn => absurd hn he)

/-- What is owed to the other requests when one gets its place. -/
theorem Owed.dispatchSeq {z : Insertion} (h : Owed s q z) (hqr : q≠r) (hi : FlushInv s (some r))
    (hb : (s.rqs r).biotail≠none) : Owed (dispatchSeq s r seq error).1 q z := by
  have hmove : ∀ l i, q∈moveTail s.lists r l (.queue i) → q∈s.lists (.queue i) := fun l i hm =>
    (hi.separate.mem_moveTail.mp hm).elim (fun hn => absurd hn.1 hqr) (fun hn => hn.2)
  have hmark : ∀ a : Mark, a=.queued r ∨ a=.completed r error →
      ∀ b∈[a], moveOf q b=0 ∧ b≠.completed q 0 := by
    intro a ha b hb
    rw [mem_singleton.mp hb]
    refine other_mark hqr a ?_
    rcases ha with ha|ha
    · exact .inl ha
    · exact .inr (.inl ⟨_,ha⟩)
  unfold FlushSequence.dispatchSeq
  split
  · exact h.frame (m := []) (append_nil _).symm (by simp) rfl (hmove _) id id
      (fun hn hm => h.covered hn (hmove _ _ hm))
  split
  · refine h.frame (m := [.queued r]) rfl (hmark _ (.inl rfl)) rfl (hmove .inFlight) (fun hm => ?_) id
      (fun hn hm => (h.covered hn (hmove .inFlight _ hm)).trans (sublist_append_left _ _))
    exact (mem_cons.mp hm).resolve_left (fun he => hqr (Entry.rq.inj he))
  split
  · have hun : ∀ i, q∈unlink s.lists r (.queue i) → q∈s.lists (.queue i) :=
      fun i hm => (hi.separate.mem_unlink.mp hm).2
    rw [endSequence_eq hb]
    exact h.frame (m := [.completed r error]) rfl (hmark _ (.inr rfl)) (update_of_ne hqr _ _)
      hun id id (fun hn hm => (h.covered hn (hun _ hm)).trans (sublist_append_left _ _))
  · exact h.frame (m := []) (append_nil _).symm (by simp) rfl (fun _ => id) id id h.covered

/-- What is owed to each request when a flush is issued: those that wait for it are covered. -/
theorem Owed.kick (h : Owed s r y) : Owed (blkKickFlush hz s).1 r y := by
  unfold blkKickFlush
  split
  · exact h
  split
  · exact h
  · rename_i hp _
    have hi : s.pendingIdx=s.runningIdx := not_not.mp (not_or.mp hp).1
    refine h.frame (m := [.issued s.issued]) rfl (by simp [moveOf]) rfl (fun _ => id) (fun hm => ?_) id
      (fun _ hm => ?_)
    · rcases mem_append.mp hm with hm|hm
      · exact hm
      · cases mem_singleton.mp hm
    · exact (singleton_sublist.mpr (h.waits _ hm)).append (List.Sublist.refl [Mark.issued s.issued])

/-- The request has data, and the device had a cache when it was inserted. -/
def Carries (y : Insertion) : Prop := y.flags.flush=true ∧ y.rq.sectors≠0

/-- What is owed to every request with data, but the one in hand. -/
structure DurInv (F : FlushFlags → Prop) (s : Queue w) (x : Option ℕ) : Prop where
  /-- Requests were inserted with such flags of the device only. -/
  flagged : ∀ r y, s.inserted r=some y → F y.flags
  /-- A request that was not inserted was not with the driver. -/
  unseen : ∀ r, s.inserted r=none → held s.trace r=0
  owed : ∀ r y, s.inserted r=some y → Carries y → x≠some r → Owed s r y

variable {F : FlushFlags → Prop}

/-- Nothing that is owed depends on the other fields, and entries may go. -/
theorem DurInv.same (h : DurInv F s none) (htr : t.trace=s.trace) (hins : t.inserted=s.inserted) (hrq : t.rqs=s.rqs)
    (hl : t.lists=s.lists) (hi : t.pendingIdx=s.pendingIdx ∧ t.runningIdx=s.runningIdx ∧ t.issued=s.issued)
    (hh : ∀ r, .rq r∈t.queueHead → .rq r∈s.queueHead) (hd : ∀ r, .rq r∈t.driver → .rq r∈s.driver) :
    DurInv F t none := by
  refine ⟨hins ▸ h.flagged,fun r hr => ?_,fun r y hy hs hx => ?_⟩
  · rw [htr]
    exact h.unseen r (hins ▸ hr)
  · have ho := h.owed r y (hins ▸ hy) hs hx
    refine ho.frame (m := []) (by rw [htr,append_nil]) nofun (by rw [hrq]) (fun _ hm => hl ▸ hm) (hh r) (hd r) ?_
    rw [htr,hl,hi.1,hi.2.1,hi.2.2]
    exact ho.covered

/-- What blk_flush_complete_seq leaves of the record. -/
theorem complete_record (hz : ℕ) (error : ℤ) (seq : Fseq) (hb : (s.rqs r).biotail≠none) :
    (blkFlushCompleteSeq hz s r seq error).1.inserted=s.inserted ∧
      ∃ m, (blkFlushCompleteSeq hz s r seq error).1.trace=s.trace++m ∧ ∀ a∈m, ∀ q, moveOf q a=0 := by
  have hk : ∀ t : Queue w, (blkKickFlush hz t).1.inserted=t.inserted ∧
      ∃ m, (blkKickFlush hz t).1.trace=t.trace++m ∧ ∀ a∈m, ∀ q, moveOf q a=0 := by
    intro t
    unfold blkKickFlush
    split
    · exact ⟨rfl,[],(append_nil _).symm,by simp⟩
    split
    · exact ⟨rfl,[],(append_nil _).symm,by simp⟩
    · exact ⟨rfl,[.issued t.issued],rfl,by simp [moveOf]⟩
  have hd : ∀ x, (dispatchSeq (recordSeq s r seq) r x error).1.inserted=s.inserted ∧
      ∃ m, (dispatchSeq (recordSeq s r seq) r x error).1.trace=s.trace++m ∧ ∀ a∈m, ∀ q, moveOf q a=0 := by
    intro x
    have hbr : ((recordSeq s r seq).rqs r).biotail≠none := by
      rw [recordSeq_rqs,update_self]
      exact hb
    unfold FlushSequence.dispatchSeq
    split
    · exact ⟨rfl,[],(append_nil _).symm,by simp⟩
    split
    · exact ⟨rfl,[.queued r],rfl,by simp [moveOf]⟩
    split
    · rw [endSequence_eq hbr]
      exact ⟨rfl,[.completed r error],rfl,by simp [moveOf]⟩
    · exact ⟨rfl,[],(append_nil _).symm,by simp⟩
  obtain ⟨hki,m,hkt,hkm⟩ := hk (dispatchSeq (recordSeq s r seq) r
    (if error=0 then blkFlushCurSeq ((recordSeq s r seq).rqs r) else fseqDone) error).1
  obtain ⟨hdi,n,hdt,hdm⟩ := hd (if error=0 then blkFlushCurSeq ((recordSeq s r seq).rqs r) else fseqDone)
  refine ⟨hki.trans hdi,n++m,?_,fun a ha => (mem_append.mp ha).elim (hdm a) (hkm a)⟩
  rw [← append_assoc,← hdt]
  exact hkt

/-- Advancing the sequence of the request in hand. -/
theorem DurInv.complete (h : DurInv F (recordSeq s r seq) (some r)) (hz : ℕ)
    (hi : FlushInv (recordSeq s r seq) (some r))
    (hq : Sequenced s r) (hc : completions s.trace r=0) (hb : (s.rqs r).biotail≠none)
    (hh : ∀ y, s.inserted r=some y → Carries y → Hand (recordSeq s r seq) r y error) :
    DurInv F (blkFlushCompleteSeq hz s r seq error).1 none := by
  obtain ⟨hins,m,htr,hm⟩ := complete_record hz error seq hb
  have hbr : ((recordSeq s r seq).rqs r).biotail≠none := by
    rw [recordSeq_rqs,update_self]
    exact hb
  refine ⟨fun q z hqz => ?_,fun q hqz => ?_,fun q z hqz hs _ => ?_⟩
  · rw [hins] at hqz
    exact h.flagged q z hqz
  · rw [hins] at hqz
    rw [htr,held_append (fun a ha => hm a ha q)]
    exact h.unseen q hqz
  · rw [hins] at hqz
    refine Owed.kick ?_
    by_cases hqr : q=r
    · rw [hqr] at hqz ⊢
      exact (hh z hqz hs).dispatchSeq hi hq hc
    · exact (h.owed q z hqz hs (fun he => hqr (Option.some.inj he).symm)).dispatchSeq hqr hi hbr

/-- With data in the policy a first flush is followed by the data. -/
theorem curSeq_data : ∀ policy seq, Progress policy seq → policy &&& fseqData≠0 →
    (curSeq seq=fseqPreflush → curSeq (seq ||| curSeq seq)=fseqData) ∧
      (curSeq seq=fseqData → curSeq (seq ||| curSeq seq)=fseqPostflush ∨
        (curSeq (seq ||| curSeq seq)=fseqDone ∧ policy &&& fseqPostflush=0)) := by
  decide

/-- With data in the policy the first step is a flush or the data. -/
theorem curSeq_start : ∀ policy : Fseq, policy &&& fseqData≠0 →
    curSeq (0 ||| (fseqActions &&& ~~~policy))=fseqPreflush ∨
      (curSeq (0 ||| (fseqActions &&& ~~~policy))=fseqData ∧ policy &&& fseqPreflush=0) := by
  decide

/-- The policy of a request with data on a device with a cache. -/
theorem policy_data (hs : Carries y) : blkFlushPolicy y.flags y.rq &&& fseqData≠0 ∧
      (blkFlushPolicy y.flags y.rq &&& fseqPreflush=0 → y.rq.flush=false) ∧
      (blkFlushPolicy y.flags y.rq &&& fseqPostflush=0 → y.rq.fua=true → y.flags.fua=true) := by
  rw [blkFlushPolicy,if_pos hs.1,if_pos hs.2]
  cases y.rq.flush <;> cases y.flags.fua <;> cases y.rq.fua <;> decide

/-- The waiters with data of the flush that ended were waiting when it was issued. -/
def Credit (s : Queue w) (i : Bool) (k : ℕ) (error : ℤ) : Prop :=
  error=0 → ∀ r y, s.inserted r=some y → Carries y → r∈s.lists (.queue i) →
    [anchor r (s.rqs r).seq,.issued k,.flushed k 0].Sublist s.trace

theorem not_mem_completed (hc : completions s.trace r=0) (e : ℤ) : .completed r e∉s.trace := fun hm =>
  countP_eq_zero.mp hc _ hm (decide_eq_true rfl)

theorem not_mem_append_mark {b : Mark} (hc : completions s.trace r=0) (hb : b≠.completed r 0) :
    .completed r 0∉s.trace++[b] := fun hm =>
  (mem_append.mp hm).elim (not_mem_completed hc 0) (fun he => hb (mem_singleton.mp he).symm)

/-- What is owed to the others when a step of a request ends. -/
theorem DurInv.record (h : DurInv F s none) (x : Request) (m : Mark) (seq : Fseq)
    (hm : ∀ q, q≠r → moveOf q m=0 ∧ m≠.completed q 0) (hr : moveOf r m=0) :
    DurInv F (recordSeq ((s.setRq r x).mark m) r seq) (some r) := by
  obtain ⟨⟨hl,hins,htr,_,_⟩,hqd,hp,hrun⟩ := record_fields s r x m seq
  have hrq : ∀ q, q≠r → (recordSeq ((s.setRq r x).mark m) r seq).rqs q=s.rqs q := by
    intro q hq
    rw [recordSeq_rqs,update_of_ne hq]
    exact update_of_ne hq _ _
  have hiss : (recordSeq ((s.setRq r x).mark m) r seq).issued=s.issued := by
    simp only [recordSeq,Queue.setRq,Queue.mark,Queue.bugOn]
  generalize recordSeq ((s.setRq r x).mark m) r seq=t at *
  refine ⟨fun q z hz => ?_,fun q hz => ?_,fun q z hz hs hx => ?_⟩
  · rw [hins] at hz
    exact h.flagged q z hz
  · rw [hins] at hz
    rw [htr,held_append]
    · exact h.unseen q hz
    · intro a ha
      rw [mem_singleton.mp ha]
      by_cases hqr : q=r
      · rw [hqr]
        exact hr
      · exact (hm q hqr).1
  · rw [hins] at hz
    have hqr : q≠r := fun he => hx (by rw [he])
    have ho := h.owed q z hz hs (by simp)
    refine ho.frame htr ?_ (hrq q hqr) (fun i hi => hl ▸ hi) (fun hi => hqd.1 ▸ hi) (fun hi => hqd.2 ▸ hi)
      (fun hn hi => ?_)
    · intro a ha
      rw [mem_singleton.mp ha]
      exact hm q hqr
    · rw [hp,hrun] at hn
      rw [hl,hrun] at hi
      rw [htr,hiss]
      exact (ho.covered hn hi).trans (sublist_append_left _ _)

/-- What a waiter has behind it after a flush that it was credited with. -/
theorem hand_of_flush (hi : FlushInv s none) (h : DurInv F s none) (hcr : Credit s i k error)
    (hm : r∈s.lists (.queue i)) (hy : s.inserted r=some y) (hs : Carries y) :
    Hand (recordSeq (s.mark (.performed r (curSeq (s.rqs r).seq) error)) r (curSeq (s.rqs r).seq)) r y error := by
  obtain ⟨_,hc,x,hx,_,_,_,hpr⟩ := hi.member hm
  cases hy.symm.trans hx
  have ho := h.owed r y hy hs nofun
  have hw := hi.waiting r i nofun hm
  have hcd := curSeq_data _ _ hpr (policy_data hs).1
  have hcn := curSeq_next _ _ hpr (hi.not_done hm)
  have hrq : (recordSeq (s.mark (.performed r (curSeq (s.rqs r).seq) error)) r (curSeq (s.rqs r).seq)).rqs r=
      {s.rqs r with seq := (s.rqs r).seq ||| curSeq (s.rqs r).seq} := by
    rw [recordSeq_rqs,update_self]
    rfl
  have htr : (recordSeq (s.mark (.performed r (curSeq (s.rqs r).seq) error)) r (curSeq (s.rqs r).seq)).trace=
      s.trace++[.performed r (curSeq (s.rqs r).seq) error] := rfl
  have hdm : ∀ a∈[Mark.performed r (curSeq (s.rqs r).seq) error], moveOf r a=0 := by simp [moveOf]
  have hnc := not_mem_append_mark (b := .performed r (curSeq (s.rqs r).seq) error) hc (by simp)
  generalize recordSeq (s.mark (.performed r (curSeq (s.rqs r).seq) error)) r (curSeq (s.rqs r).seq)=t at *
  refine Hand.of_step (htr ▸ hnc) (by rw [hrq]; exact ho.fua hc) (fun he => .inr ?_)
  have hcov := hcr he r y hy hs hm
  rw [hrq,htr]
  rcases hw with hw|hw
  · rw [anchor,if_pos hw] at hcov
    rw [held_append hdm]
    exact .inl ⟨hcd.1 hw,ho.before i hm hw,fun _ => ⟨k,hcov.trans (sublist_append_left _ _)⟩⟩
  · have hne : curSeq (s.rqs r).seq≠fseqPreflush := by rw [hw]; decide
    have hanc := ho.waits i hm
    rw [anchor,if_neg hne] at hcov hanc
    obtain ⟨hpf,hdi⟩ := ho.after i hm hw
    exact .inr ⟨⟨mem_append_left _ hanc,hpf.append _,hdi.append hdm⟩,
      Or.inr ⟨hcn.2 hw,fun _ => .inr ⟨k,hcov.trans (sublist_append_left _ _)⟩⟩⟩

/-- One visit of the walk keeps what is owed and what the waiters are credited with. -/
theorem visit_durable {rest : List ℕ} (hi : FlushInv s none) (hl : s.lists (.queue i)=r::rest) (hr : s.runningIdx=!i)
    (h : DurInv F s none ∧ Credit s i k error) :
    DurInv F (visited hz error s r) none ∧ Credit (visited hz error s r) i k error := by
  obtain ⟨hd,hcr⟩ := h
  have hm : r∈s.lists (.queue i) := by rw [hl]; exact mem_cons_self
  obtain ⟨hq,hc,x,hx,_,_,hb,hpr⟩ := hi.member hm
  have hw := hi.waiting r i nofun hm
  have hn := hi.not_done hm
  have hcn := curSeq_next _ _ hpr hn
  have hmark : ∀ q, q≠r → moveOf q (.performed r (curSeq (s.rqs r).seq) error)=0 ∧
      Mark.performed r (curSeq (s.rqs r).seq) error≠.completed q 0 := fun _ _ => ⟨rfl,nofun⟩
  have hrec := hd.record (s.rqs r) _ (curSeq (s.rqs r).seq) hmark rfl
  rw [setRq_self] at hrec
  refine ⟨hrec.complete hz (visit_record error hi hm hr) hq (completions_performed hc) hb
    (fun y hy hs => hand_of_flush hi hd hcr hm hy hs),
    fun he q z hqz hs hqm => ?_⟩
  obtain ⟨hins,m,htr,_⟩ := complete_record hz error (curSeq (s.rqs r).seq)
    (s := s.mark (.performed r (curSeq (s.rqs r).seq) error)) (r := r) hb
  obtain ⟨_,hoth,_,hmove⟩ := complete_moves hz error (s := s.mark (.performed r (curSeq (s.rqs r).seq) error))
    (r := r) hb (curSeq_cases _ _ (progress_next _ _ hpr hn).1).1
  rw [hins] at hqz
  have hqr : q≠r := by
    intro hqr
    -- an entry that is put back on the list has no data
    rw [hqr] at hqz hqm
    have hdata := (policy_data hs).1
    rw [show s.inserted r=some z from hqz] at hx
    cases hx
    have hcd := (curSeq_data _ _ hpr hdata).1
    rcases hmove with ⟨_,_,hpp⟩|hml|hml
    · change curSeq ((s.rqs r).seq ||| curSeq (s.rqs r).seq)=_ ∨
        curSeq ((s.rqs r).seq ||| curSeq (s.rqs r).seq)=_ at hpp
      rcases hw with hw|hw
      · rw [hcd hw] at hpp
        exact absurd hpp (by decide)
      · rw [hcn.2 hw] at hpp
        exact absurd hpp (by decide)
    · rw [hml] at hqm
      rcases hi.separate.mem_moveTail.mp hqm with ⟨_,hn⟩|⟨hn,_⟩
      · cases hn
      · exact hn rfl
    · rw [hml] at hqm
      exact (hi.separate.mem_unlink.mp hqm).1 rfl
  have hqs : q∈s.lists (.queue i) := by
    rcases hmove with ⟨hml,_,_⟩|hml|hml <;> rw [hml] at hqm
    · exact (hi.separate.mem_moveTail.mp hqm).elim (fun hn => absurd hn.1 hqr) (fun hn => hn.2)
    · exact (hi.separate.mem_moveTail.mp hqm).elim (fun hn => absurd hn.1 hqr) (fun hn => hn.2)
    · exact (hi.separate.mem_unlink.mp hqm).2
  rw [hoth q hqr,htr]
  exact (hcr he q z hqz hs hqs).trans ((sublist_append_left _ _).trans (sublist_append_left _ _))

/-- The end of a flush credits its waiters. -/
theorem accountFlush_durable (h : DurInv F s none) (hi : FlushInv s none) (hm : .flushRq∈s.driver) :
    DurInv F (accountFlush (s.ended .flushRq) error) none ∧
      Credit (accountFlush (s.ended .flushRq) error) s.runningIdx (s.issued-1) error := by
  have hne := hi.outstanding.mp (mem_append_right _ hm)
  have hidx : s.pendingIdx=!s.runningIdx := by
    revert hne
    cases s.pendingIdx <;> cases s.runningIdx <;> decide
  have hdm : ∀ q, ∀ a∈[Mark.flushed (s.issued-1) error], moveOf q a=0 ∧ a≠.completed q 0 := by
    simp [moveOf]
  refine ⟨⟨h.flagged,fun q hz => ?_,fun q z hz hs _ => ?_⟩,fun he q z hz hs hq => ?_⟩
  · exact (held_append (fun a ha => (hdm q a ha).1)).trans (h.unseen q hz)
  · exact (h.owed q z hz hs nofun).frame rfl (hdm q) rfl (fun _ => id) id mem_of_mem_erase
      (fun hn => absurd hidx hn)
  · rw [he]
    exact ((h.owed q z hz hs nofun).covered hne hq).append (List.Sublist.refl [Mark.flushed (s.issued-1) 0])

theorem flushEndIo_durable (h : Stable s) (hd : DurInv F s none) (hm : .flushRq∈s.driver) :
    DurInv F (driverEnd hz s .flushRq error) none := by
  obtain ⟨q,hq,_⟩ := h.inv.running (h.inv.outstanding.mp (mem_append_right _ hm))
  have hw := pushWaiters_stable hz error
    (J := fun t => DurInv F t none ∧ Credit t s.runningIdx (s.issued-1) error)
    (fun _ _ _ hi hl hr hj => visit_durable hi hl hr hj) (accountFlush_inv error h.inv hm)
    (accountFlush_durable hd h.inv hm) rfl (ne_nil_of_mem hq)
  exact hw.2.1.same rfl rfl rfl rfl ⟨rfl,rfl,rfl⟩ (fun _ => id) (fun _ => id)

/-- What the data of a request leaves it with. -/
theorem hand_of_data (h : Stable s) (hd : DurInv F s none) (hm : .rq r∈s.driver) (hf : r∈s.lists .inFlight)
    (b : Option ℕ) (hy : s.inserted r=some y) (hs : Carries y) :
    Hand (recordSeq (((s.ended (.rq r)).setRq r {s.rqs r with bio := b}).mark
      (.performed r fseqData error)) r fseqData) r y error := by
  obtain ⟨_,hc,x,hx,_,_,_,hpr⟩ := h.inv.member hf
  cases hy.symm.trans hx
  have ho := hd.owed r y hy hs nofun
  have hcur := h.inv.flying r nofun hf
  obtain ⟨hdata,_,hfua⟩ := policy_data hs
  have hcd := (curSeq_data _ _ hpr hdata).2 hcur
  rw [hcur] at hcd
  obtain ⟨hpf,hdi⟩ := ho.driver hm
  have hrq : (recordSeq (((s.ended (.rq r)).setRq r {s.rqs r with bio := b}).mark
      (.performed r fseqData error)) r fseqData).rqs r={s.rqs r with
        bio := b
        seq := (s.rqs r).seq ||| fseqData} := by
    rw [recordSeq_rqs,update_self,Queue.mark,setRq_rqs]
  have htr : (recordSeq (((s.ended (.rq r)).setRq r {s.rqs r with bio := b}).mark
      (.performed r fseqData error)) r fseqData).trace=s.trace++[.performed r fseqData error] := rfl
  have hdm : ∀ a∈[Mark.performed r fseqData error], moveOf r a=0 := by simp [moveOf]
  have hnc := not_mem_append_mark (b := .performed r fseqData error) hc (by simp)
  generalize recordSeq (((s.ended (.rq r)).setRq r {s.rqs r with bio := b}).mark
    (.performed r fseqData error)) r fseqData=t at *
  have hlast : error=0 → .performed r fseqData 0∈t.trace := fun he => by
    rw [htr,he]
    exact mem_append_right _ mem_cons_self
  have hdone : Preflushed t.trace r y ∧ Dispatched t.trace r y := by
    rw [htr]
    exact ⟨hpf.append _,hdi.append hdm⟩
  refine Hand.of_step (htr ▸ hnc) (by rw [hrq]; exact ho.fua hc) (fun he => .inr (.inr ⟨⟨hlast he,hdone⟩,?_⟩))
  rw [hrq]
  exact hcd.imp_right (fun hcd => ⟨hcd.1,fun hfu => .inl (hfua hcd.2 hfu)⟩)

/-- What is owed when the driver gives a request back. -/
theorem DurInv.ended (h : DurInv F s none) (e : Entry) : DurInv F (s.ended e) none :=
  h.same rfl rfl rfl rfl ⟨rfl,rfl,rfl⟩ (fun _ => id) (fun _ => mem_of_mem_erase)

/-- The driver ends the data of a sequenced request. -/
theorem dataEnd_durable (h : Stable s) (hd : DurInv F s none) (hm : .rq r∈s.driver) (hf : r∈s.lists .inFlight) :
    DurInv F (driverEnd hz s (.rq r) error) none := by
  obtain ⟨hq,hc,_,_,hfs,hend,hb,_⟩ := h.inv.member hf
  obtain ⟨b,hdef⟩ := dataEnd_eq hz error hfs hend
  have hrec := (hd.ended (.rq r)).record (r := r) {s.rqs r with bio := b}
    (.performed r fseqData error) fseqData (fun _ _ => ⟨rfl,nofun⟩) rfl
  have hvb : ((((s.ended (.rq r)).setRq r {s.rqs r with bio := b}).mark
      (.performed r fseqData error)).rqs r).biotail≠none := by
    rw [Queue.mark,setRq_rqs]
    exact hb
  have hdur := hrec.complete hz (dataEnd_record error h hm hf b) hq (completions_performed hc) hvb
    (fun z hz hs => hand_of_data h hd hm hf b hz hs)
  rw [hdef]
  exact hdur.same rfl rfl rfl rfl ⟨rfl,rfl,rfl⟩ (fun _ => id) (fun _ => id)

theorem direct_policy : ∀ policy, isDirect policy=true →
    policy &&& fseqPreflush=0 ∧ policy &&& fseqPostflush=0 := by
  decide

theorem directEnd_durable (h : Stable s) (hd : DurInv F s none) (hm : .rq r∈s.driver) (hr : Direct s r)
    (hc : completions s.trace r=0) : DurInv F (driverEnd hz s (.rq r) error) none := by
  obtain ⟨y,hy,hdir⟩ := Option.map_eq_some_iff.mp hr
  obtain ⟨_,hfs,hb,hend⟩ := h.inv.directFields hy hdir hc
  have hdm : ∀ q, ∀ a∈[Mark.performed r fseqData error,.completed r error], moveOf q a=0 := by
    simp [moveOf]
  have hnl : ∀ l, r∉s.lists l := fun l hl =>
    ((h.inv.listed r nofun).mp ⟨l,hl⟩).1.not_direct hr
  have hnc := not_mem_completed hc
  rw [directEnd_eq hb hfs hend]
  refine ⟨hd.flagged,fun q hz => (held_append (hdm q)).trans (hd.unseen q hz),fun q z hz hs _ => ?_⟩
  have ho := hd.owed q z hz hs nofun
  by_cases hqr : q=r
  · rw [hqr] at hz ho ⊢
    rw [show s.inserted r=some z from hz] at hy
    cases hy
    obtain ⟨hpf,hdi⟩ := ho.driver hm
    have hgone := h.inv.gone (e := .rq r) nofun hm
    refine ⟨fun hz => ?_,fun i hi => absurd hi (hnl _),fun _ hi => absurd hi (hnl _),fun i hi => absurd hi (hnl _),
      fun i hi => absurd hi (hnl _),fun hi => absurd (mem_append_left _ hi) hgone,
      fun hi => absurd (mem_append_right _ hi) hgone,fun hi => ?_⟩
    · change completions (s.trace++[.performed r fseqData error,.completed r error]) r=0 at hz
      rw [append_cons,completions_append] at hz
      simp [endOf] at hz
    · change .completed r 0∈s.trace++[.performed r fseqData error,.completed r error] at hi
      have he : error=0 := by
        rcases mem_append.mp hi with hi|hi
        · exact absurd hi (hnc 0)
        · simpa [eq_comm] using hi
      refine ⟨(held_append (hdm r)).trans hdi.1,?_,hpf.append _,fun hfu => .inl ?_⟩
      · rw [he]
        exact mem_append_right _ mem_cons_self
      · have hfl := (policy_data hs).2.2 (direct_policy _ hdir).2 hfu
        refine ⟨hfl,mem_append_left _ ?_⟩
        have := hdi.2
        rw [hfl,hfu] at this
        exact this
  · refine ho.frame rfl ?_ (update_of_ne hqr _ _) (fun _ => id) id mem_of_mem_erase
      (fun hn hi => (ho.covered hn hi).trans (sublist_append_left _ _))
    intro a ha
    refine ⟨hdm q a ha,fun he => ?_⟩
    rw [he] at ha
    rcases mem_cons.mp ha with ha|ha
    · cases ha
    · exact hqr (Mark.completed.inj (mem_singleton.mp ha)).1

/-- A queue to which a request is added, in hand or with what is owed to it. -/
theorem DurInv.admitted {x : Option ℕ} (hd : DurInv F s none) (hfl : F s.flags)
    (hins : t.inserted=update s.inserted r (some ⟨s.flags,rq⟩))
    (hdis : ∀ q, held t.trace q=held s.trace q) (hoth : ∀ q z, q≠r → Owed s q z → Owed t q z)
    (hself : Carries ⟨s.flags,rq⟩ → x≠some r → Owed t r ⟨s.flags,rq⟩) : DurInv F t x := by
  refine ⟨fun q z hz => ?_,fun q hz => ?_,fun q z hz hs hx => ?_⟩
  · rw [hins] at hz
    by_cases hqr : q=r
    · rw [hqr,update_self] at hz
      cases hz
      exact hfl
    · rw [update_of_ne hqr] at hz
      exact hd.flagged q z hz
  · rw [hins] at hz
    rw [hdis]
    by_cases hqr : q=r
    · rw [hqr,update_self] at hz
      cases hz
    · rw [update_of_ne hqr] at hz
      exact hd.unseen q hz
  · rw [hins] at hz
    by_cases hqr : q=r
    · rw [hqr,update_self] at hz
      cases hz
      rw [hqr] at hx ⊢
      exact hself hs hx
    · rw [update_of_ne hqr] at hz
      exact hoth q z hqr (hd.owed q z hz hs nofun)

/-- A request with no flush to wait for is put on queue_head. -/
theorem insertDirect_durable (h : Stable s) (hd : DurInv F s none) (hfl : F s.flags) (hr : s.inserted r=none)
    (hdir : isDirect (blkFlushPolicy s.flags rq)=true) :
    DurInv F {(accept s r ⟨s.flags,rq⟩ (adjustFlags s.flags rq)).mark (.queued r) with
      queueHead := s.queueHead++[.rq r]} none := by
  obtain ⟨hnl,hne,hc,_⟩ := h.inv.fresh hr
  have hnc := not_mem_completed hc
  have hdm : ∀ q, ∀ a∈[Mark.inserted r,.queued r], moveOf q a=0 ∧ a≠.completed q 0 := by
    simp [moveOf]
  have htr : s.trace++[.inserted r]++[.queued r]=s.trace++[Mark.inserted r,.queued r] := by simp
  have hdis : ∀ q, held (s.trace++[.inserted r]++[.queued r]) q=held s.trace q := fun q => by
    rw [htr,held_append (fun a ha => (hdm q a ha).1)]
  refine hd.admitted hfl rfl hdis (fun q z hqr ho => ?_) (fun hs _ => ?_)
  · refine ho.frame (m := [.inserted r,.queued r]) htr (hdm q) (update_of_ne hqr _ _) (fun _ => id)
      (fun hi => ?_) id (fun hn hi => ?_)
    · rcases mem_append.mp hi with hi|hi
      · exact hi
      · exact absurd (Entry.rq.inj (mem_singleton.mp hi)) hqr
    · show List.Sublist _ (s.trace++[.inserted r]++[.queued r])
      rw [htr]
      exact (ho.covered hn hi).trans (sublist_append_left _ _)
  · have hnf : rq.flush=false := (policy_data hs).2.1 (direct_policy _ hdir).1
    refine ⟨fun _ => ?_,fun i hi => absurd hi (hnl _),fun _ hi => absurd hi (hnl _),fun i hi => absurd hi (hnl _),
      fun i hi => absurd hi (hnl _),fun _ => ⟨fun hf => ?_,(hdis r).trans (hd.unseen r hr)⟩,
      fun hi => absurd (mem_append_right _ hi) hne,fun hi => ?_⟩
    · show (update s.rqs r (adjustFlags s.flags rq) r).fua=_
      rw [update_self]
      rfl
    · rw [show rq.flush=true from hf] at hnf
      cases hnf
    · change .completed r 0∈s.trace++[.inserted r]++[.queued r] at hi
      rw [htr] at hi
      rcases mem_append.mp hi with hi|hi
      · exact absurd hi (hnc 0)
      · exact absurd rfl (hdm r _ hi).2

/-- A request with a flush to wait for starts its sequence. -/
theorem insertSequenced_durable (h : Stable s) (hd : DurInv F s none) (hfl : F s.flags) (hr : s.inserted r=none)
    (hb : rq.biotail≠none) (hdir : isDirect (blkFlushPolicy s.flags rq)=false) :
    DurInv F (blkFlushCompleteSeq hz (accept s r ⟨s.flags,rq⟩ (enterSequence (adjustFlags s.flags rq))) r
      (fseqActions &&& ~~~blkFlushPolicy s.flags rq) 0).1 none := by
  have hc := (h.inv.fresh hr).2.2.1
  have hrec := insert_record h.inv hr hb hdir
  have hdis : ∀ q, held (s.trace++[.inserted r]) q=held s.trace q := fun q =>
    held_append (by simp [moveOf])
  have hur := accept_rqs s r ⟨s.flags,rq⟩ (enterSequence (adjustFlags s.flags rq))
  have hui : (accept s r ⟨s.flags,rq⟩ (enterSequence (adjustFlags s.flags rq))).inserted r=some ⟨s.flags,rq⟩ :=
    update_self ..
  have huq : Sequenced (accept s r ⟨s.flags,rq⟩ (enterSequence (adjustFlags s.flags rq))) r := by
    rw [Sequenced,way,hui,Option.map_some,hdir]
  have huc : completions (accept s r ⟨s.flags,rq⟩ (enterSequence (adjustFlags s.flags rq))).trace r=0 := by
    rw [accept,completions_append]
    exact hc
  have hdur : DurInv F (recordSeq (accept s r ⟨s.flags,rq⟩ (enterSequence (adjustFlags s.flags rq))) r
      (fseqActions &&& ~~~blkFlushPolicy s.flags rq)) (some r) := by
    refine hd.admitted hfl rfl hdis (fun q z hqr ho => ?_) (fun _ hx => absurd rfl hx)
    refine ho.frame (m := [.inserted r]) rfl (by simp [moveOf]) ?_ (fun _ => id) id id
      (fun hn hi => (ho.covered hn hi).trans (sublist_append_left _ _))
    rw [recordSeq_rqs,update_of_ne hqr]
    exact update_of_ne hqr _ _
  refine hdur.complete hz hrec huq huc (by rw [hur]; exact hb) (fun y hy hs => ?_)
  rw [hui] at hy
  cases hy
  obtain ⟨hdata,hpre,_⟩ := policy_data hs
  have hstart := curSeq_start _ hdata
  have hrq : (recordSeq (accept s r ⟨s.flags,rq⟩ (enterSequence (adjustFlags s.flags rq))) r
      (fseqActions &&& ~~~blkFlushPolicy s.flags rq)).rqs r={enterSequence (adjustFlags s.flags rq) with
        seq := 0 ||| (fseqActions &&& ~~~blkFlushPolicy s.flags rq)} := by
    rw [recordSeq_rqs,update_self,hur]
    rfl
  have htr : (recordSeq (accept s r ⟨s.flags,rq⟩ (enterSequence (adjustFlags s.flags rq))) r
      (fseqActions &&& ~~~blkFlushPolicy s.flags rq)).trace=s.trace++[.inserted r] := rfl
  generalize recordSeq (accept s r ⟨s.flags,rq⟩ (enterSequence (adjustFlags s.flags rq))) r
    (fseqActions &&& ~~~blkFlushPolicy s.flags rq)=t at *
  have hdt : held t.trace r=0 := by rw [htr,hdis,hd.unseen r hr]
  refine Hand.of_step (htr ▸ not_mem_append_mark hc (by simp)) (by rw [hrq]; rfl) (fun _ => ?_)
  rw [hrq]
  rcases hstart with hst|hst
  · exact .inl ⟨hst,htr ▸ mem_append_right _ mem_cons_self,hdt⟩
  · exact .inr (.inl ⟨hst.1,hdt,fun hf => absurd ((hpre hst.2).symm.trans hf) Bool.false_ne_true⟩)

/-- A new request is inserted. -/
theorem insert_durable (h : Stable s) (hd : DurInv F s none) (hfl : F s.flags) (hr : s.inserted r=none)
    (flush fua : Bool) (sectors bio : ℕ) :
    DurInv F (insertEvent hz s r (freshRequest flush fua sectors bio)) none := by
  rw [insertEvent_eq]
  dsimp only
  split
  · rename_i hdir
    exact insertDirect_durable h hd hfl hr hdir
  · rename_i hdir
    exact insertSequenced_durable h hd hfl hr nofun (Bool.eq_false_of_not_eq_true hdir)

/-- A request on queue_head or with the driver was inserted, did not complete and waits for no flush. -/
theorem Stable.entry_live (h : Stable s) (hm : .rq r∈s.queueHead++s.driver) :
    s.inserted r≠none ∧ completions s.trace r=0 ∧ ∀ i, r∉s.lists (.queue i) := by
  have hseen : ∀ {b}, way s r=some b → s.inserted r≠none := fun hb hn => by
    rw [way,hn] at hb
    cases hb
  rcases ((h.inv.linked r).mp hm).2 with hf|hf
  · obtain ⟨hq,hc⟩ := (h.inv.listed r (by simp)).mp ⟨_,hf⟩
    exact ⟨hseen hq,hc,fun i hi => absurd (h.inv.separate.unique _ _ r hf hi) (by simp)⟩
  · exact ⟨hseen hf.1,hf.2,fun i hi => ((h.inv.listed r (by simp)).mp ⟨_,hi⟩).1.not_direct hf.1⟩

/-- A request moves between queue_head and the driver. -/
theorem DurInv.moved (h : Stable s) (hd : DurInv F s none) (hm : .rq r∈s.queueHead++s.driver) {a b : List Entry}
    {x : Mark} (hx : x=.dispatched r (s.rqs r).fua ∨ x=.requeued r)
    (ha : ∀ q, q≠r → .rq q∈a → .rq q∈s.queueHead) (hb : ∀ q, q≠r → .rq q∈b → .rq q∈s.driver)
    (hown : ∀ y, Owed s r y → (s.rqs r).fua=(y.flags.fua && y.rq.fua) →
      (.rq r∈a → Preflushed s.trace r y ∧ held (s.trace++[x]) r=0) ∧
      (.rq r∈b → Preflushed s.trace r y ∧ Dispatched (s.trace++[x]) r y)) :
    DurInv F {s with queueHead := a, driver := b, trace := s.trace++[x]} none := by
  obtain ⟨hseen,hc,hl⟩ := Stable.entry_live h hm
  have hother : ∀ q, q≠r → ∀ z∈[x], moveOf q z=0 ∧ z≠.completed q 0 := by
    intro q hq z hz
    rw [mem_singleton.mp hz]
    rcases hx with rfl|rfl <;> exact ⟨if_neg (Ne.symm hq),nofun⟩
  refine ⟨hd.flagged,fun q hz => ?_,fun q z hz hs hn => ?_⟩
  · have hq : q≠r := fun he => hseen (he ▸ hz)
    exact (held_append (fun z hz => (hother q hq z hz).1)).trans (hd.unseen q hz)
  · have ho := hd.owed q z hz hs hn
    by_cases hq : q=r
    · subst hq
      have hfua := ho.fua hc
      obtain ⟨hh,hdr⟩ := hown z ho hfua
      exact ⟨fun _ => hfua,fun i hi => absurd hi (hl i),fun _ hi => absurd hi (hl _),fun i hi => absurd hi (hl i),
        fun i hi => absurd hi (hl i),fun hi => (hh hi).imp_left (·.append _),fun hi => (hdr hi).imp_left (·.append _),
        fun hi => absurd hi (not_mem_append_mark hc (by rcases hx with rfl|rfl <;> simp))⟩
    · exact ho.frame rfl (hother q hq) rfl (fun _ => id) (ha q hq) (hb q hq)
        (fun hn hi => (ho.covered hn hi).trans (sublist_append_left _ _))

/-- The driver takes a request from queue_head. -/
theorem fetch_durable (h : Stable s) (hd : DurInv F s none) : DurInv F (driverFetch s) none := by
  unfold driverFetch
  split
  · split
    · exact hd.same rfl rfl rfl rfl ⟨rfl,rfl,rfl⟩ (fun _ => id) (fun _ => id)
    · exact hd
  · rename_i e es hq
    have hsub : ∀ f, f∈es → f∈s.queueHead := fun f hf => hq ▸ mem_cons_of_mem e hf
    cases e with
    | flushRq | other n =>
      exact hd.same rfl rfl rfl rfl ⟨rfl,rfl,rfl⟩ (fun q => hsub _) (fun q hm => (mem_cons.mp hm).resolve_left nofun)
    | rq r =>
      have hmem : .rq r∈s.queueHead := hq ▸ mem_cons_self
      have hgone : .rq r∉es++s.driver :=
        not_mem_rest (.of_eq (by rw [hq]; rfl)) (h.inv.single _ nofun)
      refine hd.moved h (mem_append_left _ hmem) (.inl rfl) (fun q _ => hsub _)
        (fun q hn hm => (mem_cons.mp hm).resolve_left (fun he => hn (Entry.rq.inj he)))
        (fun y ho hfua => ⟨fun hi => absurd (mem_append_left _ hi) hgone,fun _ => ?_⟩)
      obtain ⟨hpf,hzero⟩ := ho.head hmem
      refine ⟨hpf,?_,?_⟩
      · rw [held_concat,hzero]
        simp [moveOf]
      · rw [hfua]
        exact mem_append_right _ mem_cons_self

/-- The driver gives an entry back. -/
theorem requeue_durable (h : Stable s) (hd : DurInv F s none) {e : Entry} (he : e∈s.driver) :
    DurInv F (blkRequeueRequest s e) none := by
  cases e with
  | flushRq | other n =>
    exact hd.same rfl rfl rfl rfl ⟨rfl,rfl,rfl⟩ (fun q hm => (mem_cons.mp hm).resolve_left nofun)
      (fun q => mem_of_mem_erase)
  | rq r =>
    have hgone := h.inv.gone (e := .rq r) nofun he
    refine hd.moved h (mem_append_right _ he) (.inr rfl)
      (fun q hn hm => (mem_cons.mp hm).resolve_left (fun hq => hn (Entry.rq.inj hq)))
      (fun q _ => mem_of_mem_erase) (fun y ho _ => ⟨fun _ => ?_,fun hi => absurd (mem_append_right _ hi) hgone⟩)
    obtain ⟨hpf,hone,-⟩ := ho.driver he
    refine ⟨hpf,?_⟩
    rw [held_concat,hone]
    simp [moveOf]

theorem driverEnd_durable (h : Stable s) (hd : DurInv F s none) {e : Entry} (he : e∈s.driver) :
    DurInv F (driverEnd hz s e error) none := by
  cases e with
  | flushRq => exact flushEndIo_durable h hd he
  | other n => exact hd.ended (.other n)
  | rq r =>
    rcases ((h.inv.linked r).mp (mem_append_right _ he)).2 with hf|hf
    · exact dataEnd_durable h hd he hf
    · exact directEnd_durable h hd he hf.1 hf.2

theorem flushStep_durable (h : Stable s) (hd : DurInv F s none) (hfl : F s.flags)
    (ht : flushStep hz s a=some t) : DurInv F t none := by
  cases a with
  | insert r flush fua sectors bio =>
    obtain ⟨hr,rfl⟩ := of_guard ht
    exact insert_durable h hd hfl hr flush fua sectors bio
  | setFlags flags | setQueueable b | tick n =>
    cases ht
    exact hd.same rfl rfl rfl rfl ⟨rfl,rfl,rfl⟩ (fun _ => id) (fun _ => id)
  | link i n =>
    cases ht
    refine hd.same rfl rfl rfl rfl ⟨rfl,rfl,rfl⟩ (fun r hr => ?_) (fun _ => id)
    exact (eq_or_mem_of_mem_insertIdx hr).resolve_left (by simp)
  | fetch =>
    cases ht
    exact fetch_durable h hd
  | requeue e =>
    obtain ⟨he,rfl⟩ := of_guard ht
    exact requeue_durable h hd he
  | complete e error =>
    obtain ⟨he,rfl⟩ := of_guard ht
    exact driverEnd_durable h hd he

/-- The states of a queue whose device has a cache throughout. -/
abbrev CachedRun (hz : ℕ) (s : Queue w) : Prop :=
  Reachable (fun s => Start s ∧ s.flags.flush=true)
    (fun s a t => flushStep hz s a=some t ∧ t.flags.flush=true) s

/-- At the start nothing is owed. -/
theorem start_durable (h : Start s) : DurInv F s none := by
  obtain ⟨-,-,-,-,hins,htr,-,-⟩ := h
  have hnone : ∀ {r y}, s.inserted r≠some y := fun {r y} hy => by
    rw [hins] at hy
    cases hy
  refine ⟨fun r y hy => absurd hy hnone,fun r _ => ?_,fun r y hy => absurd hy hnone⟩
  rw [htr]
  rfl

/-- What is owed holds throughout, whatever becomes of the flags of the device. -/
theorem FlushRun.durable (hr : FlushRun hz s) : DurInv (fun _ => True) s none := by
  have hall : Stable s ∧ DurInv (fun _ => True) s none :=
    Reachable.invariant (I := fun s => Stable s ∧ DurInv (fun _ => True) s none)
      (fun _ hs => ⟨start_stable hs,start_durable hs⟩)
      (fun _ _ _ _ hi ht => ⟨flushStep_stable hi.1 ht,flushStep_durable hi.1 hi.2 trivial ht⟩) hr
  exact hall.2

/-- What is owed holds throughout. -/
theorem CachedRun.durable (hr : CachedRun hz s) : Stable s ∧ DurInv (fun flags => flags.flush=true) s none := by
  have hall : Stable s ∧ DurInv (fun flags => flags.flush=true) s none ∧ s.flags.flush=true :=
    Reachable.invariant (I := fun s => Stable s ∧ DurInv (fun flags => flags.flush=true) s none ∧ s.flags.flush=true)
      (fun _ hs => ⟨start_stable hs.1,start_durable hs.1,hs.2⟩)
      (fun _ _ _ _ hi ht => ⟨flushStep_stable hi.1 ht.1,flushStep_durable hi.1 hi.2.1 hi.2.2 ht.1,ht.2⟩) hr
  exact ⟨hall.1,hall.2.1⟩

end BlockIpc.FlushDurability
