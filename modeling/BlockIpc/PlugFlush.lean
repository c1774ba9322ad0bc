import BlockIpc.TransitionRuns

/-!
# Flushing a plug

A task with a plug keeps its new requests in a list. A flush takes the whole list, sorts it by
queue if requests of two queues were noted, and passes the requests on, one queue after the other
and under its lock. The note is made by comparing a request with the last one only. The plug may
be flushed at any point, also while a request is being allocated. External code decides which bios
merge. Callbacks of the plug submit nothing and are left out.
-/

namespace BlockIpc.PlugFlush

open List TransitionRuns

structure Bio where
  id : ℕ
  /-- Address of its queue. -/
  q : ℕ
  /-- REQ_FLUSH or REQ_FUA. -/
  flush : Bool
  deriving DecidableEq

structure Rq where
  /-- Number of requests that were plugged before. -/
  id : ℕ
  q : ℕ
  flush : Bool
  bios : List Bio
  deriving DecidableEq

structure Plug where
  list : List Rq
  shouldSort : Bool

inductive Call where
  | lock (q : ℕ)
  | unlock (q : ℕ)
  /-- __elv_add_request, with ELEVATOR_INSERT_FLUSH or ELEVATOR_INSERT_SORT_MERGE. -/
  | add (q : ℕ) (rq : Rq) (flush : Bool)
  /-- __blk_run_queue. -/
  | run (q : ℕ)
  /-- blk_run_queue_async. -/
  | runAsync (q : ℕ)
  deriving DecidableEq

/-- A stable sort. The comparison says that its first argument belongs behind the second one; entries
of which neither does keep their order. -/
structure StableSort {α : Type} (cmp : α → α → Bool) where
  sort : List α → List α
  sorted : ∀ l, (sort l).Pairwise (fun a b => cmp a b=false)
  stable : ∀ l a, (sort l).filter (fun b => !cmp a b && !cmp b a)=l.filter (fun b => !cmp a b && !cmp b a)

def plugRqCmp (a b : Rq) : Bool := !decide (a.q≤b.q)

def queueUnplugged (fromSchedule : Bool) (q : ℕ) : List Call :=
  if fromSchedule then [.unlock q,.runAsync q] else [.run q,.unlock q]

/-- The loop of blk_flush_plug_list, with the queue whose lock is held. -/
def flushLoop (fromSchedule : Bool) : Option ℕ → List Rq → List Call
  | held,[] => held.elim [] (queueUnplugged fromSchedule)
  | held,rq::l =>
    if held=some rq.q then .add rq.q rq rq.flush::flushLoop fromSchedule held l
    else held.elim [] (queueUnplugged fromSchedule)++
      .lock rq.q::.add rq.q rq rq.flush::flushLoop fromSchedule (some rq.q) l

/-- The list in the order in which it is passed on. -/
def Plug.sorted (listSort : StableSort plugRqCmp) (p : Plug) : List Rq :=
  if p.shouldSort then listSort.sort p.list else p.list

/-- blk_flush_plug_list: the calls and the plug afterwards. -/
def blkFlushPlugList (listSort : StableSort plugRqCmp) (p : Plug) (fromSchedule : Bool) : List Call × Plug :=
  if p.list=[] then ([],p) else (flushLoop fromSchedule none (p.sorted listSort),⟨[],false⟩)

/-- Whether elv_try_merge and then bio_attempt_back_merge or bio_attempt_front_merge take a bio. -/
inductive Merge where
  | none
  | front
  | back

/-- The walk of attempt_plug_merge, over the reversed list. -/
def mergeLoop (takes : Rq → Bio → Merge) (bio : Bio) : List Rq → Option (List Rq)
  | [] => none
  | rq::l =>
    if rq.q≠bio.q then (mergeLoop takes bio l).map (rq::·)
    else match takes rq bio with
      | .back => some ({rq with bios := rq.bios++[bio]}::l)
      | .front => some ({rq with bios := bio::rq.bios}::l)
      | .none => (mergeLoop takes bio l).map (rq::·)

/-- attempt_plug_merge: the list after a merge. -/
def attemptPlugMerge (takes : Rq → Bio → Merge) (bio : Bio) (p : Plug) : Option (List Rq) :=
  (mergeLoop takes bio p.list.reverse).map reverse

/-- The end of __make_request: a request is plugged. -/
def Plug.add (p : Plug) (rq : Rq) : Plug where
  list := p.list++[rq]
  shouldSort := match p.list.getLast? with
    | none => p.shouldSort
    | some last => if !p.shouldSort && last.q≠rq.q then true else p.shouldSort

structure Task where
  plug : Plug
  /-- The bio for which __make_request is between get_rq and the plug. -/
  pending : Option Bio
  /-- Queue and number of the requests plugged so far. -/
  plugged : List (ℕ×ℕ)
  log : List Call

inductive Event where
  /-- __make_request up to get_rq; whether elv_merge finds a request that takes the bio. -/
  | submit (takes : Rq → Bio → Merge) (bio : Bio) (elvMerges : Bool)
  /-- __make_request plugs its request. -/
  | plug
  | flush (fromSchedule : Bool)

/-- One step of a task, when it can be made. -/
def taskStep (listSort : StableSort plugRqCmp) (s : Task) : Event → Option Task
  | .submit takes bio elvMerges =>
    if s.pending.isSome then none
    else if bio.flush then some {s with pending := some bio}
    else match attemptPlugMerge takes bio s.plug with
      | some l => some {s with plug.list := l}
      | none => some (if elvMerges then s else {s with pending := some bio})
  | .plug => s.pending.map (fun bio => {s with
      plug := s.plug.add ⟨s.plugged.length,bio.q,bio.flush,[bio]⟩
      pending := none
      plugged := s.plugged++[(bio.q,s.plugged.length)]})
  | .flush fromSchedule =>
    let r := blkFlushPlugList listSort s.plug fromSchedule
    some {s with plug := r.2, log := s.log++r.1}

def blkStartPlug : Task := ⟨⟨[],false⟩,none,[],[]⟩

/-- States of all runs. -/
def PlugReachable (listSort : StableSort plugRqCmp) (s : Task) : Prop :=
  Reachable (·=blkStartPlug) (fun s e t => taskStep listSort s e=some t) s

/-- Queue and number of a request. -/
def Rq.key (rq : Rq) : ℕ×ℕ := (rq.q,rq.id)

/-- The request that a call passes on. -/
def Call.passes : Call → Option Rq
  | .add _ rq _ => some rq
  | _ => none

/-- The requests that calls pass on, in their order. -/
def passed (calls : List Call) : List Rq := calls.filterMap Call.passes

/-- A call runs a queue. -/
def Call.runs (q : ℕ) : Call → Bool
  | .run p | .runAsync p => p=q
  | _ => false

/-- The lock held after a call, if the call is allowed: a request is passed to its own queue and under its lock. -/
def lockStep (held : Option ℕ) : Call → Option (Option ℕ)
  | .lock q => if held=none then some (some q) else none
  | .unlock q => if held=some q then some none else none
  | .add q rq _ => if held=some q ∧ rq.q=q then some held else none
  | .run q => if held=some q then some held else none
  | .runAsync _ => if held=none then some held else none

/-- All requests are of one queue. -/
def OneQueue (l : List Rq) : Prop := ∀ a∈l.map Rq.q, ∀ b∈l.map Rq.q, a=b

variable {fromSchedule : Bool} {l l' : List Rq} {rq : Rq} {p : Plug} {s t : Task}
  {listSort : StableSort plugRqCmp} {takes : Rq → Bio → Merge} {bio : Bio}

/-- What dropping the lock of a queue does. -/
theorem unplugged_spec (held : Option ℕ) (fromSchedule : Bool) :
    let calls := held.elim [] (queueUnplugged fromSchedule)
    passed calls=[] ∧ calls.foldlM lockStep held=some none ∧ ∀ q, calls.count (.lock q)=0 ∧
      calls.countP (Call.runs q)=if held=some q then 1 else 0 := by
  cases held with
  | none => simp [passed]
  | some p => cases fromSchedule <;> simp [queueUnplugged,passed,Call.passes,lockStep,Call.runs,countP_cons]

/-- The loop passes every request on, in the order of the list and under the lock of its queue. If the list is
sorted by queue, every queue is locked and run once. -/
theorem flushLoop_spec (fromSchedule : Bool) (held : Option ℕ) (hl : l.Pairwise (fun a b => a.q≤b.q))
    (hh : ∀ p∈held, ∀ rq∈l, p ≤ rq.q) :
    passed (flushLoop fromSchedule held l)=l ∧ (flushLoop fromSchedule held l).foldlM lockStep held=some none ∧
    ∀ q, (flushLoop fromSchedule held l).count (.lock q)=(if q∈l.map Rq.q ∧ held≠some q then 1 else 0) ∧
      (flushLoop fromSchedule held l).countP (Call.runs q)=if q∈l.map Rq.q ∨ held=some q then 1 else 0 := by
  induction l generalizing held with
  | nil => simpa [flushLoop] using unplugged_spec held fromSchedule
  | cons rq l ih =>
    obtain ⟨hrq,hl⟩ := pairwise_cons.mp hl
    unfold flushLoop
    split
    · next hsame =>
      subst hsame
      obtain ⟨hpassed,hlocks,hcounts⟩ := ih _ hl (fun p hp x hx => hh p hp x (mem_cons_of_mem _ hx))
      unfold passed at hpassed ⊢
      refine ⟨by simp [Call.passes,hpassed],by simp [lockStep,hlocks],fun q => ?_⟩
      rw [count_cons,countP_cons,(hcounts q).1,(hcounts q).2]
      grind [Call.runs]
    · next hnew =>
      obtain ⟨hpassed,hlocks,hcounts⟩ := ih (some rq.q) hl (fun p hp x hx => by cases hp; exact hrq x hx)
      obtain ⟨hnone,hdrop,hdrops⟩ := unplugged_spec held fromSchedule
      unfold passed at hpassed hnone ⊢
      refine ⟨by simp [Call.passes,hpassed,hnone,filterMap_cons],by simp [lockStep,hlocks,hdrop],fun q => ?_⟩
      -- the queue whose lock is dropped does not come again
      have hpast : held=some q → q∉(rq::l).map Rq.q := by
        rintro rfl hq
        obtain ⟨x,hx,rfl⟩ := mem_map.mp hq
        have hle := hh _ rfl rq mem_cons_self
        rcases mem_cons.mp hx with rfl | hx
        · exact hnew rfl
        · exact hnew (congrArg some (le_antisymm hle (hrq x hx)))
      rw [count_append,countP_append,(hdrops q).1,(hdrops q).2,count_cons,count_cons,countP_cons,countP_cons,
        (hcounts q).1,(hcounts q).2]
      grind [Call.runs]

/-- Lists that agree on every class of a key are permutations of each other. -/
theorem perm_of_filter {α : Type} [DecidableEq α] {l l' : List α} (key : α → ℕ)
    (h : ∀ q, l.filter (fun a => key a=q)=l'.filter (fun a => key a=q)) : l.Perm l' := by
  refine perm_iff_count.mpr (fun a => ?_)
  rw [← count_filter (p := fun b => key b=key a) (l := l) (by simp),h,count_filter (by simp)]

theorem plugRqCmp_false {a b : Rq} : plugRqCmp a b=false ↔ a.q≤b.q := by simp [plugRqCmp]

/-- The order in which a flush passes the list on is sorted by queue and keeps the order of the requests of
each queue. -/
theorem sorted_spec (listSort : StableSort plugRqCmp) (h : p.shouldSort=false → OneQueue p.list) :
    (p.sorted listSort).Pairwise (fun a b => a.q≤b.q) ∧
    ∀ q, (p.sorted listSort).filter (·.q=q)=p.list.filter (·.q=q) := by
  unfold Plug.sorted
  split
  · have hclass : ∀ q b, (!plugRqCmp ⟨0,q,false,[]⟩ b && !plugRqCmp b ⟨0,q,false,[]⟩)=decide (b.q=q) := by
      intro q b
      simp [plugRqCmp,le_antisymm_iff,and_comm]
    refine ⟨(listSort.sorted p.list).imp plugRqCmp_false.mp,fun q => ?_⟩
    simpa only [hclass] using listSort.stable p.list ⟨0,q,false,[]⟩
  · next hsort =>
    refine ⟨pairwise_of_forall_mem_list (fun a ha b hb => ?_),fun _ => rfl⟩
    exact (h (by simpa using hsort) _ (mem_map_of_mem ha) _ (mem_map_of_mem hb)).le

/-- A flush passes the sorted list on and leaves the list empty. -/
theorem flush_eq (listSort : StableSort plugRqCmp) (fromSchedule : Bool) (h : p.shouldSort=false → OneQueue p.list) :
    (blkFlushPlugList listSort p fromSchedule).1=flushLoop fromSchedule none (p.sorted listSort) ∧
    (blkFlushPlugList listSort p fromSchedule).2.list=[] := by
  have hperm : (p.sorted listSort).Perm p.list := perm_of_filter Rq.q (sorted_spec _ h).2
  unfold blkFlushPlugList
  split
  · next hempty =>
    rw [hempty] at hperm
    simp [hempty,hperm.eq_nil,flushLoop]
  · exact ⟨rfl,rfl⟩

theorem mergeLoop_key (h : mergeLoop takes bio l=some l') : l'.map Rq.key=l.map Rq.key := by
  induction l generalizing l' with
  | nil => cases h
  | cons rq l ih =>
    have hnext : (mergeLoop takes bio l).map (rq::·)=some l' → l'.map Rq.key=(rq::l).map Rq.key := by
      intro h
      obtain ⟨m,hm,rfl⟩ := Option.map_eq_some_iff.mp h
      rw [map_cons,map_cons,ih hm]
    -- a merge changes the bios only, and otherwise the walk goes on
    unfold mergeLoop at h
    repeat' split at h
    all_goals first | exact hnext h | (cases h; rfl)

/-- The last request stands for the whole list when the next one is plugged. -/
theorem add_noted (h : p.shouldSort=false → OneQueue p.list) (hn : (p.add rq).shouldSort=false) :
    OneQueue (p.add rq).list := by
  have hall : ∀ a∈p.list.map Rq.q, a=rq.q := by
    cases hl : p.list.getLast? with
    | none => simp [getLast?_eq_none_iff.mp hl]
    | some last =>
      obtain ⟨hold,hlast⟩ : p.shouldSort=false ∧ last.q=rq.q := by
        simp only [Plug.add,hl] at hn
        grind
      intro a ha
      rw [← hlast]
      exact h hold a ha _ (mem_map_of_mem (mem_of_getLast? hl))
  have hadd : ∀ a∈(p.add rq).list.map Rq.q, a=rq.q := by
    simpa [Plug.add,or_imp,forall_and] using hall
  exact fun a ha b hb => (hadd a ha).trans (hadd b hb).symm

structure PlugInv (s : Task) : Prop where
  noted : s.plug.shouldSort=false → OneQueue s.plug.list
  /-- The requests of a queue were passed on, and are plugged, in the order in which they were plugged. -/
  order : ∀ q, ((passed s.log++s.plug.list).map Rq.key).filter (·.1=q)=s.plugged.filter (·.1=q)
  numbers : s.plugged.map Prod.snd=range s.plugged.length

/-- A bio is merged into a plugged request. -/
theorem PlugInv.merge (hi : PlugInv s) (h : attemptPlugMerge takes bio s.plug=some l) :
    PlugInv {s with plug.list := l} := by
  have hkey : l.map Rq.key=s.plug.list.map Rq.key := by
    obtain ⟨m,hm,rfl⟩ := Option.map_eq_some_iff.mp h
    rw [map_reverse,mergeLoop_key hm,map_reverse,reverse_reverse]
  have hq : l.map Rq.q=s.plug.list.map Rq.q := by
    simpa [Rq.key,Function.comp_def] using congrArg (map Prod.fst) hkey
  refine ⟨fun hn => ?_,fun q => ?_,hi.numbers⟩
  · unfold OneQueue
    rw [hq]
    exact hi.noted hn
  · rw [← hi.order q,map_append,hkey,map_append]

theorem PlugInv.flush (hi : PlugInv s) : PlugInv {s with
    plug := (blkFlushPlugList listSort s.plug fromSchedule).2
    log := s.log++(blkFlushPlugList listSort s.plug fromSchedule).1} := by
  obtain ⟨hcalls,hlist⟩ := flush_eq listSort fromSchedule hi.noted
  obtain ⟨hsorted,hclass⟩ := sorted_spec listSort hi.noted
  refine ⟨fun hn => by simp [OneQueue,hlist],fun q => ?_,hi.numbers⟩
  have hpassed : passed (s.log++flushLoop fromSchedule none (s.plug.sorted listSort))=
      passed s.log++s.plug.sorted listSort :=
    filterMap_append.trans (congrArg _ (flushLoop_spec _ _ hsorted (by simp)).1)
  have hq := congrArg (map Rq.key) (hclass q)
  rw [← hi.order q]
  simp only [hcalls,hpassed,hlist,append_nil,map_append,filter_append,filter_map,append_cancel_left_eq]
  exact hq

theorem PlugInv.step {e : Event} (hi : PlugInv s) (h : taskStep listSort s e=some t) : PlugInv t := by
  cases e with
  | submit takes bio elvMerges =>
    obtain ⟨_,h⟩ := Option.ite_none_left_eq_some.mp h
    split at h
    · cases h
      exact {hi with}
    · split at h
      · next l hl =>
        cases h
        exact hi.merge hl
      · cases h
        split <;> exact {hi with}
  | plug =>
    obtain ⟨bio,_,rfl⟩ := Option.map_eq_some_iff.mp h
    refine ⟨add_noted hi.noted,fun q => ?_,by simp [hi.numbers,range_succ]⟩
    rw [filter_append,← hi.order q,← filter_append]
    simp [Plug.add,Rq.key]
  | flush fromSchedule =>
    cases h
    exact hi.flush

theorem plugReachable_inv (h : PlugReachable listSort s) : PlugInv s := by
  refine Reachable.invariant ?_ (fun s e t _ hi hs => hi.step hs) h
  rintro s rfl
  exact ⟨fun _ => by simp [OneQueue,blkStartPlug],fun _ => rfl,rfl⟩

/-- In every run the requests of a queue have been passed on, and are plugged, in the order in which they were
plugged, each of them once. A flush at any point passes each plugged request once, to its own queue and under the
lock of that queue, and the requests of one queue in the order of the plug. It locks and runs each of their queues
once and no other, and it leaves the list empty; requests of two queues have set should_sort. -/
theorem plug_flushed_once {s : Task} (h : PlugReachable listSort s) (fromSchedule : Bool) :
    let r := blkFlushPlugList listSort s.plug fromSchedule
    (s.plugged.Nodup ∧ ∀ q, ((passed s.log++s.plug.list).map Rq.key).filter (·.1=q)=s.plugged.filter (·.1=q)) ∧
    (s.plug.list.map Rq.key).Nodup ∧ (passed r.1).Perm s.plug.list ∧ r.1.foldlM lockStep none=some none ∧
    (∀ q, (passed r.1).filter (·.q=q)=s.plug.list.filter (·.q=q)) ∧
    (∀ q, r.1.count (.lock q)=(if q∈s.plug.list.map Rq.q then 1 else 0) ∧
      r.1.countP (Call.runs q)=if q∈s.plug.list.map Rq.q then 1 else 0) ∧
    r.2.list=[] ∧ (¬OneQueue s.plug.list → s.plug.shouldSort=true) := by
  have hi := plugReachable_inv h
  obtain ⟨hcalls,hlist⟩ := flush_eq listSort fromSchedule hi.noted
  obtain ⟨hsorted,hclass⟩ := sorted_spec listSort hi.noted
  obtain ⟨hpassed,hlocks,hcounts⟩ := flushLoop_spec fromSchedule none hsorted (by simp)
  have hperm : (s.plug.sorted listSort).Perm s.plug.list := perm_of_filter Rq.q hclass
  have hnodup : s.plugged.Nodup := Nodup.of_map Prod.snd (hi.numbers ▸ nodup_range)
  have hkeys : ((passed s.log++s.plug.list).map Rq.key).Nodup :=
    (perm_of_filter Prod.fst hi.order).nodup_iff.mpr hnodup
  rw [map_append] at hkeys
  dsimp only
  rw [hcalls,hpassed]
  refine ⟨⟨hnodup,hi.order⟩,hkeys.of_append_right,hperm,hlocks,hclass,fun q => ?_,hlist,fun hn => ?_⟩
  · simpa [(hperm.map Rq.q).mem_iff] using hcounts q
  · by_contra hs
    exact hn (hi.noted (by simpa using hs))

theorem insertionSort_sorted (l : List Rq) :
    (insertionSort (fun a b => plugRqCmp a b=false) l).Pairwise (fun a b => plugRqCmp a b=false) := by
  have htotal : Std.Total (fun a b => plugRqCmp a b=false) :=
    ⟨fun a b => by simpa only [plugRqCmp_false] using le_total a.q b.q⟩
  have htrans : IsTrans Rq (fun a b => plugRqCmp a b=false) :=
    ⟨fun a b c hab hbc => plugRqCmp_false.mpr ((plugRqCmp_false.mp hab).trans (plugRqCmp_false.mp hbc))⟩
  exact pairwise_insertionSort _ l

theorem insertionSort_stable (l : List Rq) (a : Rq) :
    (insertionSort (fun a b => plugRqCmp a b=false) l).filter (fun b => !plugRqCmp a b && !plugRqCmp b a)=
      l.filter (fun b => !plugRqCmp a b && !plugRqCmp b a) := by
  have hclass : (l.filter (fun b => !plugRqCmp a b && !plugRqCmp b a)).Pairwise (fun a b => plugRqCmp a b=false) := by
    refine pairwise_of_forall_mem_list (fun b hb c hc => ?_)
    simp only [mem_filter,Bool.and_eq_true,Bool.not_eq_true',plugRqCmp_false] at hb hc ⊢
    exact hb.2.2.trans hc.2.1
  have hsub := (sublist_insertionSort hclass filter_sublist).filter (fun b => !plugRqCmp a b && !plugRqCmp b a)
  rw [filter_filter] at hsub
  simp only [Bool.and_self] at hsub
  exact (hsub.eq_of_length ((perm_insertionSort _ l).filter _).length_eq.symm).symm

/-- Insertion by queue. -/
def insertionListSort : StableSort plugRqCmp := ⟨_,insertionSort_sorted,insertionSort_stable⟩

/-- Three requests for two queues, and a bio that merges into the last one. -/
def twoQueues : List Event :=
  [.submit (fun _ _ => .none) ⟨0,7,false⟩ false,.plug,.submit (fun _ _ => .none) ⟨1,3,false⟩ false,.plug,
    .submit (fun _ _ => .none) ⟨2,7,true⟩ false,.plug,.submit (fun _ _ => .back) ⟨3,7,false⟩ false]

theorem plug_flushed_once_twoQueues : ∃ s, PlugReachable insertionListSort s ∧
    s.plug.list.map Rq.key=[(7,0),(3,1),(7,2)] ∧
    (blkFlushPlugList insertionListSort s.plug true).1.count (.lock 7)=1 ∧
    (blkFlushPlugList insertionListSort s.plug true).1.countP (Call.runs 3)=1 := by
  obtain ⟨s,hr,hs⟩ : ∃ s, PlugReachable insertionListSort s ∧ s.plug.list.map Rq.key=[(7,0),(3,1),(7,2)] :=
    exists_run (fun _ _ _ => id) rfl twoQueues (by decide)
  obtain ⟨_,_,_,_,_,hcounts,_⟩ := plug_flushed_once hr true
  have hq : s.plug.list.map Rq.q=[7,3,7] := by
    simpa [Rq.key,Function.comp_def] using congrArg (map Prod.fst) hs
  refine ⟨s,hr,hs,?_,?_⟩
  · simpa [hq] using (hcounts 7).1
  · simpa [hq] using (hcounts 3).2

end BlockIpc.PlugFlush
