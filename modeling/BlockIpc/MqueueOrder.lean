import BlockIpc.MqueueStates

/-!
# Order of POSIX messages

msg_insert and msg_get make the table of a queue a stable priority queue. The table
holds the messages by type, and those of one type with the oldest one last.
-/

namespace BlockIpc.MqueueOrder

open List KernelNumbers TransitionRuns MqueueInodes MqueueProtocol MqueueStates

variable {pf : Platform}

/-- A queue and the messages that were inserted and not yet returned, the oldest one first. -/
structure Use (pf : Platform) where
  queue : MqQueue pf
  present : List MqMsg

/-- An operation on the table. -/
inductive Op where
  /-- msg_insert. -/
  | insert (m : MqMsg)
  /-- msg_get. -/
  | get

/-- Operations that exceed mq_maxmsg or get from an empty queue are not made. -/
def useStep (s : Use pf) : Op → Option (Use pf)
  | .insert m =>
    if s.queue.curmsgs<s.queue.attr.maxmsg then some ⟨s.queue.msgInsert m,s.present++[m]⟩ else none
  | .get =>
    if s.queue.curmsgs=0 then none
    else s.queue.msgGet.1.map (fun m => ⟨s.queue.msgGet.2,s.present.erase m⟩)

/-- A new queue with accepted attributes. -/
def UseStart (s : Use pf) : Prop := MqQueueStart s.queue ∧ s.present=[]

/-- The states of all sequences of operations. -/
def UseReachable (s : Use pf) : Prop := Reachable UseStart (fun s op s' => useStep s op=some s') s

/-- How the table holds the messages. -/
structure Ranked (s : Use pf) : Prop where
  table : s.queue.attr.maxmsg ≤ intMax
  /-- The slots are written. -/
  filled : Filled s.queue.messages (stored s.queue)
  count : s.queue.curmsgs=(stored s.queue).length
  perm : (stored s.queue).Perm s.present
  sorted : (stored s.queue).Pairwise (fun x y => x.mType≤y.mType)
  /-- Those of one type are in order of insertion from the last one on. -/
  fifo : ∀ k, (stored s.queue).reverse.filter (fun x => decide (x.mType=k))=
    s.present.filter (fun x => decide (x.mType=k))

variable {s s' : Use pf} {m : MqMsg} {l : List MqMsg}

/-- A state whose queue is known to store a list. -/
theorem Ranked.of_stored (htable : s.queue.attr.maxmsg ≤ intMax) (hf : Filled s.queue.messages l)
    (hn : s.queue.curmsgs=l.length) (hperm : l.Perm s.present) (hsorted : l.Pairwise (fun x y => x.mType≤y.mType))
    (hfifo : ∀ k, l.reverse.filter (fun x => decide (x.mType=k))=s.present.filter (fun x => decide (x.mType=k))) :
    Ranked s := by
  have hl := stored_eq hf hn
  exact ⟨htable,hl ▸ hf,hl ▸ hn,hl ▸ hperm,hl ▸ hsorted,hl ▸ hfifo⟩

/-- Messages in order of type are of less type if the last one is. -/
theorem lt_of_last {k : ℤ} (hs : l.Pairwise (fun x y => x.mType≤y.mType))
    (hlast : ∀ x, l.getLast?=some x → x.mType<k) : ∀ x∈l, x.mType<k := by
  rcases eq_nil_or_concat' l with rfl|⟨l,x,rfl⟩
  · exact nofun
  · have hx := hlast x getLast?_concat
    intro y hy
    rcases mem_append.mp hy with hy|hy
    · exact lt_of_le_of_lt ((pairwise_append.mp hs).2.2 y hy x mem_cons_self) hx
    · rw [mem_singleton.mp hy]
      exact hx

/-- msg_insert keeps the order. -/
theorem Ranked.insert (h : Ranked s) (hroom : s.queue.curmsgs<s.queue.attr.maxmsg) :
    Ranked (⟨s.queue.msgInsert m,s.present++[m]⟩ : Use pf) := by
  obtain ⟨front,back,hsplit,hfilled,-,hback,hlast⟩ := msgInsert_spec h.filled h.count hroom h.table m
  have hs := h.sorted
  have hp := h.perm
  have hfifo := h.fifo
  have hn := h.count
  rw [hsplit] at hs hp hfifo hn
  obtain ⟨hsf,hsb,hfb⟩ := pairwise_append.mp hs
  have hfront := lt_of_last hsf hlast
  refine .of_stored h.table hfilled ?_ ?_ ?_ (fun k => ?_)
  · change s.queue.curmsgs+1=_
    rw [hn,length_append,length_append,length_cons]
    omega
  · exact perm_middle.trans (((perm_cons m).mpr hp).trans (perm_append_singleton m _).symm)
  · refine pairwise_append.mpr ⟨hsf,pairwise_cons.mpr ⟨hback,hsb⟩,fun x hx y hy => ?_⟩
    rcases mem_cons.mp hy with rfl|hy
    · exact (hfront x hx).le
    · exact hfb x hx y hy
  · have hold := hfifo k
    rw [reverse_append,filter_append] at hold
    rw [reverse_append,reverse_cons,append_assoc,filter_append,filter_append,filter_append,
      ← hold]
    by_cases hk : m.mType=k
    · have hnil : front.reverse.filter (fun x => decide (x.mType=k))=[] := by
        rw [filter_eq_nil_iff]
        intro x hx
        rw [decide_eq_true_iff]
        have := hfront x (mem_reverse.mp hx)
        omega
      rw [hnil,append_nil,append_nil]
    · have hnil : [m].filter (fun x => decide (x.mType=k))=[] :=
        filter_cons_of_neg (by rw [decide_eq_true_iff]; exact hk)
      rw [hnil,nil_append,append_nil]

/-- The message that msg_get returns. -/
theorem Ranked.get_eq (h : Ranked s) (hne : s.queue.curmsgs≠0) :
    ∃ l m, stored s.queue=l++[m] ∧ s.queue.msgGet=(some m,s.queue.taken m) := by
  rcases eq_nil_or_concat' (stored s.queue) with hnil|⟨l,m,hl⟩
  · exact absurd (by rw [h.count,hnil]; rfl) hne
  · refine ⟨l,m,hl,?_⟩
    have hslot : s.queue.messages.slots (s.queue.curmsgs-1)=some m := by
      have hf := h.filled
      rw [hl] at hf
      rw [h.count,hl,length_append,length_singleton,Nat.cast_add,Nat.cast_one,add_sub_cancel_right]
      exact (filled_append.mp hf).2
    unfold MqQueue.msgGet
    rw [hslot]

/-- msg_get keeps the order. -/
theorem Ranked.taken (h : Ranked s) (hl : stored s.queue=l++[m]) :
    Ranked (⟨s.queue.taken m,s.present.erase m⟩ : Use pf) := by
  have hf := h.filled
  have hn := h.count
  have hp := h.perm
  have hs := h.sorted
  have hfifo := h.fifo
  rw [hl] at hf hn hp hs hfifo
  refine .of_stored h.table (filled_append.mp hf).1 ?_ ?_ (pairwise_append.mp hs).1 (fun k => ?_)
  · change s.queue.curmsgs-1=_
    rw [hn,length_append,length_singleton]
    omega
  · exact (cons_perm_iff_perm_erase.mp ((perm_append_singleton m l).symm.trans hp)).2
  · have hold := hfifo k
    rw [reverse_append,reverse_singleton,singleton_append,filter_cons] at hold
    rw [← erase_filter,← hold]
    by_cases hk : m.mType=k
    · rw [if_pos (decide_eq_true hk),erase_cons_head]
    · rw [if_neg (by rw [decide_eq_true_iff]; exact hk)]
      refine (erase_of_not_mem (fun hm => hk ?_)).symm
      exact of_decide_eq_true (mem_filter.mp hm).2

/-- Every operation keeps the order. -/
theorem Ranked.step {op : Op} (h : Ranked s) (hs : useStep s op=some s') : Ranked s' := by
  cases op with
  | insert m =>
    obtain ⟨hroom,rfl⟩ := of_guard hs
    exact h.insert hroom
  | get =>
    obtain ⟨hne,ht⟩ := Option.ite_none_left_eq_some.mp hs
    obtain ⟨l,m,hl,hget⟩ := h.get_eq hne
    rw [hget] at ht
    cases ht
    exact h.taken hl

/-- After every sequence of operations the table holds the messages that were inserted and not yet
returned, and msg_get returns one of largest type, of which none that is still there was inserted
earlier. -/
theorem mq_table_stable_priority {s : Use pf} (h : UseReachable s) :
    (stored s.queue).Perm s.present ∧ s.queue.curmsgs=s.present.length ∧
    (s.present≠[] → ∃ m before after, s.queue.msgGet.1=some m ∧ s.present=before++m::after ∧
      (∀ x∈s.present, x.mType ≤ m.mType) ∧ ∀ x∈before, x.mType < m.mType) := by
  have hr : Ranked s := by
    refine Reachable.invariant (I := Ranked) ?_ ?_ h
    · rintro s ⟨hq,hp⟩
      have hn : s.queue.curmsgs=([] : List MqMsg).length := hq.empty
      exact .of_stored hq.accepted.table (fun i m hm => absurd hm (by simp)) hn (hp ▸ List.Perm.nil) List.Pairwise.nil
        (fun k => by rw [hp]; rfl)
    · intro s op s' _ hi hs
      exact hi.step hs
  have hcount : s.queue.curmsgs=s.present.length := by rw [hr.count,hr.perm.length_eq]
  refine ⟨hr.perm,hcount,fun hne => ?_⟩
  obtain ⟨l,m,hl,hget⟩ := hr.get_eq (by rw [hcount]; exact_mod_cast fun hz => hne (length_eq_zero_iff.mp hz))
  have hmax : ∀ x∈s.present, x.mType ≤ m.mType := by
    intro x hx
    have hs := hr.sorted
    rw [hl] at hs
    have hx' := hr.perm.mem_iff.mpr hx
    rw [hl] at hx'
    rcases mem_append.mp hx' with hx'|hx'
    · exact (pairwise_append.mp hs).2.2 x hx' m mem_cons_self
    · rw [mem_singleton.mp hx']
  have hfirst : s.present.find? (fun x => decide (x.mType=m.mType))=some m := by
    have hf := hr.fifo m.mType
    rw [hl,reverse_append,reverse_singleton,singleton_append,filter_cons,
      if_pos (decide_eq_true rfl)] at hf
    rw [← head?_filter,← hf]
    rfl
  obtain ⟨-,before,after,hsplit,hbefore⟩ := find?_eq_some_iff_append.mp hfirst
  refine ⟨m,before,after,by rw [hget],hsplit,hmax,fun x hx => lt_of_le_of_ne (hmax x ?_) ?_⟩
  · rw [hsplit]
    exact mem_append_left _ hx
  · have hxb := hbefore x hx
    rw [Bool.not_eq_true',decide_eq_false_iff_not] at hxb
    exact hxb

/-- Of two messages of type 2 and one of type 1 the one of type 2 that was inserted first is returned. -/
theorem mq_table_stable_priority_three : ∃ s : Use ⟨8,.inr rfl⟩, UseReachable s ∧ (stored s.queue).Perm s.present ∧
    s.present=[⟨1,2,0⟩,⟨2,1,0⟩,⟨3,2,0⟩] ∧ s.queue.msgGet.1=some ⟨1,2,0⟩ := by
  let attr : MqAttr ⟨8,.inr rfl⟩ := ⟨3,1,⟨by decide,by decide⟩,by decide,by decide⟩
  obtain ⟨s,hreach,h⟩ : ∃ s : Use ⟨8,.inr rfl⟩, UseReachable s ∧ s.present=[⟨1,2,0⟩,⟨2,1,0⟩,⟨3,2,0⟩] ∧
      s.queue.msgGet.1=some ⟨1,2,0⟩ :=
    exists_run (fun _ _ _ => id) (s := ⟨newQueue attr (fun _ => 0),[]⟩) ⟨newQueue_start ⟨by decide,by decide⟩ _,rfl⟩
      [.insert ⟨1,2,0⟩,.insert ⟨2,1,0⟩,.insert ⟨3,2,0⟩] (by decide)
  exact ⟨s,hreach,(mq_table_stable_priority hreach).1,h⟩

end BlockIpc.MqueueOrder
