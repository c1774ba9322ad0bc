import BlockIpc.MqueueWaits

/-!
# Contents of POSIX message queues

The number of messages stays between zero and mq_maxmsg, qsize is the sum of their
sizes and every message is in a slot of the table. Where msg_insert writes to the
table it does not check the bound. It follows from the coupling of the wait lists
with the number of messages: receivers wait only on an empty queue and senders only
on a full one.
-/

namespace BlockIpc.MqueueStates

open Function List KernelNumbers TransitionRuns CheckedMath MqueueInodes MqueueProtocol MqueueWaits

variable {pf : Platform}

/-- The first slots of a table hold the messages of a list. -/
def Filled (t : MqTable) (l : List MqMsg) : Prop := ∀ i m, l[i]?=some m → t.slots (i : ℕ)=some m

/-- The messages in the slots from zero to mq_curmsgs-1. -/
def stored (q : MqQueue pf) : List MqMsg :=
  (List.range q.curmsgs.toNat).filterMap (fun i => q.messages.slots (i : ℕ))

variable {t : MqTable} {l : List MqMsg} {q q' : MqQueue pf} {attr : MqAttr pf} {m : MqMsg} {c : ℕ} {pc : MqPc}
  {sr' sr : Side}

/-- A table that holds a list and one more message. -/
theorem filled_append {x : MqMsg} : Filled t (l++[x]) ↔ Filled t l ∧ t.slots (l.length : ℕ)=some x := by
  constructor
  · intro h
    refine ⟨fun i m hm => h i m ?_,h l.length x getElem?_concat_length⟩
    rw [getElem?_append_left (List.getElem?_eq_some_iff.mp hm).1]
    exact hm
  · rintro ⟨h,hx⟩ i m hm
    by_cases hi : i<l.length
    · rw [getElem?_append_left hi] at hm
      exact h i m hm
    · rw [getElem?_append_right (not_lt.mp hi)] at hm
      have hzero : i-l.length=0 := by
        have hlt := (List.getElem?_eq_some_iff.mp hm).1
        simp only [length_singleton] at hlt
        omega
      rw [hzero] at hm
      have hil : i=l.length := by omega
      rw [hil,hx]
      exact hm

/-- The messages of a table that holds a list. -/
theorem filterMap_of_filled (h : Filled t l) : (List.range l.length).filterMap (fun i => t.slots (i : ℕ))=l := by
  induction l using List.reverseRecOn with
  | nil => rfl
  | append_singleton l x ih =>
    obtain ⟨hl,hx⟩ := filled_append.mp h
    rw [length_append,length_singleton,range_succ,filterMap_append,ih hl]
    simp only [filterMap_cons,hx,filterMap_nil]

theorem stored_eq (h : Filled q.messages l) (hn : q.curmsgs=l.length) : stored q=l := by
  unfold stored
  rw [hn,Int.toNat_natCast]
  exact filterMap_of_filled h

/-- A write to a slot that a list does not use. -/
theorem Filled.put (h : Filled t l) (size : ℤ) {i : ℤ} (x : Option MqMsg) (hi : l.length ≤ i) :
    Filled (t.put size i x) l := by
  intro j m hm
  have hj := (List.getElem?_eq_some_iff.mp hm).1
  have hne : (j : ℤ)≠i := by omega
  show update t.slots i x j=some m
  rw [update_of_ne hne]
  exact h j m hm

/-- The loop of msg_insert splits the messages. Those behind the split have a type
that is not less and are moved up, and the last one before it has a lesser type. No
slot outside of the table is used if there is room for one more message. -/
theorem shiftUp_spec (size mType : ℤ) (hf : Filled t l) (hsize : l.length<size) :
    ∃ front back, l=front++back ∧ (shiftUp size mType l.length t).2=front.length ∧
      (shiftUp size mType l.length t).1.wild=t.wild ∧
      (∀ i : ℤ, (shiftUp size mType l.length t).1.slots i=
        if front.length < i ∧ i≤l.length then t.slots (i-1) else t.slots i) ∧
      (∀ x∈back, mType≤x.mType) ∧ ∀ x, front.getLast?=some x → x.mType < mType := by
  induction l using List.reverseRecOn generalizing t with
  | nil =>
    refine ⟨[],[],rfl,rfl,rfl,fun i => ?_,nofun,nofun⟩
    rw [if_neg (by simp only [length_nil,Nat.cast_zero]; omega)]
    rfl
  | append_singleton l x ih =>
    obtain ⟨hl,hx⟩ := filled_append.mp hf
    rw [length_append,length_singleton] at hsize ⊢
    by_cases hle : mType≤x.mType
    · have hput : Filled (t.put size (l.length+1) (some x)) l := hl.put size (some x) (by omega)
      have heq : shiftUp size mType (l.length+1) t=
          shiftUp size mType l.length (t.put size (l.length+1) (some x)) := by
        rw [shiftUp,hx]
        exact if_pos hle
      obtain ⟨front,back,hsplit,hfree,hwild,hslots,hback,hfront⟩ := ih hput (by omega)
      have hlen : front.length≤l.length := by
        rw [hsplit,length_append]
        omega
      rw [heq]
      refine ⟨front,back++[x],by rw [hsplit,append_assoc],hfree,?_,fun i => ?_,fun y hy => ?_,hfront⟩
      · rw [hwild]
        show (t.wild || !decide ((0 : ℤ)≤l.length+1 ∧ (l.length+1 : ℤ)<size))=t.wild
        rw [decide_eq_true (by omega),Bool.not_true,Bool.or_false]
      · rw [hslots]
        show (if _ then update t.slots (l.length+1) (some x) (i-1)
          else update t.slots (l.length+1) (some x) i)=_
        by_cases htop : i=l.length+1
        · rw [if_neg (by omega),if_pos (by omega),htop,update_self,← hx]
          congr 1
          omega
        · rw [update_of_ne htop]
          by_cases hin : front.length < i ∧ i≤l.length
          · rw [if_pos hin,if_pos (by omega),update_of_ne (by omega)]
          · rw [if_neg hin,if_neg (by omega)]
      · rcases mem_append.mp hy with hy|hy
        · exact hback y hy
        · rw [mem_singleton.mp hy]
          exact hle
    · have heq : shiftUp size mType (l.length+1) t=(t,l.length+1) := by
        rw [shiftUp,hx]
        exact if_neg hle
      rw [heq]
      refine ⟨l++[x],[],(append_nil _).symm,?_,rfl,fun i => ?_,nofun,fun y hy => ?_⟩
      · rw [length_append,length_singleton]
      · rw [length_append,length_singleton,if_neg (by omega)]
      · rw [getLast?_concat] at hy
        cases hy
        exact not_le.mp hle

/-- What msg_insert does to a queue with room: the message comes before those whose
type is not less and after a message of lesser type. -/
theorem msgInsert_spec (hf : Filled q.messages l) (hn : q.curmsgs=l.length) (hroom : q.curmsgs<q.attr.maxmsg)
    (hint : q.attr.maxmsg ≤ intMax) (m : MqMsg) :
    ∃ front back, l=front++back ∧ Filled (q.msgInsert m).messages (front++m::back) ∧
      (q.msgInsert m).messages.wild=q.messages.wild ∧ (∀ x∈back, m.mType≤x.mType) ∧
      ∀ x, front.getLast?=some x → x.mType < m.mType := by
  have hk : toInt (q.curmsgs-1)=q.curmsgs-1 := by
    by_cases hzero : q.curmsgs=0
    · rw [hzero]
      decide
    · exact toInt_of_range (by omega) (by omega)
  have hcount : (toInt (q.curmsgs-1)+1).toNat=l.length := by omega
  obtain ⟨front,back,hsplit,hfree,hwild,hslots,hback,hfront⟩ :=
    shiftUp_spec q.attr.maxmsg m.mType hf (by omega)
  have hlen : l.length=front.length+back.length := by rw [hsplit,length_append]
  have hindex : (if toInt (q.curmsgs-1)<0 then toInt (q.curmsgs-1)+1
      else ((shiftUp q.attr.maxmsg m.mType l.length q.messages).2 : ℤ))=front.length := by
    split
    · omega
    · rw [hfree]
  have hmessages : (q.msgInsert m).messages=
      (shiftUp q.attr.maxmsg m.mType l.length q.messages).1.put q.attr.maxmsg front.length (some m) := by
    rw [← hindex,← hcount]
    rfl
  rw [hmessages]
  refine ⟨front,back,hsplit,fun i x hx => ?_,?_,hback,hfront⟩
  · show update (shiftUp q.attr.maxmsg m.mType l.length q.messages).1.slots front.length (some m) i=some x
    by_cases hi : i<front.length
    · rw [getElem?_append_left hi] at hx
      rw [update_of_ne (by omega),hslots,if_neg (by omega)]
      refine hf i x ?_
      rw [hsplit,getElem?_append_left hi]
      exact hx
    · rw [getElem?_append_right (not_lt.mp hi)] at hx
      obtain ⟨j,hj⟩ := Nat.exists_eq_add_of_le (not_lt.mp hi)
      rw [hj,Nat.add_sub_cancel_left] at hx
      cases j with
      | zero =>
        rw [getElem?_cons_zero] at hx
        rw [hj,Nat.add_zero,update_self]
        exact hx
      | succ j =>
        rw [getElem?_cons_succ] at hx
        have hjb := (List.getElem?_eq_some_iff.mp hx).1
        rw [update_of_ne (by omega),hslots,if_pos (by omega)]
        have hshift : (i : ℤ)-1=(front.length+j : ℕ) := by omega
        rw [hshift]
        refine hf (front.length+j) x ?_
        rw [hsplit,getElem?_append_right (Nat.le_add_right _ _),Nat.add_sub_cancel_left]
        exact hx
  · show ((shiftUp q.attr.maxmsg m.mType l.length q.messages).1.wild ||
      !decide ((0 : ℤ)≤front.length ∧ (front.length : ℤ)<q.attr.maxmsg))=q.messages.wild
    rw [hwild,decide_eq_true (by omega),Bool.not_true,Bool.or_false]

/-- Accepted attributes bound the size of the table and of all its messages. -/
theorem accepted_bounds (h : Accepted attr) : 0≤attr.maxmsg ∧ attr.maxmsg*pf.toSize attr.msgsize<2^pf.width := by
  obtain ⟨⟨tableBytes,bytes⟩,hsizes⟩ := Option.isSome_iff_exists.mp h.sized
  unfold mqCalculateSizes at hsizes
  split at hsizes
  · cases hsizes
  · next t ht =>
    split at hsizes
    · cases hsizes
    · next b hb =>
      have htable : pf.toSize attr.maxmsg*pf.pointerSize<2^pf.width := (l30SizeMulOverflow_eq_some.mp ht).1
      have hall := ((l30SizeRecordsBytes_eq_some (pointerSize_lt pf)).mp hb).2.1
      have h0 : 0≤attr.maxmsg := by
        by_contra hneg
        obtain ⟨hlow,_⟩ := attr.longs.1
        unfold Platform.toSize at htable
        unfold Platform.width at htable hlow
        rcases pf.known with hk|hk
        · rw [hk] at htable hlow
          norm_num at htable hlow
          omega
        · rw [hk] at htable hlow
          norm_num at htable hlow
          omega
      refine ⟨h0,?_⟩
      have hmax : (pf.toSize attr.maxmsg : ℤ)=attr.maxmsg := by
        unfold Platform.toSize
        rw [Int.emod_eq_of_lt h0 (lt_of_lt_of_le attr.longs.1.2 (pow_le_pow_right₀ (by decide) (Nat.sub_le _ _)))]
        exact Int.toNat_of_nonneg h0
      rw [← hmax]
      have hle : pf.toSize attr.maxmsg*pf.toSize attr.msgsize ≤
          pf.toSize attr.maxmsg*(pf.toSize attr.msgsize+pf.pointerSize) :=
        Nat.mul_le_mul_left _ (Nat.le_add_right _ _)
      exact_mod_cast lt_of_le_of_lt hle hall

/-- The size of a message is admitted by the queue. -/
def Fits (attr : MqAttr pf) (m : MqMsg) : Prop := 0 ≤ m.mTs ∧ m.mTs≤pf.toSize attr.msgsize

def messageBytes (l : List MqMsg) : ℤ := (l.map MqMsg.mTs).sum

/-- Messages that fit have a size that is not negative and at most the product. -/
theorem messageBytes_bounds (h : ∀ m∈l, Fits attr m) :
    0 ≤ messageBytes l ∧ messageBytes l≤l.length*pf.toSize attr.msgsize := by
  induction l with
  | nil => exact ⟨le_rfl,by simp [messageBytes]⟩
  | cons m l ih =>
    obtain ⟨h0,h1⟩ := ih (fun x hx => h x (mem_cons_of_mem m hx))
    obtain ⟨hm0,hm1⟩ := h m mem_cons_self
    have hsum : messageBytes (m::l)=m.mTs+messageBytes l := by simp [messageBytes]
    rw [hsum,length_cons,Nat.cast_add,Nat.cast_one,add_mul,one_mul]
    exact ⟨by omega,by omega⟩

/-- A size is an unsigned long if the messages are not more than the queue admits. -/
theorem messageBytes_lt (ha : Accepted attr) (h : ∀ m∈l, Fits attr m) (hn : l.length≤attr.maxmsg) :
    messageBytes l<2^pf.width := by
  refine lt_of_le_of_lt (messageBytes_bounds h).2 (lt_of_le_of_lt ?_ (accepted_bounds ha).2)
  exact mul_le_mul_of_nonneg_right hn (Int.natCast_nonneg _)

/-- A value in range is stored in an unsigned long without change. -/
theorem toSize_of_range {x : ℤ} (h0 : 0≤x) (h : x<2^pf.width) : (pf.toSize x : ℤ)=x := by
  unfold Platform.toSize
  rw [Int.emod_eq_of_lt h0 h]
  exact Int.toNat_of_nonneg h0

structure ContentInv (q : MqQueue pf) : Prop where
  /-- The attributes were accepted. -/
  accepted : Accepted q.attr
  /-- No slot was used that should not be. -/
  tame : q.messages.wild=false
  /-- The slots up to mq_curmsgs are written. -/
  filled : Filled q.messages (stored q)
  /-- mq_curmsgs is the number of messages. -/
  count : q.curmsgs=(stored q).length
  /-- There are not more than mq_maxmsg. -/
  bound : q.curmsgs≤q.attr.maxmsg
  size : (q.qsize : ℤ)=messageBytes (stored q)
  /-- Each one has a size that is admitted. -/
  fits : ∀ m∈stored q, Fits q.attr m

/-- The invariant does not depend on the calls. -/
theorem ContentInv.frame (hi : ContentInv q) (hattr : q'.attr=q.attr) (hcur : q'.curmsgs=q.curmsgs)
    (hsize : q'.qsize=q.qsize) (hmessages : q'.messages=q.messages) : ContentInv q' := by
  cases q
  cases q'
  dsimp only at hattr hcur hsize hmessages
  subst hattr hcur hsize hmessages
  exact {hi with}

/-- msg_insert on a queue with room adds the message. -/
theorem ContentInv.insert (hi : ContentInv q) (hm : Fits q.attr m) (hroom : q.curmsgs<q.attr.maxmsg) :
    ContentInv (q.msgInsert m) ∧ (stored (q.msgInsert m)).Perm (m::stored q) := by
  obtain ⟨front,back,hsplit,hfilled,hwild,_,_⟩ := msgInsert_spec hi.filled hi.count hroom hi.accepted.table m
  have hperm : (front++m::back).Perm (m::stored q) := by
    rw [hsplit]
    exact perm_middle
  have hcur : (q.msgInsert m).curmsgs=(front++m::back).length := by
    rw [hperm.length_eq,length_cons,Nat.cast_add,← hi.count]
    rfl
  have hstored := stored_eq hfilled hcur
  have hfits : ∀ x∈front++m::back, Fits q.attr x := by
    intro x hx
    rcases mem_cons.mp (hperm.mem_iff.mp hx) with rfl|hx
    · exact hm
    · exact hi.fits x hx
  have hbytes : messageBytes (front++m::back)=q.qsize+m.mTs := by
    have hsum : messageBytes (m::stored q)=m.mTs+messageBytes (stored q) := by simp [messageBytes]
    rw [show messageBytes (front++m::back)=messageBytes (m::stored q) from (hperm.map MqMsg.mTs).sum_eq,hsum,
      ← hi.size,add_comm]
  have hbound : (q.msgInsert m).curmsgs≤q.attr.maxmsg := hroom
  have hlt := messageBytes_lt hi.accepted hfits (hcur ▸ hbound)
  have h0 := (messageBytes_bounds hfits).1
  refine ⟨⟨hi.accepted,hwild.trans hi.tame,?_,?_,hbound,?_,?_⟩,?_⟩
  · rw [hstored]
    exact hfilled
  · rw [hstored]
    exact hcur
  · rw [hstored,hbytes]
    show (pf.toSize (q.qsize+m.mTs) : ℤ)=q.qsize+m.mTs
    rw [← hbytes]
    exact toSize_of_range h0 hlt
  · rw [hstored]
    exact hfits
  · rw [hstored]
    exact hperm

/-- The last message of a queue that is not empty. -/
theorem ContentInv.last (hi : ContentInv q) (hmore : q.curmsgs≠0) :
    ∃ l m, stored q=l++[m] ∧ q.messages.slots (q.curmsgs-1)=some m := by
  have hne : stored q≠[] := by
    intro he
    have h := hi.count
    rw [he] at h
    exact hmore h
  obtain ⟨l,m,hl⟩ := (eq_nil_or_concat' (stored q)).resolve_left hne
  refine ⟨l,m,hl,?_⟩
  have hfilled := hi.filled
  rw [hl] at hfilled
  have hlen : q.curmsgs-1=l.length := by
    rw [hi.count,hl,length_append,length_singleton,Nat.cast_add]
    omega
  rw [hlen]
  exact (filled_append.mp hfilled).2

theorem ContentInv.last_ne_none (hi : ContentInv q) (hmore : q.curmsgs≠0) : q.messages.slots (q.curmsgs-1)≠none := by
  obtain ⟨l,m,_,hslot⟩ := hi.last hmore
  rw [hslot]
  exact nofun

/-- msg_get takes the last message. -/
theorem ContentInv.take (hi : ContentInv q) (hmore : q.curmsgs≠0) (hm : q.messages.slots (q.curmsgs-1)=some m) :
    ContentInv (q.taken m) ∧ stored q=stored (q.taken m)++[m] := by
  obtain ⟨l,x,hl,hx⟩ := hi.last hmore
  rw [hm] at hx
  cases hx
  have hfilled := hi.filled
  rw [hl] at hfilled
  have hcur : (q.taken m).curmsgs=l.length := by
    show q.curmsgs-1=l.length
    rw [hi.count,hl,length_append,length_singleton,Nat.cast_add]
    omega
  have hfilled' : Filled (q.taken m).messages l := (filled_append.mp hfilled).1
  have hstored : stored (q.taken m)=l := stored_eq hfilled' hcur
  have hmem : ∀ y∈l, y∈stored q := by
    intro y hy
    rw [hl]
    exact mem_append_left _ hy
  have hbytes : messageBytes (stored q)=messageBytes l+m.mTs := by
    rw [hl]
    simp [messageBytes]
  have hfits : ∀ y∈l, Fits q.attr y := fun y hy => hi.fits y (hmem y hy)
  have hbound : (q.taken m).curmsgs≤q.attr.maxmsg := by
    have h := hi.bound
    show q.curmsgs-1≤q.attr.maxmsg
    omega
  refine ⟨⟨hi.accepted,hi.tame,?_,?_,hbound,?_,?_⟩,?_⟩
  · rw [hstored]
    exact hfilled'
  · rw [hstored]
    exact hcur
  · rw [hstored]
    show (pf.toSize (q.qsize-m.mTs) : ℤ)=messageBytes l
    have he : (q.qsize : ℤ)-m.mTs=messageBytes l := by
      rw [hi.size,hbytes]
      omega
    rw [he]
    exact toSize_of_range (messageBytes_bounds hfits).1 (messageBytes_lt hi.accepted hfits (hcur ▸ hbound))
  · rw [hstored]
    exact hfits
  · rw [hstored]
    exact hl

/-- The message of an mq_timedsend call. -/
def carried : MqPc → Option MqMsg
  | .sndReady m _ => some m
  | .asleep (.snd m) => some m
  | .relock (.snd m) => some m
  | .waking (.snd m) _ => some m
  | .sndDone m _ => m
  | _ => none

/-- What holds of the messages and of the wait lists. -/
structure TableInv (q : MqQueue pf) : Prop where
  /-- The messages of the queue. -/
  content : ContentInv q
  /-- The messages of the senders have a size that is admitted. -/
  loads : ∀ c m, carried (q.pc c)=some m → Fits q.attr m
  /-- Receivers wait on an empty queue. -/
  empty : q.eWaitQ .recv≠[] → q.curmsgs=0
  /-- Senders wait on a full queue. -/
  full : q.eWaitQ .send≠[] → q.curmsgs=q.attr.maxmsg

/-- The messages of the senders after a call advances. -/
theorem TableInv.loads_update (hi : TableInv q) (hpc : ∀ m, carried pc=some m → Fits q.attr m) (d : ℕ) (m : MqMsg)
    (h : carried (update q.pc c pc d)=some m) : Fits q.attr m := by
  by_cases hd : d=c
  · rw [hd,update_self] at h
    exact hpc m h
  · rw [update_of_ne hd] at h
    exact hi.loads d m h

/-- A call advances and carries no other message than before. -/
theorem TableInv.go (hi : TableInv q) (hattr : q'.attr=q.attr) (hcur : q'.curmsgs=q.curmsgs) (hsize : q'.qsize=q.qsize)
    (hmessages : q'.messages=q.messages) (hpc : q'.pc=update q.pc c pc)
    (hcarried : ∀ m, carried pc=some m → Fits q.attr m) (hempty : q'.eWaitQ .recv≠[] → q.curmsgs=0)
    (hfull : q'.eWaitQ .send≠[] → q.curmsgs=q.attr.maxmsg) : TableInv q' := by
  refine ⟨hi.content.frame hattr hcur hsize hmessages,?_,?_,?_⟩
  · rw [hpc,hattr]
    exact hi.loads_update hcarried
  · rw [hcur]
    exact hempty
  · rw [hcur,hattr]
    exact hfull

/-- A call advances that goes on carrying the message it carried. -/
theorem TableInv.goSame (hi : TableInv q) (hcarried : ∀ m, carried pc=some m → carried (q.pc c)=some m) :
    TableInv (q.go c pc) := hi.go rfl rfl rfl rfl rfl (fun m h => hi.loads c m (hcarried m h)) hi.empty hi.full

/-- A list that is not empty after a deletion was not empty before. -/
theorem ne_nil_of_listDel (sr : Side) (c : ℕ) (h : (q.listDel sr c).eWaitQ sr'≠[]) : q.eWaitQ sr'≠[] := by
  intro he
  refine h ?_
  show update q.eWaitQ sr ((q.eWaitQ sr).erase c) sr'=[]
  by_cases hs : sr'=sr
  · subst hs
    rw [update_self,he]
    rfl
  · rw [update_of_ne hs]
    exact he

theorem wqAdd_of_ne (q : MqQueue pf) (c : ℕ) (h : sr'≠sr) :
    (q.wqAdd sr c).eWaitQ sr'=q.eWaitQ sr' := update_of_ne h _ _

theorem nil_of_first (h : q.wqGetFirstWaiter sr=none) : q.eWaitQ sr=[] := getLast?_eq_none_iff.mp h

/-- The call that returns from wq_sleep carries the message that it carried. -/
theorem carried_wqReturn {w : Waiter} {retval : ℤ} {x : ExtWaitQueue} (h : carried (wqReturn w retval x)=some m) :
    w=.snd m := by
  unfold wqReturn at h
  cases w with
  | snd m' =>
    cases h
    rfl
  | rcv =>
    dsimp only at h
    split at h
    · split at h
      · cases h
      · cases h
    · cases h

theorem carried_of_sleeping (h : sleeping pc=some (.snd m)) : carried pc=some m := by
  rcases pc_of_sleeping h with rfl|rfl
  · rfl
  · rfl

/-- The message of the first sender in the list fits into the place of the last one. -/
theorem TableInv.served (hi : TableInv q) {s : ℕ} {x : MqMsg} (hmore : q.curmsgs≠0)
    (hm : q.messages.slots (q.curmsgs-1)=some m) (hs : q.wqGetFirstWaiter .send=some s)
    (hx : sleeping (q.pc s)=some (.snd x)) : q.curmsgs=q.attr.maxmsg ∧ ContentInv ((q.taken m).msgInsert x) ∧
      (stored ((q.taken m).msgInsert x)).Perm (x::stored (q.taken m)) := by
  have hcur := hi.full (ne_nil_of_mem (mem_of_first hs))
  have hroom : (q.taken m).curmsgs<(q.taken m).attr.maxmsg := by
    show q.curmsgs-1<q.attr.maxmsg
    omega
  exact ⟨hcur,(hi.content.take hmore hm).1.insert (hi.loads s x (carried_of_sleeping hx)) hroom⟩

theorem TableInv.step (hi : TableInv q) (hw : WaitInv q) (h : CallCase q q') : TableInv q' := by
  have hreturn : ∀ {c w retval}, sleeping (q.pc c)=some w →
      ∀ m, carried (wqReturn w retval (q.wait c))=some m → Fits q.attr m := by
    intro c w retval hs m hm
    rw [carried_wqReturn hm] at hs
    exact hi.loads c m (carried_of_sleeping hs)
  cases h with
  | sndRefused | rcvRefused | rcvCalled | rcvAgain | rcvStored => exact hi.goSame nofun
  | sndLoaded hp hm h0 h1 =>
    refine hi.go rfl rfl rfl rfl rfl (fun x hx => ?_) hi.empty hi.full
    cases hx
    exact ⟨h0,h1⟩
  | @sndAgain c m nonblock hp =>
    refine hi.goSame (fun x hx => ?_)
    rw [hp]
    exact hx
  | @sndSlept c m nonblock hp hlock hfull =>
    refine hi.go rfl rfl rfl rfl rfl (fun x hx => hi.loads c x ?_) (fun hn => hi.empty ?_) (fun _ => hfull)
    · rw [hp]
      exact hx
    · change ((q.setWait c ⟨some m,.none⟩).wqAdd .send c).eWaitQ .recv≠[] at hn
      rw [wqAdd_of_ne _ _ (by decide)] at hn
      exact hn
  | @sndHanded c r m nonblock hp hlock hr =>
    refine hi.go rfl rfl rfl rfl rfl (fun x hx => hi.loads c x ?_) (fun hn => hi.empty ?_) (fun hn => hi.full ?_)
    · rw [hp]
      exact hx
    · exact ne_nil_of_listDel .recv r hn
    · exact ne_nil_of_listDel .recv r hn
  | @sndInserted c m nonblock hp hlock hroom hr =>
    have hlt := lt_of_le_of_ne hi.content.bound hroom
    have hfits := hi.loads c m (by rw [hp]; rfl)
    refine ⟨(hi.content.insert hfits hlt).1.frame rfl rfl rfl rfl,hi.loads_update (fun x hx => ?_),
      fun hn => absurd (nil_of_first hr) hn,fun hn => absurd (hi.full hn) hroom⟩
    cases hx
    exact hfits
  | @rcvSlept c nonblock hp hlock hempty =>
    refine hi.go rfl rfl rfl rfl rfl nofun (fun _ => hempty) (fun hn => hi.full ?_)
    change ((q.setWait c ⟨none,.none⟩).wqAdd .recv c).eWaitQ .send≠[] at hn
    rw [wqAdd_of_ne _ _ (by decide)] at hn
    exact hn
  | rcvUnset hp hlock hmore hm =>
    exact absurd hm (hi.content.last_ne_none hmore)
  | @rcvTook c m nonblock hp hlock hmore hm hs =>
    refine ⟨(hi.content.take hmore hm).1.frame rfl rfl rfl rfl,hi.loads_update nofun,
      fun hn => absurd (hi.empty hn) hmore,fun hn => absurd (nil_of_first hs) hn⟩
  | @rcvServed c s m nonblock hp hlock hmore hm hs =>
    obtain ⟨x,hx,_,heq⟩ := hw.served m hs
    obtain ⟨hcur,hinsert⟩ := hi.served hmore hm hs hx
    rw [heq]
    refine ⟨hinsert.1.frame rfl rfl rfl rfl,hi.loads_update nofun,fun hn => ?_,fun _ => ?_⟩
    · exact absurd (hi.empty (ne_nil_of_listDel (q:=q) .send s hn)) hmore
    · show q.curmsgs-1+1=q.attr.maxmsg
      omega
  | wqSpun => exact hi
  | @wqReturned c w hp hstate =>
    exact hi.go rfl rfl rfl rfl rfl (hreturn (sleeping_of_pc hp).1) hi.empty hi.full
  | @wqSawNone c w hp | @wqSleptAgain c w hp =>
    refine hi.goSame (fun m hm => ?_)
    rw [hp]
    cases w <;> exact hm
  | @wqCancelled c w retval hp hlock hstate hneg =>
    refine hi.go rfl rfl rfl rfl rfl (hreturn (sleeping_of_pc (.inr hp)).1) (fun hn => hi.empty ?_)
      (fun hn => hi.full ?_)
    · exact ne_nil_of_listDel w.side c hn
    · exact ne_nil_of_listDel w.side c hn
  | @wqReady c x k hp =>
    refine hi.go rfl rfl rfl rfl rfl (fun m hm => hi.loads c m ?_) hi.empty hi.full
    rw [hp]
    cases k <;> exact hm

theorem tableInv_start (h : MqQueueStart q) : TableInv q := by
  have hstored : stored q=[] := by
    unfold stored
    rw [h.empty]
    rfl
  refine ⟨⟨h.accepted,h.tame,?_,?_,?_,?_,?_⟩,fun c m hc => ?_,?_,?_⟩
  · rw [hstored]
    exact nofun
  · rw [hstored,h.empty]
    rfl
  · rw [h.empty]
    exact (accepted_bounds h.accepted).1
  · rw [hstored,h.size]
    rfl
  · rw [hstored]
    exact nofun
  · rw [h.idle] at hc
    cases hc
  · exact fun hn => absurd (h.waits .recv) hn
  · exact fun hn => absurd (h.waits .send) hn

structure MqInv (q : MqQueue pf) : Prop where
  /-- Entries and lock. -/
  waits : WaitInv q
  order : OrderInv q
  table : TableInv q

theorem mqInv_of_reachable (hr : MqQueueReachable q) : MqInv q := by
  refine Reachable.invariant (I := fun q : MqQueue pf => MqInv q) (fun q h => ?_) (fun q e q' _ hi h => ?_) hr
  · exact ⟨(waitInv_start h).1,(waitInv_start h).2,tableInv_start h⟩
  · have hc := mqCallStep_cases h
    obtain ⟨hwaits,horder⟩ := hi.waits.step hi.order hi.table.content.last_ne_none hc
    exact ⟨hwaits,horder,hi.table.step hi.waits hc⟩

/-- In every state of every run: mq_curmsgs is between zero and mq_maxmsg; each slot
below it holds a message and qsize is the sum of their sizes; receivers wait only on
an empty queue and senders only on a full one; the first waiter of a list has the
least static_prio and, among waiters of that value, it was linked first; and no slot
outside of the table was ever used. -/
theorem mq_queue_consistent {q : MqQueue pf} (hr : MqQueueReachable q) : (0≤q.curmsgs ∧ q.curmsgs≤q.attr.maxmsg) ∧
    (∀ i : ℕ, i<q.curmsgs → (q.messages.slots i).isSome=true) ∧ (q.qsize : ℤ)=((stored q).map MqMsg.mTs).sum ∧
    (q.eWaitQ .recv≠[] → q.curmsgs=0) ∧ (q.eWaitQ .send≠[] → q.curmsgs=q.attr.maxmsg) ∧
    (∀ sr, q.eWaitQ sr≠[] → ∃ w, q.wqGetFirstWaiter sr=some w ∧ w∈q.eWaitQ sr ∧
      ∀ x∈q.eWaitQ sr, q.staticPrio w≤q.staticPrio x ∧
        (q.staticPrio x=q.staticPrio w → x≠w → q.since w<q.since x)) ∧
    q.messages.wild=false := by
  have hi := mqInv_of_reachable hr
  have hc := hi.table.content
  refine ⟨⟨?_,hc.bound⟩,fun i hlt => ?_,hc.size,hi.table.empty,hi.table.full,fun sr hne => ?_,hc.tame⟩
  · rw [hc.count]
    exact Int.natCast_nonneg _
  · rw [hc.count,Nat.cast_lt] at hlt
    rw [hc.filled i _ (getElem?_eq_getElem hlt)]
    rfl
  · refine ⟨(q.eWaitQ sr).getLast hne,getLast?_eq_some_getLast hne,getLast_mem hne,fun x hx => ?_⟩
    rcases (hi.order.ordered sr).last (getLast?_eq_some_getLast hne) hx with he|hlt|⟨heq,hlt⟩
    · rw [he]
      exact ⟨le_rfl,fun _ hn => absurd rfl hn⟩
    · exact ⟨le_of_lt hlt,fun heq => absurd heq (ne_of_gt hlt)⟩
    · exact ⟨le_of_eq heq,fun _ _ => hlt⟩

theorem oneSlot_longs : Platform.IsLong ⟨8,.inr rfl⟩ 1 ∧ Platform.IsLong ⟨8,.inr rfl⟩ 100 := by
  unfold Platform.IsLong Platform.width
  norm_num

theorem long_eight : 8=4 ∨ 8=8 := .inr rfl

/-- Attributes of a queue for one message, on a 64-bit machine. -/
def oneSlot : MqAttr ⟨8,long_eight⟩ := ⟨1,100,oneSlot_longs⟩

theorem oneSlot_accepted : Accepted oneSlot := ⟨by decide,by decide⟩

/-- A queue for one message is full. Two more senders wait, and the one that came
later but has the better priority is the first waiter. -/
theorem mq_queue_consistent_full : ∃ q : MqQueue ⟨8,.inr rfl⟩, MqQueueReachable q ∧ q.eWaitQ .send=[2,3] ∧
    q.wqGetFirstWaiter .send=some 3 ∧ q.curmsgs=q.attr.maxmsg ∧ q.messages.wild=false := by
  obtain ⟨q,hr,hlist,hfirst⟩ : ∃ q, MqQueueReachable q ∧ q.eWaitQ .send=[2,3] ∧ q.wqGetFirstWaiter .send=some 3 :=
    exists_run (fun _ _ _ => id) (newQueue_start oneSlot_accepted (fun c => if c=3 then 10 else 20))
      [.mqTimedsend 1 5 10 false none none none,.sndLock 1,.mqTimedsend 2 5 20 false none none none,.sndLock 2,
        .mqTimedsend 3 5 30 false none none none,.sndLock 3] (by decide)
  obtain ⟨_,_,_,_,hfull,_,htame⟩ := mq_queue_consistent hr
  exact ⟨q,hr,hlist,hfirst,hfull (by rw [hlist]; exact nofun),htame⟩

/-- The attributes of every live queue that mq_open or open has created are accepted. -/
theorem accepted_of_live {s : MqState pf} (hr : MqReachable s) {o : ℕ} (ho : o∈s.queues) :
    Accepted (s.objs o).attr := by
  have hs := (inodeInv_of_reachable hr).sized o ho
  have hhard : (pf.hardMsgmax : ℤ) ≤ intMax := le_trans (Int.ofNat_le.mpr (hardMsgmax_le pf)) (by decide)
  exact ⟨hs.some,le_trans hs.hard hhard⟩

theorem accepted_of_live_created : ∃ s : MqState ⟨8,long_eight⟩, MqReachable s ∧ Accepted (s.objs 3).attr := by
  obtain ⟨s,hr,ho⟩ : ∃ s : MqState ⟨8,long_eight⟩, MqReachable s ∧ 3∈s.queues :=
    exists_run (fun _ _ _ => id) (newMq_start _) [.doCreate 0 0 7 false none,.create 0 false,
      .newInode 0 (some 3),.kmalloc 0 (some 5),.charge 0 819200] (by decide)
  exact ⟨s,hr,accepted_of_live hr ho⟩

end BlockIpc.MqueueStates
