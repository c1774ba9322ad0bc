import BlockIpc.MsgDelivery

/-!
# Waiters of System V message queues

No receiver sleeps beside a message that it asked for, and no sender sleeps although its message
has room, if the security hooks permit every delivery. The part about senders needs that q_cbytes
and q_qnum only grow while a message is put on the queue. With a negative msg_ctlmax a message may
be so large that their sum wraps; a sender then sleeps beside an empty queue.
-/

namespace BlockIpc.MsgWaiters

open Function List TransitionRuns MsgQueues MsgProtocol MsgDelivery

/-- A step with security hooks that permit every delivery. -/
def permitted : MsgEvent → MsgEvent
  | .sndScan c _ => .sndScan c false
  | .rcvLock c lookup refused _ => .rcvLock c lookup refused (fun _ _ => false)
  | .rcvRelock c signal refused _ => .rcvRelock c signal refused (fun _ _ => false)
  | e => e

/-- One step with permitting hooks, as a relation. -/
def PermittedNext (s : MsgSys) (e : MsgEvent) (s' : MsgSys) : Prop := MsgNext s (permitted e) s'

/-- States of runs with permitting hooks. -/
def PermittedReachable (s : MsgSys) : Prop := Reachable MsgStart PermittedNext s

/-- Putting a message on the queue does not wrap its counters. -/
def Exact (q : MsgQueue) : MsgEvent → Prop
  | .sndScan c _ => ∀ m msgsz, q.pc c=.sndScan m msgsz [] → msgsz+q.qCbytes<2^64 ∧ 1+q.qQnum<2^64
  | _ => True

/-- One step with permitting hooks that does not wrap the counters. -/
def ExactNext (s : MsgSys) (e : MsgEvent) (s' : MsgSys) : Prop := Exact s.msq e ∧ PermittedNext s e s'

/-- States of runs with permitting hooks in which the counters do not wrap. -/
def ExactReachable (s : MsgSys) : Prop := Reachable MsgStart ExactNext s

variable {s : MsgSys} {n n' : MsgNs} {q q' : MsgQueue} {pc : MsgPc} {m : MsgMsg} {c d msgsz : ℕ} {e : MsgEvent}

theorem msgReachable_of_exact (hr : ExactReachable s) : MsgReachable s :=
  Reachable.project id (fun _ h => h) (fun _ a _ h => ⟨permitted a,h.2⟩) hr

/-- The queue has no room for a message, in exact numbers. -/
def Full (q : MsgQueue) (msgsz : ℕ) : Prop := q.qQbytes < msgsz+q.qCbytes ∨ q.qQbytes<1+q.qQnum

/-- A call is in the middle of IPC_SET. -/
def setting : MsgPc → Bool
  | .ctlExpunge .set _ => true
  | .ctlWrite .set _ _ => true
  | _ => false

/-- The message with which a call walks over the receivers. -/
def offered : MsgPc → Option MsgMsg
  | .sndScan m _ _ => some m
  | .sndWrite m _ _ _ => some m
  | _ => none

/-- A receiver waits for a message. -/
def Wants (q : MsgQueue) (r : ℕ) (m : MsgMsg) : Prop := testmsg m (q.msr r).rMsgtype (q.msr r).rMode=true

structure WaitInv (q : MsgQueue) : Prop where
  /-- No linked receiver waits for a message on the queue. -/
  receivers : ∀ r∈q.qReceivers, ∀ m∈q.qMessages, ¬Wants q r m
  /-- No receiver that a sender has passed waits for its message. -/
  passed : ∀ c m, offered (q.pc c)=some m → ∀ r∈q.qReceivers, r∉ahead (q.pc c) → ¬Wants q r m
  /-- No sender is linked twice. -/
  nodup : q.qSenders.Nodup
  /-- A linked sender sleeps. -/
  asleep : ∀ c∈q.qSenders, ∃ m msgsz nowait, q.pc c=.sndAsleep m msgsz nowait
  /-- No sender is linked to a removed queue. -/
  removed : q.deleted=true → q.qSenders=[]
  /-- A sender that was not woken has no room, unless the limit is being changed. -/
  full : ∀ c∈q.qSenders, q.woken c=false → ∀ m msgsz nowait, q.pc c=.sndAsleep m msgsz nowait →
    Full q msgsz ∨ ∃ d, setting (q.pc d)=true

theorem waitInv_start (h : QueueStart n q) : WaitInv q := by
  refine ⟨?_,fun c m hc => ?_,?_,?_,fun _ => h.senders,?_⟩
  · rw [h.receivers]
    exact nofun
  · rw [h.idle] at hc
    cases hc
  · rw [h.senders]
    exact nodup_nil
  · rw [h.senders]
    exact nofun
  · rw [h.senders]
    exact nofun

theorem holding_of_offered (h : offered pc=some m) : holding pc=true := by
  cases pc with
  | sndScan m k rest | sndWrite m k r rest => rfl
  | _ => cases h

theorem holding_of_setting (h : setting pc=true) : holding pc=true := by
  cases pc with
  | ctlExpunge cmd rest | ctlWrite cmd r rest => rfl
  | _ => cases h

/-- A call that advances keeps a change of the limit that it does not end. -/
theorem setting_update (h : setting (q.pc c)=true → setting pc=true) :
    (∃ d, setting (q.pc d)=true) → ∃ d, setting (update q.pc c pc d)=true := by
  rintro ⟨x,hx⟩
  refine ⟨x,?_⟩
  by_cases hxc : x=c
  · rw [hxc,update_self]
    exact h (hxc ▸ hx)
  · rw [update_of_ne hxc]
    exact hx

/-- The advance of a call with a change that links no sender. -/
theorem WaitInv.change (hi : WaitInv q) (hpc : q'.pc=update q.pc c pc)
    (hreceivers : ∀ r∈q'.qReceivers, ∀ m∈q'.qMessages, ¬Wants q' r m)
    (hpassed : ∀ d m, offered (q'.pc d)=some m → ∀ r∈q'.qReceivers, r∉ahead (q'.pc d) → ¬Wants q' r m)
    (hnodup : q'.qSenders.Nodup) (hsenders : ∀ d∈q'.qSenders, d≠c ∧ d∈q.qSenders)
    (hremoved : q'.deleted=true → q'.qSenders=[]) (hfull : ∀ d∈q'.qSenders, q'.woken d=false → q.woken d=false ∧
      ∀ msgsz, (Full q msgsz ∨ ∃ d, setting (q.pc d)=true) → Full q' msgsz ∨ ∃ d, setting (q'.pc d)=true) :
    WaitInv q' := by
  have hother : ∀ d∈q'.qSenders, q'.pc d=q.pc d := fun d hd => by rw [hpc,update_of_ne (hsenders d hd).1]
  refine ⟨hreceivers,hpassed,hnodup,fun d hd => ?_,hremoved,fun d hd hwoken m msgsz nowait hp => ?_⟩
  · rw [hother d hd]
    exact hi.asleep d (hsenders d hd).2
  · obtain ⟨hw,hstep⟩ := hfull d hd hwoken
    rw [hother d hd] at hp
    exact hstep msgsz (hi.full d (hsenders d hd).2 hw m msgsz nowait hp)

/-- A change that takes messages and receivers away and may wake senders. -/
theorem WaitInv.shrink (hi : WaitInv q) (hpc : q'.pc=update q.pc c pc) (hreceivers : q'.qReceivers ⊆ q.qReceivers)
    (hmessages : q'.qMessages ⊆ q.qMessages) (hwants : ∀ r m, Wants q' r m → Wants q r m)
    (hpassed : ∀ m, offered pc=some m → ∀ r∈q'.qReceivers, r∉ahead pc → ¬Wants q r m) (hnodup : q'.qSenders.Nodup)
    (hsenders : ∀ d∈q'.qSenders, d≠c ∧ d∈q.qSenders) (hremoved : q'.deleted=true → q'.qSenders=[])
    (hfull : ∀ d∈q'.qSenders, q'.woken d=false → q.woken d=false ∧
      ∀ msgsz, (Full q msgsz ∨ ∃ d, setting (q.pc d)=true) → Full q' msgsz ∨ ∃ d, setting (q'.pc d)=true) :
    WaitInv q' := by
  refine hi.change hpc (fun r hr m hm hw => ?_) (fun d m hd r hr hnot hw => ?_) hnodup hsenders hremoved hfull
  · exact hi.receivers r (hreceivers hr) m (hmessages hm) (hwants r m hw)
  · rw [hpc] at hd hnot
    by_cases hdc : d=c
    · rw [hdc,update_self] at hd hnot
      exact hpassed m hd r hr hnot (hwants r m hw)
    · rw [update_of_ne hdc] at hd hnot
      exact hi.passed d m hd r (hreceivers hr) hnot (hwants r m hw)

/-- A call that is not asleep as a sender is not linked as one. -/
theorem WaitInv.not_sender (hi : WaitInv q) (hp : q.pc c=pc) (h : ∀ m msgsz nowait, pc≠.sndAsleep m msgsz nowait) :
    c∉q.qSenders := by
  intro hc
  obtain ⟨m,msgsz,nowait,hs⟩ := hi.asleep c hc
  exact h m msgsz nowait (hp.symm.trans hs)

/-- So every linked sender is another call. -/
theorem WaitInv.others (hi : WaitInv q) (hp : q.pc c=pc) (h : ∀ m msgsz nowait, pc≠.sndAsleep m msgsz nowait) :
    ∀ d∈q.qSenders, d≠c ∧ d∈q.qSenders := fun _ hd => ⟨fun he => hi.not_sender hp h (he ▸ hd),hd⟩

/-- The advance of a call that does not sleep as a sender, with a change that takes
messages and receivers away and leaves the senders and the counters. -/
theorem WaitInv.same {pc₀ : MsgPc} (hi : WaitInv q) (hp : q.pc c=pc₀)
    (hawake : ∀ m msgsz nowait, pc₀≠.sndAsleep m msgsz nowait) (hsetting : setting pc₀=true → setting pc=true)
    (hpc : q'.pc=update q.pc c pc) (hreceivers : q'.qReceivers ⊆ q.qReceivers) (hmessages : q'.qMessages ⊆ q.qMessages)
    (hwants : ∀ r m, Wants q' r m → Wants q r m)
    (hsame : q'.qSenders=q.qSenders ∧ q'.woken=q.woken ∧ q'.deleted=q.deleted ∧ Full q'=Full q)
    (hpassed : ∀ m, offered pc=some m → ∀ r∈q'.qReceivers, r∉ahead pc → ¬Wants q r m) : WaitInv q' := by
  obtain ⟨hsenders,hwoken,hdeleted,hfull⟩ := hsame
  refine hi.shrink hpc hreceivers hmessages hwants hpassed ?_ ?_ ?_ ?_
  · rw [hsenders]
    exact hi.nodup
  · rw [hsenders]
    exact hi.others hp hawake
  · rw [hsenders,hdeleted]
    exact hi.removed
  · rw [hwoken,hfull,hpc]
    exact fun d _ hw => ⟨hw,fun _ => Or.imp_right (setting_update (hp ▸ hsetting))⟩

/-- A call that does not hold the lock and does not sleep as a sender advances. -/
theorem WaitInv.go {pc₀ : MsgPc} (hi : WaitInv q) (hp : q.pc c=pc₀)
    (h : ∀ m msgsz nowait, pc₀≠.sndAsleep m msgsz nowait) (h0 : holding pc₀=false) (h1 : holding pc=false) :
    WaitInv (q.go c pc) := by
  refine hi.same hp h (fun hs => ?_) rfl (fun _ => id) (fun _ => id) (fun _ _ => id) ⟨rfl,rfl,rfl,rfl⟩ (fun m hm => ?_)
  · rw [holding_of_setting hs] at h0
    cases h0
  · rw [holding_of_offered hm] at h1
    cases h1

theorem woken_all (h : d∈q.qSenders) : q.ssWakeup.woken d≠false := by
  show (if d∈q.qSenders then true else q.woken d)≠false
  rw [if_pos h]
  exact nofun

/-- A sender that slept unlinks itself. -/
theorem WaitInv.ssDel (hi : WaitInv q) (h0 : holding (q.pc c)=false) (h1 : holding pc=false) :
    WaitInv ((q.ssDel c).go c pc) := by
  refine hi.shrink rfl (fun _ => id) (fun _ => id) (fun _ _ => id) (fun m hm => ?_) (hi.nodup.erase c)
    (fun d hd => hi.nodup.mem_erase_iff.mp hd) (fun hd => ?_)
    (fun d _ hw => ⟨hw,fun _ => Or.imp_right (setting_update fun hs => ?_)⟩)
  · rw [holding_of_offered hm] at h1
    cases h1
  · show q.qSenders.erase c=[]
    rw [hi.removed hd]
    rfl
  · rw [holding_of_setting hs] at h0
    cases h0

theorem word_le (x : ℕ) : word x≤x := by
  unfold word
  omega

theorem word_of_lt {x : ℕ} (h : x<2^64) : word x=x := by
  unfold word
  omega

/-- A queue without room is full. -/
theorem full_of_not_hasRoom (h : q.hasRoom msgsz=false) : Full q msgsz := by
  unfold MsgQueue.hasRoom at h
  rw [decide_eq_false_iff_not] at h
  have hb := word_le (msgsz+q.qCbytes)
  have hn := word_le (1+q.qQnum)
  push_cast at hb hn
  unfold Full
  omega

/-- The loop of do_msgsnd keeps it. -/
theorem WaitInv.sndOutcome (hi : WaitInv q) (hlive : q.deleted=false) {nowait : Bool}
    (hp : q.pc c=.sndReady m msgsz nowait) (ho : SndOutcome q c m msgsz q') : WaitInv q' := by
  have hnot : c∉q.qSenders := hi.not_sender hp nofun
  cases ho with
  | failed h => exact hi.go hp nofun rfl rfl
  | began h =>
    exact hi.same hp nofun nofun rfl (fun _ => id) (fun _ => id) (fun _ _ => id) ⟨rfl,rfl,rfl,rfl⟩
      (fun m' _ r hr hn => absurd hr hn)
  | @slept nowait' h =>
    have hself : ((q.ssAdd c).go c (.sndAsleep m msgsz nowait')).pc c=.sndAsleep m msgsz nowait' := go_self _ c _
    have hother : ∀ d, d≠c → ((q.ssAdd c).go c (.sndAsleep m msgsz nowait')).pc d=q.pc d :=
      fun d hd => go_of_ne _ _ hd
    refine ⟨hi.receivers,fun d m' hd => ?_,?_,fun d hd => ?_,fun hd => ?_,fun d hd hw m' k nw hpd => ?_⟩
    · by_cases hdc : d=c
      · rw [hdc,hself] at hd
        cases hd
      · rw [hother d hdc] at hd ⊢
        exact hi.passed d m' hd
    · exact nodup_append.mpr ⟨hi.nodup,nodup_singleton c,fun x hx y hy he =>
        hnot (by rw [mem_singleton.mp hy] at he; rw [← he]; exact hx)⟩
    · by_cases hdc : d=c
      · rw [hdc]
        exact ⟨m,msgsz,nowait',hself⟩
      · rw [hother d hdc]
        rcases mem_append.mp hd with hd|hd
        · exact hi.asleep d hd
        · exact absurd (mem_singleton.mp hd) hdc
    · rw [show ((q.ssAdd c).go c (.sndAsleep m msgsz nowait')).deleted=q.deleted from rfl,hlive] at hd
      cases hd
    · by_cases hdc : d=c
      · rw [hdc,hself] at hpd
        cases hpd
        exact .inl (full_of_not_hasRoom h)
      · rw [hother d hdc] at hpd
        have hold : d∈q.qSenders := (mem_append.mp hd).resolve_right
          (fun hm => hdc (mem_singleton.mp hm))
        have hwoken : q.woken d=false := by
          rw [← hw]
          exact (update_of_ne hdc _ _).symm
        exact (hi.full d hold hwoken m' k nw hpd).imp_right (setting_update (q := q) (by rw [hp]; exact nofun))

/-- The loop of do_msgrcv keeps it if the hooks permit every delivery. -/
theorem WaitInv.rcvOutcome (hi : WaitInv q) (hq : ProtoInv q) (hlock : q.lock=none) {args : RcvArgs}
    {deny : MsgMsg → ℤ → Bool} (hp : q.pc c=.rcvReady args) (hpermit : ∀ m t, deny m t=false)
    (ho : RcvOutcome n q c args deny n' q') : WaitInv q' := by
  cases ho with
  | failed => exact hi.go hp nofun rfl rfl
  | took hm ht hs =>
    exact hi.shrink rfl (fun _ => id) erase_subset (fun _ _ => id) nofun hi.nodup (hi.others hp nofun) hi.removed
      (fun d hd hw => absurd hw (woken_all hd))
  | linked hnone =>
    obtain ⟨hself,hother,hmself,hmother⟩ := asleep_facts q c args
    refine hi.change rfl (fun r hr m hm => ?_) (fun d m hd => ?_) hi.nodup (hi.others hp nofun) hi.removed
      (fun d _ hw => ⟨hw,fun _ => Or.imp_right (setting_update (by rw [hp]; exact nofun))⟩)
    · unfold Wants
      by_cases hrc : r=c
      · rw [hrc,hmself]
        intro ht
        have hd := hnone m hm ht
        rw [hpermit] at hd
        cases hd
      · rw [hmother r hrc]
        have hold : r∈q.qReceivers := (mem_append.mp hr).resolve_right
          (fun hmem => hrc (mem_singleton.mp hmem))
        exact hi.receivers r hold m hm
    · have hdc : d≠c := by
        intro he
        rw [he,hself] at hd
        cases hd
      rw [hother d hdc] at hd
      have h := (hq.holder d).mp (holding_of_offered hd)
      rw [hlock] at h
      cases h

/-- A receiver unlinks itself. -/
theorem WaitInv.unlink (hi : WaitInv q) {args : RcvArgs} (hp : q.pc c=.rcvRelock args) (h : offered pc=none) :
    WaitInv ((q.unlink c).go c pc) := by
  refine hi.same hp nofun nofun rfl erase_subset (fun _ => id) (fun _ _ => id) ⟨rfl,rfl,rfl,rfl⟩ (fun m hm => ?_)
  cases h.symm.trans hm

/-- The kind of message that a receiver waits for does not change with its pointer. -/
theorem wants_setMsg {r : ℕ} {x : RMsg} : Wants (q.setMsg r x) d m ↔ Wants q d m := by
  unfold Wants
  by_cases hd : d=r
  · rw [hd,setMsg_self]
  · rw [setMsg_of_ne q x hd]

/-- A message is put on the queue without a wrap. -/
theorem WaitInv.enqueued (hi : WaitInv q) (hp : q.pc c=.sndScan m msgsz []) (hbytes : msgsz+q.qCbytes<2^64)
    (hnum : 1+q.qQnum<2^64) : WaitInv ({q.enqueue m msgsz with lock := none}.go c (.sndDone (some m) 0)) := by
  have hpassed := hi.passed c m (by rw [hp]; rfl)
  rw [hp] at hpassed
  have hself : ({q.enqueue m msgsz with lock := none}.go c (.sndDone (some m) 0)).pc c=
      .sndDone (some m) 0 := go_self _ c _
  have hother : ∀ d, d≠c →
      ({q.enqueue m msgsz with lock := none}.go c (.sndDone (some m) 0)).pc d=q.pc d :=
    fun d hd => go_of_ne _ _ hd
  have hcbytes : word (q.qCbytes+msgsz)=q.qCbytes+msgsz := by
    have h := word_of_lt (x := q.qCbytes+msgsz) (by omega)
    push_cast at h
    exact h
  have hqnum : word (q.qQnum+1)=q.qQnum+1 := by
    have h := word_of_lt (x := q.qQnum+1) (by omega)
    push_cast at h
    exact h
  refine hi.change rfl (fun r hr m' hm' => ?_) (fun d m' hd => ?_) hi.nodup (hi.others hp nofun) hi.removed
    (fun d _ hw => ⟨hw,fun k => Or.imp (fun hf => ?_) (setting_update (by rw [hp]; exact nofun))⟩)
  · rcases mem_append.mp hm' with hm'|hm'
    · exact hi.receivers r hr m' hm'
    · rw [mem_singleton.mp hm']
      exact hpassed r hr not_mem_nil
  · have hdc : d≠c := by
      intro he
      rw [he,hself] at hd
      cases hd
    rw [hother d hdc] at hd ⊢
    exact hi.passed d m' hd
  · show q.qQbytes<k+word (q.qCbytes+msgsz) ∨ q.qQbytes<1+word (q.qQnum+1)
    rw [hcbytes,hqnum]
    unfold Full at hf
    omega

/-- The security hooks of a step permit every delivery. -/
def Permits : MsgEvent → Prop
  | .sndScan _ deny => deny=false
  | .rcvLock _ _ _ deny => ∀ m t, deny m t=false
  | .rcvRelock _ _ _ deny => ∀ m t, deny m t=false
  | _ => True

theorem permits_permitted (e : MsgEvent) : Permits (permitted e) := by
  cases e with
  | sndScan c deny => rfl
  | rcvLock c lookup refused deny | rcvRelock c signal refused deny => exact fun _ _ => rfl
  | _ => trivial

theorem exact_permitted (h : Exact q e) : Exact q (permitted e) := by
  cases e with
  | sndScan c deny => exact h
  | _ => trivial

/-- Every step with permitting hooks that does not wrap the counters keeps it. -/
theorem WaitInv.step (hi : WaitInv q) (hq : ProtoInv q) (hpermit : Permits e) (hexact : Exact q e)
    (h : msgStep n q e=some (n',q')) : WaitInv q' := by
  cases msgStep_cases h with
  | sysctl => exact hi
  | sndRefused hp | sndLoaded hp | sndLost hp | rcvRefused hp | rcvCalled hp | rcvLost hp | rcvSawAgain hp
  | rcvSawErr hp | rcvSawMsg hp | rcvNull hp | rcvErr hp | rcvMsg hp | rcvStored hp | ctlRefused hp =>
    exact hi.go hp nofun rfl rfl
  | sndLocked hp hlock hlive ho => exact hi.sndOutcome hlive hp ho
  | @sndEnqueued c msgsz m deny hp =>
    obtain ⟨hbytes,hnum⟩ := hexact m msgsz hp
    exact hi.enqueued hp hbytes hnum
  | @sndMatched c msgsz r m rest deny hp ht =>
    have hpassed := hi.passed c m (by rw [hp]; rfl)
    rw [hp] at hpassed
    refine hi.same hp nofun nofun rfl erase_subset (fun _ => id) (fun _ _ => wants_setMsg.mp) ⟨rfl,rfl,rfl,rfl⟩
      (fun m' hm' x hx hnot => ?_)
    cases hm'
    obtain ⟨hne,hx⟩ := hq.nodup.mem_erase_iff.mp hx
    exact hpassed x hx (fun hmem => (mem_cons.mp hmem).elim hne hnot)
  | @sndSkipped c msgsz r m rest deny hp ht =>
    have hpassed := hi.passed c m (by rw [hp]; rfl)
    rw [hp] at hpassed
    refine hi.same hp nofun nofun rfl (fun _ => id) (fun _ => id) (fun _ _ => id) ⟨rfl,rfl,rfl,rfl⟩
      (fun m' hm' x hx hnot => ?_)
    cases hm'
    by_cases hxr : x=r
    · rw [hxr]
      intro hw
      have hd := ht hw
      rw [show deny=false from hpermit] at hd
      cases hd
    · exact hpassed x hx (fun hmem => (mem_cons.mp hmem).elim hxr hnot)
  | @sndTooBig c msgsz r m rest hp hbig =>
    have hpassed := hi.passed c m (by rw [hp]; rfl)
    rw [hp] at hpassed
    refine hi.same hp nofun nofun rfl (fun _ => id) (fun _ => id) (fun _ _ => wants_setMsg.mp) ⟨rfl,rfl,rfl,rfl⟩
      (fun m' hm' x hx hnot => ?_)
    cases hm'
    exact hpassed x hx hnot
  | sndHanded hp hfit =>
    exact hi.same hp nofun nofun rfl (fun _ => id) (fun _ => id) (fun _ _ => wants_setMsg.mp) ⟨rfl,rfl,rfl,rfl⟩ nofun
  | sndRemoved hp hdeleted =>
    have hnone : ∀ d, d∉q.qSenders := by
      rw [hi.removed hdeleted]
      exact fun _ => not_mem_nil
    exact hi.shrink rfl (fun _ => id) (fun _ => id) (fun _ _ => id) nofun hi.nodup (fun d hd => absurd hd (hnone d))
      hi.removed (fun d hd => absurd hd (hnone d))
  | sndSignalled hp hlock => exact hi.ssDel (by rw [hp]; rfl) rfl
  | @sndRetried c msgsz m nowait _ _ _ hp hlock hlive ho =>
    have hready : WaitInv ((q.ssDel c).go c (.sndReady m msgsz nowait)) := hi.ssDel (by rw [hp]; rfl) rfl
    exact hready.sndOutcome hlive (go_self _ c _) ho
  | rcvLocked hp hlock hlive ho => exact hi.rcvOutcome hq hlock hp hpermit ho
  | rcvSpun => exact hi
  | rcvSignalled hp hlock hm => exact hi.unlink hp rfl
  | @rcvRetried c args _ _ deny _ _ hp hlock hm ho =>
    have hready : WaitInv ((q.unlink c).go c (.rcvReady args)) := hi.unlink hp rfl
    have hqready : ProtoInv ((q.unlink c).go c (.rcvReady args)) := hq.unlink hlock hp hm rfl rfl nofun
    exact hready.rcvOutcome hqready hlock (go_self _ c _) hpermit ho
  | @setBegan c qbytes _ _ hp hlock hlive hword =>
    refine hi.shrink rfl (fun _ => id) (fun _ => id) (fun _ _ => id) nofun hi.nodup (hi.others hp nofun) hi.removed
      (fun d _ hw => ⟨hw,fun _ _ => .inr ⟨c,?_⟩⟩)
    rw [go_self]
    rfl
  | rmidBegan hp | freedAll hp =>
    exact hi.same hp nofun nofun rfl (fun _ => id) (fun _ => id) (fun _ _ => id) ⟨rfl,rfl,rfl,rfl⟩ nofun
  | @expunged c r cmd rest hp | @expungeWrote c r cmd rest hp =>
    refine hi.same hp nofun ?_ rfl (fun _ => id) (fun _ => id) (fun _ _ => wants_setMsg.mp) ⟨rfl,rfl,rfl,rfl⟩ nofun
    cases cmd <;> exact id
  | setEnded hp =>
    exact hi.shrink rfl (fun _ => id) (fun _ => id) (fun _ _ => id) nofun hi.nodup (hi.others hp nofun) hi.removed
      (fun d hd hw => absurd hw (woken_all hd))
  | rmidEnded hp =>
    exact hi.shrink rfl (fun _ => id) (fun _ => id) (fun _ _ => id) nofun nodup_nil nofun (fun _ => rfl) nofun
  | @freedMsg c m rest hp hm =>
    refine hi.same hp nofun id ((update_eq_self c q.pc).symm.trans (by rw [hp])) (fun _ => id) (fun x hx => ?_)
      (fun _ _ => id) ⟨rfl,rfl,rfl,rfl⟩ nofun
    rw [hm]
    exact mem_cons_of_mem _ hx

/-- It holds in all runs with permitting hooks in which the counters do not wrap. -/
theorem waitInv_of_exact (hr : ExactReachable s) : WaitInv s.msq :=
  Reachable.invariant (I := fun s : MsgSys => WaitInv s.msq) (fun _ h => waitInv_start h)
    (fun _ a _ hr hi h => hi.step (protoInv_of_reachable (msgReachable_of_exact hr)) (permits_permitted a)
      (exact_permitted h.1) (msgStep_of_next h.2)) hr

/-- While the lock of a live queue is free: no linked receiver waits for a message on
the queue, and every linked sender that was not woken since it was linked has a
message for which there is no room, if the counters have never wrapped. -/
theorem no_stranded_waiter_of_exact {s : MsgSys} (hr : ExactReachable s) (hlock : s.msq.lock=none) :
    (∀ r∈s.msq.qReceivers, ∀ m∈s.msq.qMessages,
      testmsg m (s.msq.msr r).rMsgtype (s.msq.msr r).rMode=false) ∧
    (∀ c∈s.msq.qSenders, s.msq.woken c=false → ∃ m msgsz nowait,
      s.msq.pc c=.sndAsleep m msgsz nowait ∧
        (s.msq.qQbytes < msgsz+s.msq.qCbytes ∨ s.msq.qQbytes<1+s.msq.qQnum)) := by
  have hi := waitInv_of_exact hr
  have hq := protoInv_of_reachable (msgReachable_of_exact hr)
  refine ⟨fun r hrr m hm => ?_,fun c hc hw => ?_⟩
  · have hn := hi.receivers r hrr m hm
    unfold Wants at hn
    simpa using hn
  · obtain ⟨m,msgsz,nowait,hp⟩ := hi.asleep c hc
    refine ⟨m,msgsz,nowait,hp,(hi.full c hc hw m msgsz nowait hp).resolve_right ?_⟩
    rintro ⟨d,hd⟩
    have h := (hq.holder d).mp (holding_of_setting hd)
    rw [hlock] at h
    cases h

/-- Whether a step does not wrap the counters. -/
def exactly (q : MsgQueue) : MsgEvent → Bool
  | .sndScan c _ =>
    match q.pc c with
    | .sndScan _ msgsz [] => decide (msgsz+q.qCbytes<2^64 ∧ 1+q.qQnum<2^64)
    | _ => true
  | _ => true

/-- One step with permitting hooks that does not wrap the counters. -/
def exactStep (s : MsgSys) (e : MsgEvent) : Option MsgSys :=
  if exactly s.msq e then msgSysStep s (permitted e) else none

theorem exactStep_next {s' : MsgSys} (h : exactStep s e=some s') : ExactNext s e s' := by
  unfold exactStep at h
  split at h
  · next hx =>
    refine ⟨?_,h⟩
    cases e with
    | sndScan c deny =>
      intro m msgsz hp
      simpa [exactly,hp] using hx
    | _ => trivial
  · cases h

/-- A queue of 15 bytes holds 10; a sender of 6 more sleeps, and so does a receiver
that asked for another type. -/
theorem no_stranded_waiter_of_exact_both : ∃ s : MsgSys, ExactReachable s ∧ s.msq.lock=none ∧
    s.msq.qReceivers=[2] ∧ s.msq.qSenders=[3] ∧ s.msq.woken 3=false ∧ s.msq.qMessages=[⟨1,7,10⟩] ∧
    testmsg ⟨1,7,10⟩ (s.msq.msr 2).rMsgtype (s.msq.msr 2).rMode=false := by
  obtain ⟨s,hr,hlock,hreceivers,hsenders,hwoken,hmessages⟩ : ∃ s, ExactReachable s ∧ s.msq.lock=none ∧
      s.msq.qReceivers=[2] ∧ s.msq.qSenders=[3] ∧ s.msq.woken 3=false ∧ s.msq.qMessages=[⟨1,7,10⟩] :=
    exists_run (fun _ _ _ => exactStep_next) newMsgSys_start [.ipcSet 0 15 false none,.expunge 0,
      .msgsnd 1 7 10 false none,.sndLock 1 none none,.sndScan 1 false,.msgrcv 2 ⟨100,8,false,false,false⟩,
      .rcvLock 2 none false (fun _ _ => true),.msgsnd 3 7 6 false none,.sndLock 3 none none] (by decide)
  have hw := (no_stranded_waiter_of_exact hr hlock).1 2 (by rw [hreceivers]; exact mem_singleton.mpr rfl)
    ⟨1,7,10⟩ (by rw [hmessages]; exact mem_singleton.mpr rfl)
  exact ⟨s,hr,hlock,hreceivers,hsenders,hwoken,hmessages,hw⟩

/-- With msg_ctlmax -1 and q_qbytes 2^64-2^33, two messages of 2^63-2^32 bytes fill the
queue and a sender of one byte sleeps. A message of 2^33 bytes wraps the sum to zero
and is put on the queue: now there is room for the sender, and nobody has woken it. -/
theorem wrapped_sum_strands_sender : ∃ s : MsgSys, PermittedReachable s ∧ s.msq.lock=none ∧
    s.msq.deleted=false ∧ s.msq.qSenders=[3] ∧ s.msq.woken 3=false ∧
    s.msq.pc 3=.sndAsleep ⟨3,1,1⟩ 1 false ∧ 1+s.msq.qCbytes ≤ s.msq.qQbytes ∧ 1+s.msq.qQnum ≤ s.msq.qQbytes :=
  exists_run (fun _ _ _ => id) newMsgSys_start [.sysctl (-1) 16384,
    .ipcSet 0 (2^64-2^33) true none,.expunge 0,.msgsnd 1 1 (2^63-2^32) false none,.sndLock 1 none none,
    .sndScan 1 false,.msgsnd 2 1 (2^63-2^32) false none,.sndLock 2 none none,.sndScan 2 false,
    .msgsnd 3 1 1 false none,.sndLock 3 none none,.msgsnd 4 1 (2^33) false none,.sndLock 4 none none,
    .sndScan 4 false] (by decide)

end BlockIpc.MsgWaiters
