import BlockIpc.MqueueProtocol

/-!
# Waiting on POSIX message queues

An entry is linked exactly while its owner is in wq_sleep and its state is
STATE_NONE. It is STATE_PENDING exactly while some call that holds the lock is about
to write STATE_READY to it. So an owner that leaves wq_sleep, be it after
STATE_READY, a signal or a timeout, leaves an entry that nobody knows any more.
-/

namespace BlockIpc.MqueueWaits

open Function MqueueInodes WaitLists MqueueProtocol

variable {pf : Platform}

/-- The waiter of a call in wq_sleep. -/
def sleeping : MqPc → Option Waiter
  | .asleep w => some w
  | .relock w => some w
  | _ => none

/-- The call to which STATE_READY is going to be written. -/
def target : MqPc → Option ℕ
  | .waking _ x => some x
  | _ => none

/-- What holds of the entry of a call, given its progress, the lists that contain
the entry and whether some call is going to write to it. -/
structure EntryOk (pc : MqPc) (x : ExtWaitQueue) (listed : Side → Prop) (aimed : Prop) : Prop where
  /-- It is linked while its owner waits in STATE_NONE. -/
  linked : ∀ sr, listed sr ↔ ∃ w, sleeping pc=some w ∧ w.side=sr ∧ x.state=.none
  /-- It is going to be written while its owner waits in STATE_PENDING. -/
  aimed : aimed ↔ (sleeping pc).isSome=true ∧ x.state=.pending
  /-- The entry of a sender has its message. -/
  given : ∀ m, sleeping pc=some (.snd m) → x.msg=some m
  /-- The entry of a receiver has a message from STATE_PENDING on. -/
  got : sleeping pc=some .rcv → x.state≠.none → x.msg.isSome=true
  /-- No receiver has used a pointer that was not written. -/
  sound : pc≠.rcvFault

/-- What holds of all entries and of the lock. -/
structure WaitInv (q : MqQueue pf) : Prop where
  /-- The lock is held by the call that is between two writes. -/
  holder : ∀ c, (target (q.pc c)).isSome=true ↔ q.lock=some c
  entries : ∀ c, EntryOk (q.pc c) (q.wait c) (fun sr => c∈q.eWaitQ sr) (∃ d, target (q.pc d)=some c)

variable {q q' : MqQueue pf} {c d : ℕ} {pc : MqPc} {w : Waiter} {sr : Side} {m : MqMsg}

/-- The entry of a call that is not in wq_sleep. -/
theorem EntryOk.bare {x : ExtWaitQueue} {listed : Side → Prop} {aimed : Prop} (hs : sleeping pc=none)
    (hsound : pc≠.rcvFault) (hlisted : ∀ sr, ¬listed sr) (haimed : ¬aimed) : EntryOk pc x listed aimed := by
  refine ⟨fun sr => iff_of_false (hlisted sr) ?_,iff_of_false haimed ?_,?_,?_,hsound⟩
  all_goals simp [hs]

theorem go_self (q : MqQueue pf) (c : ℕ) (pc : MqPc) : (q.go c pc).pc c=pc := update_self _ _ _

theorem go_of_ne (q : MqQueue pf) (pc : MqPc) (h : d≠c) : (q.go c pc).pc d=q.pc d := update_of_ne h _ _

/-- A call that waits and that is going to be written. -/
theorem WaitInv.pending_of_target (hi : WaitInv q) {d x : ℕ} (h : target (q.pc d)=some x) :
    (sleeping (q.pc x)).isSome=true ∧ (q.wait x).state=.pending := (hi.entries x).aimed.mp ⟨d,h⟩

/-- Nobody is between two writes while the lock is free. -/
theorem WaitInv.no_target (hi : WaitInv q) (hlock : q.lock=none) (d : ℕ) : target (q.pc d)=none := by
  by_contra hn
  have h := (hi.holder d).mp (Option.isSome_iff_ne_none.mpr hn)
  rw [hlock] at h
  cases h

theorem WaitInv.not_aimed (hi : WaitInv q) (hlock : q.lock=none) (c : ℕ) :
    ¬∃ d, target (q.pc d)=some c := by simp [hi.no_target hlock]

/-- While the lock is free no entry is in STATE_PENDING. -/
theorem WaitInv.not_pending (hi : WaitInv q) (hlock : q.lock=none)
    (hw : sleeping (q.pc c)=some w) : (q.wait c).state≠.pending := fun hs =>
  hi.not_aimed hlock c ((hi.entries c).aimed.mpr ⟨Option.isSome_iff_exists.mpr ⟨w,hw⟩,hs⟩)

/-- A call in a list waits in STATE_NONE. -/
theorem WaitInv.waits (hi : WaitInv q) (h : c∈q.eWaitQ sr) :
    ∃ w, sleeping (q.pc c)=some w ∧ w.side=sr ∧ (q.wait c).state=.none := ((hi.entries c).linked sr).mp h

/-- A call that is not in wq_sleep is not linked. -/
theorem WaitInv.not_linked (hi : WaitInv q) (hs : sleeping (q.pc c)=none) (sr : Side) : c∉q.eWaitQ sr := by
  intro hc
  obtain ⟨w,hw,_⟩ := hi.waits hc
  rw [hs] at hw
  cases hw

/-- The targets after a call without a target advances. -/
theorem aimed_update {f : ℕ → MqPc} (h0 : target (f c)=none) (pc : MqPc) (d : ℕ) :
    (∃ e, target (update f c pc e)=some d) ↔ target pc=some d ∨ ∃ e, target (f e)=some d := by
  constructor
  · rintro ⟨e,he⟩
    by_cases hec : e=c
    · rw [hec,update_self] at he
      exact .inl he
    · rw [update_of_ne hec] at he
      exact .inr ⟨e,he⟩
  · rintro (hp|⟨e,he⟩)
    · exact ⟨c,by rw [update_self]; exact hp⟩
    · have hec : e≠c := by
        intro hec
        rw [hec,h0] at he
        cases he
      exact ⟨e,by rw [update_of_ne hec]; exact he⟩

theorem aimed_same {f : ℕ → MqPc} (h0 : target (f c)=none) (h1 : target pc=none) (d : ℕ) :
    (∃ e, target (update f c pc e)=some d) ↔ ∃ e, target (f e)=some d := by
  rw [aimed_update h0,h1]
  simp

/-- The holder of the lock after a call without a target advances. -/
theorem holder_update (hi : WaitInv q) {c : ℕ} {pc : MqPc} (h0 : target (q.pc c)=none)
    (h1 : target pc=none) (d : ℕ) : (target (update q.pc c pc d)).isSome=true ↔ q.lock=some d := by
  by_cases hd : d=c
  · subst hd
    rw [update_self,h1,← hi.holder d,h0]
  · rw [update_of_ne hd]
    exact hi.holder d

/-- A step that changes the progress, the entry and the links of some calls only. -/
theorem WaitInv.change (hi : WaitInv q) (P : ℕ → Prop)
    (hholder : ∀ c, (target (q'.pc c)).isSome=true ↔ q'.lock=some c)
    (hpc : ∀ d, ¬P d → q'.pc d=q.pc d) (hwait : ∀ d, ¬P d → q'.wait d=q.wait d)
    (hlisted : ∀ d, ¬P d → ∀ sr, d∈q'.eWaitQ sr ↔ d∈q.eWaitQ sr)
    (haimed : ∀ d, ¬P d → ((∃ e, target (q'.pc e)=some d) ↔ ∃ e, target (q.pc e)=some d)) (hchanged : ∀ d, P d →
      EntryOk (q'.pc d) (q'.wait d) (fun sr => d∈q'.eWaitQ sr) (∃ e, target (q'.pc e)=some d)) :
    WaitInv q' := by
  refine ⟨hholder,fun d => ?_⟩
  by_cases hd : P d
  · exact hchanged d hd
  · have he := hi.entries d
    rw [hpc d hd,hwait d hd]
    exact ⟨fun sr => (hlisted d hd sr).trans (he.linked sr),(haimed d hd).trans he.aimed,he.given,he.got,he.sound⟩

/-- A call that is not between two writes advances. If it was waiting, it goes on
waiting or its state is STATE_READY. -/
theorem WaitInv.go (hi : WaitInv q) (h0 : target (q.pc c)=none) (h1 : target pc=none) (hsound : pc≠.rcvFault)
    (hs : sleeping pc=sleeping (q.pc c) ∨
      (sleeping pc=none ∧ ∀ w, sleeping (q.pc c)=some w → (q.wait c).state=.ready)) : WaitInv (q.go c pc) := by
  have haimed := aimed_same h0 h1
  refine hi.change (fun d => d=c) (holder_update hi h0 h1) (fun d hd => go_of_ne q pc hd) (fun _ _ => rfl)
    (fun _ _ _ => Iff.rfl) (fun d _ => haimed d) (fun d hd => ?_)
  subst hd
  have he := hi.entries d
  rw [go_self]
  rcases hs with hsame|⟨hnone,hready⟩
  · obtain ⟨hlinked,ha,hgiven,hgot,_⟩ := he
    rw [← haimed] at ha
    simp only [← hsame] at hlinked ha hgiven hgot
    exact ⟨hlinked,ha,hgiven,hgot,hsound⟩
  · refine .bare hnone hsound (fun sr hl => ?_) (fun ha => ?_)
    · obtain ⟨w,hw,_,hst⟩ := (he.linked sr).mp hl
      rw [hready w hw] at hst
      cases hst
    · obtain ⟨hw,hst⟩ := he.aimed.mp ((haimed d).mp ha)
      obtain ⟨w,hw⟩ := Option.isSome_iff_exists.mp hw
      rw [hready w hw] at hst
      cases hst

/-- A call that is neither waiting nor between two writes advances to such a point. -/
theorem WaitInv.goPlain (hi : WaitInv q) {pc pc₀ : MqPc} (hp : q.pc c=pc₀)
    (h0 : target pc₀=none) (hs0 : sleeping pc₀=none) (h1 : target pc=none) (hs1 : sleeping pc=none)
    (hsound : pc≠.rcvFault) : WaitInv (q.go c pc) := by
  subst hp
  exact hi.go h0 h1 hsound (.inl (hs1.trans hs0.symm))

/-- Messages and counters do not matter. -/
theorem WaitInv.frame (hi : WaitInv q) (hlock : q'.lock=q.lock) (hpc : q'.pc=q.pc)
    (hwait : q'.wait=q.wait) (hlists : q'.eWaitQ=q.eWaitQ) : WaitInv q' := by
  refine ⟨?_,?_⟩
  · rw [hlock,hpc]
    exact hi.holder
  · rw [hpc,hwait,hlists]
    exact hi.entries

/-- The members of a list to which a waiter is added. -/
theorem mem_wqAdd (q : MqQueue pf) (sr sr' : Side) (c d : ℕ) :
    d∈(q.wqAdd sr c).eWaitQ sr' ↔ (d=c ∧ sr'=sr) ∨ d∈q.eWaitQ sr' := by
  show d∈update q.eWaitQ sr (insertWaiter q.staticPrio c (q.eWaitQ sr)) sr' ↔ _
  by_cases hs : sr'=sr
  · subst hs
    rw [update_self,(insertWaiter_perm q.staticPrio c (q.eWaitQ sr')).mem_iff,List.mem_cons]
    simp
  · rw [update_of_ne hs]
    simp [hs]

/-- A call links its entry and sleeps. -/
theorem WaitInv.sleep (hi : WaitInv q) {x : ExtWaitQueue}
    (h0 : target (q.pc c)=none) (hs : sleeping (q.pc c)=none) (hx : x.state=.none)
    (hgiven : ∀ m, w=.snd m → x.msg=some m) : WaitInv (((q.setWait c x).wqAdd w.side c).go c (.asleep w)) := by
  have haimed : ∀ d, (∃ e, target (update q.pc c (.asleep w) e)=some d) ↔ ∃ e, target (q.pc e)=some d :=
    aimed_same h0 rfl
  refine hi.change (fun d => d=c) (holder_update hi h0 rfl) (fun d hd => go_of_ne _ _ hd)
    (fun d hd => update_of_ne hd _ _) (fun d hd sr => ?_) (fun d _ => haimed d) (fun d hd => ?_)
  · refine (mem_wqAdd (q.setWait c x) w.side sr c d).trans ⟨?_,.inr⟩
    rintro (⟨hdc,_⟩|h)
    · exact absurd hdc hd
    · exact h
  · subst hd
    have hwait : (((q.setWait d x).wqAdd w.side d).go d (.asleep w)).wait d=x := update_self _ _ _
    rw [go_self,hwait]
    refine ⟨fun sr => ?_,⟨fun ha => ?_,fun ⟨_,hst⟩ => ?_⟩,fun m hm => ?_,fun _ hn => absurd hx hn,nofun⟩
    · refine (mem_wqAdd (q.setWait d x) w.side sr d d).trans ⟨?_,?_⟩
      · rintro (⟨_,rfl⟩|h)
        · exact ⟨w,rfl,rfl,hx⟩
        · exact absurd h (hi.not_linked hs sr)
      · rintro ⟨w',hw,hside,_⟩
        cases hw
        exact .inl ⟨rfl,hside.symm⟩
    · obtain ⟨hw,_⟩ := (hi.entries d).aimed.mp ((haimed d).mp ha)
      rw [hs] at hw
      cases hw
    · rw [hx] at hst
      cases hst
    · exact hgiven m (Option.some.inj hm)

/-- The members of a list from which a waiter is deleted. -/
theorem mem_listDel (hnodup : (q.eWaitQ sr).Nodup) (sr' : Side) (c d : ℕ) :
    d∈(q.listDel sr c).eWaitQ sr' ↔ d∈q.eWaitQ sr' ∧ ¬(d=c ∧ sr'=sr) := by
  show d∈update q.eWaitQ sr ((q.eWaitQ sr).erase c) sr' ↔ _
  by_cases hs : sr'=sr
  · subst hs
    rw [update_self,hnodup.mem_erase_iff]
    simp [and_comm]
  · rw [update_of_ne hs]
    simp [hs]

/-- A call serves a waiter: it unlinks the entry, writes a message and STATE_PENDING
to it and keeps the lock. -/
theorem WaitInv.serve (hi : WaitInv q) {c x : ℕ} {k : Waker}
    (h0 : target (q.pc c)=none) (hs : sleeping (q.pc c)=none) (hlock : q.lock=none)
    (hnodup : (q.eWaitQ sr).Nodup) (hx : x∈q.eWaitQ sr) (hlock' : q'.lock=some c)
    (hpc : q'.pc=update q.pc c (.waking k x)) (hwait : q'.wait=update q.wait x ⟨some m,.pending⟩)
    (hlists : q'.eWaitQ=(q.listDel sr x).eWaitQ)
    (hgiven : ∀ m', sleeping (q.pc x)=some (.snd m') → m=m') : WaitInv q' := by
  obtain ⟨w,hw,hside,hst⟩ := hi.waits hx
  have hxc : x≠c := by
    intro he
    rw [he,hs] at hw
    cases hw
  have haimed : ∀ d, (∃ e, target (q'.pc e)=some d) ↔ d=x := by
    intro d
    rw [hpc,aimed_update h0,or_iff_left (hi.not_aimed hlock d),eq_comm]
    exact Option.some_inj
  have hlisted : ∀ d sr', d∈q'.eWaitQ sr' ↔ d∈q.eWaitQ sr' ∧ ¬(d=x ∧ sr'=sr) := by
    intro d sr'
    rw [hlists]
    exact mem_listDel hnodup sr' x d
  have hotherSide : ∀ sr', x∈q.eWaitQ sr' → sr'=sr := by
    intro sr' hx'
    obtain ⟨w',hw',hside',_⟩ := hi.waits hx'
    rw [hw] at hw'
    cases hw'
    rw [← hside',hside]
  refine hi.change (fun d => d=c ∨ d=x) (fun d => ?_) (fun d hd => ?_) (fun d hd => ?_) (fun d hd sr' => ?_)
    (fun d hd => ?_) (fun d hd => ?_)
  · rw [hpc,hlock']
    by_cases hd : d=c
    · rw [hd,update_self]
      exact ⟨fun _ => rfl,fun _ => rfl⟩
    · rw [update_of_ne hd,hi.no_target hlock d]
      exact ⟨nofun,fun he => absurd (Option.some.inj he).symm hd⟩
  · rw [hpc,update_of_ne (fun he => hd (.inl he))]
  · rw [hwait,update_of_ne (fun he => hd (.inr he))]
  · rw [hlisted]
    exact ⟨And.left,fun h => ⟨h,fun he => hd (.inr he.1)⟩⟩
  · rw [haimed]
    exact iff_of_false (fun he => hd (.inr he)) (hi.not_aimed hlock d)
  · rcases hd with rfl|rfl
    · have hpcd : q'.pc d=.waking k x := by rw [hpc,update_self]
      rw [hpcd]
      exact .bare rfl nofun (fun sr' hl => hi.not_linked hs sr' ((hlisted d sr').mp hl).1)
        (fun ha => hxc ((haimed d).mp ha).symm)
    · have hpcd : q'.pc d=q.pc d := by rw [hpc,update_of_ne hxc]
      have hwaitd : q'.wait d=⟨some m,.pending⟩ := by rw [hwait,update_self]
      rw [hpcd,hwaitd]
      refine ⟨fun sr' => ⟨fun hl => ?_,fun ⟨w',_,_,hn⟩ => ?_⟩,⟨fun _ => ?_,fun _ => (haimed d).mpr rfl⟩,
        fun m' hm' => ?_,fun _ _ => rfl,(hi.entries d).sound⟩
      · obtain ⟨hl,hn⟩ := (hlisted d sr').mp hl
        exact absurd ⟨rfl,hotherSide sr' hl⟩ hn
      · cases hn
      · exact ⟨Option.isSome_iff_exists.mpr ⟨w,hw⟩,rfl⟩
      · rw [hgiven m' hm']

/-- STATE_READY is written and the lock is dropped. -/
theorem WaitInv.readied (hi : WaitInv q) {c x : ℕ} {k : Waker} (hp : q.pc c=.waking k x) :
    WaitInv ({q.setWait x {q.wait x with state := .ready} with lock := none}.go c k.finish) := by
  have htarget : target (q.pc c)=some x := by rw [hp]; rfl
  have hlock := (hi.holder c).mp (by rw [htarget]; rfl)
  have hfinish : target k.finish=none ∧ sleeping k.finish=none ∧ k.finish≠.rcvFault := by
    cases k with
    | snd m | rcv m => exact ⟨rfl,rfl,nofun⟩
  obtain ⟨hw,hst⟩ := hi.pending_of_target htarget
  have hxc : x≠c := by
    intro he
    rw [he,hp] at hw
    cases hw
  have honly : ∀ e d, target (q.pc e)=some d → e=c ∧ d=x := by
    intro e d he
    have hl := (hi.holder e).mp (by rw [he]; rfl)
    rw [hlock] at hl
    obtain rfl := Option.some.inj hl
    rw [htarget] at he
    exact ⟨rfl,(Option.some.inj he).symm⟩
  have hnone : ∀ e, target (({q.setWait x {q.wait x with state := .ready} with lock := none}.go c
      k.finish).pc e)=none := by
    intro e
    by_cases hec : e=c
    · rw [hec,go_self]
      exact hfinish.1
    · rw [go_of_ne _ _ hec]
      by_contra hn
      obtain ⟨d,hd⟩ := Option.ne_none_iff_exists'.mp hn
      exact hec (honly e d hd).1
  refine hi.change (fun d => d=c ∨ d=x) (fun d => ?_) (fun d hd => go_of_ne _ _ (fun he => hd (.inl he)))
    (fun d hd => update_of_ne (fun he => hd (.inr he)) _ _) (fun _ _ _ => Iff.rfl) (fun d hd => ?_)
    (fun d hd => ?_)
  · rw [hnone d]
    exact ⟨nofun,nofun⟩
  · constructor
    · rintro ⟨e,he⟩
      rw [hnone e] at he
      cases he
    · rintro ⟨e,he⟩
      exact absurd (.inr (honly e d he).2) hd
  · have he := hi.entries d
    have hunaimed : ¬∃ e, target (({q.setWait x {q.wait x with state := .ready} with lock := none}.go c
        k.finish).pc e)=some d := by
      rintro ⟨e,he⟩
      rw [hnone e] at he
      cases he
    rcases hd with rfl|rfl
    · rw [go_self]
      exact .bare hfinish.2.1 hfinish.2.2 (hi.not_linked (by rw [hp]; rfl)) hunaimed
    · have hwaitd : ({q.setWait d {q.wait d with state := .ready} with lock := none}.go c k.finish).wait d=
          {q.wait d with state := .ready} := update_self _ _ _
      rw [go_of_ne _ _ hxc,hwaitd]
      refine ⟨fun sr => ⟨fun hl => ?_,fun ⟨w,_,_,hn⟩ => ?_⟩,⟨fun ha => absurd ha hunaimed,fun ⟨_,hn⟩ => ?_⟩,
        he.given,fun hr _ => ?_,he.sound⟩
      · obtain ⟨w,_,_,hn⟩ := (he.linked sr).mp hl
        rw [hst] at hn
        cases hn
      · cases hn
      · cases hn
      · exact he.got hr (by rw [hst]; exact nofun)

/-- A waiting call is interrupted or its time is over. -/
theorem WaitInv.cancel (hi : WaitInv q)
    (hw : sleeping (q.pc c)=some w) (hlock : q.lock=none) (hnodup : (q.eWaitQ w.side).Nodup)
    (h1 : target pc=none) (hs1 : sleeping pc=none) (hsound : pc≠.rcvFault) :
    WaitInv ((q.listDel w.side c).go c pc) := by
  have h0 := hi.no_target hlock c
  have haimed := aimed_same h0 h1
  refine hi.change (fun d => d=c) (holder_update hi h0 h1) (fun d hd => go_of_ne _ _ hd) (fun _ _ => rfl)
    (fun d hd sr => ?_) (fun d _ => haimed d) (fun d hd => ?_)
  · refine (mem_listDel hnodup sr c d).trans ⟨And.left,fun h => ⟨h,fun he => hd he.1⟩⟩
  · subst hd
    rw [go_self]
    refine .bare hs1 hsound (fun sr hl => ?_) (fun ha => hi.not_aimed hlock d ((haimed d).mp ha))
    obtain ⟨hl,hn⟩ := (mem_listDel hnodup sr d d).mp hl
    obtain ⟨w',hw',hside,_⟩ := hi.waits hl
    rw [hw] at hw'
    cases hw'
    exact absurd ⟨rfl,hside.symm⟩ hn

structure OrderInv (q : MqQueue pf) : Prop where
  /-- The lists are ordered by priority and time. -/
  ordered : ∀ sr, Ordered q.staticPrio q.since (q.eWaitQ sr)
  /-- Entries were linked in the past. -/
  past : ∀ sr, ∀ c∈q.eWaitQ sr, q.since c<q.clock

/-- Everything but lists and times does not matter. -/
theorem OrderInv.frame (hi : OrderInv q) (hprio : q'.staticPrio=q.staticPrio)
    (hsince : q'.since=q.since) (hclock : q'.clock=q.clock) (hlists : q'.eWaitQ=q.eWaitQ) : OrderInv q' := by
  refine ⟨?_,?_⟩
  · rw [hprio,hsince,hlists]
    exact hi.ordered
  · rw [hsince,hclock,hlists]
    exact hi.past

theorem OrderInv.add (hi : OrderInv q) (hc : ∀ sr, c∉q.eWaitQ sr) (sr : Side) : OrderInv (q.wqAdd sr c) := by
  have hsince : ∀ sr', ∀ d∈q.eWaitQ sr', update q.since c q.clock d=q.since d := by
    intro sr' d hd
    have hdc : d≠c := fun he => hc sr' (he ▸ hd)
    exact update_of_ne hdc _ _
  have hself : update q.since c q.clock c=q.clock := update_self _ _ _
  refine ⟨fun sr' => ?_,fun sr' d hd => ?_⟩
  · show Ordered q.staticPrio (update q.since c q.clock)
      (update q.eWaitQ sr (insertWaiter q.staticPrio c (q.eWaitQ sr)) sr')
    by_cases hs : sr'=sr
    · subst hs
      rw [update_self]
      refine ((hi.ordered sr').congr (hsince sr')).insert (fun d hd => ?_)
      rw [hsince sr' d hd,hself]
      exact hi.past sr' d hd
    · rw [update_of_ne hs]
      exact (hi.ordered sr').congr (hsince sr')
  · show update q.since c q.clock d<q.clock+1
    rcases (mem_wqAdd q sr sr' c d).mp hd with ⟨hdc,_⟩|hd
    · rw [hdc,hself]
      exact Nat.lt_succ_self _
    · rw [hsince sr' d hd]
      exact Nat.lt_succ_of_lt (hi.past sr' d hd)

theorem OrderInv.del (hi : OrderInv q) (sr : Side) (c : ℕ) : OrderInv (q.listDel sr c) := by
  have hsub : ∀ sr', ((q.listDel sr c).eWaitQ sr').Sublist (q.eWaitQ sr') := by
    intro sr'
    show (update q.eWaitQ sr ((q.eWaitQ sr).erase c) sr').Sublist (q.eWaitQ sr')
    by_cases hs : sr'=sr
    · subst hs
      rw [update_self]
      exact List.erase_sublist
    · rw [update_of_ne hs]
  exact ⟨fun sr' => (hi.ordered sr').sublist (hsub sr'),fun sr' d hd => hi.past sr' d ((hsub sr').subset hd)⟩

/-- pipelined_receive with a sender whose message is known. -/
theorem pipelinedReceive_eq {s : ℕ} (h : (q.wait s).msg=some m) :
    q.pipelinedReceive s=((q.msgInsert m).listDel .send s).setWait s ⟨some m,.pending⟩ := by
  unfold MqQueue.pipelinedReceive
  rw [h]

theorem mem_of_first (h : q.wqGetFirstWaiter sr=some c) : c∈q.eWaitQ sr := List.mem_of_getLast? h

/-- A sender in the list has its message in its entry. -/
theorem WaitInv.sender (hi : WaitInv q) {s : ℕ} (h : s∈q.eWaitQ .send) :
    ∃ m, sleeping (q.pc s)=some (.snd m) ∧ (q.wait s).msg=some m ∧ (q.wait s).state=.none := by
  obtain ⟨w,hw,hside,hst⟩ := hi.waits h
  cases w with
  | snd m => exact ⟨m,hw,(hi.entries s).given m hw,hst⟩
  | rcv => cases hside

theorem WaitInv.receiver (hi : WaitInv q) {r : ℕ} (h : r∈q.eWaitQ .recv) :
    sleeping (q.pc r)=some .rcv ∧ (q.wait r).state=.none := by
  obtain ⟨w,hw,hside,hst⟩ := hi.waits h
  cases w with
  | snd m => cases hside
  | rcv => exact ⟨hw,hst⟩

/-- The progress of a call in wq_sleep. -/
theorem pc_of_sleeping (h : sleeping pc=some w) : pc=.asleep w ∨ pc=.relock w := by
  cases pc with
  | asleep w' => exact .inl (congrArg MqPc.asleep (Option.some.inj h))
  | relock w' => exact .inr (congrArg MqPc.relock (Option.some.inj h))
  | _ => cases h

/-- A call in wq_sleep. -/
theorem sleeping_of_pc (h : q.pc c=.asleep w ∨ q.pc c=.relock w) :
    sleeping (q.pc c)=some w ∧ target (q.pc c)=none := by
  rcases h with h|h
  · rw [h]
    exact ⟨rfl,rfl⟩
  · rw [h]
    exact ⟨rfl,rfl⟩

/-- A call that returns from wq_sleep is not waiting and not between two writes. -/
theorem wqReturn_bare (w : Waiter) (retval : ℤ) (x : ExtWaitQueue) :
    target (wqReturn w retval x)=none ∧ sleeping (wqReturn w retval x)=none := by
  unfold wqReturn
  cases w with
  | snd m => exact ⟨rfl,rfl⟩
  | rcv =>
    dsimp only
    split
    · split
      · exact ⟨rfl,rfl⟩
      · exact ⟨rfl,rfl⟩
    · exact ⟨rfl,rfl⟩

/-- A receiver that returns from wq_sleep with success has a message. -/
theorem wqReturn_sound {retval : ℤ} {x : ExtWaitQueue}
    (h : w=.rcv → retval=0 → x.msg.isSome=true) : wqReturn w retval x≠.rcvFault := by
  unfold wqReturn
  cases w with
  | snd m => exact nofun
  | rcv =>
    dsimp only
    split
    · next hzero =>
      obtain ⟨m,hm⟩ := Option.isSome_iff_exists.mp (h rfl hzero)
      rw [hm]
      exact nofun
    · exact nofun

/-- A receiver serves the first sender in the list. -/
theorem WaitInv.served (hi : WaitInv q) {s : ℕ} (m : MqMsg) (h : q.wqGetFirstWaiter .send=some s) :
    ∃ x, sleeping (q.pc s)=some (.snd x) ∧ (q.wait s).state=.none ∧ (q.taken m).pipelinedReceive s=
      (((q.taken m).msgInsert x).listDel .send s).setWait s ⟨some x,.pending⟩ := by
  obtain ⟨x,hx,hmsg,hst⟩ := hi.sender (mem_of_first h)
  exact ⟨x,hx,hst,pipelinedReceive_eq hmsg⟩

/-- Every step keeps both, if the slot of the last message was written. -/
theorem WaitInv.step (hi : WaitInv q) (ho : OrderInv q)
    (hset : q.curmsgs≠0 → q.messages.slots (q.curmsgs-1)≠none) (h : CallCase q q') : WaitInv q' ∧ OrderInv q' := by
  cases h with
  | sndRefused hp | sndLoaded hp | sndAgain hp | rcvRefused hp | rcvCalled hp | rcvAgain hp | rcvStored hp =>
    exact ⟨hi.goPlain hp rfl rfl rfl rfl nofun,ho.frame rfl rfl rfl rfl⟩
  | @sndSlept c m nonblock hp hlock hfull =>
    have hs : sleeping (q.pc c)=none := by rw [hp]; rfl
    have hframe : OrderInv (q.setWait c ⟨some m,.none⟩) := ho.frame rfl rfl rfl rfl
    refine ⟨hi.sleep (w:=.snd m) (by rw [hp]; rfl) hs rfl (fun m' hm => ?_),
      (hframe.add (hi.not_linked hs) .send).frame rfl rfl rfl rfl⟩
    cases hm
    rfl
  | @sndHanded c r m nonblock hp hlock hr =>
    have hmem := mem_of_first hr
    refine ⟨hi.serve (by rw [hp]; rfl) (by rw [hp]; rfl) hlock (ho.ordered .recv).nodup hmem rfl rfl rfl rfl
      (fun m' hm' => ?_),(ho.del .recv r).frame rfl rfl rfl rfl⟩
    rw [(hi.receiver hmem).1] at hm'
    cases hm'
  | @sndInserted c m nonblock hp hlock hroom hr =>
    have hframe : WaitInv (q.msgInsert m) := hi.frame rfl rfl rfl rfl
    exact ⟨hframe.goPlain hp rfl rfl rfl rfl nofun,ho.frame rfl rfl rfl rfl⟩
  | @rcvSlept c nonblock hp hlock hempty =>
    have hs : sleeping (q.pc c)=none := by rw [hp]; rfl
    have hframe : OrderInv (q.setWait c ⟨none,.none⟩) := ho.frame rfl rfl rfl rfl
    exact ⟨hi.sleep (w:=.rcv) (by rw [hp]; rfl) hs rfl nofun,
      (hframe.add (hi.not_linked hs) .recv).frame rfl rfl rfl rfl⟩
  | rcvUnset hp hlock hmore hm => exact absurd hm (hset hmore)
  | @rcvTook c m nonblock hp hlock hmore hm hs =>
    have hframe : WaitInv (q.taken m) := hi.frame rfl rfl rfl rfl
    exact ⟨hframe.goPlain hp rfl rfl rfl rfl nofun,ho.frame rfl rfl rfl rfl⟩
  | @rcvServed c s m nonblock hp hlock hmore hm hs =>
    obtain ⟨m',hw,_,heq⟩ := hi.served m hs
    rw [heq]
    refine ⟨hi.serve (by rw [hp]; rfl) (by rw [hp]; rfl) hlock (ho.ordered .send).nodup
      (mem_of_first hs) rfl rfl rfl rfl
      (fun x hx => ?_),(ho.del .send s).frame rfl rfl rfl rfl⟩
    rw [hw] at hx
    cases hx
    rfl
  | wqSpun => exact ⟨hi,ho⟩
  | @wqReturned c w hp hstate =>
    obtain ⟨hw,h0⟩ := sleeping_of_pc hp
    obtain ⟨h1,hs1⟩ := wqReturn_bare w 0 (q.wait c)
    refine ⟨hi.go h0 h1 (wqReturn_sound (fun hr _ => ?_)) (.inr ⟨hs1,fun _ _ => hstate⟩),ho.frame rfl rfl rfl rfl⟩
    rw [hr] at hw
    exact (hi.entries c).got hw (by rw [hstate]; exact nofun)
  | wqSawNone hp | wqSleptAgain hp =>
    exact ⟨hi.go (by rw [hp]; rfl) rfl nofun (.inl (by rw [hp]; rfl)),ho.frame rfl rfl rfl rfl⟩
  | @wqCancelled c w retval hp hlock hstate hneg =>
    obtain ⟨hw,_⟩ := sleeping_of_pc (.inr hp)
    obtain ⟨h1,hs1⟩ := wqReturn_bare w retval (q.wait c)
    have hsound : wqReturn w retval (q.wait c)≠.rcvFault := wqReturn_sound (fun _ hzero => by omega)
    exact ⟨hi.cancel hw hlock (ho.ordered w.side).nodup h1 hs1 hsound,(ho.del w.side c).frame rfl rfl rfl rfl⟩
  | wqReady hp => exact ⟨hi.readied hp,ho.frame rfl rfl rfl rfl⟩

/-- Both hold of a new queue. -/
theorem waitInv_start (h : MqQueueStart q) : WaitInv q ∧ OrderInv q := by
  refine ⟨⟨fun c => ?_,fun c => ?_⟩,⟨fun sr => ?_,fun sr c hc => ?_⟩⟩
  · rw [h.idle,h.lock]
    exact ⟨nofun,nofun⟩
  · rw [h.idle]
    refine .bare rfl nofun (fun sr => ?_) (by simp [h.idle,target])
    rw [h.waits]
    exact List.not_mem_nil
  · rw [h.waits]
    exact ordered_nil
  · rw [h.waits] at hc
    cases hc

end BlockIpc.MqueueWaits
