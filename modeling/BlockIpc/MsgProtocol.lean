import BlockIpc.MsgQueues

/-!
# The entries of sleeping receivers

Which task may write to the entry of a receiver and what the receiver finds in
it. An entry that is NULL is being written by the task that holds the lock; an
entry that still says -EAGAIN is linked; any other entry is out of reach of the
other tasks, either because it was unlinked or because the queue is being removed.
-/

namespace BlockIpc.MsgProtocol

open Function List KernelNumbers TransitionRuns MsgQueues

/-- The arguments of a receiver that sleeps or has not yet accepted its entry. -/
def waiting : MsgPc → Option RcvArgs
  | .rcvAsleep args => some args
  | .rcvRelock args => some args
  | _ => none

/-- A receiver waits at two points. -/
theorem waiting_cases {pc : MsgPc} {args : RcvArgs} (h : waiting pc=some args) :
    pc=.rcvAsleep args ∨ pc=.rcvRelock args := by
  cases pc with
  | rcvAsleep a =>
    cases h
    exact .inl rfl
  | rcvRelock a =>
    cases h
    exact .inr rfl
  | _ => cases h

/-- The receiver to which a call is going to write the final value. -/
def writing : MsgPc → Option ℕ
  | .sndWrite _ _ r _ => some r
  | .ctlWrite _ r _ => some r
  | _ => none

/-- The receivers that a walk over the list has not passed. -/
def ahead : MsgPc → List ℕ
  | .sndScan _ _ rest => rest
  | .sndWrite _ _ _ rest => rest
  | .ctlExpunge _ rest => rest
  | .ctlWrite _ r rest => r::rest
  | _ => []

/-- Whether a call holds the lock. -/
def holding : MsgPc → Bool
  | .sndScan _ _ _ => true
  | .sndWrite _ _ _ _ => true
  | .ctlExpunge _ _ => true
  | .ctlWrite _ _ _ => true
  | _ => false

/-- Whether a call is removing the queue. -/
def removing : MsgPc → Bool
  | .ctlExpunge .rmid _ => true
  | .ctlWrite .rmid _ _ => true
  | _ => false

/-- The removal of the queue has passed a receiver. -/
def Gone (q : MsgQueue) (r : ℕ) : Prop := q.deleted=true ∨ ∃ c, removing (q.pc c)=true ∧ r∉ahead (q.pc c)

/-- A receiver sleeps or has not yet accepted its entry. -/
def Waits (q : MsgQueue) (r : ℕ) : Prop := (waiting (q.pc r)).isSome=true

structure ProtoInv (q : MsgQueue) : Prop where
  /-- No receiver is linked twice. -/
  nodup : q.qReceivers.Nodup
  /-- The lock is held by the call that says so. -/
  holder : ∀ c, holding (q.pc c)=true ↔ q.lock=some c
  /-- A removed queue is not locked from one step to the next. -/
  live : q.deleted=true → q.lock=none
  /-- A walk is over the linked receivers. -/
  walk : ∀ c, (ahead (q.pc c)).Sublist q.qReceivers
  /-- A linked receiver waits for a value, unless the queue is being removed. -/
  linked : ∀ r∈q.qReceivers,
    (Waits q r ∧ ((q.msr r).rMsg=.err (-eagain) ∨ (q.msr r).rMsg=.null)) ∨ Gone q r
  /-- A receiver that is being written to waits and has NULL in its entry. -/
  target : ∀ c r, writing (q.pc c)=some r → Waits q r ∧ (q.msr r).rMsg=.null
  /-- A receiver for a message was unlinked before. -/
  cut : ∀ c m k r rest, q.pc c=.sndWrite m k r rest →
    r∉q.qReceivers ∧ testmsg m (q.msr r).rMsgtype (q.msr r).rMode=true
  /-- NULL is in the entry of a receiver only while it is being written to. -/
  nulls : ∀ r, Waits q r → (q.msr r).rMsg=.null → ∃ c, writing (q.pc c)=some r
  /-- A receiver that has nothing yet is linked, and the removal has not passed it. -/
  again : ∀ r, Waits q r → (q.msr r).rMsg=.err (-eagain) → r∈q.qReceivers ∧ ¬Gone q r
  /-- The entry of a receiver says what the call asked for. -/
  entry : ∀ r args, waiting (q.pc r)=some args →
    (q.msr r).rMode=args.mode ∧ (q.msr r).rMsgtype=args.type ∧ (q.msr r).rMaxsize=args.maxsize
  /-- No receiver has used a NULL pointer. -/
  sound : ∀ r args, q.pc r≠.rcvFault args

variable {pc : MsgPc} {q q' : MsgQueue} {c r d k : ℕ} {m : MsgMsg} {rest : List ℕ} {cmd : MsgCmd} {args : RcvArgs}
  {n n' : MsgNs} {e : MsgEvent} {s : MsgSys}

/-- A call that does not hold the lock writes to nobody. -/
theorem bare_of_not_holding (h : holding pc=false) : writing pc=none ∧ ahead pc=[] ∧ removing pc=false := by
  cases pc with
  | sndScan m k rest | sndWrite m k r rest | ctlExpunge cmd rest | ctlWrite cmd r rest => cases h
  | _ => exact ⟨rfl,rfl,rfl⟩

/-- Whoever writes to a receiver holds the lock. -/
theorem ProtoInv.lock_of_writing (hi : ProtoInv q) (h : writing (q.pc c)=some r) : q.lock=some c := by
  refine (hi.holder c).mp ?_
  by_contra hn
  rw [(bare_of_not_holding (by simpa using hn)).1] at h
  cases h

/-- Whoever removes the queue holds the lock. -/
theorem ProtoInv.lock_of_removing (hi : ProtoInv q) (h : removing (q.pc c)=true) : q.lock=some c := by
  refine (hi.holder c).mp ?_
  by_contra hn
  rw [(bare_of_not_holding (by simpa using hn)).2.2] at h
  cases h

/-- While the lock of a live queue is free, no receiver is gone. -/
theorem ProtoInv.not_gone (hi : ProtoInv q) (hlock : q.lock=none) (hlive : q.deleted=false) (r : ℕ) : ¬Gone q r := by
  rintro (hd|⟨c,hc,_⟩)
  · rw [hlive] at hd
    cases hd
  · have h := hi.lock_of_removing hc
    rw [hlock] at h
    cases h

/-- While a walk of another call goes on, only that call can be removing the queue. -/
theorem ProtoInv.gone_iff (hi : ProtoInv q) (hlock : q.lock=some c) (r : ℕ) :
    Gone q r ↔ removing (q.pc c)=true ∧ r∉ahead (q.pc c) := by
  constructor
  · rintro (hd|⟨d,hd,hr⟩)
    · have h := hi.live hd
      rw [hlock] at h
      cases h
    · have h := hi.lock_of_removing hd
      rw [hlock] at h
      cases h
      exact ⟨hd,hr⟩
  · rintro ⟨hc,hr⟩
    exact .inr ⟨c,hc,hr⟩

/-- NULL in the entry of a waiting receiver is being replaced by the call that holds the lock. -/
theorem ProtoInv.writing_of_null (hi : ProtoInv q) (hlock : q.lock=some c) (hw : Waits q r)
    (hm : (q.msr r).rMsg=.null) : writing (q.pc c)=some r := by
  obtain ⟨d,hd⟩ := hi.nulls r hw hm
  have hdc := hi.lock_of_writing hd
  rw [hlock] at hdc
  cases hdc
  exact hd

/-- While the lock is free, no entry of a waiting receiver is NULL. -/
theorem ProtoInv.not_null (hi : ProtoInv q) (hlock : q.lock=none) (hw : Waits q r) : (q.msr r).rMsg≠.null := by
  intro hn
  obtain ⟨c,hc⟩ := hi.nulls r hw hn
  have h := hi.lock_of_writing hc
  rw [hlock] at h
  cases h

/-- The entries depend on the list, the lock, the entries and the calls only. -/
theorem ProtoInv.frame (hi : ProtoInv q) (hreceivers : q'.qReceivers=q.qReceivers) (hlock : q'.lock=q.lock)
    (hdeleted : q'.deleted=q.deleted) (hmsr : q'.msr=q.msr) (hpc : q'.pc=q.pc) : ProtoInv q' := by
  cases q
  cases q'
  dsimp only at hreceivers hlock hdeleted hmsr hpc
  subst hreceivers hlock hdeleted hmsr hpc
  exact {hi with}

theorem go_self (q : MsgQueue) (c : ℕ) (pc : MsgPc) : (q.go c pc).pc c=pc := update_self _ _ _

theorem go_of_ne (q : MsgQueue) (pc : MsgPc) (h : d≠c) : (q.go c pc).pc d=q.pc d := update_of_ne h _ _

theorem setMsg_self (q : MsgQueue) (r : ℕ) (x : RMsg) :
    (q.setMsg r x).msr r={q.msr r with rMsg := x} := update_self _ _ _

theorem setMsg_of_ne (q : MsgQueue) (x : RMsg) (h : d≠r) : (q.setMsg r x).msr d=q.msr d := update_of_ne h _ _

/-- What is alike before and after the step of a call is alike for all calls. -/
theorem pc_congr {α : Type} {f : MsgPc → α} (hpc : q'.pc=update q.pc c pc) (h : f pc=f (q.pc c)) (d : ℕ) :
    f (q'.pc d)=f (q.pc d) := by
  rw [hpc]
  by_cases hd : d=c
  · rw [hd,update_self,h]
  · rw [update_of_ne hd]

theorem ProtoInv.sound_update (hi : ProtoInv q) (hpc : q'.pc=update q.pc c pc) (h : ∀ args, pc≠.rcvFault args) (r : ℕ)
    (args : RcvArgs) : q'.pc r≠.rcvFault args := by
  rw [hpc]
  by_cases hr : r=c
  · rw [hr,update_self]
    exact h args
  · rw [update_of_ne hr]
    exact hi.sound r args

theorem ProtoInv.others_idle (hi : ProtoInv q) (hlock : q.lock=none ∨ q.lock=some c) (hd : d≠c) :
    holding (q.pc d)=false := by
  by_contra hn
  have h := (hi.holder d).mp (by simpa using hn)
  rcases hlock with he|he <;> rw [he] at h
  · cases h
  · exact hd (Option.some.inj h).symm

theorem setMsg_entry (q : MsgQueue) (r : ℕ) (x : RMsg) (y : ℕ) : ((q.setMsg r x).msr y).rMode=(q.msr y).rMode ∧
    ((q.setMsg r x).msr y).rMsgtype=(q.msr y).rMsgtype ∧ ((q.setMsg r x).msr y).rMaxsize=(q.msr y).rMaxsize := by
  by_cases hy : y=r
  · rw [hy,setMsg_self]
    exact ⟨rfl,rfl,rfl⟩
  · rw [setMsg_of_ne q x hy]
    exact ⟨rfl,rfl,rfl⟩

/-- The invariant holds of a queue that nobody has locked, if it holds of the entries. -/
theorem protoInv_of_idle (hidle : ∀ d, holding (q.pc d)=false) (hlock : q.lock=none) (hnodup : q.qReceivers.Nodup)
    (hlinked : ∀ r∈q.qReceivers,
      (Waits q r ∧ ((q.msr r).rMsg=.err (-eagain) ∨ (q.msr r).rMsg=.null)) ∨ Gone q r)
    (hnulls : ∀ r, Waits q r → (q.msr r).rMsg≠.null)
    (hagain : ∀ r, Waits q r → (q.msr r).rMsg=.err (-eagain) → r∈q.qReceivers ∧ ¬Gone q r)
    (hentry : ∀ r args, waiting (q.pc r)=some args →
      (q.msr r).rMode=args.mode ∧ (q.msr r).rMsgtype=args.type ∧ (q.msr r).rMaxsize=args.maxsize)
    (hsound : ∀ r args, q.pc r≠.rcvFault args) : ProtoInv q where
  nodup := hnodup
  holder d := by
    rw [hidle d,hlock]
    simp
  live _ := hlock
  walk d := by
    rw [(bare_of_not_holding (hidle d)).2.1]
    exact nil_sublist _
  linked := hlinked
  target d r h := by
    rw [(bare_of_not_holding (hidle d)).1] at h
    cases h
  cut d m k r rest h := by
    have hn := hidle d
    rw [h] at hn
    cases hn
  nulls r h hm := absurd hm (hnulls r h)
  again := hagain
  entry := hentry
  sound := hsound

/-- A call that does not hold the lock advances. If it was waiting, it goes on
waiting, or it accepts a value that is final and nobody has a hold on its entry. -/
theorem ProtoInv.go (hi : ProtoInv q) (h0 : holding (q.pc c)=false) (h1 : holding pc=false)
    (hsound : ∀ args, pc≠.rcvFault args) (hw : waiting pc=waiting (q.pc c) ∨
      (waiting pc=none ∧ (c∈q.qReceivers → Gone q c) ∧ (Waits q c → (q.msr c).rMsg≠.null))) :
    ProtoInv (q.go c pc) := by
  obtain ⟨hw0,ha0,hr0⟩ := bare_of_not_holding h0
  obtain ⟨hw1,ha1,hr1⟩ := bare_of_not_holding h1
  have hholding : ∀ d, holding ((q.go c pc).pc d)=holding (q.pc d) := pc_congr rfl (h1.trans h0.symm)
  have hwriting : ∀ d, writing ((q.go c pc).pc d)=writing (q.pc d) := pc_congr rfl (hw1.trans hw0.symm)
  have hahead : ∀ d, ahead ((q.go c pc).pc d)=ahead (q.pc d) := pc_congr rfl (ha1.trans ha0.symm)
  have hremoving : ∀ d, removing ((q.go c pc).pc d)=removing (q.pc d) := pc_congr rfl (hr1.trans hr0.symm)
  have hgone : ∀ r, Gone (q.go c pc) r ↔ Gone q r := by
    intro r
    unfold Gone
    simp only [hremoving,hahead]
    rfl
  have hold : ∀ r args, waiting ((q.go c pc).pc r)=some args → waiting (q.pc r)=some args := by
    intro r args h
    by_cases hr : r=c
    · subst hr
      rw [go_self] at h
      rcases hw with he|⟨he,_⟩
      · rw [← he]
        exact h
      · rw [he] at h
        cases h
    · rw [go_of_ne q pc hr] at h
      exact h
  have hwaits : ∀ r, Waits (q.go c pc) r → Waits q r := by
    intro r h
    obtain ⟨args,ha⟩ := Option.isSome_iff_exists.mp h
    exact Option.isSome_iff_exists.mpr ⟨args,hold r args ha⟩
  have hkeep : ∀ r, Waits q r → (r=c → waiting pc=waiting (q.pc c)) → Waits (q.go c pc) r := by
    intro r h hc
    unfold Waits
    by_cases hr : r=c
    · subst hr
      rw [go_self,hc rfl]
      exact h
    · rw [go_of_ne q pc hr]
      exact h
  constructor
  · exact hi.nodup
  · intro d
    rw [hholding]
    exact hi.holder d
  · exact hi.live
  · intro d
    rw [hahead]
    exact hi.walk d
  · intro r hr
    rw [hgone]
    by_cases hg : Gone q r
    · exact .inr hg
    · obtain ⟨hwr,hm⟩ := (hi.linked r hr).resolve_right hg
      refine .inl ⟨hkeep r hwr (fun he => ?_),hm⟩
      subst he
      rcases hw with he|⟨_,hgone',_⟩
      · exact he
      · exact absurd (hgone' hr) hg
  · intro d r h
    rw [hwriting] at h
    obtain ⟨hwr,hm⟩ := hi.target d r h
    refine ⟨hkeep r hwr (fun he => ?_),hm⟩
    subst he
    rcases hw with he|⟨_,_,hnull⟩
    · exact he
    · exact absurd hm (hnull hwr)
  · intro d m k r rest h
    by_cases hd : d=c
    · subst hd
      rw [go_self] at h
      rw [h] at h1
      cases h1
    · rw [go_of_ne q pc hd] at h
      exact hi.cut d m k r rest h
  · intro r h hm
    obtain ⟨d,hd⟩ := hi.nulls r (hwaits r h) hm
    exact ⟨d,by rw [hwriting]; exact hd⟩
  · intro r h hm
    rw [hgone]
    exact hi.again r (hwaits r h) hm
  · intro r args h
    exact hi.entry r args (hold r args h)
  · exact hi.sound_update rfl hsound

/-- A call that is not a receiver with a linked entry advances. -/
theorem ProtoInv.goPlain (hi : ProtoInv q) {pc₀ : MsgPc} (hp : q.pc c=pc₀) (h0 : holding pc₀=false)
    (hw0 : waiting pc₀=none)
    (h1 : holding pc=false) (hw1 : waiting pc=none) (hsound : ∀ args, pc≠.rcvFault args) : ProtoInv (q.go c pc) := by
  subst hp
  exact hi.go h0 h1 hsound (.inl (hw1.trans hw0.symm))

theorem waiting_of_holding (h : holding pc=true) : waiting pc=none := by
  cases pc with
  | rcvAsleep args | rcvRelock args => cases h
  | _ => rfl

/-- Nobody holds a free lock. -/
theorem ProtoInv.not_holding (hi : ProtoInv q) (hlock : q.lock=none) (c : ℕ) : holding (q.pc c)=false := by
  by_contra hn
  have h := (hi.holder c).mp (by simpa using hn)
  rw [hlock] at h
  cases h

/-- A call takes the lock, or a call that holds it goes on. -/
theorem ProtoInv.hold (hi : ProtoInv q) (hlock : q.lock=none ∨ q.lock=some c) (hlock' : q'.lock=some c)
    (hlive' : q'.deleted=false) (hpc : q'.pc=update q.pc c pc) (hw : waiting (q.pc c)=none)
    (hhold : holding pc=true) (hnodup : q'.qReceivers.Nodup) (hwalk : (ahead pc).Sublist q'.qReceivers)
    (hlinked : ∀ r∈q'.qReceivers,
      (Waits q r ∧ ((q'.msr r).rMsg=.err (-eagain) ∨ (q'.msr r).rMsg=.null)) ∨
        (removing pc=true ∧ r∉ahead pc)) (htarget : ∀ r, writing pc=some r → Waits q r ∧ (q'.msr r).rMsg=.null)
    (hcut : ∀ m k r rest, pc=.sndWrite m k r rest →
      r∉q'.qReceivers ∧ testmsg m (q'.msr r).rMsgtype (q'.msr r).rMode=true)
    (hnulls : ∀ r, Waits q r → (q'.msr r).rMsg=.null → writing pc=some r)
    (hagain : ∀ r, Waits q r → (q'.msr r).rMsg=.err (-eagain) →
      r∈q'.qReceivers ∧ (removing pc=true → r∈ahead pc))
    (hentry : ∀ r, (q'.msr r).rMode=(q.msr r).rMode ∧ (q'.msr r).rMsgtype=(q.msr r).rMsgtype ∧
      (q'.msr r).rMaxsize=(q.msr r).rMaxsize) : ProtoInv q' := by
  have hself : q'.pc c=pc := by rw [hpc,update_self]
  have hidle : ∀ d, d≠c → holding (q'.pc d)=false := by
    intro d hd
    rw [hpc,update_of_ne hd]
    exact hi.others_idle hlock hd
  have hwaiting := pc_congr hpc ((waiting_of_holding hhold).trans hw.symm)
  have hwaits : ∀ r, Waits q' r ↔ Waits q r := by
    intro r
    unfold Waits
    rw [hwaiting]
  have hgone : ∀ r, Gone q' r ↔ removing pc=true ∧ r∉ahead pc := by
    intro r
    constructor
    · rintro (hd|⟨d,hd,hr⟩)
      · rw [hlive'] at hd
        cases hd
      · by_cases hdc : d=c
        · rw [hdc,hself] at hd hr
          exact ⟨hd,hr⟩
        · rw [(bare_of_not_holding (hidle d hdc)).2.2] at hd
          cases hd
    · rintro ⟨hd,hr⟩
      exact .inr ⟨c,by rw [hself]; exact hd,by rw [hself]; exact hr⟩
  constructor
  · exact hnodup
  · intro d
    rw [hlock']
    by_cases hd : d=c
    · rw [hd,hself]
      exact ⟨fun _ => rfl,fun _ => hhold⟩
    · rw [hidle d hd]
      exact ⟨nofun,fun h => absurd (Option.some.inj h).symm hd⟩
  · intro h
    rw [hlive'] at h
    cases h
  · intro d
    by_cases hd : d=c
    · rw [hd,hself]
      exact hwalk
    · rw [(bare_of_not_holding (hidle d hd)).2.1]
      exact nil_sublist _
  · intro r hr
    rw [hgone,hwaits]
    exact hlinked r hr
  · intro d r h
    rw [hwaits]
    by_cases hd : d=c
    · rw [hd,hself] at h
      exact htarget r h
    · rw [(bare_of_not_holding (hidle d hd)).1] at h
      cases h
  · intro d m k r rest h
    by_cases hd : d=c
    · rw [hd,hself] at h
      exact hcut m k r rest h
    · have hn := hidle d hd
      rw [h] at hn
      cases hn
  · intro r h hm
    rw [hwaits] at h
    exact ⟨c,by rw [hself]; exact hnulls r h hm⟩
  · intro r h hm
    rw [hwaits] at h
    obtain ⟨hr,ha⟩ := hagain r h hm
    refine ⟨hr,fun hg => ?_⟩
    obtain ⟨hrem,hnot⟩ := (hgone r).mp hg
    exact hnot (ha hrem)
  · intro r args h
    rw [hwaiting] at h
    obtain ⟨hmode,htype,hsize⟩ := hentry r
    rw [hmode,htype,hsize]
    exact hi.entry r args h
  · refine hi.sound_update hpc (fun args h => ?_)
    rw [h] at hhold
    cases hhold

/-- A walk over all receivers begins. -/
theorem ProtoInv.acquire (hi : ProtoInv q) {qbytes : ℕ} (hlock : q.lock=none) (hlive : q.deleted=false)
    (hw : waiting (q.pc c)=none) (hhold : holding pc=true) (hahead : ahead pc=q.qReceivers)
    (hwriting : writing pc=none) : ProtoInv ({q with qQbytes := qbytes, lock := some c}.go c pc) := by
  refine hi.hold (.inl hlock) rfl hlive rfl hw hhold hi.nodup ?_ ?_ ?_ ?_ ?_ ?_ (fun _ => ⟨rfl,rfl,rfl⟩)
  · rw [hahead]
    exact List.Sublist.refl _
  · intro r hr
    exact .inl ((hi.linked r hr).resolve_right (hi.not_gone hlock hlive r))
  · intro r h
    rw [hwriting] at h
    cases h
  · intro m k r rest h
    rw [h] at hwriting
    cases hwriting
  · intro r hwr hm
    exact absurd hm (hi.not_null hlock hwr)
  · intro r hwr hm
    have hr := (hi.again r hwr hm).1
    exact ⟨hr,fun _ => by rw [hahead]; exact hr⟩

/-- A call that holds the lock does so on a live queue. -/
theorem ProtoInv.live_of_holding (hi : ProtoInv q) (h : holding (q.pc c)=true) : q.deleted=false := by
  by_contra hd
  have hn := hi.live (by simpa using hd)
  rw [(hi.holder c).mp h] at hn
  cases hn

/-- While a call that does not remove the queue holds the lock, no receiver is gone. -/
theorem ProtoInv.none_gone (hi : ProtoInv q) (h : holding (q.pc c)=true) (hremoving : removing (q.pc c)=false) (r : ℕ) :
    ¬Gone q r := by
  rw [hi.gone_iff ((hi.holder c).mp h),hremoving]
  exact fun hg => Bool.false_ne_true hg.1

/-- The receivers ahead of the call that holds the lock are linked and not gone. -/
theorem ProtoInv.linked_ahead (hi : ProtoInv q) (h : holding (q.pc c)=true) (hr : r∈ahead (q.pc c)) :
    r∈q.qReceivers ∧ ¬Gone q r := by
  refine ⟨(hi.walk c).subset hr,?_⟩
  rw [hi.gone_iff ((hi.holder c).mp h)]
  exact fun hg => hg.2 hr

/-- A sender passes a receiver. -/
theorem ProtoInv.skipped (hi : ProtoInv q) (hp : q.pc c=.sndScan m k (r::rest)) :
    ProtoInv (q.go c (.sndScan m k rest)) := by
  have hhold : holding (q.pc c)=true := by rw [hp]; rfl
  have hlock := (hi.holder c).mp hhold
  have hlive := hi.live_of_holding hhold
  have hgone : ∀ x, ¬Gone q x := hi.none_gone hhold (by rw [hp]; rfl)
  have hwalk := hi.walk c
  rw [hp] at hwalk
  refine hi.hold (.inr hlock) hlock hlive rfl (waiting_of_holding hhold) rfl hi.nodup
    ((sublist_cons_self r rest).trans hwalk) ?_ (fun x h => by cases h) (fun _ _ _ _ h => by cases h)
    ?_ ?_ (fun _ => ⟨rfl,rfl,rfl⟩)
  · intro x hx
    exact .inl ((hi.linked x hx).resolve_right (hgone x))
  · intro x hwx hm
    have hd := hi.writing_of_null hlock hwx hm
    rw [hp] at hd
    cases hd
  · intro x hwx hm
    exact ⟨(hi.again x hwx hm).1,fun h => by cases h⟩

/-- A sender unlinks a receiver and writes NULL to its entry. -/
theorem ProtoInv.matched (hi : ProtoInv q) (hp : q.pc c=.sndScan m k (r::rest))
    (ht : testmsg m (q.msr r).rMsgtype (q.msr r).rMode=true) :
    ProtoInv (((q.unlink r).setMsg r .null).go c (.sndWrite m k r rest)) := by
  have hhold : holding (q.pc c)=true := by rw [hp]; rfl
  have hlock := (hi.holder c).mp hhold
  have hlive := hi.live_of_holding hhold
  have hgone : ∀ x, ¬Gone q x := hi.none_gone hhold (by rw [hp]; rfl)
  have hwalk := hi.walk c
  rw [hp] at hwalk
  have hr : r∈q.qReceivers := hwalk.subset mem_cons_self
  have hwr := ((hi.linked r hr).resolve_right (hgone r)).1
  have hself : ((((q.unlink r).setMsg r .null).go c (.sndWrite m k r rest)).msr r)=
      {q.msr r with rMsg := .null} := update_self _ _ _
  have hother : ∀ x, x≠r → (((q.unlink r).setMsg r .null).go c (.sndWrite m k r rest)).msr x=q.msr x :=
    fun x hx => update_of_ne hx _ _
  have hmem : ∀ x, x∈q.qReceivers.erase r → x≠r ∧ x∈q.qReceivers :=
    fun x hx => hi.nodup.mem_erase_iff.mp hx
  refine hi.hold (.inr hlock) hlock hlive rfl (waiting_of_holding hhold) rfl (hi.nodup.erase r)
    ?_ ?_ ?_ ?_ ?_ ?_ ?_
  · have h := List.Sublist.erase r hwalk
    rw [show (ahead (.sndScan m k (r::rest))).erase r=rest from erase_cons_head r rest] at h
    exact h
  · intro x hx
    obtain ⟨hne,hx⟩ := hmem x hx
    rw [hother x hne]
    exact .inl ((hi.linked x hx).resolve_right (hgone x))
  · intro x h
    cases h
    rw [hself]
    exact ⟨hwr,rfl⟩
  · intro m' k' x rest' h
    cases h
    rw [hself]
    exact ⟨fun hx => (hmem r hx).1 rfl,ht⟩
  · intro x hwx hm
    by_cases hx : x=r
    · rw [hx]
      rfl
    · rw [hother x hx] at hm
      have hd := hi.writing_of_null hlock hwx hm
      rw [hp] at hd
      cases hd
  · intro x hwx hm
    by_cases hx : x=r
    · rw [hx,hself] at hm
      cases hm
    · rw [hother x hx] at hm
      exact ⟨hi.nodup.mem_erase_iff.mpr ⟨hx,(hi.again x hwx hm).1⟩,fun h => by cases h⟩
  · exact setMsg_entry _ r _

/-- The call that holds the lock writes to the entry of one receiver and goes on with its walk. -/
theorem ProtoInv.wrote (hi : ProtoInv q) {x : RMsg} {pc₀ : MsgPc} (hp : q.pc c=pc₀) (h0 : holding pc₀=true)
    (hhold : holding pc=true) (hremoving : removing pc=removing pc₀) (hwalk : (ahead pc).Sublist (ahead pc₀))
    (hahead : ∀ y, y≠r → y∈ahead pc₀ → y∈ahead pc) (hw0 : ∀ y, writing pc₀=some y → y=r)
    (hlinked : r∈q.qReceivers → (Waits q r ∧ (x=.err (-eagain) ∨ x=.null)) ∨ (removing pc=true ∧ r∉ahead pc))
    (htarget : ∀ y, writing pc=some y → y=r ∧ Waits q r ∧ x=.null) (hcut : ∀ m k y rest, pc≠.sndWrite m k y rest)
    (hnull : x=.null → writing pc=some r)
    (hagain : x=.err (-eagain) → r∈q.qReceivers ∧ (removing pc=true → r∈ahead pc)) :
    ProtoInv ((q.setMsg r x).go c pc) := by
  subst hp
  have hlock := (hi.holder c).mp h0
  have hself : ((q.setMsg r x).go c pc).msr r={q.msr r with rMsg := x} := setMsg_self q r x
  have hother : ∀ y, y≠r → ((q.setMsg r x).go c pc).msr y=q.msr y := fun y hy => setMsg_of_ne q x hy
  refine hi.hold (.inr hlock) hlock (hi.live_of_holding h0) rfl (waiting_of_holding h0) hhold hi.nodup
    (hwalk.trans (hi.walk c)) ?_ ?_ (fun m k y rest h => absurd h (hcut m k y rest)) ?_ ?_ (setMsg_entry _ r _)
  · intro y hy
    by_cases hyr : y=r
    · rw [hyr,hself]
      exact hlinked (hyr ▸ hy)
    · rw [hother y hyr,hremoving]
      refine (hi.linked y hy).imp_right (fun hg => ?_)
      obtain ⟨hrem,hnot⟩ := (hi.gone_iff hlock y).mp hg
      exact ⟨hrem,fun h => hnot (hwalk.subset h)⟩
  · intro y h
    obtain ⟨rfl,hw,hx⟩ := htarget y h
    rw [hself]
    exact ⟨hw,hx⟩
  · intro y hw hm
    by_cases hyr : y=r
    · rw [hyr,hself] at hm
      exact hyr ▸ hnull hm
    · rw [hother y hyr] at hm
      exact absurd (hw0 y (hi.writing_of_null hlock hw hm)) hyr
  · intro y hw hm
    by_cases hyr : y=r
    · rw [hyr,hself] at hm
      exact hyr ▸ hagain hm
    · rw [hother y hyr] at hm
      obtain ⟨hy,hng⟩ := hi.again y hw hm
      refine ⟨hy,fun hrem => hahead y hyr ?_⟩
      by_contra hn
      exact hng ((hi.gone_iff hlock y).mpr ⟨hremoving ▸ hrem,hn⟩)

/-- A sender writes a final value to the receiver that it has unlinked. -/
theorem ProtoInv.settled (hi : ProtoInv q) {x : RMsg} (hp : q.pc c=.sndWrite m k r rest) (hnull : x≠.null)
    (hagain : x≠.err (-eagain)) : ProtoInv ((q.setMsg r x).go c (.sndScan m k rest)) :=
  hi.wrote hp rfl rfl rfl (List.Sublist.refl _) (fun _ _ => id) (fun _ h => (Option.some.inj h).symm)
    (fun hr => absurd hr (hi.cut c m k r rest hp).1) nofun nofun (fun h => absurd h hnull) (fun h => absurd h hagain)

/-- expunge_all writes NULL to the entry of the next receiver. -/
theorem ProtoInv.expunged (hi : ProtoInv q) (hp : q.pc c=.ctlExpunge cmd (r::rest)) :
    ProtoInv ((q.setMsg r .null).go c (.ctlWrite cmd r rest)) := by
  obtain ⟨hr,hng⟩ := hi.linked_ahead (c := c) (r := r) (by rw [hp]; rfl) (by rw [hp]; exact mem_cons_self)
  have hwr := ((hi.linked r hr).resolve_right hng).1
  refine hi.wrote hp rfl rfl ?_ (List.Sublist.refl _) (fun _ _ => id) nofun (fun _ => .inl ⟨hwr,.inr rfl⟩)
    (fun y h => ⟨(Option.some.inj h).symm,hwr,rfl⟩) nofun (fun _ => rfl) nofun
  cases cmd with
  | set | rmid => rfl

/-- expunge_all writes the final value to the entry of a receiver. -/
theorem ProtoInv.expungeWrote (hi : ProtoInv q) (hp : q.pc c=.ctlWrite cmd r rest) :
    ProtoInv ((q.setMsg r (.err cmd.res)).go c (.ctlExpunge cmd rest)) := by
  have hwalk := hi.walk c
  rw [hp] at hwalk
  have hrest : r∉rest := (nodup_cons.mp (hwalk.nodup hi.nodup)).1
  have hwr := (hi.target c r (by rw [hp]; rfl)).1
  refine hi.wrote hp rfl rfl ?_ (sublist_cons_self r rest) (fun y hy h => (mem_cons.mp h).resolve_left hy)
    (fun _ h => (Option.some.inj h).symm) (fun _ => ?_) nofun nofun nofun
    (fun hx => ⟨hwalk.subset mem_cons_self,fun hrem => ?_⟩)
  · cases cmd with
    | set | rmid => rfl
  · cases cmd with
    | set => exact .inl ⟨hwr,.inl rfl⟩
    | rmid => exact .inr ⟨rfl,hrest⟩
  · cases cmd with
    | set => cases hrem
    | rmid => exact absurd (RMsg.err.inj hx) (by decide)

/-- The lock is released. If the call was removing the queue, it has passed every
receiver and the queue is removed now. -/
theorem ProtoInv.release (hi : ProtoInv q) {pc₀ : MsgPc} (hp : q.pc c=pc₀) (hhold : holding pc₀=true)
    (hwriting : writing pc₀=none) (hlock' : q'.lock=none) (hpc : q'.pc=update q.pc c pc) (hmsr : q'.msr=q.msr)
    (hreceivers : q'.qReceivers=q.qReceivers) (hdone : holding pc=false) (hw : waiting pc=none)
    (hsound : ∀ args, pc≠.rcvFault args) (hremoved : q'.deleted=removing pc₀)
    (hpassed : removing pc₀=true → ahead pc₀=[]) : ProtoInv q' := by
  subst hp
  have hlock := (hi.holder c).mp hhold
  have hidle : ∀ d, holding (q'.pc d)=false := by
    intro d
    rw [hpc]
    by_cases hd : d=c
    · rw [hd,update_self]
      exact hdone
    · rw [update_of_ne hd]
      exact hi.others_idle (.inr hlock) hd
  have hwaiting := pc_congr hpc (hw.trans (waiting_of_holding hhold).symm)
  have hwaits : ∀ r, Waits q' r ↔ Waits q r := by
    intro r
    unfold Waits
    rw [hwaiting]
  have hgone : ∀ r, Gone q' r ↔ Gone q r := by
    intro r
    rw [hi.gone_iff hlock]
    constructor
    · rintro (hd|⟨d,hd,_⟩)
      · rw [hremoved] at hd
        exact ⟨hd,by rw [hpassed hd]; exact not_mem_nil⟩
      · rw [(bare_of_not_holding (hidle d)).2.2] at hd
        cases hd
    · rintro ⟨hd,_⟩
      exact .inl (hremoved.trans hd)
  refine protoInv_of_idle hidle hlock' (by rw [hreceivers]; exact hi.nodup) ?_ ?_ ?_ ?_ (hi.sound_update hpc hsound)
  · rw [hreceivers,hmsr]
    simp only [hgone,hwaits]
    exact hi.linked
  · intro r h hm
    rw [hwaits] at h
    rw [hmsr] at hm
    have hd := hi.writing_of_null hlock h hm
    rw [hwriting] at hd
    cases hd
  · rw [hreceivers,hmsr]
    simp only [hgone,hwaits]
    exact hi.again
  · intro r args h
    rw [hwaiting] at h
    rw [hmsr]
    exact hi.entry r args h

/-- A receiver whose call has just started is not linked to a live queue. -/
theorem ProtoInv.not_linked (hi : ProtoInv q) (hlock : q.lock=none) (hlive : q.deleted=false)
    (hw : waiting (q.pc c)=none) : c∉q.qReceivers := by
  intro hc
  have h := ((hi.linked c hc).resolve_right (hi.not_gone hlock hlive c)).1
  unfold Waits at h
  rw [hw] at h
  cases h

/-- A receiver that goes to sleep changes its own counter and entry only. -/
theorem asleep_facts (q : MsgQueue) (c : ℕ) (args : RcvArgs) :
    ((q.link c args).go c (.rcvAsleep args)).pc c=.rcvAsleep args ∧
    (∀ d, d≠c → ((q.link c args).go c (.rcvAsleep args)).pc d=q.pc d) ∧
    ((q.link c args).go c (.rcvAsleep args)).msr c=⟨args.mode,args.type,args.maxsize,.err (-eagain)⟩ ∧
    ∀ d, d≠c → ((q.link c args).go c (.rcvAsleep args)).msr d=q.msr d :=
  ⟨go_self _ c _,fun _ hd => go_of_ne _ _ hd,update_self _ _ _,fun _ hd => update_of_ne hd _ _⟩

/-- A receiver links or unlinks its own entry while the lock is free. -/
theorem ProtoInv.relinked (hi : ProtoInv q) (hlock : q.lock=none) (hlive : q.deleted=false) (hlock' : q'.lock=none)
    (hlive' : q'.deleted=false) (hpc : q'.pc=update q.pc c pc) (hdone : holding pc=false)
    (hsound : ∀ args, pc≠.rcvFault args) (hmsr : ∀ r, r≠c → q'.msr r=q.msr r) (hnodup : q'.qReceivers.Nodup)
    (hlist : ∀ r, r≠c → (r∈q'.qReceivers ↔ r∈q.qReceivers)) (hself : c∈q'.qReceivers ↔ (waiting pc).isSome=true)
    (hentry : ∀ args, waiting pc=some args → q'.msr c=⟨args.mode,args.type,args.maxsize,.err (-eagain)⟩) :
    ProtoInv q' := by
  have hpcc : q'.pc c=pc := by rw [hpc,update_self]
  have hpcr : ∀ r, r≠c → q'.pc r=q.pc r := fun r hr => by rw [hpc,update_of_ne hr]
  have hidle : ∀ d, holding (q'.pc d)=false := fun d =>
    (pc_congr hpc (hdone.trans (hi.not_holding hlock c).symm) d).trans (hi.not_holding hlock d)
  have hgone : ∀ r, ¬Gone q' r := by
    rintro r (hd|⟨d,hd,_⟩)
    · rw [hlive'] at hd
      cases hd
    · rw [(bare_of_not_holding (hidle d)).2.2] at hd
      cases hd
  have hwc : Waits q' c ↔ (waiting pc).isSome=true := by
    unfold Waits
    rw [hpcc]
  have hwr : ∀ r, r≠c → (Waits q' r ↔ Waits q r) := by
    intro r hr
    unfold Waits
    rw [hpcr r hr]
  have hagain : Waits q' c → (q'.msr c).rMsg=.err (-eagain) := by
    intro h
    obtain ⟨args,ha⟩ := Option.isSome_iff_exists.mp (hwc.mp h)
    rw [hentry args ha]
  refine protoInv_of_idle hidle hlock' hnodup (fun r hr => .inl ?_) (fun r h hm => ?_) (fun r h hm => ⟨?_,hgone r⟩)
    (fun r args h => ?_) (hi.sound_update hpc hsound)
  · by_cases hrc : r=c
    · have hw := hwc.mpr (hself.mp (hrc ▸ hr))
      exact hrc ▸ ⟨hw,.inl (hagain hw)⟩
    · rw [hwr r hrc,hmsr r hrc]
      exact (hi.linked r ((hlist r hrc).mp hr)).resolve_right (hi.not_gone hlock hlive r)
  · by_cases hrc : r=c
    · rw [hrc,hagain (hrc ▸ h)] at hm
      cases hm
    · rw [hmsr r hrc] at hm
      exact hi.not_null hlock ((hwr r hrc).mp h) hm
  · by_cases hrc : r=c
    · exact hrc ▸ hself.mpr (hwc.mp (hrc ▸ h))
    · rw [hmsr r hrc] at hm
      exact (hlist r hrc).mpr (hi.again r ((hwr r hrc).mp h) hm).1
  · by_cases hrc : r=c
    · rw [hrc,hpcc] at h
      rw [hrc,hentry args h]
      exact ⟨rfl,rfl,rfl⟩
    · rw [hpcr r hrc] at h
      rw [hmsr r hrc]
      exact hi.entry r args h

/-- A receiver links its entry and sleeps. -/
theorem ProtoInv.link (hi : ProtoInv q) (hlock : q.lock=none) (hlive : q.deleted=false) (hp : q.pc c=.rcvReady args) :
    ProtoInv ((q.link c args).go c (.rcvAsleep args)) := by
  have hnot := hi.not_linked hlock hlive (c := c) (by rw [hp]; rfl)
  have hlist : ((q.link c args).go c (.rcvAsleep args)).qReceivers=q.qReceivers++[c] := rfl
  refine hi.relinked hlock hlive hlock hlive rfl rfl nofun (fun r hr => update_of_ne hr _ _) ?_ (fun r hr => ?_) ?_
    (fun args' h => ?_)
  · rw [hlist,← concat_eq_append]
    exact hi.nodup.concat hnot
  · simp [hlist,hr]
  · simp [hlist,waiting]
  · cases h
    exact update_self _ _ _

/-- A queue on which a receiver has nothing yet is live. -/
theorem ProtoInv.live_of_again (hi : ProtoInv q) (hw : Waits q c) (hm : (q.msr c).rMsg=.err (-eagain)) :
    q.deleted=false := by
  by_contra hd
  exact (hi.again c hw hm).2 (.inl (by simpa using hd))

/-- A receiver unlinks its entry. -/
theorem ProtoInv.unlink (hi : ProtoInv q) (hlock : q.lock=none) (hp : q.pc c=.rcvRelock args)
    (hm : (q.msr c).rMsg=.err (-eagain)) (hdone : holding pc=false) (hw : waiting pc=none)
    (hsound : ∀ args, pc≠.rcvFault args) : ProtoInv ((q.unlink c).go c pc) := by
  have hwc : Waits q c := by
    unfold Waits
    rw [hp]
    rfl
  have hlive := hi.live_of_again hwc hm
  refine hi.relinked hlock hlive hlock hlive rfl hdone hsound (fun _ _ => rfl) (hi.nodup.erase c)
    (fun r hr => mem_erase_of_ne hr) ?_ (fun args h => ?_)
  · rw [hw]
    exact iff_of_false (fun h => (hi.nodup.mem_erase_iff.mp h).1 rfl) nofun
  · rw [hw] at h
    cases h

theorem protoInv_start (h : QueueStart n q) : ProtoInv q := by
  have hwaits : ∀ r, ¬Waits q r := by
    intro r
    unfold Waits
    rw [h.idle]
    exact nofun
  refine protoInv_of_idle (fun d => by rw [h.idle]; rfl) h.lock ?_ ?_ ?_ ?_ ?_ ?_
  · rw [h.receivers]
    exact nodup_nil
  · rw [h.receivers]
    exact nofun
  · exact fun r hr => absurd hr (hwaits r)
  · exact fun r hr => absurd hr (hwaits r)
  · intro r args hr
    rw [h.idle] at hr
    cases hr
  · intro r args hr
    rw [h.idle] at hr
    cases hr

/-- The loop of do_msgsnd keeps it. -/
theorem ProtoInv.sndOutcome (hi : ProtoInv q) {msgsz : ℕ} {nowait : Bool} (hp : q.pc c=.sndReady m msgsz nowait)
    (hlock : q.lock=none) (hlive : q.deleted=false) (ho : SndOutcome q c m msgsz q') : ProtoInv q' := by
  cases ho with
  | failed h => exact hi.goPlain hp rfl rfl rfl rfl nofun
  | began h => exact hi.acquire hlock hlive (by rw [hp]; rfl) rfl rfl rfl
  | slept h =>
    have hframe : ProtoInv (q.ssAdd c) := hi.frame rfl rfl rfl rfl rfl
    exact hframe.goPlain hp rfl rfl rfl rfl nofun

/-- The loop of do_msgrcv keeps it. -/
theorem ProtoInv.rcvOutcome (hi : ProtoInv q) {deny : MsgMsg → ℤ → Bool} (hp : q.pc c=.rcvReady args)
    (hlock : q.lock=none) (hlive : q.deleted=false) (ho : RcvOutcome n q c args deny n' q') : ProtoInv q' := by
  cases ho with
  | failed => exact hi.goPlain hp rfl rfl rfl rfl nofun
  | @took m hm ht hs =>
    have hframe : ProtoInv (q.dequeue m) := hi.frame rfl rfl rfl rfl rfl
    exact hframe.goPlain hp rfl rfl rfl rfl nofun
  | linked hnone => exact hi.link hlock hlive hp

/-- A receiver that waits accepts a final value. -/
theorem ProtoInv.accept (hi : ProtoInv q) (hw : Waits q c) (hnull : (q.msr c).rMsg≠.null)
    (hagain : (q.msr c).rMsg≠.err (-eagain)) (hdone : holding pc=false) (hsound : ∀ args, pc≠.rcvFault args)
    (hpc : waiting pc=none) : ProtoInv (q.go c pc) := by
  have h0 : holding (q.pc c)=false := by
    by_contra hn
    unfold Waits at hw
    rw [waiting_of_holding (by simpa using hn)] at hw
    cases hw
  refine hi.go h0 hdone hsound (.inr ⟨hpc,fun hc => ?_,fun _ => hnull⟩)
  rcases hi.linked c hc with ⟨_,h|h⟩|h
  · exact absurd h hagain
  · exact absurd h hnull
  · exact h

theorem waits_of_asleep (hp : q.pc c=.rcvAsleep args) : Waits q c := by
  unfold Waits
  rw [hp]
  rfl

theorem waits_of_relock (hp : q.pc c=.rcvRelock args) : Waits q c := by
  unfold Waits
  rw [hp]
  rfl

theorem ProtoInv.step (hi : ProtoInv q) (h : MsgCase n q e n' q') : ProtoInv q' := by
  cases h with
  | sysctl => exact hi
  | sndRefused hp | sndLoaded hp | sndLost hp | sndRemoved hp | rcvRefused hp | rcvCalled hp | rcvLost hp
  | rcvStored hp | ctlRefused hp => exact hi.goPlain hp rfl rfl rfl rfl nofun
  | sndLocked hp hlock hlive ho => exact hi.sndOutcome hp hlock hlive ho
  | @sndEnqueued c msgsz m deny hp | @setEnded c hp =>
    exact hi.release hp rfl rfl rfl rfl rfl rfl rfl rfl nofun (hi.live_of_holding (c := c) (by rw [hp]; rfl) :) nofun
  | sndMatched hp ht => exact hi.matched hp ht
  | sndSkipped hp ht => exact hi.skipped hp
  | sndTooBig hp hbig => exact hi.settled hp nofun (by decide)
  | @sndHanded c msgsz r m rest hp hfit =>
    have hs : ProtoInv ((q.setMsg r (.msg m)).go c (.sndScan m msgsz rest)) := hi.settled hp nofun nofun
    have hpc : ((q.setMsg r (.msg m)).go c (.sndScan m msgsz rest)).pc c=.sndScan m msgsz rest := go_self _ c _
    have hdone : ({q.setMsg r (.msg m) with lock := none}.go c (.sndDone (some m) 0)).pc=
        update ((q.setMsg r (.msg m)).go c (.sndScan m msgsz rest)).pc c (.sndDone (some m) 0) :=
      (update_idem _ _ _).symm
    exact hs.release hpc rfl rfl rfl hdone rfl rfl rfl rfl nofun
      (hs.live_of_holding (c := c) (by rw [hpc]; rfl) :) nofun
  | @sndSignalled c msgsz m nowait _ _ hp hlock =>
    have hframe : ProtoInv (q.ssDel c) := hi.frame rfl rfl rfl rfl rfl
    exact hframe.goPlain hp rfl rfl rfl rfl nofun
  | @sndRetried c msgsz m nowait _ _ _ hp hlock hlive ho =>
    have hframe : ProtoInv (q.ssDel c) := hi.frame rfl rfl rfl rfl rfl
    have hready : ProtoInv ((q.ssDel c).go c (.sndReady m msgsz nowait)) :=
      hframe.goPlain hp rfl rfl rfl rfl nofun
    exact hready.sndOutcome (go_self _ c _) hlock hlive ho
  | rcvLocked hp hlock hlive ho => exact hi.rcvOutcome hp hlock hlive ho
  | rcvSpun => exact hi
  | rcvSawAgain hp => exact hi.go (by rw [hp]; rfl) rfl nofun (.inl (by rw [hp]; rfl))
  | rcvSawErr hp hm hcode =>
    refine hi.accept (waits_of_asleep hp) (by rw [hm]; exact nofun) ?_ rfl nofun rfl
    rw [hm]
    exact fun he => hcode (RMsg.err.inj he)
  | rcvSawMsg hp hm =>
    exact hi.accept (waits_of_asleep hp) (by rw [hm]; exact nofun) (by rw [hm]; exact nofun) rfl nofun rfl
  | rcvNull hp hlock hm => exact absurd hm (hi.not_null hlock (waits_of_relock hp))
  | rcvErr hp hm hcode =>
    refine hi.accept (waits_of_relock hp) (by rw [hm]; exact nofun) ?_ rfl nofun rfl
    rw [hm]
    exact fun he => hcode (RMsg.err.inj he)
  | rcvMsg hp hm =>
    exact hi.accept (waits_of_relock hp) (by rw [hm]; exact nofun) (by rw [hm]; exact nofun) rfl nofun rfl
  | rcvSignalled hp hlock hm => exact hi.unlink hlock hp hm rfl rfl nofun
  | @rcvRetried c args _ _ _ _ _ hp hlock hm ho =>
    have hlive := hi.live_of_again (waits_of_relock hp) hm
    have hready : ProtoInv ((q.unlink c).go c (.rcvReady args)) := hi.unlink hlock hp hm rfl rfl nofun
    exact hready.rcvOutcome (go_self _ c _) hlock hlive ho
  | setBegan hp hlock hlive hword | rmidBegan hp hlock hlive =>
    exact hi.acquire hlock hlive (by rw [hp]; rfl) rfl rfl rfl
  | expunged hp => exact hi.expunged hp
  | expungeWrote hp => exact hi.expungeWrote hp
  | @rmidEnded c hp =>
    exact hi.release hp rfl rfl rfl rfl rfl rfl rfl rfl nofun rfl fun _ => rfl
  | freedMsg hp hm => exact hi.frame rfl rfl rfl rfl rfl
  | @freedAll c hp hm =>
    have hframe : ProtoInv {q with freed := true} := hi.frame rfl rfl rfl rfl rfl
    exact hframe.goPlain hp rfl rfl rfl rfl nofun

/-- A step of the queue and its namespace is a step of the queue. -/
theorem msgStep_of_next {s' : MsgSys} (h : MsgNext s e s') : msgStep s.ns s.msq e=some (s'.ns,s'.msq) := by
  unfold MsgNext msgSysStep at h
  obtain ⟨p,hp,he⟩ := Option.map_eq_some_iff.mp h
  subst he
  exact hp

theorem protoInv_of_reachable (hr : MsgReachable s) : ProtoInv s.msq :=
  Reachable.invariant (I := fun s : MsgSys => ProtoInv s.msq) (fun _ h => protoInv_start h)
    (fun _ _ _ _ hi h => hi.step (msgStep_cases (msgStep_of_next h))) hr

end BlockIpc.MsgProtocol
