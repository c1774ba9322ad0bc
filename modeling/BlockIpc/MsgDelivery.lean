import BlockIpc.MailPlaces
import BlockIpc.MsgProtocol

/-!
# Delivery of System V messages

Every message that was sent is in one place: on the queue, with one receiver, or
discarded with the queue. A message whose sender failed is nowhere. A receiver
gets only what it asked for, and when it returns no other task can write to its
entry any more.
-/

namespace BlockIpc.MsgDelivery

open Function KernelNumbers TransitionRuns MailPlaces MsgQueues MsgProtocol

/-- The message that a receiver holds at some progress with some entry. -/
def heldOf (pc : MsgPc) (x : RMsg) : Option MsgMsg :=
  match pc,x with
  | .rcvGot _ m,_ => some m
  | .rcvDone _ _ got,_ => got
  | .rcvAsleep _,.msg m => some m
  | .rcvRelock _,.msg m => some m
  | _,_ => none

/-- The message that a receiver holds. -/
def held (q : MsgQueue) (r : ℕ) : Option MsgMsg := heldOf (q.pc r) (q.msr r).rMsg

/-- The arguments of a msgrcv call. -/
def argsOf : MsgPc → Option RcvArgs
  | .rcvReady args => some args
  | .rcvAsleep args => some args
  | .rcvRelock args => some args
  | .rcvGot args _ => some args
  | .rcvDone args _ _ => some args
  | .rcvFault args => some args
  | _ => none

/-- The message of a msgsnd call. -/
def carried : MsgPc → Option MsgMsg
  | .sndReady m _ _ => some m
  | .sndAsleep m _ _ => some m
  | .sndScan m _ _ => some m
  | .sndWrite m _ _ _ => some m
  | .sndDone m _ => m
  | _ => none

/-- How far a message has come at some progress of its sender. -/
def stageOf (pc : MsgPc) (m : MsgMsg) : Stage :=
  if carried pc=some m then
    match pc with
    | .sndDone _ code => if code=0 then .arrived else .withdrawn
    | _ => .flying
  else .unsent

/-- How far every message has come. -/
def stage (q : MsgQueue) (m : MsgMsg) : Stage := stageOf (q.pc m.sender) m

/-- A receiver asked for the type of a message and for a size that admits it. -/
def Asked (args : RcvArgs) (m : MsgMsg) : Prop :=
  testmsg m args.type args.mode=true ∧ (args.noerror=true ∨ m.mTs≤args.msgsz)

structure DeliveryInv (q : MsgQueue) : Prop where
  places : ∃ place, Located place q.qMessages q.discarded (held q) (stage q)
  /-- A message is named after its sender. -/
  senders : ∀ c m, carried (q.pc c)=some m → m.sender=c
  /-- A receiver holds only what it asked for. -/
  asked : ∀ r args m, argsOf (q.pc r)=some args → held q r=some m → Asked args m

variable {pc : MsgPc} {n n' : MsgNs} {q q' : MsgQueue} {c k r : ℕ} {m : MsgMsg} {code : ℤ} {nowait : Bool}
  {args : RcvArgs} {e : MsgEvent}

theorem stageOf_unsent (h : carried pc=none) (m : MsgMsg) : stageOf pc m=.unsent := by
  unfold stageOf
  rw [h]
  rfl

theorem deliveryInv_start (h : QueueStart n q) : DeliveryInv q := by
  refine ⟨⟨fun _ => .unsent,?_⟩,fun c m hc => ?_,fun r args m hr => ?_⟩
  · refine ⟨?_,?_,fun m => ?_,fun m => ?_,fun r m => ?_,fun m => ?_⟩
    · rw [h.messages]
      exact List.nodup_nil
    · rw [h.discarded]
      exact List.nodup_nil
    · rw [h.messages]
      exact ⟨nofun,nofun⟩
    · rw [h.discarded]
      exact ⟨nofun,nofun⟩
    · unfold held
      rw [h.idle]
      exact ⟨nofun,nofun⟩
    · unfold stage
      rw [h.idle]
      rfl
  · rw [h.idle] at hc
    cases hc
  · rw [h.idle] at hr
    cases hr

/-- What the other receivers hold when a call advances. -/
theorem held_go (q : MsgQueue) (c : ℕ) (pc : MsgPc) (r : ℕ) :
    held (q.go c pc) r=update (held q) c (heldOf pc (q.msr c).rMsg) r := by
  unfold held
  by_cases hr : r=c
  · subst hr
    rw [go_self,update_self]
    rfl
  · rw [go_of_ne q pc hr,update_of_ne hr]
    rfl

theorem stage_go_of_ne (q : MsgQueue) (pc : MsgPc) (h : m.sender≠c) : stage (q.go c pc) m=stage q m := by
  unfold stage
  rw [go_of_ne q pc h]

theorem stage_go_self (q : MsgQueue) (pc : MsgPc) (h : m.sender=c) : stage (q.go c pc) m=stageOf pc m := by
  unfold stage
  rw [h,go_self]

/-- A call advances, and none of its messages comes any further. -/
theorem stage_go (hs : q'.pc=q.pc) (h : ∀ m, stageOf pc m=stageOf (q.pc c) m) (m : MsgMsg) :
    stage (q'.go c pc) m=stage q m := by
  by_cases hm : m.sender=c
  · rw [stage_go_self q' pc hm,h]
    unfold stage
    rw [hm]
  · rw [stage_go_of_ne q' pc hm]
    unfold stage
    rw [hs]

/-- A change of anything but messages, entries and calls. -/
theorem DeliveryInv.frame (hi : DeliveryInv q) (hmessages : q'.qMessages=q.qMessages)
    (hdiscarded : q'.discarded=q.discarded) (hmsr : q'.msr=q.msr) (hpc : q'.pc=q.pc) : DeliveryInv q' := by
  cases q
  cases q'
  dsimp only at hmessages hdiscarded hmsr hpc
  subst hmessages hdiscarded hmsr hpc
  exact {hi with}

/-- A call advances and may change what it holds or how far its message has come. -/
theorem DeliveryInv.change (hi : DeliveryInv q) (hpc : q'.pc=update q.pc c pc)
    (hplaces : ∃ place, Located place q'.qMessages q'.discarded (held q') (stage q'))
    (hsenders : ∀ m, carried pc=some m → m.sender=c)
    (hasked : ∀ r args m, argsOf (q'.pc r)=some args → held q' r=some m → held q r≠some m → Asked args m)
    (hargs : ∀ args m, argsOf pc=some args → held q c=some m → argsOf (q.pc c)=some args) : DeliveryInv q' := by
  refine ⟨hplaces,fun d m h => ?_,fun r args m hr hm => ?_⟩
  · rw [hpc] at h
    by_cases hd : d=c
    · rw [hd,update_self] at h
      rw [hd]
      exact hsenders m h
    · rw [update_of_ne hd] at h
      exact hi.senders d m h
  · by_cases hold : held q r=some m
    · refine hi.asked r args m ?_ hold
      rw [hpc] at hr
      by_cases hrc : r=c
      · rw [hrc,update_self] at hr
        rw [hrc]
        exact hargs args m hr (by rw [← hrc]; exact hold)
      · rw [update_of_ne hrc] at hr
        exact hr
    · exact hasked r args m hr hm hold

/-- A call advances without a change of what it holds or how far its message has come. -/
theorem DeliveryInv.go (hi : DeliveryInv q) (hheld : heldOf pc (q.msr c).rMsg=held q c)
    (hstage : ∀ m, stageOf pc m=stageOf (q.pc c) m) (hcarried : ∀ m, carried pc=some m → carried (q.pc c)=some m)
    (hargs : ∀ args m, argsOf pc=some args → held q c=some m → argsOf (q.pc c)=some args) :
    DeliveryInv (q.go c pc) := by
  have hsame : ∀ r, held (q.go c pc) r=held q r := by
    intro r
    rw [held_go,hheld,update_eq_self]
  refine hi.change rfl ?_ (fun m h => hi.senders c m (hcarried m h)) (fun r args m _ hm hn => ?_) hargs
  · obtain ⟨place,hl⟩ := hi.places
    exact ⟨place,hl.congr (List.Perm.refl _) hsame (stage_go rfl hstage)⟩
  · rw [hsame] at hm
    exact absurd hm hn

/-- A call that holds and carries nothing advances to a point where it does neither. -/
theorem DeliveryInv.goEmpty (hi : DeliveryInv q) (hheld : held q c=none) (hheld' : heldOf pc (q.msr c).rMsg=none)
    (hcarried : carried (q.pc c)=none) (hcarried' : carried pc=none) : DeliveryInv (q.go c pc) := by
  refine hi.go (hheld'.trans hheld.symm) (fun m => ?_) (fun m h => ?_) (fun args m _ h => ?_)
  · rw [stageOf_unsent hcarried,stageOf_unsent hcarried']
  · rw [hcarried'] at h
    cases h
  · rw [hheld] at h
    cases h

/-- A call at a point where it holds and carries nothing advances to another one. -/
theorem DeliveryInv.goPlain (hi : DeliveryInv q) {pc₀ : MsgPc} (hp : q.pc c=pc₀)
    (hheld : heldOf pc₀ (q.msr c).rMsg=none)
    (hheld' : heldOf pc (q.msr c).rMsg=none) (hcarried : carried pc₀=none) (hcarried' : carried pc=none) :
    DeliveryInv (q.go c pc) := by
  subst hp
  exact hi.goEmpty hheld hheld' hcarried hcarried'

/-- A message that has not arrived changes its stage. -/
theorem DeliveryInv.restage (hi : DeliveryInv q) {p : Place ℕ} (hm : m.sender=c) (hheld : held q c=none)
    (hheld' : heldOf pc (q.msr c).rMsg=none) (hold : stage q m≠.arrived) (hnew : stageOf pc m=p.stage)
    (hp : p.stage≠.arrived) (hcarried : carried pc=some m) (hothers : ∀ m', m'≠m → stageOf pc m'=stageOf (q.pc c) m') :
    DeliveryInv (q.go c pc) := by
  have hsame : ∀ r, held (q.go c pc) r=held q r := by
    intro r
    rw [held_go,hheld',← hheld,update_eq_self]
  refine hi.change rfl ?_ (fun m' h => ?_) (fun r args m' _ hm' hn => ?_) (fun args m' _ h => ?_)
  · obtain ⟨place,hl⟩ := hi.places
    have hr : Located (update place m p) q.qMessages q.discarded (held q) (stage (q.go c pc)) := by
      refine hl.restage (by rw [hl.stages]; exact hold) hp ?_ (fun m' hne => ?_)
      · rw [stage_go_self q pc hm]
        exact hnew
      · by_cases hm' : m'.sender=c
        · rw [stage_go_self q pc hm',hothers m' hne]
          unfold stage
          rw [hm']
        · exact stage_go_of_ne q pc hm'
    exact ⟨_,hr.congr (List.Perm.refl _) hsame (fun _ => rfl)⟩
  · rw [hcarried] at h
    cases h
    exact hm
  · rw [hsame] at hm'
    exact absurd hm' hn
  · rw [hheld] at h
    cases h

/-- A call that carries a message on the way. -/
theorem stageOf_flying (h : carried pc=some m) (hd : ∀ x code, pc≠.sndDone x code) : stageOf pc m=.flying := by
  unfold stageOf
  rw [if_pos h]
  cases pc with
  | sndDone x code => exact absurd rfl (hd x code)
  | _ => rfl

/-- Two calls that carry the same message have sent none of the others. -/
theorem stageOf_others {pc' : MsgPc} {m' : MsgMsg} (h : carried pc=some m) (h' : carried pc'=some m) (hne : m'≠m) :
    stageOf pc m'=stageOf pc' m' := by
  unfold stageOf
  rw [h,h',if_neg (fun he => hne (Option.some.inj he).symm),if_neg (fun he => hne (Option.some.inj he).symm)]

/-- A sender advances with its message. -/
theorem DeliveryInv.goFlying (hi : DeliveryInv q) {pc₀ : MsgPc} (hp : q.pc c=pc₀) (h : carried pc₀=some m)
    (hd : ∀ x code, pc₀≠.sndDone x code) (h' : carried pc=some m) (hd' : ∀ x code, pc≠.sndDone x code)
    (hheld : heldOf pc₀ (q.msr c).rMsg=none) (hheld' : heldOf pc (q.msr c).rMsg=none) :
    DeliveryInv (q.go c pc) := by
  subst hp
  change held q c=none at hheld
  refine hi.go (hheld'.trans hheld.symm) (fun m' => ?_) (fun m' hm' => ?_) (fun args m' _ hm' => ?_)
  · by_cases hm : m'=m
    · rw [hm,stageOf_flying h hd,stageOf_flying h' hd']
    · exact stageOf_others h' h hm
  · rw [h'] at hm'
    rw [h]
    exact hm'
  · rw [hheld] at hm'
    cases hm'

/-- The message of a call that is not done is on the way. -/
theorem DeliveryInv.flying (hi : DeliveryInv q) (h : carried (q.pc c)=some m) (hd : ∀ x code, q.pc c≠.sndDone x code) :
    m.sender=c ∧ stage q m=.flying := by
  have hm := hi.senders c m h
  unfold stage
  rw [hm]
  exact ⟨rfl,stageOf_flying h hd⟩

/-- A sender fails and keeps its message. -/
theorem DeliveryInv.withdraw (hi : DeliveryInv q) {pc₀ : MsgPc} (hp : q.pc c=pc₀) (h : carried pc₀=some m)
    (hd : ∀ x code, pc₀≠.sndDone x code) (hheld : heldOf pc₀ (q.msr c).rMsg=none) (hcode : code≠0) :
    DeliveryInv (q.go c (.sndDone (some m) code)) := by
  subst hp
  obtain ⟨hm,hflying⟩ := hi.flying h hd
  refine hi.restage hm hheld rfl ?_ (p := .withdrawn) ?_ nofun rfl (fun m' hne => ?_)
  · rw [hflying]
    exact nofun
  · simp [stageOf,carried,hcode,Place.stage]
  · exact stageOf_others rfl h hne

/-- A message is loaded. -/
theorem DeliveryInv.load (hi : DeliveryInv q) (hp : q.pc c=.idle) (hm : m.sender=c) :
    DeliveryInv (q.go c (.sndReady m k nowait)) := by
  have hunsent : ∀ m', stageOf (q.pc c) m'=.unsent := by
    intro m'
    rw [hp]
    exact stageOf_unsent rfl m'
  refine hi.restage hm (by unfold held; rw [hp]; rfl) rfl ?_ (p := .flying) ?_ nofun rfl (fun m' hne => ?_)
  · unfold stage
    rw [hm,hunsent]
    exact nofun
  · exact stageOf_flying rfl nofun
  · rw [hunsent]
    unfold stageOf carried
    rw [if_neg (fun he => hne (Option.some.inj he).symm)]

/-- A receiver that waits carries no message, and holds what is in its entry. -/
theorem waiting_facts (h : waiting pc=some args) : carried pc=none ∧ argsOf pc=some args ∧
    (∀ m, heldOf pc (.msg m)=some m) ∧ ∀ x, (∀ m, x≠.msg m) → heldOf pc x=none := by
  rcases waiting_cases h with rfl|rfl <;> refine ⟨rfl,rfl,fun _ => rfl,fun x hx => ?_⟩ <;> cases x with
  | msg m => exact absurd rfl (hx m)
  | _ => rfl

/-- What a receiver that does not wait holds is not in its entry. -/
theorem heldOf_congr (h : waiting pc=none) (x y : RMsg) : heldOf pc x=heldOf pc y := by
  cases pc with
  | rcvAsleep a | rcvRelock a => cases h
  | _ => rfl

/-- The pointer of a receiver that holds nothing changes to no message. -/
theorem DeliveryInv.setMsg (hi : DeliveryInv q) {x : RMsg} (hheld : held q r=none) (hx : ∀ m, x≠.msg m) :
    DeliveryInv (q.setMsg r x) := by
  have hnone : heldOf (q.pc r) x=none := by
    cases hw : waiting (q.pc r) with
    | none => exact (heldOf_congr hw x _).trans hheld
    | some args => exact (waiting_facts hw).2.2.2 x hx
  have hsame : ∀ d, held (q.setMsg r x) d=held q d := by
    intro d
    by_cases hd : d=r
    · rw [hd,hheld]
      unfold held
      rw [setMsg_self]
      exact hnone
    · unfold held
      rw [setMsg_of_ne q x hd]
      rfl
  refine ⟨?_,hi.senders,fun d args m hd hm => ?_⟩
  · obtain ⟨place,hl⟩ := hi.places
    exact ⟨place,hl.congr (List.Perm.refl _) hsame (fun _ => rfl)⟩
  · rw [hsame] at hm
    exact hi.asked d args m hd hm

/-- A receiver that waits for a value holds nothing. -/
theorem held_eq_none (hw : Waits q r) (hm : ∀ m, (q.msr r).rMsg≠.msg m) : held q r=none := by
  obtain ⟨args,ha⟩ := Option.isSome_iff_exists.mp hw
  exact (waiting_facts ha).2.2.2 _ hm

/-- A receiver that is still linked to a live queue holds nothing. -/
theorem held_linked (hq : ProtoInv q) (hr : r∈q.qReceivers) (hg : ¬Gone q r) : held q r=none := by
  obtain ⟨hw,hm⟩ := (hq.linked r hr).resolve_right hg
  refine held_eq_none hw (fun m he => ?_)
  rw [he] at hm
  rcases hm with h|h
  · cases h
  · cases h

/-- The message of a call that arrives, and no other message, changes its stage. -/
theorem stage_arrived (q q' : MsgQueue) (hpc : q'.pc=update q.pc c (.sndDone (some m) 0)) (hm : m.sender=c)
    (h : carried (q.pc c)=some m) : stage q' m=.arrived ∧ ∀ m', m'≠m → stage q' m'=stage q m' := by
  unfold stage
  constructor
  · rw [hpc,hm,update_self]
    simp [stageOf,carried]
  · intro m' hne
    rw [hpc]
    by_cases hc : m'.sender=c
    · rw [hc,update_self]
      exact stageOf_others rfl h hne
    · rw [update_of_ne hc]

/-- A message is put on the queue. -/
theorem DeliveryInv.enqueued (hi : DeliveryInv q) (hp : q.pc c=.sndScan m k []) :
    DeliveryInv ({q.enqueue m k with lock := none}.go c (.sndDone (some m) 0)) := by
  have hcarried : carried (q.pc c)=some m := by rw [hp]; rfl
  obtain ⟨hm,hflying⟩ := hi.flying hcarried (by rw [hp]; exact nofun)
  have hheld : held q c=none := by unfold held; rw [hp]; rfl
  have hsame : ∀ r, held ({q.enqueue m k with lock := none}.go c (.sndDone (some m) 0)) r=held q r := by
    intro r
    rw [held_go]
    show update (held q) c none r=held q r
    rw [← hheld,update_eq_self]
  refine hi.change rfl ?_ (fun m' h => by cases h; exact hm) (fun r args m' _ hm' hn => ?_)
    (fun args m' h _ => by cases h)
  · obtain ⟨place,hl⟩ := hi.places
    obtain ⟨harrived,hothers⟩ := stage_arrived q
      ({q.enqueue m k with lock := none}.go c (.sndDone (some m) 0)) rfl hm hcarried
    have he := hl.enqueue (hl.with_sender hflying) (List.perm_append_singleton m q.qMessages) harrived hothers
    exact ⟨_,he.congr (List.Perm.refl _) hsame (fun _ => rfl)⟩
  · rw [hsame] at hm'
    exact absurd hm' hn

/-- A message is handed to a receiver. -/
theorem DeliveryInv.handed (hi : DeliveryInv q) (hq : ProtoInv q) {rest : List ℕ} (hp : q.pc c=.sndWrite m k r rest)
    (hfit : m.mTs≤(q.msr r).rMaxsize) :
    DeliveryInv ({q.setMsg r (.msg m) with lock := none}.go c (.sndDone (some m) 0)) := by
  have hcarried : carried (q.pc c)=some m := by rw [hp]; rfl
  obtain ⟨hm,hflying⟩ := hi.flying hcarried (by rw [hp]; exact nofun)
  obtain ⟨hw,hnull⟩ := hq.target c r (by rw [hp]; rfl)
  obtain ⟨args,hargs⟩ := Option.isSome_iff_exists.mp hw
  have hrc : r≠c := by
    intro he
    rw [he,hp] at hargs
    cases hargs
  have hheld : held q r=none := held_eq_none hw (fun x he => by rw [he] at hnull; cases hnull)
  have hmine : held q c=none := by unfold held; rw [hp]; rfl
  obtain ⟨_,hargsOf,hgets,_⟩ := waiting_facts hargs
  have hnew : ∀ d, held ({q.setMsg r (.msg m) with lock := none}.go c (.sndDone (some m) 0)) d=
      update (held q) r (some m) d := by
    intro d
    by_cases hd : d=r
    · rw [hd,update_self]
      unfold held
      rw [go_of_ne _ _ hrc]
      show heldOf (q.pc r) ((q.setMsg r (.msg m)).msr r).rMsg=some m
      rw [setMsg_self]
      exact hgets m
    · rw [update_of_ne hd]
      by_cases hdc : d=c
      · rw [hdc,hmine]
        unfold held
        rw [go_self]
        rfl
      · unfold held
        rw [go_of_ne _ _ hdc]
        show heldOf (q.pc d) ((q.setMsg r (.msg m)).msr d).rMsg=_
        rw [setMsg_of_ne q _ hd]
  refine hi.change rfl ?_ (fun m' h => by cases h; exact hm) (fun d args' m' hd hm' hn => ?_)
    (fun args m' h _ => by cases h)
  · obtain ⟨place,hl⟩ := hi.places
    obtain ⟨harrived,hothers⟩ := stage_arrived q
      ({q.setMsg r (.msg m) with lock := none}.go c (.sndDone (some m) 0)) rfl hm hcarried
    exact ⟨_,hl.pass (hl.with_sender hflying) hheld hnew harrived hothers⟩
  · rw [hnew] at hm'
    by_cases hdr : d=r
    · rw [hdr,update_self] at hm'
      cases hm'
      rw [hdr,go_of_ne _ _ hrc] at hd
      obtain rfl : args'=args := Option.some.inj (hd.symm.trans hargsOf)
      obtain ⟨hmode,htype,hsize⟩ := hq.entry r args' hargs
      have ht := (hq.cut c m k r rest hp).2
      rw [hmode,htype] at ht
      rw [hsize] at hfit
      refine ⟨ht,?_⟩
      unfold RcvArgs.maxsize at hfit
      split at hfit
      · next hn => exact .inl hn
      · exact .inr hfit
    · rw [update_of_ne hdr] at hm'
      exact absurd hm' hn

/-- A receiver takes a message from the queue. -/
theorem DeliveryInv.took (hi : DeliveryInv q) (hp : q.pc c=.rcvReady args) (hm : m∈q.qMessages)
    (hasked : Asked args m) : DeliveryInv ((q.dequeue m).go c (.rcvGot args m)) := by
  have hheld : held q c=none := by unfold held; rw [hp]; rfl
  have hnew : ∀ r, held ((q.dequeue m).go c (.rcvGot args m)) r=update (held q) c (some m) r :=
    fun r => held_go _ c _ r
  refine hi.change rfl ?_ nofun (fun r args' m' hr hm' hn => ?_) (fun args' m' _ h => ?_)
  · obtain ⟨place,hl⟩ := hi.places
    refine ⟨_,hl.take (List.perm_cons_erase hm) hheld hnew (stage_go (q:=q) rfl (fun m' => ?_))⟩
    rw [hp,stageOf_unsent rfl,stageOf_unsent rfl]
  · rw [hnew] at hm'
    by_cases hrc : r=c
    · rw [hrc,update_self] at hm'
      rw [hrc,go_self] at hr
      cases hm'
      cases hr
      exact hasked
    · rw [update_of_ne hrc] at hm'
      exact absurd hm' hn
  · rw [hheld] at h
    cases h

/-- The first message of a removed queue is discarded. -/
theorem DeliveryInv.discard (hi : DeliveryInv q) {rest : List MsgMsg} (hm : q.qMessages=m::rest) :
    DeliveryInv {q with qMessages := rest, discarded := m::q.discarded} := by
  obtain ⟨place,hl⟩ := hi.places
  rw [hm] at hl
  exact ⟨⟨_,hl.discard⟩,hi.senders,hi.asked⟩

/-- The loop of do_msgsnd keeps it. -/
theorem DeliveryInv.sndOutcome (hi : DeliveryInv q) {msgsz : ℕ} (hp : q.pc c=.sndReady m msgsz nowait)
    (ho : SndOutcome q c m msgsz q') : DeliveryInv q' := by
  cases ho with
  | failed h =>
    exact hi.withdraw hp rfl nofun rfl (ne_of_lt h)
  | began h =>
    have hframe : DeliveryInv {q with lock := some c} := hi.frame rfl rfl rfl rfl
    exact hframe.goFlying hp rfl nofun rfl nofun rfl rfl
  | slept h =>
    have hframe : DeliveryInv (q.ssAdd c) := hi.frame rfl rfl rfl rfl
    exact hframe.goFlying hp rfl nofun rfl nofun rfl rfl

/-- A receiver links its entry and sleeps. -/
theorem DeliveryInv.link (hi : DeliveryInv q) (hp : q.pc c=.rcvReady args) :
    DeliveryInv ((q.link c args).go c (.rcvAsleep args)) := by
  have hheld : held q c=none := by unfold held; rw [hp]; rfl
  have hsame : ∀ r, held ((q.link c args).go c (.rcvAsleep args)) r=held q r := by
    intro r
    by_cases hr : r=c
    · rw [hr,hheld]
      unfold held
      rw [go_self,show ((q.link c args).go c (.rcvAsleep args)).msr c=
        ⟨args.mode,args.type,args.maxsize,.err (-eagain)⟩ from update_self _ _ _]
      rfl
    · unfold held
      rw [go_of_ne _ _ hr,show ((q.link c args).go c (.rcvAsleep args)).msr r=q.msr r from
        update_of_ne hr _ _]
      rfl
  refine hi.change rfl ?_ nofun (fun r args' m' _ hm' hn => ?_) (fun args' m' _ h => ?_)
  · obtain ⟨place,hl⟩ := hi.places
    refine ⟨place,hl.congr (List.Perm.refl _) hsame (stage_go (q:=q) rfl (fun m' => ?_))⟩
    rw [hp,stageOf_unsent rfl,stageOf_unsent rfl]
  · rw [hsame] at hm'
    exact absurd hm' hn
  · rw [hheld] at h
    cases h

/-- The loop of do_msgrcv keeps it. -/
theorem DeliveryInv.rcvOutcome (hi : DeliveryInv q) {deny : MsgMsg → ℤ → Bool} (hp : q.pc c=.rcvReady args)
    (ho : RcvOutcome n q c args deny n' q') : DeliveryInv q' := by
  cases ho with
  | failed => exact hi.goPlain hp rfl rfl rfl rfl
  | took hm ht hs => exact hi.took hp hm ⟨ht,hs⟩
  | linked hnone => exact hi.link hp

/-- A receiver accepts the message in its entry. -/
theorem DeliveryInv.accept (hi : DeliveryInv q) (hw : waiting (q.pc c)=some args) (hm : (q.msr c).rMsg=.msg m) :
    DeliveryInv (q.go c (.rcvGot args m)) := by
  obtain ⟨hcarried,hargs,hgets,_⟩ := waiting_facts hw
  have hheld : held q c=some m := by
    unfold held
    rw [hm]
    exact hgets m
  refine hi.go hheld.symm (fun m' => ?_) nofun (fun args' m' h _ => ?_)
  · rw [stageOf_unsent hcarried,stageOf_unsent rfl]
  · cases h
    exact hargs

/-- A receiver that waits returns without a message. -/
theorem DeliveryInv.quit (hi : DeliveryInv q) (hw : waiting (q.pc c)=some args) (hm : ∀ m, (q.msr c).rMsg≠.msg m)
    (hheld : heldOf pc (q.msr c).rMsg=none) (hcarried : carried pc=none) : DeliveryInv (q.go c pc) := by
  obtain ⟨hc,_,_,hnone⟩ := waiting_facts hw
  exact hi.goEmpty (hnone _ hm) hheld hc hcarried

/-- A receiver unlinks an entry that nobody has written to. -/
theorem DeliveryInv.unlinked (hi : DeliveryInv q) (hp : q.pc c=.rcvRelock args) (hm : (q.msr c).rMsg=.err (-eagain))
    (hheld : heldOf pc (q.msr c).rMsg=none) (hcarried : carried pc=none) : DeliveryInv ((q.unlink c).go c pc) := by
  have hframe : DeliveryInv (q.unlink c) := hi.frame rfl rfl rfl rfl
  have hw : waiting ((q.unlink c).pc c)=some args := (congrArg waiting hp :)
  refine hframe.quit hw (fun m he => ?_) hheld hcarried
  cases hm.symm.trans he

theorem DeliveryInv.step (hi : DeliveryInv q) (hq : ProtoInv q) (h : msgStep n q e=some (n',q')) : DeliveryInv q' := by
  cases msgStep_cases h with
  | sysctl => exact hi
  | sndRefused hp | rcvRefused hp | rcvCalled hp | rcvLost hp | ctlRefused hp => exact hi.goPlain hp rfl rfl rfl rfl
  | sndLoaded hp hmax hlong hlen => exact hi.load hp rfl
  | sndLost hp hneg =>
    exact hi.withdraw hp rfl nofun rfl
      (ne_of_lt hneg)
  | sndLocked hp hlock hlive ho => exact hi.sndOutcome hp ho
  | sndEnqueued hp => exact hi.enqueued hp
  | @sndMatched c msgsz r m rest deny hp ht =>
    obtain ⟨hr,hgone⟩ := hq.linked_ahead (c:=c) (r:=r) (by rw [hp]; rfl) (by rw [hp]; exact List.mem_cons_self)
    have hheld := held_linked hq hr hgone
    have hframe : DeliveryInv (q.unlink r) := hi.frame rfl rfl rfl rfl
    have hset : DeliveryInv ((q.unlink r).setMsg r .null) := hframe.setMsg hheld nofun
    exact hset.goFlying hp rfl nofun rfl nofun rfl rfl
  | sndSkipped hp ht =>
    exact hi.goFlying hp rfl nofun rfl nofun rfl rfl
  | @sndTooBig c msgsz r m rest hp hbig =>
    obtain ⟨hw,hnull⟩ := hq.target c r (by rw [hp]; rfl)
    have hset : DeliveryInv (q.setMsg r (.err (-e2big))) :=
      hi.setMsg (held_eq_none hw (fun x he => by rw [he] at hnull; cases hnull)) nofun
    exact hset.goFlying hp rfl nofun rfl nofun rfl rfl
  | sndHanded hp hfit => exact hi.handed hq hp hfit
  | sndRemoved hp hdeleted =>
    exact hi.withdraw hp rfl nofun rfl (by decide)
  | @sndSignalled c msgsz m nowait _ _ hp hlock =>
    have hframe : DeliveryInv (q.ssDel c) := hi.frame rfl rfl rfl rfl
    exact hframe.withdraw hp rfl nofun rfl
      (by decide)
  | @sndRetried c msgsz m nowait _ _ _ hp hlock hlive ho =>
    have hframe : DeliveryInv (q.ssDel c) := hi.frame rfl rfl rfl rfl
    have hready : DeliveryInv ((q.ssDel c).go c (.sndReady m msgsz nowait)) :=
      hframe.goFlying hp rfl nofun rfl nofun rfl rfl
    exact hready.sndOutcome (go_self _ c _) ho
  | rcvLocked hp hlock hlive ho => exact hi.rcvOutcome hp ho
  | rcvSpun => exact hi
  | @rcvSawAgain c args hp =>
    have hheld : heldOf (.rcvRelock args) (q.msr c).rMsg=held q c := by
      unfold held
      rw [hp]
      cases (q.msr c).rMsg <;> rfl
    refine hi.go hheld (fun m => ?_) nofun (fun args' m h _ => ?_)
    · rw [hp,stageOf_unsent rfl,stageOf_unsent rfl]
    · rw [hp]
      exact h
  | @rcvSawErr c args code hp hm | @rcvNull c args _ _ _ hp hlock hm | @rcvErr c args _ _ _ code hp hm =>
    exact hi.quit (show waiting (q.pc c)=some args by rw [hp]; rfl) (by rw [hm]; exact nofun) rfl rfl
  | rcvSawMsg hp hm | rcvMsg hp hm => exact hi.accept (by rw [hp]; rfl) hm
  | rcvSignalled hp hlock hm => exact hi.unlinked hp hm rfl rfl
  | @rcvRetried c args _ _ _ _ _ hp hlock hm ho =>
    have hready : DeliveryInv ((q.unlink c).go c (.rcvReady args)) := hi.unlinked hp hm rfl rfl
    exact hready.rcvOutcome (go_self _ c _) ho
  | @rcvStored c args m fault code hp =>
    have hheld : held q c=some m := by unfold held; rw [hp]; rfl
    refine hi.go hheld.symm (fun m' => ?_) nofun (fun args' m' h _ => ?_)
    · rw [hp,stageOf_unsent rfl,stageOf_unsent rfl]
    · rw [hp]
      exact h
  | @setBegan c qbytes _ _ hp hlock hlive hword =>
    have hframe : DeliveryInv {q with qQbytes := qbytes, lock := some c} := hi.frame rfl rfl rfl rfl
    exact hframe.goPlain hp rfl rfl rfl rfl
  | @rmidBegan c _ hp hlock hlive =>
    have hframe : DeliveryInv {q with lock := some c} := hi.frame rfl rfl rfl rfl
    exact hframe.goPlain hp rfl rfl rfl rfl
  | @expunged c r cmd rest hp =>
    obtain ⟨hr,hgone⟩ := hq.linked_ahead (c:=c) (r:=r) (by rw [hp]; rfl) (by rw [hp]; exact List.mem_cons_self)
    have hset : DeliveryInv (q.setMsg r .null) := hi.setMsg (held_linked hq hr hgone) nofun
    exact hset.goPlain hp rfl rfl rfl rfl
  | @expungeWrote c r cmd rest hp =>
    obtain ⟨hw,hnull⟩ := hq.target c r (by rw [hp]; rfl)
    have hset : DeliveryInv (q.setMsg r (.err cmd.res)) :=
      hi.setMsg (held_eq_none hw (fun x he => by rw [he] at hnull; cases hnull)) nofun
    exact hset.goPlain hp rfl rfl rfl rfl
  | @setEnded c hp =>
    have hframe : DeliveryInv {q.ssWakeup with lock := none} := hi.frame rfl rfl rfl rfl
    exact hframe.goPlain hp rfl rfl rfl rfl
  | @rmidEnded c hp =>
    have hframe : DeliveryInv {q.rmid with lock := none} := hi.frame rfl rfl rfl rfl
    exact hframe.goPlain hp rfl rfl rfl rfl
  | freedMsg hp hm => exact hi.discard hm
  | @freedAll c hp hm =>
    have hframe : DeliveryInv {q with freed := true} := hi.frame rfl rfl rfl rfl
    exact hframe.goPlain hp rfl rfl rfl rfl

theorem deliveryInv_of_reachable {s : MsgSys} (hr : MsgReachable s) : DeliveryInv s.msq :=
  Reachable.invariant (I := fun s : MsgSys => DeliveryInv s.msq) (fun _ h => deliveryInv_start h)
    (fun _ _ _ hr hi h => hi.step (protoInv_of_reachable hr) (msgStep_of_next h)) hr

/-- The entry of a receiver that has returned is not written any more, and if the
entry is still linked then its neighbours stay as they are. -/
theorem quiet_of_done (hq : ProtoInv q) {got : Option MsgMsg} (hr : q.pc r=.rcvDone args code got)
    (h : msgStep n q e=some (n',q')) : q'.msr r=q.msr r ∧ (r∈q.qReceivers → q'.qReceivers=q.qReceivers) := by
  have hw : ¬Waits q r := by
    unfold Waits
    rw [hr]
    exact nofun
  have hlinked : q.lock=none → q.deleted=false → r∉q.qReceivers :=
    fun hlock hlive => hq.not_linked hlock hlive (by rw [hr]; rfl)
  have hset : ∀ {x y}, Waits q x → (q.setMsg x y).msr r=q.msr r := by
    intro x y hx
    exact setMsg_of_ne q y (fun he => hw (he ▸ hx))
  have hlink : ∀ {c a}, c≠r → ((q.link c a).msr r)=q.msr r :=
    fun hc => update_of_ne (Ne.symm hc) _ _
  cases msgStep_cases h with
  | sndLocked hp hlock hlive ho | sndRetried hp hlock hlive ho => cases ho <;> exact ⟨rfl,fun _ => rfl⟩
  | @sndMatched c msgsz x m rest deny hp ht =>
    have hhold : holding (q.pc c)=true := by rw [hp]; rfl
    obtain ⟨hmem,hgone⟩ := hq.linked_ahead (r:=x) hhold (by rw [hp]; exact List.mem_cons_self)
    refine ⟨hset ((hq.linked x hmem).resolve_right hgone).1,fun hr => ?_⟩
    exact absurd ((hq.linked r hr).resolve_right (hq.none_gone hhold (by rw [hp]; rfl) r)).1 hw
  | @sndTooBig c msgsz x m rest hp | @sndHanded c msgsz x m rest hp | @expungeWrote c x cmd rest hp =>
    exact ⟨hset (hq.target c x (by rw [hp]; rfl)).1,fun _ => rfl⟩
  | @rcvLocked c a _ _ _ _ _ hp hlock hlive ho =>
    have hc : c≠r := by
      intro he
      rw [he,hr] at hp
      cases hp
    cases ho with
    | failed | took hm ht hs => exact ⟨rfl,fun _ => rfl⟩
    | linked hnone => exact ⟨hlink hc,fun hmem => absurd hmem (hlinked hlock hlive)⟩
  | @rcvSignalled c a _ _ _ hp hlock hm =>
    have hlive := hq.live_of_again (show Waits q c by unfold Waits; rw [hp]; rfl) hm
    exact ⟨rfl,fun hmem => absurd hmem (hlinked hlock hlive)⟩
  | @rcvRetried c a _ _ _ _ _ hp hlock hm ho =>
    have hlive := hq.live_of_again (show Waits q c by unfold Waits; rw [hp]; rfl) hm
    have hc : c≠r := by
      intro he
      rw [he,hr] at hp
      cases hp
    cases ho with
    | failed | took hm ht hs => exact ⟨rfl,fun hmem => absurd hmem (hlinked hlock hlive)⟩
    | linked hnone => exact ⟨hlink hc,fun hmem => absurd hmem (hlinked hlock hlive)⟩
  | @expunged c x cmd rest hp =>
    obtain ⟨hmem,hgone⟩ := hq.linked_ahead (c:=c) (r:=x) (by rw [hp]; rfl) (by rw [hp]; exact List.mem_cons_self)
    exact ⟨hset ((hq.linked x hmem).resolve_right hgone).1,fun _ => rfl⟩
  | _ => exact ⟨rfl,fun _ => rfl⟩

/-- A message that has arrived was sent by a call that returned zero. -/
theorem sndDone_of_arrived (h : stage q m=.arrived) : q.pc m.sender=.sndDone (some m) 0 := by
  unfold stage stageOf at h
  split at h
  · next hc =>
    split at h
    · next x code hp =>
      rw [hp] at hc ⊢
      split at h
      · next hcode =>
        rw [hcode]
        exact congrArg (fun x => MsgPc.sndDone x 0) hc
      · cases h
    · cases h
  · cases h

/-- In every state of every run: a message whose msgsnd returned zero is at exactly
one spot, once; what is on the queue, with a receiver or discarded was sent by a
call that returned zero, so a message whose msgsnd failed is nowhere; a receiver
that has a message asked for its type and for a size that admits it; no task is
about to write to the entry of a receiver that has returned, and no step writes to
it or to its neighbours in the list; and no receiver uses a NULL pointer. -/
theorem msg_delivered_once {s : MsgSys} (hr : MsgReachable s) :
    (∀ c m, s.msq.pc c=.sndDone (some m) 0 → s.msq.qMessages.Nodup ∧ s.msq.discarded.Nodup ∧
      ∃! p : Spot ℕ, p.Holds s.msq.qMessages s.msq.discarded (held s.msq) m) ∧
    (∀ (p : Spot ℕ) m, p.Holds s.msq.qMessages s.msq.discarded (held s.msq) m →
      s.msq.pc m.sender=.sndDone (some m) 0) ∧
    (∀ c m code, s.msq.pc c=.sndDone (some m) code → code≠0 →
      ∀ p : Spot ℕ, ¬p.Holds s.msq.qMessages s.msq.discarded (held s.msq) m) ∧
    (∀ r args m, argsOf (s.msq.pc r)=some args → held s.msq r=some m → Asked args m) ∧
    (∀ r args code got, s.msq.pc r=.rcvDone args code got →
      (∀ c, writing (s.msq.pc c)≠some r) ∧
      ∀ e s', MsgNext s e s' → s'.msq.msr r=s.msq.msr r ∧
        (r∈s.msq.qReceivers → s'.msq.qReceivers=s.msq.qReceivers)) ∧
    (∀ r args, s.msq.pc r≠.rcvFault args) := by
  have hq := protoInv_of_reachable hr
  have hi := deliveryInv_of_reachable hr
  obtain ⟨place,hl⟩ := hi.places
  have hsent : ∀ (p : Spot ℕ) m, p.Holds s.msq.qMessages s.msq.discarded (held s.msq) m →
      s.msq.pc m.sender=.sndDone (some m) 0 := fun p m hp => sndDone_of_arrived (hl.arrived hp)
  refine ⟨fun c m h => ⟨hl.nodup,hl.once,hl.exactly_one ?_⟩,hsent,fun c m code h hcode p hp => ?_,hi.asked,
    fun r args code got h => ⟨fun c hc => ?_,fun e s' hs => ?_⟩,hq.sound⟩
  · have hm := hi.senders c m (by rw [h]; rfl)
    unfold stage
    rw [hm,h]
    simp [stageOf,carried]
  · have hm := hi.senders c m (by rw [h]; rfl)
    have hzero := hsent p m hp
    rw [hm,h] at hzero
    exact hcode (MsgPc.sndDone.inj hzero).2
  · have hw := (hq.target c r hc).1
    unfold Waits at hw
    rw [h] at hw
    cases hw
  · exact quiet_of_done hq h (msgStep_of_next hs)

/-- A namespace with the default limits. -/
def newMsgNs : MsgNs := ⟨8192,16384,0,0⟩

/-- A new queue in a namespace with the default limits. -/
def newMsgSys : MsgSys := ⟨newMsgNs,newque newMsgNs⟩

theorem newMsgSys_start : MsgStart newMsgSys := newque_start newMsgNs

/-- A receiver of messages of type 3 sleeps and gets such a message from a sender,
which it reads without the lock, while another message stays on the queue. -/
theorem msg_delivered_once_handed : ∃ s : MsgSys, MsgReachable s ∧ held s.msq 1=some ⟨3,3,10⟩ ∧
    s.msq.qMessages=[⟨2,4,20⟩] ∧ Asked ⟨100,3,false,false,false⟩ ⟨3,3,10⟩ ∧
    ∃! p : Spot ℕ, p.Holds s.msq.qMessages s.msq.discarded (held s.msq) ⟨3,3,10⟩ := by
  obtain ⟨s,hr,hreceiver,hsender,hmessages⟩ : ∃ s, MsgReachable s ∧
      s.msq.pc 1=.rcvDone ⟨100,3,false,false,false⟩ 10 (some ⟨3,3,10⟩) ∧ s.msq.pc 3=.sndDone (some ⟨3,3,10⟩) 0 ∧
      s.msq.qMessages=[⟨2,4,20⟩] :=
    exists_run (fun _ _ _ => id) newMsgSys_start [.msgrcv 1 ⟨100,3,false,false,false⟩,
      .rcvLock 1 none false (fun _ _ => false),.msgsnd 2 4 20 false none,.sndLock 2 none none,
      .sndScan 2 false,.sndScan 2 false,.msgsnd 3 3 10 false none,.sndLock 3 none none,.sndScan 3 false,
      .rcvRead 1,.sndWrite 3,.rcvRead 1,.rcvStore 1 false] (by decide)
  have hheld : held s.msq 1=some ⟨3,3,10⟩ := by
    unfold held
    rw [hreceiver]
    rfl
  obtain ⟨honce,_,_,hasked,_⟩ := msg_delivered_once hr
  exact ⟨s,hr,hheld,hmessages,hasked 1 _ _ (by rw [hreceiver]; rfl) hheld,(honce 3 _ hsender).2.2⟩

end BlockIpc.MsgDelivery
