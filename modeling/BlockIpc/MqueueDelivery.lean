import BlockIpc.MailPlaces
import BlockIpc.MqueueStates

/-!
# Delivery of POSIX messages

Every message that was sent is in one place: in the table of the queue, or with one
receiver. The message of a sender that waits belongs to the sender while the state of
its entry is STATE_NONE; from STATE_PENDING on it is in the table or was received,
and the sender is going to return zero. A message whose sender has failed is nowhere.
-/

namespace BlockIpc.MqueueDelivery

open Function TransitionRuns MailPlaces MqueueInodes MqueueProtocol MqueueWaits MqueueStates

variable {pf : Platform}

/-- The message that a receiver holds at some progress with some entry. -/
def heldOf (pc : MqPc) (x : ExtWaitQueue) : Option MqMsg :=
  match pc with
  | .rcvGot m => some m
  | .rcvDone _ got => got
  | .waking (.rcv m) _ => some m
  | .asleep .rcv => if x.state=.none then none else x.msg
  | .relock .rcv => if x.state=.none then none else x.msg
  | _ => none

/-- The message that a receiver holds. -/
def held (q : MqQueue pf) (r : ℕ) : Option MqMsg := heldOf (q.pc r) (q.wait r)

/-- How far a message has come at some progress of its sender with some entry. -/
def stageOf (pc : MqPc) (x : ExtWaitQueue) (m : MqMsg) : Stage :=
  if carried pc=some m then
    match pc with
    | .sndDone _ code => if code=0 then .arrived else .withdrawn
    | .waking _ _ => .arrived
    | .asleep _ => if x.state=.none then .flying else .arrived
    | .relock _ => if x.state=.none then .flying else .arrived
    | _ => .flying
  else .unsent

/-- How far every message has come. -/
def stage (q : MqQueue pf) (m : MqMsg) : Stage := stageOf (q.pc m.sender) (q.wait m.sender) m

structure DeliveryInv (q : MqQueue pf) : Prop where
  places : ∃ place, Located place (stored q) [] (held q) (stage q)
  /-- A message is named after its sender. -/
  senders : ∀ c m, carried (q.pc c)=some m → m.sender=c

variable {pc pc₀ : MqPc} {x y : ExtWaitQueue} {m : MqMsg} {q q' : MqQueue pf} {r c : ℕ} {nonblock : Bool} {w : Waiter}

theorem stageOf_unsent (h : carried pc≠some m) : stageOf pc x m=.unsent := if_neg h

theorem held_eq (hpc : q'.pc r=q.pc r) (hwait : q'.wait r=q.wait r) : held q' r=held q r := by
  unfold held
  rw [hpc,hwait]

theorem held_of_pc (hp : q.pc c=pc) : held q c=heldOf pc (q.wait c) := by
  unfold held
  rw [hp]

theorem stage_eq (hpc : q'.pc m.sender=q.pc m.sender) (hwait : q'.wait m.sender=q.wait m.sender) :
    stage q' m=stage q m := by
  unfold stage
  rw [hpc,hwait]

/-- The names of messages after a call advances. -/
theorem DeliveryInv.senders_update (hi : DeliveryInv q) (hpc : ∀ m, carried pc=some m → m.sender=c) (d : ℕ) (m : MqMsg)
    (h : carried (update q.pc c pc d)=some m) : m.sender=d := by
  by_cases hd : d=c
  · rw [hd,update_self] at h
    rw [hd]
    exact hpc m h
  · rw [update_of_ne hd] at h
    exact hi.senders d m h

/-- A call advances that neither gets a message nor gets its own message further. -/
theorem DeliveryInv.keep (hi : DeliveryInv q) (hpc : q'.pc=update q.pc c pc)
    (hwait : ∀ d, d≠c → q'.wait d=q.wait d) (hstored : stored q'=stored q) (hheld : heldOf pc (q'.wait c)=held q c)
    (hcarried : carried pc=carried (q.pc c))
    (hstage : ∀ m, carried pc=some m → stageOf pc (q'.wait c) m=stageOf (q.pc c) (q.wait c) m) :
    DeliveryInv q' := by
  obtain ⟨place,hl⟩ := hi.places
  have hself : q'.pc c=pc := by rw [hpc,update_self]
  have hother : ∀ d, d≠c → q'.pc d=q.pc d := fun d hd => by rw [hpc,update_of_ne hd]
  refine ⟨⟨place,?_⟩,?_⟩
  · rw [hstored]
    refine hl.congr (List.Perm.refl _) (fun r => ?_) (fun m => ?_)
    · by_cases hr : r=c
      · rw [hr,← hheld,held_of_pc hself]
      · exact held_eq (hother r hr) (hwait r hr)
    · by_cases hm : m.sender=c
      · unfold stage
        rw [hm,hself]
        by_cases hc : carried pc=some m
        · exact hstage m hc
        · rw [stageOf_unsent hc,stageOf_unsent (hcarried ▸ hc)]
      · exact stage_eq (hother _ hm) (hwait _ hm)
  · rw [hpc]
    exact hi.senders_update (fun m hm => hi.senders c m (hcarried ▸ hm))

/-- A call that carries nothing advances and holds what it held. -/
theorem DeliveryInv.keepReceiver (hi : DeliveryInv q) (hp : q.pc c=pc₀)
    (hheld : heldOf pc (q.wait c)=heldOf pc₀ (q.wait c)) (h0 : carried pc₀=none) (h1 : carried pc=none) :
    DeliveryInv (q.go c pc) := by
  subst hp
  refine hi.keep rfl (fun _ _ => rfl) rfl hheld (h1.trans h0.symm) (fun m hm => ?_)
  rw [h1] at hm
  cases hm

/-- How far the messages of a call have come that carries one message before and after. -/
theorem stage_others (hpc : ∀ d, d≠c → q'.pc d=q.pc d) (hwait : ∀ d, d≠c → q'.wait d=q.wait d)
    (h0 : ∀ d, carried (q.pc c)=some d → d=m) (h1 : ∀ d, carried (q'.pc c)=some d → d=m) (d : MqMsg) (hd : d≠m) :
    stage q' d=stage q d := by
  by_cases hs : d.sender=c
  · unfold stage
    rw [hs,stageOf_unsent (fun h => hd (h1 d h)),stageOf_unsent (fun h => hd (h0 d h))]
  · exact stage_eq (hpc _ hs) (hwait _ hs)

/-- A sender gets its message, or takes it back. -/
theorem DeliveryInv.restage (hi : DeliveryInv q) {p : Place ℕ} (hpc : q'.pc=update q.pc c pc)
    (hwait : q'.wait=q.wait) (hstored : stored q'=stored q) (hheld : heldOf pc (q.wait c)=held q c) (hm : m.sender=c)
    (h0 : ∀ d, carried (q.pc c)=some d → d=m) (h1 : carried pc=some m) (hold : stage q m≠.arrived)
    (hnew : p.stage≠.arrived) (hp : stageOf pc (q.wait c) m=p.stage) : DeliveryInv q' := by
  obtain ⟨place,hl⟩ := hi.places
  have hself : q'.pc c=pc := by rw [hpc,update_self]
  have hother : ∀ d, d≠c → q'.pc d=q.pc d := fun d hd => by rw [hpc,update_of_ne hd]
  have hwait' : ∀ d, q'.wait d=q.wait d := fun d => by rw [hwait]
  have hl' : Located place (stored q') [] (held q') (stage q) := by
    rw [hstored]
    refine hl.congr (List.Perm.refl _) (fun r => ?_) (fun _ => rfl)
    by_cases hr : r=c
    · rw [hr,← hheld,held_of_pc hself,hwait]
    · exact held_eq (hother r hr) (hwait' r)
  refine ⟨⟨_,hl'.restage (c:=m) (p:=p) ?_ hnew ?_ (fun d hd => ?_)⟩,?_⟩
  · rw [hl.stages]
    exact hold
  · unfold stage
    rw [hm,hself,hwait]
    exact hp
  · refine stage_others hother (fun d _ => hwait' d) h0 (fun d hd' => ?_) d hd
    rw [hself,h1] at hd'
    exact (Option.some.inj hd').symm
  · rw [hpc]
    refine hi.senders_update (fun d hd => ?_)
    rw [h1] at hd
    cases hd
    exact hm

/-- The message of a sender is on its way before the sender has the lock. -/
theorem stage_ready (hi : DeliveryInv q) (hp : q.pc c=.sndReady m nonblock) : m.sender=c ∧ stage q m=.flying := by
  have hm := hi.senders c m (by rw [hp]; rfl)
  refine ⟨hm,?_⟩
  unfold stage
  rw [hm,hp]
  exact if_pos rfl

/-- How far the message of a sender that waits has come. -/
theorem stageOf_sleeping (hs : sleeping pc=some (.snd m)) (x : ExtWaitQueue) :
    stageOf pc x m=if x.state=.none then .flying else .arrived := by
  rcases pc_of_sleeping hs with rfl|rfl
  · exact if_pos rfl
  · exact if_pos rfl

/-- The message of a sender that waits in STATE_NONE is on its way. -/
theorem stage_waiting (hi : DeliveryInv q) (hs : sleeping (q.pc c)=some (.snd m)) (hst : (q.wait c).state=.none) :
    m.sender=c ∧ stage q m=.flying := by
  have hm := hi.senders c m (carried_of_sleeping hs)
  refine ⟨hm,?_⟩
  unfold stage
  rw [hm,stageOf_sleeping hs,if_pos hst]

theorem carried_receiver (hs : sleeping pc=some .rcv) : carried pc=none := by
  rcases pc_of_sleeping hs with rfl|rfl
  · rfl
  · rfl

theorem heldOf_receiver (hs : sleeping pc=some .rcv) (x : ExtWaitQueue) :
    heldOf pc x=if x.state=.none then none else x.msg := by
  rcases pc_of_sleeping hs with rfl|rfl
  · rfl
  · rfl

theorem heldOf_sender (hs : sleeping pc=some (.snd m)) (x : ExtWaitQueue) : heldOf pc x=none := by
  rcases pc_of_sleeping hs with rfl|rfl
  · rfl
  · rfl

/-- The message is put into the table. -/
theorem DeliveryInv.inserted (hi : DeliveryInv q) (hp : q.pc c=.sndReady m nonblock)
    (hperm : (stored (q.msgInsert m)).Perm (m::stored q)) :
    DeliveryInv ((q.msgInsert m).go c (.sndDone (some m) 0)) := by
  obtain ⟨place,hl⟩ := hi.places
  obtain ⟨hm,hflying⟩ := stage_ready hi hp
  have hl' : Located place (stored q) [] (held ((q.msgInsert m).go c (.sndDone (some m) 0))) (stage q) := by
    refine hl.congr (List.Perm.refl _) (fun r => ?_) (fun _ => rfl)
    by_cases hr : r=c
    · unfold held
      rw [hr,go_self,hp]
      rfl
    · exact held_eq (go_of_ne _ _ hr) rfl
  refine ⟨⟨_,hl'.enqueue (c:=m) (hl.with_sender hflying) hperm ?_ (fun d hd => ?_)⟩,
    hi.senders_update (fun d hd => ?_)⟩
  · unfold stage
    rw [hm,go_self]
    exact if_pos rfl
  · refine stage_others (q:=q) (c:=c) (fun x hx => go_of_ne _ _ hx) (fun _ _ => rfl) (fun x hx => ?_)
      (fun x hx => ?_) d hd
    · rw [hp] at hx
      exact (Option.some.inj hx).symm
    · rw [go_self] at hx
      exact (Option.some.inj hx).symm
  · cases hd
    exact hm

/-- The message is handed to a waiting receiver. -/
theorem DeliveryInv.handed (hi : DeliveryInv q) (hw : WaitInv q) (hp : q.pc c=.sndReady m nonblock)
    (hr : r∈q.eWaitQ .recv) :
    DeliveryInv ({q.pipelinedSend m r with lock := some c}.go c (.waking (.snd m) r)) := by
  obtain ⟨place,hl⟩ := hi.places
  obtain ⟨hm,hflying⟩ := stage_ready hi hp
  obtain ⟨hs,hst⟩ := hw.receiver hr
  have hrc : r≠c := by
    intro he
    rw [he,hp] at hs
    cases hs
  have hempty : held q r=none := by
    unfold held
    rw [heldOf_receiver hs,if_pos hst]
  have hwait : ∀ d, d≠r → ({q.pipelinedSend m r with lock := some c}.go c (.waking (.snd m) r)).wait d=q.wait d :=
    fun d hd => update_of_ne hd _ _
  have hwaitr : ({q.pipelinedSend m r with lock := some c}.go c (.waking (.snd m) r)).wait r=
      ⟨some m,.pending⟩ := update_self _ _ _
  refine ⟨⟨_,hl.pass (c:=m) (r:=r) (hl.with_sender hflying) hempty (fun d => ?_) ?_ (fun d hd => ?_)⟩,
    hi.senders_update (fun d hd => ?_)⟩
  · by_cases hdr : d=r
    · rw [hdr,update_self]
      unfold held
      rw [hwaitr,go_of_ne _ _ hrc]
      exact (heldOf_receiver hs _).trans (if_neg nofun)
    · rw [update_of_ne hdr]
      by_cases hdc : d=c
      · unfold held
        rw [hdc,go_self,hp]
        rfl
      · exact held_eq (go_of_ne _ _ hdc) (hwait d hdr)
  · unfold stage
    rw [hm,go_self]
    exact if_pos rfl
  · by_cases hdr : d.sender=r
    · unfold stage
      rw [hdr,go_of_ne _ _ hrc]
      have hnone : carried (q.pc r)≠some d := by
        rw [carried_receiver hs]
        exact nofun
      rw [stageOf_unsent hnone]
      exact stageOf_unsent hnone
    · by_cases hdc : d.sender=c
      · have hnot : some m≠some d := fun h => hd (Option.some.inj h).symm
        have hready : stageOf (.sndReady m nonblock) (q.wait c) d=.unsent := stageOf_unsent hnot
        have hwaking : ∀ x, stageOf (.waking (.snd m) r) x d=.unsent := fun x => stageOf_unsent hnot
        unfold stage
        rw [hdc,go_self,hp,hready]
        exact hwaking _
      · exact stage_eq (go_of_ne _ _ hdc) (hwait _ hdr)
  · cases hd
    exact hm

/-- What a receiver holds that takes a message from the table. -/
theorem held_take (hself : held q' c=some m) (hothers : ∀ d, d≠c → held q' d=held q d) (r : ℕ) :
    held q' r=update (held q) c (some m) r := by
  by_cases hr : r=c
  · rw [hr,update_self,hself]
  · rw [update_of_ne hr,hothers r hr]

/-- A message is taken and no sender waits. -/
theorem DeliveryInv.took (hi : DeliveryInv q) (hp : q.pc c=.rcvReady nonblock)
    (htake : stored q=stored (q.taken m)++[m]) : DeliveryInv ((q.taken m).go c (.rcvGot m)) := by
  obtain ⟨place,hl⟩ := hi.places
  have hempty : held q c=none := held_of_pc hp
  have hperm : (stored q).Perm (m::stored (q.taken m)) := by
    rw [htake]
    exact List.perm_append_singleton m _
  refine ⟨⟨_,hl.take (c:=m) (r:=c) hperm hempty (held_take ?_ (fun d hd => ?_)) (fun d => ?_)⟩,
    hi.senders_update nofun⟩
  · unfold held
    rw [go_self]
    rfl
  · exact held_eq (go_of_ne _ _ hd) rfl
  · by_cases hdc : d.sender=c
    · unfold stage
      rw [hdc,go_self,hp]
      rfl
    · exact stage_eq (go_of_ne _ _ hdc) rfl

/-- A message is taken and that of a waiting sender is put into the table. -/
theorem DeliveryInv.served (hi : DeliveryInv q) {s : ℕ} {x : MqMsg} (hp : q.pc c=.rcvReady nonblock)
    (hs : sleeping (q.pc s)=some (.snd x)) (hst : (q.wait s).state=.none) (htake : stored q=stored (q.taken m)++[m])
    (hperm : (stored q').Perm (x::stored (q.taken m))) (hpc : q'.pc=update q.pc c (.waking (.rcv m) s))
    (hwait : q'.wait=update q.wait s ⟨some x,.pending⟩) : DeliveryInv q' := by
  obtain ⟨place,hl⟩ := hi.places
  obtain ⟨hx,hflying⟩ := stage_waiting hi hs hst
  have hsc : s≠c := by
    intro he
    rw [he,hp] at hs
    cases hs
  have hself : q'.pc c=.waking (.rcv m) s := by rw [hpc,update_self]
  have hother : ∀ d, d≠c → q'.pc d=q.pc d := fun d hd => by rw [hpc,update_of_ne hd]
  have hwait' : ∀ d, d≠s → q'.wait d=q.wait d := fun d hd => by rw [hwait,update_of_ne hd]
  have hwaits : q'.wait s=⟨some x,.pending⟩ := by rw [hwait,update_self]
  have hempty : held q c=none := held_of_pc hp
  have hout : (stored q).Perm (m::stored (q.taken m)) := by
    rw [htake]
    exact List.perm_append_singleton m _
  have hheld : ∀ r, held q' r=update (held q) c (some m) r := by
    refine held_take ?_ (fun d hd => ?_)
    · unfold held
      rw [hself]
      rfl
    · by_cases hds : d=s
      · unfold held
        rw [hds,hother s hsc,heldOf_sender hs,heldOf_sender hs]
      · exact held_eq (hother d hd) (hwait' d hds)
  have htaken := hl.take (c:=m) (r:=c) hout hempty hheld (fun _ => rfl)
  refine ⟨⟨_,htaken.enqueue (c:=x) (htaken.with_sender hflying) hperm ?_ (fun d hd => ?_)⟩,?_⟩
  · unfold stage
    rw [hx,hwaits,hother s hsc,stageOf_sleeping hs]
    rfl
  · by_cases hdc : d.sender=c
    · unfold stage
      rw [hdc,hself,hp]
      rfl
    · by_cases hds : d.sender=s
      · have hnot : carried (q.pc s)≠some d := by
          rw [carried_of_sleeping hs]
          exact fun h => hd (Option.some.inj h).symm
        unfold stage
        rw [hds,hother s hsc,stageOf_unsent hnot,stageOf_unsent hnot]
      · exact stage_eq (hother _ hdc) (hwait' _ hds)
  · rw [hpc]
    exact hi.senders_update nofun

/-- From STATE_PENDING on the state does not matter for what a receiver holds. -/
theorem heldOf_state (hx : x.state≠.none) (hy : y.state≠.none) (hmsg : x.msg=y.msg) : heldOf pc x=heldOf pc y := by
  cases pc with
  | asleep w | relock w =>
    cases w with
    | snd m => rfl
    | rcv => rw [heldOf_receiver rfl,heldOf_receiver rfl,if_neg hx,if_neg hy,hmsg]
  | waking k z => cases k <;> rfl
  | _ => rfl

/-- From STATE_PENDING on the state does not matter for how far a message has come. -/
theorem stageOf_state (hx : x.state≠.none) (hy : y.state≠.none) (m : MqMsg) : stageOf pc x m=stageOf pc y m := by
  unfold stageOf
  cases pc with
  | asleep w | relock w =>
    dsimp only
    rw [if_neg hx,if_neg hy]
  | _ => rfl

/-- STATE_READY is written. -/
theorem DeliveryInv.readied (hi : DeliveryInv q) (hw : WaitInv q) {x : ℕ} {k : Waker} (hp : q.pc c=.waking k x) :
    DeliveryInv ({q.setWait x {q.wait x with state := .ready} with lock := none}.go c k.finish) := by
  obtain ⟨place,hl⟩ := hi.places
  obtain ⟨hs,hst⟩ := hw.pending_of_target (d:=c) (x:=x) (by rw [hp]; rfl)
  have hpending : (q.wait x).state≠.none := by
    rw [hst]
    exact nofun
  have hready : ({q.wait x with state := .ready} : ExtWaitQueue).state≠.none := nofun
  have hxc : x≠c := by
    intro he
    rw [he,hp] at hs
    cases hs
  have hwait : ∀ d, d≠x → ({q.setWait x {q.wait x with state := .ready} with lock := none}.go c
      k.finish).wait d=q.wait d := fun d hd => update_of_ne hd _ _
  have hwaitx : ({q.setWait x {q.wait x with state := .ready} with lock := none}.go c k.finish).wait x=
      {q.wait x with state := .ready} := update_self _ _ _
  refine ⟨⟨place,hl.congr (List.Perm.refl _) (fun d => ?_) (fun d => ?_)⟩,hi.senders_update (fun d hd => ?_)⟩
  · by_cases hdc : d=c
    · unfold held
      rw [hdc,go_self,hp]
      cases k <;> rfl
    · by_cases hdx : d=x
      · unfold held
        rw [hdx,hwaitx,go_of_ne _ _ hxc]
        exact heldOf_state hready hpending rfl
      · exact held_eq (go_of_ne _ _ hdc) (hwait d hdx)
  · by_cases hdc : d.sender=c
    · unfold stage
      rw [hdc,go_self,hp]
      cases k with
      | snd m | rcv m => rfl
    · by_cases hdx : d.sender=x
      · unfold stage
        rw [hdx,hwaitx,go_of_ne _ _ hxc]
        exact stageOf_state hready hpending d
      · exact stage_eq (go_of_ne _ _ hdc) (hwait _ hdx)
  · refine hi.senders c d ?_
    rw [hp]
    cases k <;> exact hd

/-- While the lock is free, an entry that is not in STATE_READY is in STATE_NONE. -/
theorem state_none (hw : WaitInv q) (hs : sleeping (q.pc c)=some w) (hlock : q.lock=none)
    (hstate : (q.wait c).state≠.ready) : (q.wait c).state=.none := by
  have hpending := hw.not_pending hlock hs
  cases hst : (q.wait c).state with
  | none => rfl
  | pending => exact absurd hst hpending
  | ready => exact absurd hst hstate

/-- Reading the state or going to sleep again changes nothing. -/
theorem DeliveryInv.reread (hi : DeliveryInv q) (hs : sleeping (q.pc c)=some w) (hpc : sleeping pc=some w) :
    DeliveryInv (q.go c pc) := by
  have hheld : heldOf pc (q.wait c)=held q c := by
    unfold held
    cases w with
    | snd m => rw [heldOf_sender hs,heldOf_sender hpc]
    | rcv => rw [heldOf_receiver hs,heldOf_receiver hpc]
  have hcarried : carried pc=carried (q.pc c) := by
    cases w with
    | snd m => rw [carried_of_sleeping hs,carried_of_sleeping hpc]
    | rcv => rw [carried_receiver hs,carried_receiver hpc]
  refine hi.keep rfl (fun _ _ => rfl) rfl hheld hcarried (fun m hm => ?_)
  cases w with
  | snd m' =>
    rw [carried_of_sleeping hpc] at hm
    cases hm
    rw [stageOf_sleeping hs,stageOf_sleeping hpc]
    rfl
  | rcv =>
    rw [carried_receiver hpc] at hm
    cases hm

/-- A call returns from wq_sleep after STATE_READY. -/
theorem DeliveryInv.returned (hi : DeliveryInv q) (hw : WaitInv q) (hs : sleeping (q.pc c)=some w)
    (hstate : (q.wait c).state=.ready) : DeliveryInv (q.go c (wqReturn w 0 (q.wait c))) := by
  have hset : (q.wait c).state≠.none := by
    rw [hstate]
    exact nofun
  cases w with
  | snd m =>
    have hc := carried_of_sleeping hs
    refine hi.keep rfl (fun _ _ => rfl) rfl (heldOf_sender hs _).symm hc.symm (fun x hx => ?_)
    cases hx
    rw [stageOf_sleeping hs,if_neg hset]
    exact if_pos rfl
  | rcv =>
    obtain ⟨m,hm⟩ := Option.isSome_iff_exists.mp ((hw.entries c).got hs hset)
    have hpc : wqReturn .rcv 0 (q.wait c)=.rcvGot m := by
      unfold wqReturn
      rw [hm]
      rfl
    rw [hpc]
    refine hi.keepReceiver rfl ?_ (carried_receiver hs) rfl
    rw [heldOf_receiver hs,if_neg hset,hm]
    rfl

/-- A waiting call is interrupted or its time is over. -/
theorem DeliveryInv.cancelled (hi : DeliveryInv q) {retval : ℤ} (hs : sleeping (q.pc c)=some w)
    (hst : (q.wait c).state=.none) (hneg : retval<0) :
    DeliveryInv ((q.listDel w.side c).go c (wqReturn w retval (q.wait c))) := by
  cases w with
  | snd m =>
    obtain ⟨hm,hflying⟩ := stage_waiting hi hs hst
    refine hi.restage (p:=.withdrawn) rfl rfl rfl (heldOf_sender hs _).symm hm (fun d hd => ?_) rfl ?_ nofun ?_
    · rw [carried_of_sleeping hs] at hd
      exact (Option.some.inj hd).symm
    · rw [hflying]
      exact nofun
    · exact (if_pos rfl).trans (if_neg (ne_of_lt hneg))
  | rcv =>
    have hpc : wqReturn .rcv retval (q.wait c)=.rcvDone retval none := if_neg (ne_of_lt hneg)
    rw [hpc]
    refine hi.keep rfl (fun _ _ => rfl) rfl ?_ (carried_receiver hs).symm nofun
    unfold held
    rw [heldOf_receiver hs,if_pos hst]
    rfl

theorem DeliveryInv.step (hi : DeliveryInv q) (hq : MqInv q) (h : CallCase q q') : DeliveryInv q' := by
  cases h with
  | sndRefused hp | rcvRefused hp | rcvCalled hp | rcvAgain hp | @rcvStored c m code hp =>
    exact hi.keepReceiver hp rfl rfl rfl
  | @sndLoaded c m nonblock hp hm h0 h1 =>
    refine hi.restage (p:=.flying) rfl rfl rfl (held_of_pc hp).symm hm (fun d hd => ?_) rfl ?_ nofun (if_pos rfl)
    · rw [hp] at hd
      cases hd
    · unfold stage
      rw [hm,hp]
      exact nofun
  | @sndAgain c m nonblock hp =>
    obtain ⟨hm,hflying⟩ := stage_ready hi hp
    refine hi.restage (p:=.withdrawn) rfl rfl rfl (held_of_pc hp).symm hm (fun d hd => ?_) rfl ?_ nofun (if_pos rfl)
    · rw [hp] at hd
      exact (Option.some.inj hd).symm
    · rw [hflying]
      exact nofun
  | @sndSlept c m nonblock hp hlock hfull =>
    have hwaitc : (((q.setWait c ⟨some m,.none⟩).wqAdd .send c).go c (.asleep (.snd m))).wait c=
        ⟨some m,.none⟩ := update_self _ _ _
    refine hi.keep rfl (fun d hd => update_of_ne hd _ _) rfl (held_of_pc hp).symm (by rw [hp]; rfl) (fun x hx => ?_)
    cases hx
    rw [hwaitc,hp]
    rfl
  | sndHanded hp hlock hr => exact hi.handed hq.waits hp (mem_of_first hr)
  | @sndInserted c m nonblock hp hlock hroom hr =>
    have hlt := lt_of_le_of_ne hq.table.content.bound hroom
    have hfits := hq.table.loads c m (by rw [hp]; rfl)
    exact hi.inserted hp (hq.table.content.insert hfits hlt).2
  | @rcvSlept c nonblock hp hlock hnone =>
    have hwaitc : (((q.setWait c ⟨none,.none⟩).wqAdd .recv c).go c (.asleep .rcv)).wait c=⟨none,.none⟩ :=
      update_self _ _ _
    refine hi.keep rfl (fun d hd => update_of_ne hd _ _) rfl ?_ (by rw [hp]; rfl) nofun
    rw [hwaitc,held_of_pc hp]
    rfl
  | rcvUnset hp hlock hmore hm =>
    exact absurd hm (hq.table.content.last_ne_none hmore)
  | rcvTook hp hlock hmore hm hs => exact hi.took hp (hq.table.content.take hmore hm).2
  | @rcvServed c s m nonblock hp hlock hmore hm hs =>
    obtain ⟨x,hx,hst,heq⟩ := hq.waits.served m hs
    rw [heq]
    exact hi.served hp hx hst (hq.table.content.take hmore hm).2 (hq.table.served hmore hm hs hx).2.2 rfl rfl
  | wqSpun => exact hi
  | wqReturned hp hstate => exact hi.returned hq.waits (sleeping_of_pc hp).1 hstate
  | wqSawNone hp => exact hi.reread (sleeping_of_pc (.inl hp)).1 rfl
  | wqCancelled hp hlock hstate hneg =>
    have hs := (sleeping_of_pc (.inr hp)).1
    exact hi.cancelled hs (state_none hq.waits hs hlock hstate) hneg
  | wqSleptAgain hp => exact hi.reread (sleeping_of_pc (.inr hp)).1 rfl
  | wqReady hp => exact hi.readied hq.waits hp

theorem deliveryInv_start (h : MqQueueStart q) : DeliveryInv q := by
  have hstored : stored q=[] := by
    unfold stored
    rw [h.empty]
    rfl
  refine ⟨⟨fun _ => .unsent,?_⟩,fun c m hc => ?_⟩
  · rw [hstored]
    refine ⟨List.nodup_nil,List.nodup_nil,fun m => ⟨nofun,nofun⟩,fun m => ⟨nofun,nofun⟩,fun r m => ?_,fun m => ?_⟩
    · unfold held
      rw [h.idle]
      exact ⟨nofun,nofun⟩
    · unfold stage
      rw [h.idle]
      rfl
  · rw [h.idle] at hc
    cases hc

theorem deliveryInv_of_reachable (hr : MqQueueReachable q) : DeliveryInv q :=
  Reachable.invariant (I := fun q : MqQueue pf => DeliveryInv q) (fun _ h => deliveryInv_start h)
    (fun _ _ _ hr hi h => hi.step (mqInv_of_reachable hr) (mqCallStep_cases h)) hr

theorem carried_of_arrived (h : stageOf pc x m=.arrived) : carried pc=some m := by
  by_contra hn
  rw [stageOf_unsent hn] at h
  cases h

/-- Of the calls that wait only a sender whose state was written has a message that has
arrived. -/
theorem sender_of_arrived (hs : sleeping pc=some w) (h : stageOf pc x m=.arrived) : w=.snd m ∧ x.state≠.none := by
  have hc := carried_of_arrived h
  cases w with
  | snd m' =>
    rw [carried_of_sleeping hs] at hc
    cases hc
    rw [stageOf_sleeping hs] at h
    refine ⟨rfl,fun hx => ?_⟩
    rw [if_pos hx] at h
    cases h
  | rcv =>
    rw [carried_receiver hs] at hc
    cases hc

/-- A message that has arrived stays so while its sender stays and the state of the
entry does not go back to STATE_NONE. -/
theorem arrived_mono (hxy : x.state≠.none → y.state≠.none) (h : stageOf pc x m=.arrived) : stageOf pc y m=.arrived := by
  by_cases hx : x.state=.none
  · cases hs : sleeping pc with
    | some w => exact absurd hx (sender_of_arrived hs h).2
    | none =>
      have hsame : stageOf pc y m=stageOf pc x m := by
        cases pc with
        | asleep w | relock w => cases hs
        | _ => rfl
      rw [hsame]
      exact h
  · rw [stageOf_state (hxy hx) hx]
    exact h

/-- How a call that advances keeps arrived messages. -/
theorem arrived_update (h : stage q m=.arrived) (hpc : q'.pc=update q.pc c pc)
    (hwait : ∀ d, d≠c → (q.wait d).state≠.none → (q'.wait d).state≠.none)
    (hself : stageOf (q.pc c) (q.wait c) m=.arrived → stageOf pc (q'.wait c) m=.arrived) : stage q' m=.arrived := by
  unfold stage at h ⊢
  by_cases hm : m.sender=c
  · rw [hm] at h ⊢
    rw [hpc,update_self]
    exact hself h
  · rw [hpc,update_of_ne hm]
    exact arrived_mono (hwait _ hm) h

theorem not_arrived_ready {m' : MqMsg} : stageOf (.sndReady m' nonblock) x m≠.arrived := by
  unfold stageOf
  split
  · exact nofun
  · exact nofun

/-- A message that has arrived stays so. -/
theorem arrived_step (hq : MqInv q) (h : CallCase q q') (ha : stage q m=.arrived) : stage q' m=.arrived := by
  have hsame : ∀ {c pc}, (stageOf (q.pc c) (q.wait c) m=.arrived → stageOf pc (q.wait c) m=.arrived) →
      stage (q.go c pc) m=.arrived := fun hself => arrived_update ha rfl (fun _ _ h => h) hself
  have hnone : ∀ {c pc} {P : Prop}, q.pc c=pc → carried pc=none → stageOf (q.pc c) (q.wait c) m=.arrived → P := by
    intro c pc P hp hc h
    rw [← hp,carried_of_arrived h] at hc
    cases hc
  have hready : ∀ {c m' nonblock} {P : Prop}, q.pc c=.sndReady m' nonblock →
      stageOf (q.pc c) (q.wait c) m=.arrived → P := by
    intro c m' nonblock P hp h
    rw [hp] at h
    exact absurd h not_arrived_ready
  have hput : ∀ {x : ℕ} {y : ExtWaitQueue}, y.state≠.none → ∀ d, (q.wait d).state≠.none →
      (update q.wait x y d).state≠.none := by
    intro x y hy d hd
    by_cases hdx : d=x
    · rw [hdx,update_self]
      exact hy
    · rw [update_of_ne hdx]
      exact hd
  have hkeep : ∀ {x d : ℕ} {y : ExtWaitQueue}, d≠x → (q.wait d).state≠.none →
      (update q.wait x y d).state≠.none := by
    intro x d y hdx hd
    rw [update_of_ne hdx]
    exact hd
  have hreread : ∀ {c w pc}, sleeping (q.pc c)=some w → sleeping pc=some w →
      stageOf (q.pc c) (q.wait c) m=.arrived → stageOf pc (q.wait c) m=.arrived := by
    intro c w pc hs hpc h
    obtain ⟨rfl,hx⟩ := sender_of_arrived hs h
    rw [stageOf_sleeping hpc,if_neg hx]
  cases h with
  | sndRefused hp | sndLoaded hp | rcvRefused hp | rcvCalled hp | rcvAgain hp | rcvStored hp =>
    exact hsame (hnone hp rfl)
  | sndAgain hp => exact hsame (hready hp)
  | sndSlept hp hlock hfull => exact arrived_update ha rfl (fun _ => hkeep) (hready hp)
  | @sndHanded c r x nonblock hp hlock hr =>
    have hpending : (⟨some x,.pending⟩ : ExtWaitQueue).state≠.none := nofun
    exact arrived_update ha rfl (fun d _ => hput hpending d) (hready hp)
  | sndInserted hp hlock hroom hr => exact arrived_update ha rfl (fun _ _ h => h) (hready hp)
  | rcvSlept hp hlock hempty => exact arrived_update ha rfl (fun _ => hkeep) (hnone hp rfl)
  | rcvUnset hp hlock hmore hm =>
    exact absurd hm (hq.table.content.last_ne_none hmore)
  | rcvTook hp hlock hmore hm hs => exact arrived_update ha rfl (fun _ _ h => h) (hnone hp rfl)
  | @rcvServed c s x nonblock hp hlock hmore hm hs =>
    obtain ⟨y,_,_,heq⟩ := hq.waits.served x hs
    rw [heq]
    have hpending : (⟨some y,.pending⟩ : ExtWaitQueue).state≠.none := nofun
    exact arrived_update ha rfl (fun d _ => hput hpending d) (hnone hp rfl)
  | wqSpun => exact ha
  | @wqReturned c w hp hstate =>
    refine hsame (fun h => ?_)
    obtain ⟨rfl,_⟩ := sender_of_arrived (sleeping_of_pc hp).1 h
    exact if_pos rfl
  | wqSawNone hp => exact hsame (hreread (sleeping_of_pc (.inl hp)).1 rfl)
  | @wqCancelled c w retval hp hlock hstate hneg =>
    have hs := (sleeping_of_pc (.inr hp)).1
    have hst := state_none hq.waits hs hlock hstate
    exact arrived_update ha rfl (fun _ _ h => h) (fun h => absurd hst (sender_of_arrived hs h).2)
  | wqSleptAgain hp => exact hsame (hreread (sleeping_of_pc (.inr hp)).1 rfl)
  | @wqReady c x k hp =>
    have hdone : ({q.wait x with state := .ready} : ExtWaitQueue).state≠.none := nofun
    refine arrived_update ha rfl (fun d _ => hput hdone d) (fun h => ?_)
    rw [hp] at h
    cases k with
    | snd m' =>
      have hc := carried_of_arrived h
      cases hc
      exact if_pos rfl
    | rcv m' => cases carried_of_arrived h

theorem arrived_later (hr : MqQueueReachable q) (ha : stage q m=.arrived)
    (hl : Reachable (fun x => x=q) MqCallNext q') : stage q' m=.arrived := by
  have h : MqQueueReachable q' ∧ stage q' m=.arrived := by
    refine Reachable.invariant (I := fun x : MqQueue pf => MqQueueReachable x ∧ stage x m=.arrived) (fun x hx => ?_)
      (fun x e y _ hi h => ?_) hl
    · rw [hx]
      exact ⟨hr,ha⟩
    · exact ⟨Reachable.next hi.1 h,arrived_step (mqInv_of_reachable hi.1) (mqCallStep_cases h) hi.2⟩
  exact h.2

/-- A receiver that returns a size has a message of that size. -/
def Returns (pc : MqPc) : Prop := ∀ code got, pc=.rcvDone code got → 0 ≤ code → ∃ m, got=some m ∧ code=m.mTs

theorem returns_step (hq : MqInv q) (hi : ∀ r, Returns (q.pc r)) (h : CallCase q q') : ∀ r, Returns (q'.pc r) := by
  have hupdate : ∀ {c pc}, Returns pc → ∀ r, Returns (update q.pc c pc r) := by
    intro c pc hpc r
    by_cases hr : r=c
    · rw [hr,update_self]
      exact hpc
    · rw [update_of_ne hr]
      exact hi r
  have hneg : ∀ {code got}, code<0 → Returns (.rcvDone code got) := by
    intro code got hcode code' got' he h0
    cases he
    omega
  cases h with
  | sndRefused | sndLoaded | sndAgain | sndSlept | sndHanded | sndInserted | rcvCalled | rcvSlept | rcvTook
  | wqSawNone | wqSleptAgain => exact hupdate nofun
  | rcvRefused hp hcode => exact hupdate (hneg hcode)
  | rcvAgain hp => exact hupdate (hneg (by decide))
  | rcvUnset hp hlock hmore hm =>
    exact absurd hm (hq.table.content.last_ne_none hmore)
  | @rcvServed c s x nonblock hp hlock hmore hm hs =>
    obtain ⟨y,_,_,heq⟩ := hq.waits.served x hs
    rw [heq]
    exact hupdate nofun
  | wqSpun => exact hi
  | @wqReturned c w hp hstate =>
    refine hupdate ?_
    cases w with
    | snd m => exact nofun
    | rcv =>
      unfold wqReturn
      dsimp only
      rw [if_pos rfl]
      split
      · exact nofun
      · exact nofun
  | @wqCancelled c w retval hp hlock hstate hretval =>
    refine hupdate ?_
    cases w with
    | snd m => exact nofun
    | rcv =>
      unfold wqReturn
      dsimp only
      rw [if_neg (ne_of_lt hretval)]
      exact hneg hretval
  | @wqReady c x k hp => cases k <;> exact hupdate nofun
  | @rcvStored c m code hp hcode =>
    refine hupdate (fun code' got he h0 => ?_)
    cases he
    rcases hcode with hcode|hcode
    · rw [hcode] at h0
      exact absurd h0 (by decide)
    · exact ⟨m,rfl,hcode⟩

theorem returns_of_reachable (hr : MqQueueReachable q) (r : ℕ) : Returns (q.pc r) := by
  refine Reachable.invariant (I := fun q : MqQueue pf => ∀ r, Returns (q.pc r)) (fun q h r => ?_)
    (fun _ _ _ hr hi h => returns_step (mqInv_of_reachable hr) hi (mqCallStep_cases h)) hr r
  rw [h.idle]
  exact nofun

/-- A call that has returned. -/
def Finished (pc : MqPc) : Prop := (∃ m code, pc=.sndDone m code) ∨ ∃ code got, pc=.rcvDone code got

theorem sleeping_of_finished (h : Finished pc) : sleeping pc=none := by
  rcases h with ⟨m,code,rfl⟩|⟨code,got,rfl⟩
  · rfl
  · rfl

/-- The entry of a call that has returned is not written any more. -/
theorem quiet_of_finished (hq : MqInv q) (h : CallCase q q') (hc : Finished (q.pc c)) : q'.wait c=q.wait c := by
  have hnot : ∀ {d w}, sleeping (q.pc d)=some w → c≠d := by
    rintro d w hs rfl
    cases hs.symm.trans (sleeping_of_finished hc)
  have hrun : ∀ {d pc}, q.pc d=pc → ¬Finished pc → c≠d := by
    rintro d _ rfl hd rfl
    exact hd hc
  cases h with
  | sndSlept hp | rcvSlept hp => exact update_of_ne (hrun hp (by simp [Finished])) _ _
  | sndHanded hp hlock hr => exact update_of_ne (hnot (hq.waits.receiver (mem_of_first hr)).1) _ _
  | rcvUnset hp hlock hmore hm =>
    exact absurd hm (hq.table.content.last_ne_none hmore)
  | @rcvServed d s x nonblock hp hlock hmore hm hs =>
    obtain ⟨y,hw,_,heq⟩ := hq.waits.served x hs
    rw [heq]
    exact update_of_ne (hnot hw) _ _
  | @wqReady d x k hp =>
    obtain ⟨hs,_⟩ := hq.waits.pending_of_target (d:=d) (x:=x) (by rw [hp]; rfl)
    obtain ⟨w,hw⟩ := Option.isSome_iff_exists.mp hs
    exact update_of_ne (hnot hw) _ _
  | _ => rfl

/-- A message that has arrived is in the table and with no receiver, or not in the
table and with exactly one receiver. -/
theorem DeliveryInv.one_place (hi : DeliveryInv q) (ha : stage q m=.arrived) :
    (m∈stored q ∧ ∀ r, held q r≠some m) ∨ (m∉stored q ∧ ∃! r, held q r=some m) := by
  obtain ⟨place,hl⟩ := hi.places
  obtain ⟨p,hp,honly⟩ := hl.exactly_one ha
  cases p with
  | queue =>
    refine .inl ⟨hp,fun r hr => ?_⟩
    cases honly (.receiver r) hr
  | receiver r =>
    refine .inr ⟨fun hm => ?_,r,hp,fun x hx => ?_⟩
    · cases honly .queue hm
    · exact Spot.receiver.inj (honly (.receiver x) hx)
  | discarded => cases hp

/-- In every state of every run: a message whose mq_timedsend returned zero is in the
table, once and with no receiver, or it is not there and exactly one receiver has it;
a message that is in the table or with a receiver was sent by a call that has not
failed and is not going to fail, so a message whose mq_timedsend has failed is nowhere
and was nowhere; a receiver that returns a size has a message of that size which its
sender sent; when a call has returned, its entry is in no list, no task is about to
write to it and no step writes to it; and no receiver uses a pointer that was not
written. -/
theorem mq_delivered_once {q : MqQueue pf} (hr : MqQueueReachable q) :
    (∀ c m, q.pc c=.sndDone (some m) 0 → (stored q).Nodup ∧
      ((m∈stored q ∧ ∀ r, held q r≠some m) ∨ (m∉stored q ∧ ∃! r, held q r=some m))) ∧
    (∀ m, (m∈stored q ∨ ∃ r, held q r=some m) → ∀ q', Reachable (fun x => x=q) MqCallNext q' →
      carried (q'.pc m.sender)=some m ∧ ∀ code, q'.pc m.sender=.sndDone (some m) code → code=0) ∧
    (∀ c m code, q.pc c=.sndDone (some m) code → code≠0 → m∉stored q ∧ ∀ r, held q r≠some m) ∧
    (∀ r code got, q.pc r=.rcvDone code got → 0 ≤ code →
      ∃ m, got=some m ∧ code=m.mTs ∧ held q r=some m ∧ carried (q.pc m.sender)=some m) ∧
    (∀ c, Finished (q.pc c) → (∀ sr, c∉q.eWaitQ sr) ∧ (∀ d, target (q.pc d)≠some c) ∧
      ∀ e q', MqCallNext q e q' → q'.wait c=q.wait c) ∧
    (∀ r, q.pc r≠.rcvFault) := by
  have hq := mqInv_of_reachable hr
  have hi := deliveryInv_of_reachable hr
  obtain ⟨place,hl⟩ := hi.places
  have harrived : ∀ m, (m∈stored q ∨ ∃ r, held q r=some m) → stage q m=.arrived := by
    rintro m (hm|⟨r,hm⟩)
    · exact hl.arrived (p:=.queue) hm
    · exact hl.arrived (p:=.receiver r) hm
  have hsent : ∀ {x : MqQueue pf} {m}, stage x m=.arrived →
      ∀ code, x.pc m.sender=.sndDone (some m) code → code=0 := by
    intro x m ha code hp
    unfold stage at ha
    rw [hp] at ha
    by_contra hcode
    have hw : stageOf (.sndDone (some m) code) (x.wait m.sender) m=.withdrawn :=
      (if_pos rfl).trans (if_neg hcode)
    rw [hw] at ha
    cases ha
  refine ⟨fun c m hp => ⟨hl.nodup,hi.one_place ?_⟩,fun m hm q' hlater => ?_,fun c m code hp hcode => ?_,
    fun r code got hp h0 => ?_,fun c hc => ⟨fun sr => ?_,fun d hd => ?_,fun e q' h => ?_⟩,
    fun r => (hq.waits.entries r).sound⟩
  · have hm := hi.senders c m (by rw [hp]; rfl)
    unfold stage
    rw [hm,hp]
    exact if_pos rfl
  · have ha := arrived_later hr (harrived m hm) hlater
    exact ⟨carried_of_arrived ha,hsent ha⟩
  · have hm := hi.senders c m (by rw [hp]; rfl)
    subst hm
    have hnot : ¬(m∈stored q ∨ ∃ r, held q r=some m) := fun h => hcode (hsent (harrived m h) code hp)
    exact ⟨fun h => hnot (.inl h),fun r h => hnot (.inr ⟨r,h⟩)⟩
  · obtain ⟨m,rfl,hcode⟩ := returns_of_reachable hr r code got hp h0
    have hheld : held q r=some m := by
      unfold held
      rw [hp]
      rfl
    exact ⟨m,rfl,hcode,hheld,carried_of_arrived (harrived m (.inr ⟨r,hheld⟩))⟩
  · exact hq.waits.not_linked (sleeping_of_finished hc) sr
  · have hs := (hq.waits.pending_of_target hd).1
    rw [sleeping_of_finished hc] at hs
    cases hs
  · exact quiet_of_finished hq (mqCallStep_cases h) hc

/-- A sender waits on a full queue. It reads STATE_NONE and its time is over, but
before it has the lock a receiver puts its message into the table. The sender then
reads STATE_READY and returns zero. -/
theorem mq_delivered_once_timeout : ∃ q : MqQueue ⟨8,.inr rfl⟩, MqQueueReachable q ∧
    q.pc 2=.sndDone (some ⟨2,5,20⟩) 0 ∧ q.pc 3=.rcvGot ⟨1,5,10⟩ ∧ (stored q).Nodup ∧
    ((⟨2,5,20⟩∈stored q ∧ ∀ r, held q r≠some ⟨2,5,20⟩) ∨
      (⟨2,5,20⟩∉stored q ∧ ∃! r, held q r=some ⟨2,5,20⟩)) := by
  obtain ⟨q,hr,hsender,hreceiver⟩ :
    ∃ q, MqQueueReachable q ∧ q.pc 2=.sndDone (some ⟨2,5,20⟩) 0 ∧ q.pc 3=.rcvGot ⟨1,5,10⟩ :=
    exists_run (fun _ _ _ => id) (newQueue_start oneSlot_accepted (fun _ => 20))
      [.mqTimedsend 1 5 10 false none none none,.sndLock 1,.mqTimedsend 2 5 20 false none none none,.sndLock 2,
        .wqRead 2,.mqTimedreceive 3 200 false none none,.rcvLock 3,.wqReady 3,.wqRelock 2 false true] (by decide)
  exact ⟨q,hr,hsender,hreceiver,(mq_delivered_once hr).1 2 ⟨2,5,20⟩ hsender⟩

end BlockIpc.MqueueDelivery
