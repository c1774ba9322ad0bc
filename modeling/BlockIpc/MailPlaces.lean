import Mathlib

/-!
# Places of messages

A message is not sent yet, still with its sender, in a queue, handed to one
receiver, withdrawn by its sender or discarded. A place for every message that
agrees with the contents of the queue, with what the receivers hold and with
what was discarded shows that each message is in one place only. Messages and
receivers are arbitrary types.
-/

namespace BlockIpc.MailPlaces

open Function

variable {κ ρ : Type*}

inductive Place (ρ : Type*) where
  | unsent
  | flying
  | queued
  | handed (r : ρ)
  /-- Taken back by its sender. -/
  | withdrawn
  | discarded

/-- How far a message has come. -/
inductive Stage where
  | unsent
  | flying
  | arrived
  /-- Taken back by its sender. -/
  | withdrawn
  deriving DecidableEq

/-- How far a message at a place has come. -/
def Place.stage : Place ρ → Stage
  | .unsent => .unsent
  | .flying => .flying
  | .queued => .arrived
  | .handed _ => .arrived
  | .withdrawn => .withdrawn
  | .discarded => .arrived

/-- The places of all messages agree with the contents of the queue, with the
discarded messages, with what the receivers hold and with the stages. -/
structure Located (place : κ → Place ρ) (queue discarded : List κ) (held : ρ → Option κ)
    (stage : κ → Stage) : Prop where
  /-- No message is in the queue twice. -/
  nodup : queue.Nodup
  /-- No message is discarded twice. -/
  once : discarded.Nodup
  /-- The queue contains the messages whose place it is. -/
  queued : ∀ c, c∈queue ↔ place c=.queued
  /-- The discarded messages are those whose place says so. -/
  gone : ∀ c, c∈discarded ↔ place c=.discarded
  /-- A receiver holds the message that was handed to it. -/
  handed : ∀ r c, held r=some c ↔ place c=.handed r
  stages : ∀ c, (place c).stage=stage c

/-- What contains a message that has arrived. -/
inductive Spot (ρ : Type*) where
  | queue
  | receiver (r : ρ)
  | discarded

/-- Whether a message is at a spot. -/
def Spot.Holds (queue discarded : List κ) (held : ρ → Option κ) (c : κ) : Spot ρ → Prop
  | .queue => c∈queue
  | .receiver r => held r=some c
  | .discarded => c∈discarded

variable {place : κ → Place ρ} {queue queue' discarded : List κ} {held held' : ρ → Option κ}
  {stage stage' : κ → Stage} {c : κ} {r : ρ}

theorem Located.arrived (h : Located place queue discarded held stage) {p : Spot ρ}
    (hp : p.Holds queue discarded held c) : stage c=.arrived := by
  rw [← h.stages]
  cases p with
  | queue =>
    rw [(h.queued c).mp hp]
    rfl
  | receiver r =>
    rw [(h.handed r c).mp hp]
    rfl
  | discarded =>
    rw [(h.gone c).mp hp]
    rfl

/-- A message that is on its way is with its sender. -/
theorem Located.with_sender (h : Located place queue discarded held stage) (hc : stage c=.flying) :
    place c=.flying := by
  have hs := h.stages c
  rw [hc] at hs
  cases hp : place c with
  | flying => rfl
  | _ =>
    rw [hp] at hs
    cases hs

/-- A message that has arrived is at exactly one spot. -/
theorem Located.exactly_one (h : Located place queue discarded held stage) (hc : stage c=.arrived) :
    ∃! p : Spot ρ, p.Holds queue discarded held c := by
  have hunique : ∀ {p q : Spot ρ}, p.Holds queue discarded held c → q.Holds queue discarded held c → p=q := by
    intro p q hp hq
    have hspot : ∀ {p : Spot ρ}, p.Holds queue discarded held c →
        p=(match place c with
          | .queued => .queue
          | .handed r => .receiver r
          | _ => .discarded) := by
      intro p hp
      cases p with
      | queue => rw [(h.queued c).mp hp]
      | receiver r => rw [(h.handed r c).mp hp]
      | discarded => rw [(h.gone c).mp hp]
    rw [hspot hp,hspot hq]
  have hs := h.stages c
  rw [hc] at hs
  cases hp : place c with
  | unsent | flying | withdrawn =>
    rw [hp] at hs
    cases hs
  | queued =>
    have hq : Spot.queue.Holds queue discarded held c := (h.queued c).mpr hp
    exact ⟨.queue,hq,fun q hq' => hunique hq' hq⟩
  | handed r =>
    have hq : (Spot.receiver r).Holds queue discarded held c := (h.handed r c).mpr hp
    exact ⟨.receiver r,hq,fun q hq' => hunique hq' hq⟩
  | discarded =>
    have hq : Spot.discarded.Holds queue discarded held c := (h.gone c).mpr hp
    exact ⟨.discarded,hq,fun q hq' => hunique hq' hq⟩

/-- A queue in another order, and the same stages and holders. -/
theorem Located.congr (h : Located place queue discarded held stage) (hqueue : queue'.Perm queue)
    (hheld : ∀ r, held' r=held r) (hstage : ∀ c, stage' c=stage c) :
    Located place queue' discarded held' stage' := by
  refine ⟨hqueue.nodup_iff.mpr h.nodup,h.once,fun c => ?_,h.gone,fun r c => ?_,fun c => ?_⟩
  · rw [hqueue.mem_iff]
    exact h.queued c
  · rw [hheld]
    exact h.handed r c
  · rw [hstage]
    exact h.stages c

variable [DecidableEq κ]

/-- A place that a message neither leaves nor comes to. -/
theorem iff_update {A : Prop} {d : κ} {p q : Place ρ} (h : A ↔ place d=q) (hold : place c≠q) (hnew : p≠q) :
    A ↔ update place c p d=q := by
  by_cases hd : d=c
  · subst hd
    rw [h,update_self]
    exact iff_of_false hold hnew
  · rwa [update_of_ne hd]

/-- The stages after a message has moved. -/
theorem Located.stages_update (h : Located place queue discarded held stage) {p : Place ρ} (hp : stage' c=p.stage)
    (hothers : ∀ d, d≠c → stage' d=stage d) (d : κ) : (update place c p d).stage=stage' d := by
  by_cases hd : d=c
  · rw [hd,update_self,hp]
  · rw [update_of_ne hd,hothers d hd]
    exact h.stages d

/-- A message that is at no spot and stays so changes its stage. -/
theorem Located.restage (h : Located place queue discarded held stage) {p : Place ρ}
    (hold : (place c).stage≠.arrived) (hnew : p.stage≠.arrived) (hp : stage' c=p.stage)
    (hothers : ∀ d, d≠c → stage' d=stage d) : Located (update place c p) queue discarded held stage' := by
  have hstay : ∀ {A : Prop} {d : κ} {q : Place ρ}, q.stage=.arrived → (A ↔ place d=q) → (A ↔ update place c p d=q) :=
    fun hq hA => iff_update hA (fun he => hold (he ▸ hq)) (fun he => hnew (he ▸ hq))
  exact ⟨h.nodup,h.once,fun d => hstay rfl (h.queued d),fun d => hstay rfl (h.gone d),
    fun r d => hstay rfl (h.handed r d),h.stages_update hp hothers⟩

/-- A message goes from its sender to the queue. -/
theorem Located.enqueue (h : Located place queue discarded held stage) (hold : place c=.flying)
    (hqueue : queue'.Perm (c::queue)) (hp : stage' c=.arrived) (hothers : ∀ d, d≠c → stage' d=stage d) :
    Located (update place c .queued) queue' discarded held stage' := by
  have hnot : c∉queue := by
    rw [h.queued,hold]
    intro he
    cases he
  refine ⟨hqueue.nodup_iff.mpr (List.nodup_cons.mpr ⟨hnot,h.nodup⟩),h.once,fun d => ?_,
    fun d => iff_update (h.gone d) (by simp [hold]) nofun,
    fun r d => iff_update (h.handed r d) (by simp [hold]) nofun,h.stages_update hp hothers⟩
  rw [hqueue.mem_iff,List.mem_cons]
  by_cases hd : d=c
  · simp [hd]
  · rw [update_of_ne hd,← h.queued]
    simp [hd]

variable [DecidableEq ρ]

/-- A receiver that holds nothing gets a message that no other one holds. -/
theorem Located.hand (h : Located place queue discarded held stage) (hempty : held r=none)
    (hfree : ∀ q, place c≠.handed q) (q : ρ) (d : κ) :
    update held r (some c) q=some d ↔ update place c (.handed r) d=.handed q := by
  by_cases hq : q=r
  · subst hq
    rw [update_self]
    by_cases hd : d=c
    · simp [hd]
    · rw [update_of_ne hd,← h.handed,hempty]
      simp [Ne.symm hd]
  · rw [update_of_ne hq]
    by_cases hd : d=c
    · subst hd
      rw [update_self,h.handed]
      simp [hfree q,Ne.symm hq]
    · rw [update_of_ne hd]
      exact h.handed q d

/-- A message goes from its sender to a receiver that holds nothing. -/
theorem Located.pass (h : Located place queue discarded held stage) (hold : place c=.flying)
    (hempty : held r=none) (hheld : ∀ q, held' q=update held r (some c) q)
    (hp : stage' c=.arrived) (hothers : ∀ d, d≠c → stage' d=stage d) :
    Located (update place c (.handed r)) queue discarded held' stage' := by
  refine ⟨h.nodup,h.once,fun d => iff_update (h.queued d) (by simp [hold]) nofun,
    fun d => iff_update (h.gone d) (by simp [hold]) nofun,fun q d => ?_,h.stages_update hp hothers⟩
  rw [hheld]
  exact h.hand hempty (by simp [hold]) q d

/-- A receiver that holds nothing takes a message from the queue. -/
theorem Located.take (h : Located place queue discarded held stage) (hqueue : queue.Perm (c::queue'))
    (hempty : held r=none) (hheld : ∀ q, held' q=update held r (some c) q) (hstage : ∀ d, stage' d=stage d) :
    Located (update place c (.handed r)) queue' discarded held' stage' := by
  have hold : place c=.queued := (h.queued c).mp (hqueue.mem_iff.mpr List.mem_cons_self)
  have hnodup := List.nodup_cons.mp (hqueue.nodup_iff.mp h.nodup)
  refine ⟨hnodup.2,h.once,fun d => ?_,fun d => iff_update (h.gone d) (by simp [hold]) nofun,
    fun q d => ?_,h.stages_update ?_ (fun d _ => hstage d)⟩
  · by_cases hd : d=c
    · subst hd
      rw [update_self]
      simp [hnodup.1]
    · rw [update_of_ne hd,← h.queued,hqueue.mem_iff,List.mem_cons]
      simp [hd]
  · rw [hheld]
    exact h.hand hempty (by simp [hold]) q d
  · rw [hstage,← h.stages,hold]
    rfl

omit [DecidableEq ρ] in
/-- The first message of the queue is discarded. -/
theorem Located.discard (h : Located place (c::queue) discarded held stage) :
    Located (update place c .discarded) queue (c::discarded) held stage := by
  have hold : place c=.queued := (h.queued c).mp List.mem_cons_self
  have hnodup := List.nodup_cons.mp h.nodup
  have hnot : c∉discarded := by
    rw [h.gone,hold]
    intro he
    cases he
  refine ⟨hnodup.2,List.nodup_cons.mpr ⟨hnot,h.once⟩,fun d => ?_,fun d => ?_,
    fun q d => iff_update (h.handed q d) (by simp [hold]) nofun,
    h.stages_update ?_ (fun _ _ => rfl)⟩
  · by_cases hd : d=c
    · subst hd
      rw [update_self]
      simp [hnodup.1]
    · rw [update_of_ne hd,← h.queued,List.mem_cons]
      simp [hd]
  · by_cases hd : d=c
    · simp [hd]
    · rw [update_of_ne hd,← h.gone]
      simp [hd]
  · rw [← h.stages,hold]
    rfl

end BlockIpc.MailPlaces
