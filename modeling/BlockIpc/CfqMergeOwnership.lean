import BlockIpc.TransitionRuns

/-!
# Whose requests CFQ merges

A bio gets into a request of CFQ in four ways: the request is built from it, it is merged into
a request that its task has plugged or that CFQ holds, or the request it is in is merged with its
neighbour in the sort list or on insertion. Only the bio merges ask cfq_allow_merge. Each part of
a request remembers the cfq_queue that its task had for its class at submission.
-/

namespace BlockIpc.CfqMergeOwnership

open Function TransitionRuns

/-- A cfq_queue. -/
structure Cfqq where
  /-- cfq_cfqq_sync. -/
  sync : Bool
  index : ℕ
  deriving DecidableEq

/-- oom_cfqq, which is asynchronous. -/
def oomCfqq : Cfqq := ⟨false,0⟩

structure Bio where
  sector : ℕ
  sectors : ℕ
  /-- bio_data_dir is WRITE. -/
  write : Bool
  reqSync : Bool
  deriving DecidableEq

/-- A bio in a request. -/
structure Part where
  bio : Bio
  task : ℕ
  /-- The cfq_queue of the task for the class of the bio, at submission. -/
  home : Option Cfqq
  deriving DecidableEq

structure Rq where
  /-- blk_rq_pos. -/
  pos : ℕ
  /-- blk_rq_sectors. -/
  sectors : ℕ
  /-- rq_data_dir is WRITE. -/
  write : Bool
  reqSync : Bool
  cfqq : Cfqq
  /-- The task that has it on its plug list; none when CFQ holds it. -/
  plug : Option ℕ
  parts : List Part
  deriving DecidableEq

/-- The tasks and the requests. -/
structure Data where
  /-- cic_to_cfqq for each task and class. -/
  cicToCfqq : ℕ → Bool → Option Cfqq
  rqs : ℕ → Option Rq

def cfqBioSync (b : Bio) : Bool := !b.write || b.reqSync

def rqIsSync (x : Rq) : Bool := !x.write || x.reqSync

def cfqAllowMerge (s : Data) (task : ℕ) (x : Rq) (b : Bio) : Bool :=
  if cfqBioSync b && !rqIsSync x then false
  else decide (s.cicToCfqq task (cfqBioSync b)=some x.cfqq)

/-- elv_try_merge: a merge at the front or at the end. -/
def elvTryMerge (s : Data) (task : ℕ) (x : Rq) (b : Bio) : Option Bool :=
  if x.write=b.write ∧ cfqAllowMerge s task x b then
    if x.pos+x.sectors=b.sector then some false
    else if b.sector+b.sectors=x.pos then some true
    else none
  else none

/-- A bio that a task submits now. -/
def submitted (s : Data) (task : ℕ) (b : Bio) : Part := ⟨b,task,s.cicToCfqq task (cfqBioSync b)⟩

/-- bio_attempt_front_merge or bio_attempt_back_merge. -/
def bioMerge (x : Rq) (p : Part) (front : Bool) : Rq :=
  if front then {x with pos := p.bio.sector, sectors := x.sectors+p.bio.sectors, parts := p::x.parts}
  else {x with sectors := x.sectors+p.bio.sectors, parts := x.parts++[p]}

def attemptMerge (x next : Rq) : Option Rq :=
  if x.pos+x.sectors=next.pos ∧ x.write=next.write
  then some {x with sectors := x.sectors+next.sectors, parts := x.parts++next.parts} else none

/-- init_request_from_bio, with the queue that cfq_set_request gives. -/
def initRequestFromBio (p : Part) (k : Cfqq) (plug : Option ℕ) : Rq :=
  ⟨p.bio.sector,p.bio.sectors,p.bio.write,p.bio.reqSync,k,plug,[p]⟩

/-- Change a request. -/
def Data.set (s : Data) (r : ℕ) (x : Option Rq) : Data := {s with rqs := update s.rqs r x}

/-- attempt_back_merge or attempt_front_merge of a request with its neighbour in the sort list
of its cfq_queue. -/
def mergeNeighbour (s : Data) (r : ℕ) (x : Rq) (front : Bool) (n : ℕ) : Data :=
  match s.rqs n with
  | some y =>
    if n≠r ∧ y.plug=none ∧ y.cfqq=x.cfqq then
      match if front then attemptMerge y x else attemptMerge x y with
      | some z => if front then (s.set r none).set n (some z) else (s.set n none).set r (some z)
      | none => s.set r (some x)
    else s.set r (some x)
  | none => s.set r (some x)

/-- What can happen. -/
inductive Event where
  /-- The cfq_queue of a task for a class is set: a new one, one it cooperates with, oom_cfqq
  when none can be allocated, or none. -/
  | assign (task : ℕ) (c : Bool) (k : Option Cfqq)
  /-- A task submits a bio and a request is built from it, on the plug list or for CFQ. -/
  | submit (task : ℕ) (b : Bio) (r : ℕ) (plugged : Bool)
  | plugMerge (task : ℕ) (b : Bio) (r : ℕ)
  /-- A bio is merged into a request that CFQ holds, which may then be merged with a
  neighbour. -/
  | elvMerge (task : ℕ) (b : Bio) (r : ℕ) (neighbour : Option ℕ)
  /-- blk_flush_plug_list inserts a request, or elv_attempt_insert_merge finds a request to
  append it to. -/
  | unplug (r : ℕ) (found : Option ℕ)
  | dispatch (r : ℕ)

/-- The cfq_queue of a task for a class is one of this class or oom_cfqq. -/
def assignable (c : Bool) (k : Option Cfqq) : Bool := k.all (fun k => decide (k.sync=c ∨ k=oomCfqq))

/-- elv_attempt_insert_merge of a plugged request into one that CFQ holds. -/
def insertMerge (s : Data) (r : ℕ) (x : Rq) (n : ℕ) : Option Data :=
  match s.rqs n with
  | some y =>
    if n≠r ∧ y.plug=none then (attemptMerge y x).map (fun z => (s.set r none).set n (some z)) else none
  | none => none

def mergeStep (s : Data) : Event → Option Data
  | .assign task c k =>
    if assignable c k then
      some {s with cicToCfqq := update s.cicToCfqq task (update (s.cicToCfqq task) c k)}
    else none
  | .submit task b r plugged =>
    match s.cicToCfqq task (cfqBioSync b),s.rqs r with
    | some k,none =>
      some (s.set r (some (initRequestFromBio (submitted s task b) k (if plugged then some task else none))))
    | _,_ => none
  | .plugMerge task b r =>
    match s.rqs r with
    | some x =>
      if x.plug=some task then
        (elvTryMerge s task x b).map (fun front => s.set r (some (bioMerge x (submitted s task b) front)))
      else none
    | none => none
  | .elvMerge task b r neighbour =>
    match s.rqs r with
    | some x =>
      if x.plug=none then
        (elvTryMerge s task x b).map (fun front =>
          let x := bioMerge x (submitted s task b) front
          match neighbour with
          | some n => mergeNeighbour s r x front n
          | none => s.set r (some x))
      else none
    | none => none
  | .unplug r found =>
    match s.rqs r with
    | some x =>
      if x.plug.isSome then
        match found with
        | some n => insertMerge s r x n
        | none => some (s.set r (some {x with plug := none}))
      else none
    | none => none
  | .dispatch r => some (s.set r none)

/-- No task has a cfq_queue and there are no requests. -/
def newData : Data := ⟨fun _ _ => none,fun _ => none⟩

/-- All states. -/
def MergeRun : Data → Prop := Reachable (fun s => s=newData) (fun s e t => mergeStep s e=some t)

/-- A plugged request is merged into a request of the same cfq_queue only, and oom_cfqq is not
used for synchronous bios. -/
def owned (s : Data) : Event → Bool
  | .assign _ c k => !(c && decide (k=some oomCfqq))
  | .unplug r (some n) => (s.rqs r).all (fun x => (s.rqs n).all (fun y => decide (y.cfqq=x.cfqq)))
  | _ => true

/-- One such event. -/
def ownedStep (s : Data) (e : Event) : Option Data := if owned s e then mergeStep s e else none

/-- The states that such events reach. -/
def OwnedRun : Data → Prop := Reachable (fun s => s=newData) (fun s e t => ownedStep s e=some t)

section

variable {s t : Data} {x y z : Rq} {r n task : ℕ} {b : Bio}

/-- A part is in a request of the cfq_queue that its task had, which is of its class. -/
def Part.At (p : Part) (k : Cfqq) : Prop := p.home=some k ∧ (cfqBioSync p.bio=true → k.sync=true)

/-- All parts of a request are where they belong. -/
def Rq.Owned (x : Rq) : Prop := ∀ p∈x.parts, p.At x.cfqq

/-- What holds for all tasks and requests. -/
structure OwnInv (s : Data) : Prop where
  /-- The cfq_queue of a task for synchronous bios is synchronous. -/
  tasks : ∀ task k, s.cicToCfqq task true=some k → k.sync=true
  /-- The parts of every request are where they belong. -/
  rqs : ∀ r x, s.rqs r=some x → x.Owned

/-- A change of one request. -/
theorem OwnInv.set (h : OwnInv s) {o : Option Rq} (ho : ∀ x, o=some x → x.Owned) : OwnInv (s.set r o) := by
  refine ⟨h.tasks,fun q x hq => ?_⟩
  change update s.rqs r o q=some x at hq
  by_cases hqr : q=r
  · rw [hqr,update_self] at hq
    exact ho x hq
  · rw [update_of_ne hqr] at hq
    exact h.rqs q x hq

theorem OwnInv.drop (h : OwnInv s) (r : ℕ) : OwnInv (s.set r none) := h.set nofun

/-- A bio that is submitted now belongs to the cfq_queue that its task has. -/
theorem OwnInv.submitted (h : OwnInv s) {k : Cfqq} (hk : s.cicToCfqq task (cfqBioSync b)=some k) :
    (submitted s task b).At k := by
  refine ⟨hk,fun hb => h.tasks task k ?_⟩
  rw [← hb]
  exact hk

/-- elv_try_merge finds a request of the cfq_queue of the task. -/
theorem elvTryMerge_home {front : Bool} (hm : elvTryMerge s task x b=some front) :
    s.cicToCfqq task (cfqBioSync b)=some x.cfqq := by
  obtain ⟨⟨_,hallow⟩,_⟩ := Option.ite_none_right_eq_some.mp hm
  unfold cfqAllowMerge at hallow
  split at hallow
  · cases hallow
  · exact of_decide_eq_true hallow

theorem bioMerge_cfqq (x : Rq) (p : Part) (front : Bool) : (bioMerge x p front).cfqq=x.cfqq := by
  unfold bioMerge
  split <;> rfl

/-- A bio that belongs to a request is merged into it. -/
theorem Rq.Owned.bioMerge {p : Part} (h : x.Owned) (hp : p.At x.cfqq) (front : Bool) : (bioMerge x p front).Owned := by
  intro q hq
  rw [bioMerge_cfqq]
  unfold CfqMergeOwnership.bioMerge at hq
  split at hq
  · rcases List.mem_cons.mp hq with hq|hq
    · exact hq ▸ hp
    · exact h q hq
  · rcases List.mem_append.mp hq with hq|hq
    · exact h q hq
    · exact List.mem_singleton.mp hq ▸ hp

/-- Two requests of one cfq_queue are merged. -/
theorem Rq.Owned.merge (hx : x.Owned) (hy : y.Owned) (hk : x.cfqq=y.cfqq) (hm : attemptMerge x y=some z) : z.Owned := by
  obtain ⟨_,rfl⟩ := of_guard hm
  intro p hp
  rcases List.mem_append.mp hp with hp|hp
  · exact hx p hp
  · change p.At x.cfqq
    rw [hk]
    exact hy p hp

/-- A request is merged with its neighbour. -/
theorem OwnInv.neighbour (h : OwnInv s) (hx : x.Owned) (front : Bool) (n : ℕ) :
    OwnInv (mergeNeighbour s r x front n) := by
  have hkeep : OwnInv (s.set r (some x)) := h.set (fun y hy => Option.some.inj hy ▸ hx)
  unfold mergeNeighbour
  split
  case h_1 y hn =>
    have hy := h.rqs n y hn
    split
    case isTrue hc =>
      split
      case h_1 z hz =>
        cases front with
        | true =>
          have hown : z.Owned := hy.merge hx hc.2.2 hz
          exact (h.drop _).set (fun w hw => Option.some.inj hw ▸ hown)
        | false =>
          have hown : z.Owned := hx.merge hy hc.2.2.symm hz
          exact (h.drop _).set (fun w hw => Option.some.inj hw ▸ hown)
      case h_2 => exact hkeep
    case isFalse => exact hkeep
  case h_2 => exact hkeep

theorem OwnInv.step {e : Event} (h : OwnInv s) (ho : owned s e=true) (hs : mergeStep s e=some t) : OwnInv t := by
  cases e with
  | assign task c k =>
    obtain ⟨hk,rfl⟩ := of_guard hs
    refine ⟨fun q j hq => ?_,h.rqs⟩
    change update s.cicToCfqq task (update (s.cicToCfqq task) c k) q true=some j at hq
    by_cases hqt : q=task
    · rw [hqt,update_self] at hq
      cases c with
      | false =>
        rw [update_of_ne (by decide)] at hq
        exact h.tasks task j hq
      | true =>
        rw [update_self] at hq
        rw [hq] at hk ho
        rcases of_decide_eq_true hk with hj|hj
        · exact hj
        · rw [hj] at ho
          exact absurd ho (by simp [owned])
    · rw [update_of_ne hqt] at hq
      exact h.tasks q j hq
  | submit task b r plugged =>
    simp only [mergeStep] at hs
    split at hs
    case h_1 k hk _ =>
      cases hs
      refine h.set (fun x hx => ?_)
      cases hx
      intro p hp
      rw [List.mem_singleton.mp hp]
      exact h.submitted hk
    case h_2 => cases hs
  | plugMerge task b r =>
    simp only [mergeStep] at hs
    split at hs
    case h_1 x hr =>
      obtain ⟨_,ht⟩ := Option.ite_none_right_eq_some.mp hs
      obtain ⟨front,hf,ht⟩ := Option.map_eq_some_iff.mp ht
      cases ht
      have hown := (h.rqs r x hr).bioMerge (h.submitted (elvTryMerge_home hf)) front
      exact h.set (fun y hy => Option.some.inj hy ▸ hown)
    case h_2 => cases hs
  | elvMerge task b r neighbour =>
    simp only [mergeStep] at hs
    split at hs
    case h_1 x hr =>
      obtain ⟨_,ht⟩ := Option.ite_none_right_eq_some.mp hs
      obtain ⟨front,hf,ht⟩ := Option.map_eq_some_iff.mp ht
      cases ht
      have hown := (h.rqs r x hr).bioMerge (h.submitted (elvTryMerge_home hf)) front
      cases neighbour with
      | none => exact h.set (fun y hy => Option.some.inj hy ▸ hown)
      | some n => exact h.neighbour hown front n
    case h_2 => cases hs
  | unplug r found =>
    simp only [mergeStep] at hs
    split at hs
    case h_1 x hr =>
      obtain ⟨_,ht⟩ := Option.ite_none_right_eq_some.mp hs
      have hx := h.rqs r x hr
      cases found with
      | none =>
        cases ht
        exact h.set (fun y hy => Option.some.inj hy ▸ hx)
      | some n =>
        simp only [insertMerge] at ht
        split at ht
        case h_1 y hn =>
          obtain ⟨_,ht⟩ := Option.ite_none_right_eq_some.mp ht
          obtain ⟨z,hz,ht⟩ := Option.map_eq_some_iff.mp ht
          cases ht
          have hk : y.cfqq=x.cfqq := by
            simpa [owned,hr,hn] using ho
          have hown := (h.rqs n y hn).merge hx hk hz
          exact (h.drop _).set (fun w hw => Option.some.inj hw ▸ hown)
        case h_2 => cases ht
    case h_2 => cases hs
  | dispatch r =>
    cases hs
    exact h.drop r

theorem OwnInv.run (h : OwnedRun s) : OwnInv s := by
  refine Reachable.invariant (I := OwnInv) (fun t ht => ?_) (fun _ _ _ _ hi hs => ?_) h
  · rw [ht]
    exact ⟨nofun,nofun⟩
  · obtain ⟨ho,hstep⟩ := Option.ite_none_right_eq_some.mp hs
    exact hi.step ho hstep

end

/-- Every bio of a request was submitted by a task whose cfq_queue for its class was the one of
the request, and a synchronous bio is in a request of a synchronous cfq_queue. -/
theorem merge_ownership_of_owned {s : Data} {r : ℕ} {x : Rq} {p : Part} (h : OwnedRun s) (hr : s.rqs r=some x)
    (hp : p∈x.parts) : p.home=some x.cfqq ∧ (cfqBioSync p.bio=true → x.cfqq.sync=true) :=
  (OwnInv.run h).rqs r x hr p hp

/-- A sector range that is written. -/
def writeBio (sector : ℕ) (reqSync : Bool) : Bio := ⟨sector,8,true,reqSync⟩

/-- A plugged request of a task is appended to a request of the same task. -/
theorem merge_ownership_of_owned_plugged :
    ∃ s x p, OwnedRun s ∧ s.rqs 1=some x ∧ p∈x.parts ∧ p.bio=writeBio 8 true ∧ p.home=some x.cfqq := by
  obtain ⟨s,hrun,hv⟩ : ∃ s, OwnedRun s ∧ (s.rqs 1).map (fun x => x.parts)=
      some [⟨writeBio 0 true,1,some ⟨true,1⟩⟩,⟨writeBio 8 true,1,some ⟨true,1⟩⟩] :=
    exists_run (fun _ _ _ => id) rfl [.assign 1 true (some ⟨true,1⟩),.submit 1 (writeBio 0 true) 1 false,
      .submit 1 (writeBio 8 true) 2 true,.unplug 2 (some 1)] (by decide)
  obtain ⟨x,hx,hparts⟩ := Option.map_eq_some_iff.mp hv
  have hp : (⟨writeBio 8 true,1,some ⟨true,1⟩⟩ : Part)∈x.parts := by
    rw [hparts]
    decide
  exact ⟨s,x,_,hrun,hx,hp,rfl,(merge_ownership_of_owned hrun hx hp).1⟩

/-- A task has written without REQ_SYNC, another one writes the next sectors with REQ_SYNC while
it is plugged: its bio ends up in the asynchronous request of the first. -/
theorem merge_ownership_lost :
    ∃ s x p, MergeRun s ∧ s.rqs 1=some x ∧ x.plug=none ∧ p∈x.parts ∧ cfqBioSync p.bio=true ∧ x.cfqq.sync=false ∧
      p.home≠some x.cfqq := by
  obtain ⟨s,hrun,hv⟩ : ∃ s, MergeRun s ∧ (s.rqs 1).map (fun x => (x.plug,x.cfqq,x.parts))=
      some (none,⟨false,1⟩,[⟨writeBio 0 false,1,some ⟨false,1⟩⟩,⟨writeBio 8 true,2,some ⟨true,2⟩⟩]) :=
    exists_run (fun _ _ _ => id) rfl [.assign 1 false (some ⟨false,1⟩),.assign 2 true (some ⟨true,2⟩),
      .submit 1 (writeBio 0 false) 1 false,.submit 2 (writeBio 8 true) 2 true,.unplug 2 (some 1)] (by decide)
  obtain ⟨x,hx,hparts⟩ := Option.map_eq_some_iff.mp hv
  simp only [Prod.mk.injEq] at hparts
  obtain ⟨hplug,hk,hparts⟩ := hparts
  have hp : (⟨writeBio 8 true,2,some ⟨true,2⟩⟩ : Part)∈x.parts := by
    rw [hparts]
    decide
  refine ⟨s,x,_,hrun,hx,hplug,hp,rfl,?_,?_⟩
  · rw [hk]
  · rw [hk]
    decide

end BlockIpc.CfqMergeOwnership
