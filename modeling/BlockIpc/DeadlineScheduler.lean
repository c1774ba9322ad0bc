import BlockIpc.TransitionRuns
import BlockIpc.SearchTrees
import BlockIpc.IntrusiveLists

/-!
# The deadline scheduler

For each direction the requests are in a tree by start sector and in a list by age, with a
pointer to the next request of the batch. An insertion can meet a request of the same start
sector, which it then dispatches; a front merge changes the start sector of a request in the
tree. The red-black tree is any balanced tree that keeps the order of its entries.
-/

namespace BlockIpc.DeadlineScheduler

open List hiding next
open Function TransitionRuns SearchTrees IntrusiveLists

/-- The fields of a request that the scheduler reads. -/
structure Rq where
  /-- blk_rq_pos. -/
  pos : ℕ
  /-- blk_rq_sectors. -/
  sectors : ℕ
  /-- rq_data_dir is WRITE. -/
  write : Bool
  fifoTime : BitVec 64
  deriving DecidableEq

/-- deadline_data, and what became of the requests. -/
structure Data where
  rqs : ℕ → Rq
  /-- sort_list of READ and WRITE. -/
  sortList : Bool → BinaryTree ℕ
  fifoList : Bool → List ℕ
  nextRq : Bool → Option ℕ
  batching : BitVec 32
  lastSector : ℕ
  starved : BitVec 32
  fifoExpire : Bool → BitVec 64
  fifoBatch : BitVec 32
  writesStarved : BitVec 32
  frontMerges : Bool
  /-- The requests that were inserted. -/
  inserted : List ℕ
  /-- The requests that were dispatched. -/
  dispatched : List ℕ
  /-- The requests that were merged into another one. -/
  merged : List ℕ
  bug : Bool

def Data.bugOn (s : Data) (b : Bool) : Data := {s with bug := s.bug || b}

def Data.setRq (s : Data) (r : ℕ) (x : Rq) : Data := {s with rqs := update s.rqs r x}

def Data.setSort (s : Data) (d : Bool) (t : BinaryTree ℕ) : Data := {s with sortList := update s.sortList d t}

def Data.setFifo (s : Data) (d : Bool) (l : List ℕ) : Data := {s with fifoList := update s.fifoList d l}

def Data.setNext (s : Data) (d : Bool) (r : Option ℕ) : Data := {s with nextRq := update s.nextRq d r}

/-- The direction of a request. -/
def Data.dir (s : Data) (r : ℕ) : Bool := (s.rqs r).write

/-- blk_rq_pos. -/
def Data.pos (s : Data) (r : ℕ) : ℕ := (s.rqs r).pos

def rqEndSector (s : Data) (r : ℕ) : ℕ := (s.rqs r).pos+(s.rqs r).sectors

/-- The requests of one direction in the order of the tree. -/
def Data.order (s : Data) (d : Bool) : List ℕ := inorder (s.sortList d)

def timeBefore (a b : BitVec 64) : Bool := (a-b).msb

section

variable (rb : Balance ℕ)

/-- elv_rb_add: the request of the same start sector, or the tree with the new one. -/
def elvRbAdd (s : Data) (r : ℕ) : ℕ ⊕ BinaryTree ℕ :=
  let root := s.sortList (s.dir r)
  match search (toKey s.pos (s.pos r)) root with
  | some same => .inl same
  | none => .inr (rb.color (link (toKey s.pos (s.pos r)) r root))

def elvRbDel (s : Data) (r : ℕ) : Data :=
  (s.bugOn (decide (r∉s.order (s.dir r)))).setSort (s.dir r) (rb.erase (s.sortList (s.dir r)) r)

def deadlineLatterRequest (s : Data) (r : ℕ) : Option ℕ := latter r (s.order (s.dir r))

def deadlineDelRqRb (s : Data) (r : ℕ) : Data :=
  elvRbDel rb (if s.nextRq (s.dir r)=some r then s.setNext (s.dir r) (deadlineLatterRequest s r) else s) r

def deadlineRemoveRequest (s : Data) (r : ℕ) : Data :=
  deadlineDelRqRb rb (s.setFifo (s.dir r) ((s.fifoList (s.dir r)).erase r)) r

/-- deadline_move_to_dispatch, with elv_dispatch_add_tail. -/
def deadlineMoveToDispatch (s : Data) (r : ℕ) : Data :=
  let s := deadlineRemoveRequest rb s r
  {s with dispatched := s.dispatched++[r]}

def deadlineMoveRequest (s : Data) (r : ℕ) : Data :=
  let next := deadlineLatterRequest s r
  let s := ((s.setNext false none).setNext true none).setNext (s.dir r) next
  deadlineMoveToDispatch rb {s with lastSector := rqEndSector s r} r

/-- The loop of deadline_add_rq_rb, for a number of searches. -/
def deadlineAddRqRb : ℕ → Data → ℕ → Option Data
  | 0,_,_ => none
  | n+1,s,r =>
    match elvRbAdd rb s r with
    | .inl same => deadlineAddRqRb n (deadlineMoveRequest rb s same) r
    | .inr t => some (s.setSort (s.dir r) t)

def deadlineAddRequest (s : Data) (r : ℕ) (jiffies : BitVec 64) : Option Data :=
  (deadlineAddRqRb rb 2 s r).map (fun s =>
    let s := s.setRq r {s.rqs r with fifoTime := jiffies+s.fifoExpire (s.dir r)}
    s.setFifo (s.dir r) (s.fifoList (s.dir r)++[r]))

structure Bio where
  sector : ℕ
  sectors : ℕ
  /-- bio_data_dir is WRITE. -/
  write : Bool

/-- deadline_merge; ok is the answer of elv_rq_merge_ok. -/
def deadlineMerge (s : Data) (b : Bio) (ok : Bool) : Data × Option ℕ :=
  if s.frontMerges then
    match search (toKey s.pos (b.sector+b.sectors)) (s.sortList b.write) with
    | some r => (s.bugOn (decide (b.sector+b.sectors≠s.pos r)),if ok then some r else none)
    | none => (s,none)
  else (s,none)

/-- deadline_merged_request after a front merge. -/
def deadlineMergedRequest (s : Data) (r : ℕ) : Option Data := deadlineAddRqRb rb 2 (elvRbDel rb s r) r

/-- Put a request behind another one on a list that it is taken from. -/
def listMove (r next : ℕ) (l : List ℕ) : List ℕ := (l.erase r).flatMap (fun x => if x=next then [x,r] else [x])

/-- If next expires before a request, the request takes its place on the list and its time. -/
def takeFifo (s : Data) (r next : ℕ) : Data :=
  if r∈s.fifoList (s.dir r) ∧ next∈s.fifoList (s.dir next) ∧ timeBefore (s.rqs next).fifoTime (s.rqs r).fifoTime
  then (s.setFifo (s.dir r) (listMove r next (s.fifoList (s.dir r)))).setRq r
    {s.rqs r with fifoTime := (s.rqs next).fifoTime}
  else s

def deadlineMergedRequests (s : Data) (r next : ℕ) : Data := deadlineRemoveRequest rb (takeFifo s r next) next

/-- A request was merged into another one. -/
def Data.logMerged (s : Data) (r : ℕ) : Data := {s with merged := s.merged++[r]}

/-- attempt_merge of two requests of the scheduler, when its other checks agree. -/
def attemptMerge (s : Data) (r next : ℕ) : Option Data :=
  if rqEndSector s r=s.pos next ∧ s.dir r=s.dir next then
    let s := s.setRq r {s.rqs r with sectors := (s.rqs r).sectors+(s.rqs next).sectors}
    some ((deadlineMergedRequests rb s r next).logMerged next)
  else none

/-- A bio is merged at the end of a request; allow says whether a merge with the following
request would pass the other checks. -/
def backMerge (s : Data) (r : ℕ) (b : Bio) (allow : Bool) : Option Data :=
  let s := s.setRq r {s.rqs r with sectors := (s.rqs r).sectors+b.sectors}
  match latter r (s.order (s.dir r)) with
  | some next => some (if allow then (attemptMerge rb s r next).getD s else s)
  | none => some s

/-- A bio is merged at the front of a request; allow says whether a merge with the preceding
request would pass the other checks. -/
def frontMerge (s : Data) (r : ℕ) (b : Bio) (allow : Bool) : Option Data :=
  let s := s.setRq r {s.rqs r with pos := b.sector, sectors := (s.rqs r).sectors+b.sectors}
  match former r (s.order (s.dir r)) with
  | some prev =>
    if allow then
      match attemptMerge rb s prev r with
      | some s => some s
      | none => deadlineMergedRequest rb s r
    else deadlineMergedRequest rb s r
  | none => deadlineMergedRequest rb s r

def deadlineCheckFifo (s : Data) (d : Bool) (jiffies : BitVec 64) : Bool :=
  (s.fifoList d).head?.any (fun r => timeBefore (s.rqs r).fifoTime jiffies)

/-- The request that deadline_dispatch_requests takes for a direction. -/
def dispatchFindRequest (s : Data) (d : Bool) (jiffies : BitVec 64) : Option ℕ :=
  if deadlineCheckFifo s d jiffies || (s.nextRq d).isNone then (s.fifoList d).head? else s.nextRq d

/-- The label dispatch_request. -/
def dispatchRequest (s : Data) (r : ℕ) : Data := deadlineMoveRequest rb {s with batching := s.batching+1} r

/-- The label dispatch_find_request; no request is found on an empty list only. -/
def dispatchFrom (s : Data) (d : Bool) (jiffies : BitVec 64) : Data × Bool :=
  match dispatchFindRequest s d jiffies with
  | some r => (dispatchRequest rb {s with batching := 0} r,true)
  | none => (s.bugOn true,true)

/-- The label dispatch_writes. -/
def dispatchWrites (s : Data) (jiffies : BitVec 64) : Data × Bool :=
  let s := s.bugOn (s.order true).isEmpty
  dispatchFrom rb {s with starved := 0} true jiffies

/-- The choice of a direction. -/
def dispatchDirection (s : Data) (jiffies : BitVec 64) : Data × Bool :=
  let reads := !(s.fifoList false).isEmpty
  let writes := !(s.fifoList true).isEmpty
  if reads then
    let s := s.bugOn (s.order false).isEmpty
    if writes then
      let t := {s with starved := s.starved+1}
      if s.writesStarved ≤ s.starved then dispatchWrites rb t jiffies else dispatchFrom rb t false jiffies
    else dispatchFrom rb s false jiffies
  else if writes then dispatchWrites rb s jiffies
  else (s,false)

def deadlineDispatchRequests (s : Data) (jiffies : BitVec 64) : Data × Bool :=
  match if (s.nextRq true).isSome then s.nextRq true else s.nextRq false with
  | some r => if s.batching<s.fifoBatch then (dispatchRequest rb s r,true) else dispatchDirection rb s jiffies
  | none => dispatchDirection rb s jiffies

/-- deadline_dispatch_requests until it returns 0, for a number of calls; the time of each call
is any. -/
def drain (jiffies : ℕ → BitVec 64) : ℕ → Data → Option Data
  | 0,_ => none
  | n+1,s =>
    let x := deadlineDispatchRequests rb s (jiffies n)
    if x.2 then drain jiffies n x.1 else some x.1

def deadlineExitQueue (s : Data) : Data :=
  (s.bugOn (!(s.fifoList false).isEmpty)).bugOn (!(s.fifoList true).isEmpty)

end

/-- What can happen. -/
inductive Event where
  /-- A request is inserted. -/
  | add (r : ℕ) (x : Rq) (jiffies : BitVec 64)
  /-- A bio is merged at the end of a request. -/
  | back (r : ℕ) (b : Bio) (allow : Bool)
  /-- A bio is merged at the front of the request that the elevator remembers, or that the
  scheduler finds. -/
  | front (cached : Option ℕ) (b : Bio) (ok allow : Bool)
  /-- deadline_dispatch_requests. -/
  | dispatch (jiffies : BitVec 64)
  /-- The settings are changed. -/
  | tune (expire : Bool → BitVec 64) (batch starved : BitVec 32) (merges : Bool)

/-- The scheduler has a request. -/
def Data.holds (s : Data) (r : ℕ) : Bool := decide (r∈s.order (s.dir r))

/-- An event can happen. A request is inserted once; a bio is merged with a request of the
scheduler that it is contiguous with. -/
def enabled (s : Data) : Event → Bool
  | .add r _ _ => decide (r∉s.inserted)
  | .back r b _ => s.holds r && decide (rqEndSector s r=b.sector ∧ s.dir r=b.write)
  | .front (some r) b _ _ => s.holds r && decide (b.sector+b.sectors=s.pos r ∧ s.dir r=b.write)
  | _ => true

/-- What an event does; nothing when an insertion does not end. -/
def perform (rb : Balance ℕ) (s : Data) : Event → Option Data
  | .add r x jiffies => deadlineAddRequest rb {s.setRq r x with inserted := s.inserted++[r]} r jiffies
  | .back r b allow => backMerge rb s r b allow
  | .front (some r) b _ allow => frontMerge rb s r b allow
  | .front none b ok allow =>
    match deadlineMerge s b ok with
    | (s,some r) => frontMerge rb s r b allow
    | (s,none) => some s
  | .dispatch jiffies => some (deadlineDispatchRequests rb s jiffies).1
  | .tune expire batch starved merges =>
    some {s with fifoExpire := expire, fifoBatch := batch, writesStarved := starved, frontMerges := merges}

def deadlineStep (rb : Balance ℕ) (s : Data) (e : Event) : Option Data :=
  if enabled s e then perform rb s e else none

/-- deadline_init_queue, on a queue without requests. -/
def Start (s : Data) : Prop :=
  s.sortList=(fun _ => .nil) ∧ s.fifoList=(fun _ => []) ∧ s.nextRq=(fun _ => none) ∧
    s.inserted=[] ∧ s.dispatched=[] ∧ s.merged=[] ∧ s.bug=false

/-- All states. -/
def DeadlineRun (rb : Balance ℕ) : Data → Prop := Reachable Start (fun s e t => deadlineStep rb s e=some t)

section

variable {rb : Balance ℕ} {s t : Data} {x y : Option ℕ} {a r q : ℕ}

/-- The requests that have left. -/
def Data.left (s : Data) : List ℕ := s.dispatched++s.merged

/-- What holds while a request is on the move: whether it is in the tree and on the list is
open. -/
structure DeadlineInv (x : Option ℕ) (s : Data) : Prop where
  /-- Tree and list have the same requests. -/
  agree : ∀ d q, some q≠x → (q∈s.fifoList d ↔ q∈s.order d)
  /-- No request is on a list twice. -/
  fifoNodup : ∀ d, (s.fifoList d).Nodup
  /-- No request is in a tree twice. -/
  orderNodup : ∀ d, (s.order d).Nodup
  /-- A tree is sorted by start sector. -/
  sorted : ∀ d, (s.order d).Pairwise (fun a b => some a≠x → some b≠x → s.pos a<s.pos b)
  /-- A request is in the tree of its direction. -/
  orderDir : ∀ d q, q∈s.order d → s.dir q=d
  /-- A request is on the list of its direction. -/
  fifoDir : ∀ d q, q∈s.fifoList d → s.dir q=d
  /-- The next request is in the tree. -/
  next : ∀ d q, s.nextRq d=some q → q∈s.order d ∨ (some q=x ∧ s.dir q=d)
  one : s.nextRq false=none ∨ s.nextRq true=none
  /-- A request leaves once. -/
  leftNodup : s.left.Nodup
  /-- A request that has left is not in a tree. -/
  apart : ∀ q∈s.left, (∀ d, q∉s.order d) ∧ some q≠x
  account : ∀ q, q∈s.inserted ↔ (∃ d, q∈s.order d) ∨ q∈s.left ∨ some q=x
  noBug : s.bug=false

variable {z : Rq} {l : List ℕ} {next : ℕ} {d : Bool}

/-- A change of a request keeps what its fields keep. -/
theorem setRq_apply {β : Type} (f : Rq → β) (hz : f z=f (s.rqs r)) :
    (fun q => f ((s.setRq r z).rqs q))=fun q => f (s.rqs q) := by
  funext q
  by_cases hq : q=r
  · rw [hq]
    exact (congrArg f (update_self ..)).trans hz
  · exact congrArg f (update_of_ne hq ..)

/-- A change of a request that keeps its direction. -/
theorem setRq_dir (hz : z.write=s.dir r) : (s.setRq r z).dir=s.dir := setRq_apply Rq.write hz

/-- A change of a request that keeps its start. -/
theorem setRq_pos (hz : z.pos=s.pos r) : (s.setRq r z).pos=s.pos := setRq_apply Rq.pos hz

/-- The next request has its direction. -/
theorem DeadlineInv.dir_of_next (h : DeadlineInv x s) (hq : s.nextRq d=some q) : s.dir q=d :=
  (h.next d q hq).elim (h.orderDir d q) And.right

/-- The next request is in its tree while none is on the move. -/
theorem DeadlineInv.mem_of_next (h : DeadlineInv none s) (hq : s.nextRq d=some q) : q∈s.order d :=
  (h.next d q hq).resolve_right (fun hno => absurd hno.1 nofun)

/-- Every request is in a tree or has left while none is on the move. -/
theorem DeadlineInv.mem_inserted (h : DeadlineInv none s) (q : ℕ) : q∈s.inserted ↔ (∃ d, q∈s.order d) ∨ q∈s.left :=
  (h.account q).trans (or_congr_right (or_iff_left nofun))

/-- A request that has not left starts to move. -/
theorem DeadlineInv.start (h : DeadlineInv none s) (hr : r∉s.left) (hins : ∀ q, q∈l ↔ q∈s.inserted ∨ q=r) :
    DeadlineInv (some r) {s with inserted := l} := by
  refine {h with
    agree := fun d q _ => h.agree d q nofun
    sorted := fun d => (h.sorted d).imp (fun hab _ _ => hab nofun nofun)
    next := fun d q hq => .inl (h.mem_of_next hq)
    apart := fun q hq => ⟨(h.apart q hq).1,fun he => hr (Option.some.inj he ▸ hq)⟩
    account := fun q => ?_}
  rw [hins q,h.mem_inserted q,or_assoc,← Option.some_inj]
  rfl

/-- A request of the scheduler starts to move. -/
theorem DeadlineInv.mono (h : DeadlineInv none s) (hr : r∈s.order (s.dir r)) : DeadlineInv (some r) s := by
  refine h.start (fun hin => (h.apart r hin).1 _ hr) (fun q => (or_iff_left_of_imp fun hq => ?_).symm)
  rw [hq]
  exact (h.mem_inserted r).mpr (.inl ⟨_,hr⟩)

/-- A new request starts to move. -/
theorem DeadlineInv.enter (h : DeadlineInv none s) (hr : r∉s.inserted) :
    DeadlineInv (some r) {s with inserted := s.inserted++[r]} :=
  h.start (fun hin => hr ((h.mem_inserted r).mpr (.inr hin))) (fun _ => by rw [mem_append,mem_singleton])

/-- The request on the move changes. -/
theorem DeadlineInv.setMoving (h : DeadlineInv (some r) s)
    (hz : ∀ d, r∈s.order d ∨ r∈s.fifoList d ∨ s.nextRq d=some r → z.write=d) :
    DeadlineInv (some r) (s.setRq r z) := by
  have hself : (s.setRq r z).dir r=z.write := congrArg Rq.write (update_self ..)
  have hdir : ∀ q, q≠r → (s.setRq r z).dir q=s.dir q := fun q hq => congrArg Rq.write (update_of_ne hq ..)
  have hpos : ∀ q, some q≠some r → (s.setRq r z).pos q=s.pos q := fun q hq =>
    congrArg Rq.pos (update_of_ne (fun he => hq (congrArg some he)) ..)
  refine {h with
    sorted := fun d => ?_, orderDir := fun d q hq => ?_, fifoDir := fun d q hq => ?_, next := fun d q hq => ?_}
  · refine (h.sorted d).imp (fun {a b} hab ha hb => ?_)
    rw [hpos a ha,hpos b hb]
    exact hab ha hb
  · by_cases hqr : q=r
    · rw [hqr] at hq ⊢
      exact hself.trans (hz d (.inl hq))
    · exact (hdir q hqr).trans (h.orderDir d q hq)
  · by_cases hqr : q=r
    · rw [hqr] at hq ⊢
      exact hself.trans (hz d (.inr (.inl hq)))
    · exact (hdir q hqr).trans (h.fifoDir d q hq)
  · rcases h.next d q hq with hin|⟨he,hd⟩
    · exact .inl hin
    · rw [Option.some.inj he] at hq ⊢
      exact .inr ⟨rfl,hself.trans (hz d (.inr (.inr hq)))⟩

/-- The sectors of the request on the move change. -/
theorem DeadlineInv.resize (h : DeadlineInv (some r) s) (hz : z.write=s.dir r) :
    DeadlineInv (some r) (s.setRq r z) := by
  refine h.setMoving (fun d hd => hz.trans ?_)
  rcases hd with hd|hd|hd
  · exact h.orderDir d r hd
  · exact h.fifoDir d r hd
  · exact h.dir_of_next hd

/-- The request on the move is put on its list. -/
theorem DeadlineInv.enqueue (h : DeadlineInv (some r) s) (hr : r∉s.fifoList (s.dir r)) :
    DeadlineInv (some r) (s.setFifo (s.dir r) (s.fifoList (s.dir r)++[r])) := by
  have hmem : ∀ d q, q∈(s.setFifo (s.dir r) (s.fifoList (s.dir r)++[r])).fifoList d ↔
      q∈s.fifoList d ∨ (q=r ∧ d=s.dir r) := by
    intro d q
    change q∈update s.fifoList (s.dir r) _ d ↔ _
    by_cases hd : d=s.dir r
    · rw [hd,update_self,mem_append,mem_singleton]
      simp
    · rw [update_of_ne hd]
      simp [hd]
  refine {h with agree := fun d q hq => ?_, fifoNodup := fun d => ?_, fifoDir := fun d q hq => ?_}
  · rw [hmem]
    have hqr : q≠r := fun he => hq (congrArg some he)
    simp only [hqr,false_and,or_false]
    exact h.agree d q hq
  · change (update s.fifoList (s.dir r) _ d).Nodup
    by_cases hd : d=s.dir r
    · rw [hd,update_self]
      exact (perm_append_singleton r _).nodup_iff.mpr (nodup_cons.mpr ⟨hr,h.fifoNodup _⟩)
    · rw [update_of_ne hd]
      exact h.fifoNodup d
  · rcases (hmem d q).mp hq with hq|⟨hqr,hd⟩
    · exact h.fifoDir d q hq
    · rw [hqr,hd]
      rfl

/-- The request on the move has arrived. -/
theorem DeadlineInv.arrive (h : DeadlineInv (some r) s) (hr : r∈s.order (s.dir r)) (hf : r∈s.fifoList (s.dir r))
    (hs : Sorted s.pos (s.sortList (s.dir r))) : DeadlineInv none s := by
  refine ⟨fun d q _ => ?_,h.fifoNodup,h.orderNodup,fun d => ?_,h.orderDir,h.fifoDir,fun d q hq => ?_,h.one,h.leftNodup,
    fun q hq => ⟨(h.apart q hq).1,nofun⟩,fun q => ?_,h.noBug⟩
  · by_cases hq : q=r
    · rw [hq]
      exact ⟨fun hm => h.fifoDir d r hm ▸ hr,fun hm => h.orderDir d r hm ▸ hf⟩
    · exact h.agree d q (fun he => hq (Option.some.inj he))
  · by_cases hd : d=s.dir r
    · rw [hd]
      exact hs.imp (fun hab _ _ => hab)
    · refine (h.sorted d).imp_of_mem (fun {a b} ha hb hab _ _ => hab ?_ ?_)
      · intro he
        exact hd ((h.orderDir d a ha).symm.trans (congrArg s.dir (Option.some.inj he)))
      · intro he
        exact hd ((h.orderDir d b hb).symm.trans (congrArg s.dir (Option.some.inj he)))
  · rcases h.next d q hq with hin|⟨he,hd⟩
    · exact .inl hin
    · rw [Option.some.inj he] at hd ⊢
      exact .inl (hd ▸ hr)
  · rw [h.account q]
    refine ⟨fun hq => ?_,fun hq => ?_⟩
    · rcases hq with hq|hq|hq
      · exact .inl hq
      · exact .inr (.inl hq)
      · rw [Option.some.inj hq]
        exact .inl ⟨_,hr⟩
    · rcases hq with hq|hq|hq
      · exact .inl hq
      · exact .inr (.inl hq)
      · cases hq

/-- What it takes to let a request go. -/
structure Leaves (s : Data) (a : ℕ) (t : Data) : Prop where
  /-- The requests stay. -/
  rqs : t.rqs=s.rqs
  /-- It is taken from its tree. -/
  order : ∀ d, t.order d=(s.order d).erase a
  fifo : ∀ d, t.fifoList d=(s.fifoList d).erase a
  next : ∀ d q, t.nextRq d=some q → q≠a ∧ (q∈s.order d ∨ s.nextRq d=some q)
  one : t.nextRq false=none ∨ t.nextRq true=none
  inserted : t.inserted=s.inserted
  left : t.left.Perm (a::s.left)
  noBug : t.bug=false

/-- A request leaves, while another one may be on the move or the same one was. -/
theorem DeadlineInv.leave (h : DeadlineInv x s) (hl : Leaves s a t) (ha : a∈s.order (s.dir a)) (hy : some a≠y)
    (hxy : ∀ q, q≠a → (some q=y ↔ some q=x)) : DeadlineInv y t := by
  have hmem : ∀ d q, q∈t.order d ↔ q≠a ∧ q∈s.order d := by
    intro d q
    rw [hl.order d]
    exact (h.orderNodup d).mem_erase_iff
  have hfifo : ∀ d q, q∈t.fifoList d ↔ q≠a ∧ q∈s.fifoList d := by
    intro d q
    rw [hl.fifo d]
    exact (h.fifoNodup d).mem_erase_iff
  have hleft : ∀ q, q∈t.left ↔ q=a ∨ q∈s.left := fun q => hl.left.mem_iff.trans mem_cons
  have hpos : t.pos=s.pos := by
    unfold Data.pos
    rw [hl.rqs]
  have hdir : t.dir=s.dir := by
    unfold Data.dir
    rw [hl.rqs]
  have hstay : a∉s.left := fun hin => (h.apart a hin).1 _ ha
  refine ⟨fun d q hq => ?_,fun d => ?_,fun d => ?_,fun d => ?_,fun d q hq => ?_,fun d q hq => ?_,fun d q hq => ?_,
    hl.one,hl.left.nodup_iff.mpr (nodup_cons.mpr ⟨hstay,h.leftNodup⟩),fun q hq => ?_,fun q => ?_,hl.noBug⟩
  · rw [hfifo,hmem]
    by_cases hqa : q=a
    · exact ⟨fun hc => absurd hqa hc.1,fun hc => absurd hqa hc.1⟩
    · rw [h.agree d q (fun he => hq ((hxy q hqa).mpr he))]
  · rw [hl.fifo d]
    exact (h.fifoNodup d).erase a
  · rw [hl.order d]
    exact (h.orderNodup d).erase a
  · rw [hpos,hl.order d]
    refine ((h.sorted d).sublist erase_sublist).imp_of_mem (fun {b c} hb hc hbc hby hcy => ?_)
    have hba := ((h.orderNodup d).mem_erase_iff.mp hb).1
    have hca := ((h.orderNodup d).mem_erase_iff.mp hc).1
    exact hbc (fun he => hby ((hxy b hba).mpr he)) (fun he => hcy ((hxy c hca).mpr he))
  · rw [hdir]
    exact h.orderDir d q ((hmem d q).mp hq).2
  · rw [hdir]
    exact h.fifoDir d q ((hfifo d q).mp hq).2
  · rw [hmem,hdir]
    obtain ⟨hqa,hq⟩ := hl.next d q hq
    have hq' : q∈s.order d ∨ (some q=x ∧ s.dir q=d) := hq.elim .inl (h.next d q)
    rcases hq' with hin|⟨he,hd⟩
    · exact .inl ⟨hqa,hin⟩
    · exact .inr ⟨(hxy q hqa).mpr he,hd⟩
  · rcases (hleft q).mp hq with hqa|hq
    · rw [hqa]
      exact ⟨fun d hin => ((hmem d a).mp hin).1 rfl,hy⟩
    · obtain ⟨hno,hqx⟩ := h.apart q hq
      have hqa : q≠a := fun he => hstay (he ▸ hq)
      exact ⟨fun d hin => hno d ((hmem d q).mp hin).2,fun he => hqx ((hxy q hqa).mp he)⟩
  · rw [hl.inserted,h.account q,hleft]
    by_cases hqa : q=a
    · rw [hqa]
      exact ⟨fun _ => .inr (.inl (.inl rfl)),fun _ => .inl ⟨_,ha⟩⟩
    · simp only [hmem,hqa,hxy q hqa,ne_eq,not_false_eq_true,true_and,false_or]

/-- What elv_rb_del does to a request that is in its tree. -/
theorem elvRbDel_eq (rb : Balance ℕ) (ha : a∈s.order (s.dir a)) :
    elvRbDel rb s a=s.setSort (s.dir a) (rb.erase (s.sortList (s.dir a)) a) := by
  simp [elvRbDel,Data.bugOn,ha]

theorem deadlineRemoveRequest_eq (rb : Balance ℕ) (ha : a∈s.order (s.dir a)) : deadlineRemoveRequest rb s a={s with
      fifoList := update s.fifoList (s.dir a) ((s.fifoList (s.dir a)).erase a)
      nextRq := if s.nextRq (s.dir a)=some a then update s.nextRq (s.dir a) (latter a (s.order (s.dir a)))
        else s.nextRq
      sortList := update s.sortList (s.dir a) (rb.erase (s.sortList (s.dir a)) a)} := by
  change elvRbDel rb (if s.nextRq (s.dir a)=some a
    then (s.setFifo (s.dir a) ((s.fifoList (s.dir a)).erase a)).setNext (s.dir a) (latter a (s.order (s.dir a)))
    else s.setFifo (s.dir a) ((s.fifoList (s.dir a)).erase a)) a=_
  by_cases hn : s.nextRq (s.dir a)=some a
  · rw [if_pos hn,if_pos hn]
    exact elvRbDel_eq rb ha
  · rw [if_neg hn,if_neg hn]
    exact elvRbDel_eq rb ha

/-- A request is taken from its tree. -/
theorem DeadlineInv.order_erase (h : DeadlineInv x s) (rb : Balance ℕ) (a : ℕ) (d : Bool) :
    (s.setSort (s.dir a) (rb.erase (s.sortList (s.dir a)) a)).order d=(s.order d).erase a := by
  change inorder (update s.sortList (s.dir a) (rb.erase (s.sortList (s.dir a)) a) d)=_
  by_cases hd : d=s.dir a
  · rw [hd,update_self]
    exact rb.inorder_erase _ a
  · rw [update_of_ne hd]
    exact (erase_of_not_mem (fun hin => hd (h.orderDir d a hin).symm)).symm

/-- A request is removed and counted as one that has left; the next request was chosen before. -/
theorem DeadlineInv.removed (h : DeadlineInv x s) (rb : Balance ℕ) (ha : a∈s.order (s.dir a)) {n : Bool → Option ℕ}
    {e : ℕ} {m : List ℕ} (hn : ∀ d q, n d=some q → q∈s.order d ∨ s.nextRq d=some q)
    (hone : n false=none ∨ n true=none) (hleft : (l++m).Perm (a::s.left)) :
    Leaves s a {deadlineRemoveRequest rb {s with nextRq := n, lastSector := e} a with
      dispatched := l, merged := m} := by
  rw [deadlineRemoveRequest_eq rb (s := {s with nextRq := n, lastSector := e}) ha]
  refine ⟨rfl,fun d => ?_,fun d => ?_,fun d q hq => ?_,?_,rfl,hleft,h.noBug⟩
  · exact h.order_erase rb a d
  · change update s.fifoList (s.dir a) ((s.fifoList (s.dir a)).erase a) d=_
    by_cases hd : d=s.dir a
    · rw [hd,update_self]
    · rw [update_of_ne hd]
      exact (erase_of_not_mem (fun hin => hd (h.fifoDir d a hin).symm)).symm
  · change (if n (s.dir a)=some a then update n (s.dir a) (latter a (s.order (s.dir a))) else n) d=some q at hq
    split at hq
    case isTrue hna =>
      by_cases hd : d=s.dir a
      · rw [hd,update_self] at hq
        obtain ⟨hin,hne⟩ := latter_mem (h.orderNodup _) hq
        exact ⟨hne,.inl (hd ▸ hin)⟩
      · rw [update_of_ne hd] at hq
        have hother : n (!d)=some a := by
          have hdd : s.dir a=!d := by
            cases d <;> cases hda : s.dir a <;> simp_all
          rw [← hdd]
          exact hna
        cases d <;> rcases hone with hno|hno <;> simp_all
    case isFalse hna =>
      refine ⟨fun hqa => hna ?_,hn d q hq⟩
      rw [hqa] at hq
      rw [(hn d a hq).elim (h.orderDir d a) h.dir_of_next]
      exact hq
  · change (if n (s.dir a)=some a then update n (s.dir a) (latter a (s.order (s.dir a))) else n) false=none ∨
      (if n (s.dir a)=some a then update n (s.dir a) (latter a (s.order (s.dir a))) else n) true=none
    split
    case isTrue hna =>
      cases hd : s.dir a with
      | false =>
        rw [hd] at hna
        rcases hone with hno|hno
        · cases hna.symm.trans hno
        · exact .inr hno
      | true =>
        rw [hd] at hna
        rcases hone with hno|hno
        · exact .inl hno
        · cases hna.symm.trans hno
    case isFalse => exact hone

theorem DeadlineInv.moved (h : DeadlineInv x s) (rb : Balance ℕ) (ha : a∈s.order (s.dir a)) (hx : some a≠x) :
    Leaves s a (deadlineMoveRequest rb s a) ∧ DeadlineInv x (deadlineMoveRequest rb s a) := by
  have hl : Leaves s a (deadlineMoveRequest rb s a) := by
    let n := update (update (update s.nextRq false none) true none) (s.dir a)
      (latter a (s.order (s.dir a)))
    let u := {s with nextRq := n, lastSector := rqEndSector s a}
    have heq : deadlineMoveRequest rb s a=
        {deadlineRemoveRequest rb u a with dispatched := s.dispatched++[a], merged := s.merged} := by
      change {deadlineRemoveRequest rb u a with dispatched := (deadlineRemoveRequest rb u a).dispatched++[a]}=_
      rw [deadlineRemoveRequest_eq rb (s := u) ha]
    rw [heq]
    refine h.removed rb ha (fun d q hq => ?_) ?_ ?_
    · by_cases hd : d=s.dir a
      · rw [hd] at hq
        change update (update (update s.nextRq false none) true none) (s.dir a)
          (latter a (s.order (s.dir a))) (s.dir a)=some q at hq
        rw [update_self] at hq
        exact .inl (hd ▸ (latter_mem (h.orderNodup _) hq).1)
      · have hnone := (update_of_ne hd ..).symm.trans hq
        cases d <;> cases hnone
    · cases hd : s.dir a
      · exact .inr (by simp [n,hd])
      · exact .inl (by simp [n,hd])
    · change ((s.dispatched++[a])++s.merged).Perm (a::(s.dispatched++s.merged))
      rw [append_assoc]
      exact perm_middle
  exact ⟨hl,h.leave hl ha hx (fun _ _ => Iff.rfl)⟩

/-- While the request on the move is not in its tree, the tree is sorted. -/
theorem DeadlineInv.tree (h : DeadlineInv (some r) s) (hr : r∉s.order (s.dir r)) :
    Sorted s.pos (s.sortList (s.dir r)) := by
  refine (h.sorted (s.dir r)).imp_of_mem (fun {a b} ha hb hab => hab ?_ ?_)
  · intro he
    exact hr (Option.some.inj he ▸ ha)
  · intro he
    exact hr (Option.some.inj he ▸ hb)

/-- The request on the move is in its tree again. -/
structure Placed (s : Data) (r : ℕ) (t : Data) : Prop where
  /-- Every other request is where it should be. -/
  inv : DeadlineInv (some r) t
  /-- The request is in its tree. -/
  mem : r∈t.order (t.dir r)
  sorted : Sorted t.pos (t.sortList (t.dir r))
  /-- The requests stay. -/
  rqs : t.rqs=s.rqs
  /-- Whether it is on its list stays. -/
  fifo : ∀ d, r∈t.fifoList d ↔ r∈s.fifoList d

/-- The tree of the request on the move changes, but for this request. -/
theorem DeadlineInv.setTree (h : DeadlineInv (some r) s) {u : BinaryTree ℕ}
    (hu : ∀ q, q≠r → (q∈inorder u ↔ q∈s.order (s.dir r))) (hnodup : (inorder u).Nodup)
    (hsorted : (inorder u).Pairwise (fun a b => some a≠some r → some b≠some r → s.pos a<s.pos b)) :
    DeadlineInv (some r) (s.setSort (s.dir r) u) := by
  have hself : (s.setSort (s.dir r) u).order (s.dir r)=inorder u := congrArg inorder (update_self ..)
  have hother : ∀ d, d≠s.dir r → (s.setSort (s.dir r) u).order d=s.order d :=
    fun d hd => congrArg inorder (update_of_ne hd ..)
  have hmem : ∀ d q, q≠r → (q∈(s.setSort (s.dir r) u).order d ↔ q∈s.order d) := by
    intro d q hq
    by_cases hd : d=s.dir r
    · rw [hd,hself]
      exact hu q hq
    · rw [hother d hd]
  refine {h with
    agree := fun d q hq => (h.agree d q hq).trans (hmem d q (fun he => hq (congrArg some he))).symm
    orderNodup := fun d => ?_
    sorted := fun d => ?_
    orderDir := fun d q hq => ?_
    next := fun d q hq => ?_
    apart := fun q hq => ⟨fun d hd => ?_,(h.apart q hq).2⟩
    account := fun q => ?_}
  · by_cases hd : d=s.dir r
    · rw [hd,hself]
      exact hnodup
    · rw [hother d hd]
      exact h.orderNodup d
  · by_cases hd : d=s.dir r
    · rw [hd,hself]
      exact hsorted
    · rw [hother d hd]
      exact h.sorted d
  · by_cases hqr : q=r
    · rw [hqr] at hq ⊢
      by_contra hd
      rw [hother d (Ne.symm hd)] at hq
      exact hd (h.orderDir d r hq)
    · exact h.orderDir d q ((hmem d q hqr).mp hq)
  · by_cases hqr : q=r
    · exact .inr ⟨congrArg some hqr,h.dir_of_next hq⟩
    · exact (h.next d q hq).imp (hmem d q hqr).mpr id
  · have hqr : q≠r := fun he => (h.apart q hq).2 (congrArg some he)
    exact (h.apart q hq).1 d ((hmem d q hqr).mp hd)
  · refine (h.account q).trans ?_
    by_cases hqr : q=r
    · rw [hqr]
      exact ⟨fun _ => .inr (.inr rfl),fun _ => .inr (.inr rfl)⟩
    · simp only [hmem _ q hqr]
      rfl

/-- No request has the start sector of the one that is linked. -/
theorem DeadlineInv.linked (h : DeadlineInv (some r) s) (rb : Balance ℕ) (hr : r∉s.order (s.dir r))
    (hs : search (toKey s.pos (s.pos r)) (s.sortList (s.dir r))=none) :
    Placed s r (s.setSort (s.dir r) (rb.color (link (toKey s.pos (s.pos r)) r (s.sortList (s.dir r))))) := by
  have hfree : ∀ b∈inorder (s.sortList (s.dir r)), s.pos b≠s.pos r := fun b hb => search_eq_none (h.tree hr) hs hb
  have hsorted := link_sorted (h.tree hr) hfree
  obtain ⟨l,m,hold,hnew,_,_⟩ := link_inorder (toKey s.pos (s.pos r)) r (s.sortList (s.dir r))
  generalize link (toKey s.pos (s.pos r)) r (s.sortList (s.dir r))=u at hsorted hnew
  have hcolor : Sorted s.pos (rb.color u) := by
    unfold Sorted
    rw [rb.inorder_color]
    exact hsorted
  have hself : (s.setSort (s.dir r) (rb.color u)).sortList (s.dir r)=rb.color u := update_self ..
  have hperm : (inorder (rb.color u)).Perm (r::s.order (s.dir r)) := by
    rw [rb.inorder_color,hnew]
    unfold Data.order
    rw [hold]
    exact perm_middle
  refine ⟨h.setTree (fun q hq => ?_) hcolor.nodup (hcolor.imp (fun hab _ _ => hab)),?_,?_,rfl,fun _ => Iff.rfl⟩
  · rw [hperm.mem_iff,mem_cons]
    exact or_iff_right hq
  · change r∈inorder ((s.setSort (s.dir r) (rb.color u)).sortList (s.dir r))
    rw [hself]
    exact hperm.mem_iff.mpr mem_cons_self
  · change Sorted s.pos ((s.setSort (s.dir r) (rb.color u)).sortList (s.dir r))
    rw [hself]
    exact hcolor

/-- The search of deadline_add_rq_rb ends without an alias. -/
theorem deadlineAddRqRb_none (rb : Balance ℕ) (n : ℕ)
    (hs : search (toKey s.pos (s.pos r)) (s.sortList (s.dir r))=none) : deadlineAddRqRb rb (n+1) s r=
      some (s.setSort (s.dir r) (rb.color (link (toKey s.pos (s.pos r)) r (s.sortList (s.dir r))))) := by
  simp only [deadlineAddRqRb,elvRbAdd,hs]

/-- The search of deadline_add_rq_rb ends at an alias. -/
theorem deadlineAddRqRb_some (rb : Balance ℕ) (n : ℕ)
    (hs : search (toKey s.pos (s.pos r)) (s.sortList (s.dir r))=some a) :
    deadlineAddRqRb rb (n+1) s r=deadlineAddRqRb rb n (deadlineMoveRequest rb s a) r := by
  simp only [deadlineAddRqRb,elvRbAdd,hs]

/-- deadline_add_rq_rb ends after two searches. -/
theorem DeadlineInv.addRqRb (h : DeadlineInv (some r) s) (rb : Balance ℕ) (hr : r∉s.order (s.dir r)) :
    ∃ t, deadlineAddRqRb rb 2 s r=some t ∧ Placed s r t := by
  cases hs : search (toKey s.pos (s.pos r)) (s.sortList (s.dir r)) with
  | none => exact ⟨_,deadlineAddRqRb_none rb 1 hs,h.linked rb hr hs⟩
  | some a =>
    obtain ⟨hin,heq⟩ := search_mem hs
    have hpos : s.pos r=s.pos a := compare_eq_iff_eq.mp heq
    have hda : s.dir a=s.dir r := h.orderDir _ a hin
    have hne : a≠r := fun he => hr (he ▸ hin)
    have ha : a∈s.order (s.dir a) := hda ▸ hin
    obtain ⟨hl,hi⟩ := h.moved rb ha (fun he => hne (Option.some.inj he))
    let u := deadlineMoveRequest rb s a
    have hudir : u.dir r=s.dir r := congrArg (fun f => (f r).write) hl.rqs
    have hupos : u.pos=s.pos := funext (fun q => congrArg (fun f => (f q).pos) hl.rqs)
    have hmem : ∀ q, q∈u.order (s.dir r) ↔ q≠a ∧ q∈s.order (s.dir r) := by
      intro q
      rw [hl.order]
      exact (h.orderNodup _).mem_erase_iff
    have hru : r∉u.order (u.dir r) := by
      rw [hudir]
      exact fun hc => hr ((hmem r).mp hc).2
    have hsu : search (toKey u.pos (u.pos r)) (u.sortList (u.dir r))=none := by
      cases hc : search (toKey u.pos (u.pos r)) (u.sortList (u.dir r)) with
      | none => rfl
      | some b =>
        obtain ⟨hb,hcmp⟩ := search_mem hc
        have hbpos : u.pos r=u.pos b := compare_eq_iff_eq.mp hcmp
        rw [hudir] at hb
        obtain ⟨hba,hbs⟩ := (hmem b).mp hb
        rw [hupos,hpos] at hbpos
        exact absurd ((h.tree hr).inj hbs hin hbpos.symm) hba
    have hp := hi.linked rb hru hsu
    refine ⟨_,?_,⟨hp.inv,hp.mem,hp.sorted,hp.rqs.trans hl.rqs,fun d => ?_⟩⟩
    · rw [deadlineAddRqRb_some rb 1 hs]
      exact deadlineAddRqRb_none rb 0 hsu
    · rw [hp.fifo d,hl.fifo d,(h.fifoNodup d).mem_erase_iff]
      exact and_iff_right hne.symm

/-- A request changes, but not its direction and its start. -/
theorem DeadlineInv.grow (h : DeadlineInv x s) (hd : z.write=s.dir r) (hp : z.pos=s.pos r) :
    DeadlineInv x (s.setRq r z) := by
  have hdir := setRq_dir hd
  have hpos := setRq_pos hp
  refine {h with
    sorted := fun d => ?_, orderDir := fun d q hq => ?_, fifoDir := fun d q hq => ?_, next := fun d q hq => ?_}
  · rw [hpos]
    exact h.sorted d
  · rw [hdir]
    exact h.orderDir d q hq
  · rw [hdir]
    exact h.fifoDir d q hq
  · rw [hdir]
    exact h.next d q hq

theorem DeadlineInv.add (h : DeadlineInv none s) (rb : Balance ℕ) (hr : r∉s.inserted) (z : Rq) (jiffies : BitVec 64) :
    ∃ t, deadlineAddRequest rb {s.setRq r z with inserted := s.inserted++[r]} r jiffies=some t ∧
      DeadlineInv none t := by
  have hnew := mt (h.mem_inserted r).mpr hr
  have horder : ∀ d, r∉s.order d := fun d hd => hnew (.inl ⟨d,hd⟩)
  have hfifo : ∀ d, r∉s.fifoList d := fun d hd => horder d ((h.agree d r nofun).mp hd)
  have hmove : DeadlineInv (some r) {s.setRq r z with inserted := s.inserted++[r]} :=
    (h.enter hr).setMoving (fun d hd => absurd hd (fun hd => by
      rcases hd with hd|hd|hd
      · exact horder d hd
      · exact hfifo d hd
      · exact horder d (h.mem_of_next hd)))
  obtain ⟨t,ht,hp⟩ := hmove.addRqRb rb (horder _)
  have hout : r∉t.fifoList (t.dir r) := fun hin => hfifo _ ((hp.fifo _).mp hin)
  let w : Rq := {t.rqs r with fifoTime := jiffies+t.fifoExpire (t.dir r)}
  have hdir : (t.setRq r w).dir r=t.dir r := congrFun (setRq_dir (s := t) (z := w) rfl) r
  have hpos : (t.setRq r w).pos=t.pos := setRq_pos (s := t) (z := w) rfl
  have hlist := (hp.inv.resize (z := w) rfl).enqueue (by rw [hdir]; exact hout)
  refine ⟨_,by rw [deadlineAddRequest,ht]; rfl,hlist.arrive ?_ ?_ ?_⟩
  · change r∈t.order ((t.setRq r w).dir r)
    rw [hdir]
    exact hp.mem
  · change r∈update t.fifoList ((t.setRq r w).dir r) _ ((t.setRq r w).dir r)
    rw [update_self]
    exact mem_append_right _ (mem_singleton_self r)
  · change Sorted (t.setRq r w).pos (t.sortList ((t.setRq r w).dir r))
    rw [hpos,hdir]
    exact hp.sorted

/-- deadline_merged_request of a request whose start has changed. -/
theorem DeadlineInv.reposition (h : DeadlineInv (some r) s) (rb : Balance ℕ) (hr : r∈s.order (s.dir r))
    (hf : r∈s.fifoList (s.dir r)) : ∃ t, deadlineMergedRequest rb s r=some t ∧ DeadlineInv none t := by
  have hmem : ∀ q, q∈inorder (rb.erase (s.sortList (s.dir r)) r) ↔ q≠r ∧ q∈s.order (s.dir r) := by
    intro q
    rw [rb.inorder_erase]
    exact (h.orderNodup _).mem_erase_iff
  have hdel : DeadlineInv (some r) (s.setSort (s.dir r) (rb.erase (s.sortList (s.dir r)) r)) := by
    refine h.setTree (fun q hq => (hmem q).trans (and_iff_right hq)) ?_ ?_
    · rw [rb.inorder_erase]
      exact (h.orderNodup _).erase r
    · rw [rb.inorder_erase]
      exact (h.sorted _).sublist erase_sublist
  unfold deadlineMergedRequest
  rw [elvRbDel_eq rb hr]
  have hout : r∉(s.setSort (s.dir r) (rb.erase (s.sortList (s.dir r)) r)).order (s.dir r) := by
    rw [h.order_erase rb r]
    exact (h.orderNodup _).not_mem_erase
  obtain ⟨t,ht,hp⟩ := hdel.addRqRb rb hout
  have hdir : t.dir r=s.dir r := congrArg (fun f => (f r).write) hp.rqs
  refine ⟨t,ht,hp.inv.arrive hp.mem ((hp.fifo _).mpr ?_) hp.sorted⟩
  rw [hdir]
  exact hf

theorem listMove_perm (hr : r∈l) (hn : next∈l.erase r) (hl : (l.erase r).Nodup) :
    (listMove r next l).Perm l := moveBehind_perm hr hn hl

/-- A list changes its order. -/
theorem DeadlineInv.permFifo (h : DeadlineInv x s) (hl : l.Perm (s.fifoList d)) :
    DeadlineInv x (s.setFifo d l) := by
  have hperm : ∀ e, ((s.setFifo d l).fifoList e).Perm (s.fifoList e) := by
    intro e
    change (update s.fifoList d l e).Perm _
    by_cases he : e=d
    · rw [he,update_self]
      exact hl
    · rw [update_of_ne he]
  refine {h with
    agree := fun e q hq => (hperm e).mem_iff.trans (h.agree e q hq)
    fifoNodup := fun e => (hperm e).nodup_iff.mpr (h.fifoNodup e)
    fifoDir := fun e q hq => h.fifoDir e q ((hperm e).mem_iff.mp hq)}

/-- A request is removed because it was merged into another one. -/
theorem DeadlineInv.mergedAway (h : DeadlineInv (some next) s) (rb : Balance ℕ) (hn : next∈s.order (s.dir next)) :
    DeadlineInv none ((deadlineRemoveRequest rb s next).logMerged next) := by
  have hl : Leaves s next {deadlineRemoveRequest rb s next with
      dispatched := s.dispatched, merged := s.merged++[next]} := by
    refine h.removed rb hn (fun _ _ hq => .inr hq) h.one ?_
    rw [← append_assoc]
    exact perm_append_singleton next s.left
  have heq : (deadlineRemoveRequest rb s next).logMerged next=
      {deadlineRemoveRequest rb s next with dispatched := s.dispatched, merged := s.merged++[next]} := by
    rw [deadlineRemoveRequest_eq rb hn]
    rfl
  rw [heq]
  exact h.leave hl hn nofun (fun q hq => ⟨nofun,fun he => absurd (Option.some.inj he) hq⟩)

theorem DeadlineInv.mergedRequests (h : DeadlineInv (some next) s) (rb : Balance ℕ) (hn : next∈s.order (s.dir next))
    (hd : s.dir r=s.dir next) (hrn : next≠r) :
    DeadlineInv none ((deadlineMergedRequests rb s r next).logMerged next) := by
  unfold deadlineMergedRequests takeFifo
  split
  case isTrue hc =>
    obtain ⟨hr,hnext,_⟩ := hc
    rw [← hd] at hnext
    have hin : next∈(s.fifoList (s.dir r)).erase r := (mem_erase_of_ne hrn).mpr hnext
    have hperm := listMove_perm hr hin ((h.fifoNodup _).erase r)
    let z : Rq := {s.rqs r with fifoTime := (s.rqs next).fifoTime}
    have hdir := setRq_dir (s := s.setFifo (s.dir r) (listMove r next (s.fifoList (s.dir r)))) (r := r) (z := z) rfl
    refine ((h.permFifo hperm).grow (z := z) rfl rfl).mergedAway rb ?_
    rw [hdir]
    exact hn
  case isFalse => exact h.mergedAway rb hn

/-- attempt_merge of two requests of the scheduler. -/
theorem DeadlineInv.merge (h : DeadlineInv (some next) s) (rb : Balance ℕ) (hn : next∈s.order (s.dir next))
    (hrn : next≠r) (hm : attemptMerge rb s r next=some t) : DeadlineInv none t := by
  obtain ⟨⟨_,hd⟩,rfl⟩ := of_guard hm
  let z : Rq := {s.rqs r with sectors := (s.rqs r).sectors+(s.rqs next).sectors}
  have hdir := setRq_dir (s := s) (r := r) (z := z) rfl
  refine (h.grow (z := z) rfl rfl).mergedRequests rb ?_ ?_ hrn
  · rw [hdir]
    exact hn
  · rw [hdir]
    exact hd

/-- A bio is merged at the end of a request. -/
theorem DeadlineInv.back (h : DeadlineInv none s) (rb : Balance ℕ) (r : ℕ) (b : Bio) (allow : Bool) :
    ∃ t, backMerge rb s r b allow=some t ∧ DeadlineInv none t := by
  unfold backMerge
  have hg : DeadlineInv none (s.setRq r {s.rqs r with sectors := (s.rqs r).sectors+b.sectors}) := h.grow rfl rfl
  generalize s.setRq r {s.rqs r with sectors := (s.rqs r).sectors+b.sectors}=u at hg
  dsimp only
  cases hl : latter r (u.order (u.dir r)) with
  | none => exact ⟨u,rfl,hg⟩
  | some next =>
    obtain ⟨hin,hne⟩ := latter_mem (hg.orderNodup _) hl
    have hn : next∈u.order (u.dir next) := (hg.orderDir _ next hin).symm ▸ hin
    refine ⟨_,rfl,?_⟩
    cases allow with
    | false => exact hg
    | true =>
      cases hm : attemptMerge rb u r next with
      | none => exact hg
      | some t => exact (hg.mono hn).merge rb hn hne hm

/-- A bio is merged at the front of a request. -/
theorem DeadlineInv.front (h : DeadlineInv none s) (rb : Balance ℕ) (hr : r∈s.order (s.dir r)) (b : Bio)
    (allow : Bool) : ∃ t, frontMerge rb s r b allow=some t ∧ DeadlineInv none t := by
  unfold frontMerge
  let z : Rq := {s.rqs r with pos := b.sector, sectors := (s.rqs r).sectors+b.sectors}
  have hdir := setRq_dir (s := s) (r := r) (z := z) rfl
  have hi : DeadlineInv (some r) (s.setRq r z) := (h.mono hr).resize rfl
  have hin : r∈(s.setRq r z).order ((s.setRq r z).dir r) := by
    rw [hdir]
    exact hr
  have hf : r∈(s.setRq r z).fifoList ((s.setRq r z).dir r) := by
    rw [hdir]
    exact (h.agree _ r nofun).mpr hr
  have hplace := hi.reposition rb hin hf
  dsimp only
  change ∃ t, (match former r ((s.setRq r z).order ((s.setRq r z).dir r)) with
    | some prev =>
      if allow then
        match attemptMerge rb (s.setRq r z) prev r with
        | some s => some s
        | none => deadlineMergedRequest rb (s.setRq r z) r
      else deadlineMergedRequest rb (s.setRq r z) r
    | none => deadlineMergedRequest rb (s.setRq r z) r)=some t ∧ DeadlineInv none t
  cases hl : former r ((s.setRq r z).order ((s.setRq r z).dir r)) with
  | none => exact hplace
  | some prev =>
    cases allow with
    | false => exact hplace
    | true =>
      cases hm : attemptMerge rb (s.setRq r z) prev r with
      | none =>
        simp only [hm]
        exact hplace
      | some t =>
        simp only [hm]
        exact ⟨t,rfl,hi.merge rb hin (former_mem (hi.orderNodup _) hl).2.symm hm⟩

/-- deadline_merge finds a request of the scheduler. -/
theorem DeadlineInv.find (h : DeadlineInv none s) (b : Bio) (ok : Bool) :
    (deadlineMerge s b ok).1=s ∧ ∀ r, (deadlineMerge s b ok).2=some r → r∈s.order (s.dir r) := by
  unfold deadlineMerge
  split
  case isFalse => exact ⟨rfl,nofun⟩
  case isTrue =>
    cases hs : search (toKey s.pos (b.sector+b.sectors)) (s.sortList b.write) with
    | none => exact ⟨rfl,nofun⟩
    | some r =>
      obtain ⟨hin,heq⟩ := search_mem hs
      have hpos : b.sector+b.sectors=s.pos r := compare_eq_iff_eq.mp heq
      refine ⟨?_,fun q hq => ?_⟩
      · simp [Data.bugOn,hpos]
      · obtain ⟨_,rfl⟩ := of_guard hq
        rw [h.orderDir _ r hin]
        exact hin

/-- The number of requests of the scheduler. -/
def Data.size (s : Data) : ℕ := (s.fifoList false).length+(s.fifoList true).length

structure Dispatched (s : Data) (x : Data × Bool) : Prop where
  /-- The state is consistent. -/
  inv : DeadlineInv none x.1
  inserted : x.1.inserted=s.inserted
  /-- There is one request less. -/
  size : x.1.size+1=s.size
  /-- The function says so. -/
  returned : x.2=true

/-- deadline_move_request takes a request away. -/
theorem DeadlineInv.dispatched (h : DeadlineInv none s) (rb : Balance ℕ) (ha : a∈s.order d) :
    Dispatched s (dispatchRequest rb s a,true) := by
  have hi : DeadlineInv none {s with batching := s.batching+1} := {h with}
  have hda : s.dir a=d := h.orderDir d a ha
  obtain ⟨hl,hinv⟩ := hi.moved rb (a := a) (by rw [← hda] at ha; exact ha) nofun
  refine ⟨hinv,hl.inserted,?_,rfl⟩
  have hf : a∈s.fifoList d := (h.agree d a nofun).mpr ha
  have hself : (s.fifoList d).length=((s.fifoList d).erase a).length+1 := by
    have hpos := length_pos_of_mem hf
    rw [length_erase_of_mem hf]
    omega
  have hother : (s.fifoList (!d)).erase a=s.fifoList (!d) := by
    refine erase_of_not_mem (fun hin => ?_)
    have hbad := (h.fifoDir _ a hin).symm.trans hda
    cases d <;> cases hbad
  unfold Data.size dispatchRequest
  rw [hl.fifo false,hl.fifo true]
  change ((s.fifoList false).erase a).length+((s.fifoList true).erase a).length+1=_
  cases d with
  | false =>
    have hkeep : (s.fifoList true).erase a=s.fifoList true := hother
    rw [hkeep,hself]
    omega
  | true =>
    have hkeep : (s.fifoList false).erase a=s.fifoList false := hother
    rw [hkeep,hself]
    omega

/-- The label dispatch_find_request finds a request. -/
theorem DeadlineInv.findRequest (h : DeadlineInv none s) (rb : Balance ℕ) (hd : s.fifoList d≠[]) (jiffies : BitVec 64) :
    Dispatched s (dispatchFrom rb s d jiffies) := by
  have hfind : ∃ a∈s.order d, dispatchFindRequest s d jiffies=some a := by
    unfold dispatchFindRequest
    obtain ⟨a,l,hl⟩ := exists_cons_of_ne_nil hd
    have ha : a∈s.order d := (h.agree d a nofun).mp (hl ▸ mem_cons_self)
    split
    · exact ⟨a,ha,by rw [hl]; rfl⟩
    · rename_i hno
      cases hn : s.nextRq d with
      | none =>
        rw [hn] at hno
        exact absurd (Bool.or_true _) hno
      | some q => exact ⟨q,h.mem_of_next hn,rfl⟩
  obtain ⟨a,ha,hfa⟩ := hfind
  unfold dispatchFrom
  rw [hfa]
  have hi : DeadlineInv none {s with batching := 0} := {h with}
  exact {hi.dispatched rb ha with}

/-- A direction that has requests has them in the tree. -/
theorem DeadlineInv.bugOn_order (h : DeadlineInv none s) (hd : s.fifoList d≠[]) : s.bugOn (s.order d).isEmpty=s := by
  obtain ⟨a,l,hl⟩ := exists_cons_of_ne_nil hd
  have ha : a∈s.order d := (h.agree d a nofun).mp (hl ▸ mem_cons_self)
  rw [isEmpty_eq_false_iff.mpr (ne_nil_of_mem ha)]
  simp [Data.bugOn]

/-- The label dispatch_writes. -/
theorem DeadlineInv.writes (h : DeadlineInv none s) (rb : Balance ℕ) (hd : s.fifoList true≠[]) (jiffies : BitVec 64) :
    Dispatched s (dispatchWrites rb s jiffies) := by
  unfold dispatchWrites
  rw [h.bugOn_order hd]
  have hi : DeadlineInv none {s with starved := 0} := {h with}
  exact {hi.findRequest rb hd jiffies with}

/-- deadline_dispatch_requests dispatches a request, or there is none. -/
theorem DeadlineInv.dispatch (h : DeadlineInv none s) (rb : Balance ℕ) (jiffies : BitVec 64) :
    Dispatched s (deadlineDispatchRequests rb s jiffies) ∨
      (deadlineDispatchRequests rb s jiffies=(s,false) ∧ s.fifoList false=[] ∧ s.fifoList true=[]) := by
  have hdirection : Dispatched s (dispatchDirection rb s jiffies) ∨
      (dispatchDirection rb s jiffies=(s,false) ∧ s.fifoList false=[] ∧ s.fifoList true=[]) := by
    unfold dispatchDirection
    cases hr : (s.fifoList false).isEmpty with
    | true =>
      cases hw : (s.fifoList true).isEmpty with
      | true => exact .inr ⟨rfl,isEmpty_iff.mp hr,isEmpty_iff.mp hw⟩
      | false => exact .inl (h.writes rb (isEmpty_eq_false_iff.mp hw) jiffies)
    | false =>
      have hreads := isEmpty_eq_false_iff.mp hr
      refine .inl ?_
      rw [h.bugOn_order hreads]
      cases hw : (s.fifoList true).isEmpty with
      | true => exact h.findRequest rb hreads jiffies
      | false =>
        have hi : DeadlineInv none {s with starved := s.starved+1} := {h with}
        change Dispatched s (if s.writesStarved ≤ s.starved
          then dispatchWrites rb {s with starved := s.starved+1} jiffies
          else dispatchFrom rb {s with starved := s.starved+1} false jiffies)
        split
        · exact {hi.writes rb (isEmpty_eq_false_iff.mp hw) jiffies with}
        · exact {hi.findRequest rb hreads jiffies with}
  have hnext : ∀ a, (if (s.nextRq true).isSome then s.nextRq true else s.nextRq false)=some a → ∃ d, a∈s.order d := by
    intro a ha
    have hd : ∃ d, s.nextRq d=some a := by
      split at ha
      · exact ⟨true,ha⟩
      · exact ⟨false,ha⟩
    obtain ⟨d,hd⟩ := hd
    exact ⟨d,h.mem_of_next hd⟩
  unfold deadlineDispatchRequests
  split
  · rename_i a ha
    split
    · obtain ⟨d,hd⟩ := hnext a ha
      exact .inl (h.dispatched rb hd)
    · exact hdirection
  · exact hdirection

/-- Repeated dispatches empty the scheduler. -/
theorem DeadlineInv.drained (h : DeadlineInv none s) (rb : Balance ℕ) (jiffies : ℕ → BitVec 64) {n : ℕ}
    (hn : s.size<n) :
    ∃ t, drain rb jiffies n s=some t ∧ DeadlineInv none t ∧ t.inserted=s.inserted ∧ t.fifoList false=[] ∧
      t.fifoList true=[] := by
  induction n generalizing s with
  | zero => exact absurd hn (Nat.not_lt_zero _)
  | succ n ih =>
    unfold drain
    rcases h.dispatch rb (jiffies n) with hd|⟨heq,hempty⟩
    · have hsize := hd.size
      obtain ⟨t,ht,hi,hins,hf⟩ := ih hd.inv (by omega)
      exact ⟨t,(if_pos hd.returned).trans ht,hi,hins.trans hd.inserted,hf⟩
    · rw [heq]
      exact ⟨s,rfl,h,rfl,hempty⟩

/-- An event that can happen ends, and keeps the invariant. -/
theorem DeadlineInv.perform (h : DeadlineInv none s) (rb : Balance ℕ) {e : Event} (he : enabled s e=true) :
    ∃ t, perform rb s e=some t ∧ DeadlineInv none t := by
  cases e with
  | add r z jiffies => exact h.add rb (of_decide_eq_true he) z jiffies
  | back r b allow => exact h.back rb r b allow
  | front cached b ok allow =>
    cases cached with
    | some r =>
      have hr : r∈s.order (s.dir r) := of_decide_eq_true (Bool.and_eq_true_iff.mp he).1
      exact h.front rb hr b allow
    | none =>
      obtain ⟨hs,hfind⟩ := h.find b ok
      simp only [DeadlineScheduler.perform]
      cases hm : deadlineMerge s b ok with
      | mk u o =>
        rw [hm] at hs hfind
        have hus : u=s := hs
        rw [hus]
        cases o with
        | none => exact ⟨s,rfl,h⟩
        | some r => exact h.front rb (hfind r rfl) b allow
  | dispatch jiffies =>
    refine ⟨_,rfl,?_⟩
    rcases h.dispatch rb jiffies with hd|⟨heq,_⟩
    · exact hd.inv
    · rw [heq]
      exact h
  | tune expire batch starved merges => exact ⟨_,rfl,{h with}⟩

/-- The scheduler starts without requests. -/
theorem DeadlineInv.init (hs : Start s) : DeadlineInv none s := by
  obtain ⟨hsort,hfifo,hnext,hins,hdis,hmer,hbug⟩ := hs
  have horder : ∀ d, s.order d=[] := fun d => by
    unfold Data.order
    rw [hsort]
    rfl
  have hleft : s.left=[] := by
    unfold Data.left
    rw [hdis,hmer]
    rfl
  constructor <;> simp [horder,hleft,hfifo,hnext,hins,hbug]

theorem DeadlineInv.run (h : DeadlineRun rb s) : DeadlineInv none s := by
  refine Reachable.invariant (I := DeadlineInv none) (fun _ hs => DeadlineInv.init hs) (fun _ _ _ _ hi hs => ?_) h
  obtain ⟨he,ht⟩ := Option.ite_none_right_eq_some.mp hs
  obtain ⟨u,hu,hinv⟩ := hi.perform rb he
  exact Option.some.inj (ht.symm.trans hu) ▸ hinv

end

/-- In every state the requests of each direction are the same in the tree and on the list,
at most one direction has a next request and it is in its tree; every event that can happen
ends; a request that was inserted is in a tree or has left exactly once; repeated dispatches
empty both directions, after which every request has left exactly once and deadline_exit_queue
meets no BUG_ON. -/
theorem deadline_consistent (rb : Balance ℕ) {s : Data} (h : DeadlineRun rb s) :
    (∀ d, (s.order d).Perm (s.fifoList d) ∧ (s.fifoList d).Nodup) ∧
      (s.nextRq false=none ∨ s.nextRq true=none) ∧ (∀ d r, s.nextRq d=some r → r∈s.order d) ∧
      (∀ e, enabled s e=true → ∃ t, deadlineStep rb s e=some t) ∧
      (s.dispatched++s.merged).Nodup ∧
      (∀ r, r∈s.inserted ↔ (∃ d, r∈s.order d) ∨ r∈s.dispatched++s.merged) ∧
      (∀ d, ∀ r∈s.order d, r∉s.dispatched++s.merged) ∧
      (∀ jiffies, ∃ t, drain rb jiffies (s.size+1) s=some t ∧ (∀ d, t.fifoList d=[] ∧ t.order d=[]) ∧
        (deadlineExitQueue t).bug=false ∧ ∀ r∈s.inserted, (t.dispatched++t.merged).count r=1) ∧
      s.bug=false := by
  have hi := DeadlineInv.run h
  refine ⟨fun d => ⟨?_,hi.fifoNodup d⟩,hi.one,fun d r hr => ?_,fun e he => ?_,hi.leftNodup,fun r => ?_,
    fun d r hr hin => (hi.apart r hin).1 d hr,fun jiffies => ?_,hi.noBug⟩
  · exact (perm_ext_iff_of_nodup (hi.orderNodup d) (hi.fifoNodup d)).mpr (fun q => (hi.agree d q nofun).symm)
  · exact hi.mem_of_next hr
  · obtain ⟨t,ht,_⟩ := hi.perform rb he
    exact ⟨t,(if_pos he).trans ht⟩
  · exact hi.mem_inserted r
  · obtain ⟨t,ht,hinv,hins,hreads,hwrites⟩ := hi.drained rb jiffies (Nat.lt_succ_self _)
    have hfifo : ∀ d, t.fifoList d=[] := by
      intro d
      cases d
      · exact hreads
      · exact hwrites
    have horder : ∀ d, t.order d=[] := fun d => eq_nil_iff_forall_not_mem.mpr (fun q hq => by
      have hin := (hinv.agree d q nofun).mpr hq
      rw [hfifo d] at hin
      cases hin)
    refine ⟨t,ht,fun d => ⟨hfifo d,horder d⟩,?_,fun r hr => ?_⟩
    · simp [deadlineExitQueue,Data.bugOn,hinv.noBug,hreads,hwrites]
    · rw [← hins,hinv.mem_inserted r] at hr
      refine count_eq_one_of_mem hinv.leftNodup ?_
      rcases hr with ⟨d,hd⟩|hr
      · rw [horder d] at hd
        cases hd
      · exact hr

/-- A scheduler without requests and with its settings. -/
def newData : Data where
  rqs := fun _ => ⟨0,0,false,0⟩
  sortList := fun _ => .nil
  fifoList := fun _ => []
  nextRq := fun _ => none
  batching := 0
  lastSector := 0
  starved := 0
  fifoExpire := fun d => if d then 500 else 50
  fifoBatch := 16
  writesStarved := 2
  frontMerges := true
  inserted := []
  dispatched := []
  merged := []
  bug := false

/-- A front merge moves a request to the start sector of another one, which is dispatched. -/
theorem deadline_consistent_alias :
    ∃ s, DeadlineRun unbalanced s ∧ s.order false=[1,3] ∧ s.dispatched=[2] ∧ s.nextRq false=some 3 ∧ 3∈s.order false ∧
      s.bug=false := by
  obtain ⟨s,hrun,ho,hd,hn⟩ : ∃ s, DeadlineRun unbalanced s ∧ s.order false=[1,3] ∧ s.dispatched=[2] ∧
      s.nextRq false=some 3 :=
    exists_run (fun _ _ _ => id) (s := newData) ⟨rfl,rfl,rfl,rfl,rfl,rfl,rfl⟩ [.add 1 ⟨16,8,false,0⟩ 0,
      .add 2 ⟨8,4,false,0⟩ 1,.add 3 ⟨12,2,false,0⟩ 2,.front (some 1) ⟨8,8,false⟩ true false] (by decide)
  obtain ⟨_,_,hnext,_,_,_,_,_,hbug⟩ := deadline_consistent unbalanced hrun
  exact ⟨s,hrun,ho,hd,hn,hnext false 3 hn,hbug⟩

/-- Both trees are always sorted by start sector, also after front merges. -/
theorem sort_list_sorted {rb : Balance ℕ} {s : Data} (h : DeadlineRun rb s) (d : Bool) :
    (s.order d).Pairwise (fun a b => s.pos a<s.pos b) :=
  ((DeadlineInv.run h).sorted d).imp (fun hab => hab nofun nofun)

/-- A front merge moves request 1 to the start sector of request 2, which leaves the tree. -/
theorem sort_list_sorted_two : ∃ s, DeadlineRun unbalanced s ∧ s.order true=[1,3] ∧ s.dispatched=[2] ∧
    s.pos 1=s.pos 2 ∧ s.pos 1<s.pos 3 := by
  obtain ⟨s,h,ho,hd,hp⟩ : ∃ s, DeadlineRun unbalanced s ∧ s.order true=[1,3] ∧ s.dispatched=[2] ∧ s.pos 1=s.pos 2 :=
    exists_run (fun _ _ _ => id) (s := newData) ⟨rfl,rfl,rfl,rfl,rfl,rfl,rfl⟩ [.add 1 ⟨16,8,true,0⟩ 0,
      .add 2 ⟨8,4,true,0⟩ 1,.add 3 ⟨12,2,true,0⟩ 2,.front (some 1) ⟨8,8,true⟩ true false] (by decide)
  exact ⟨s,h,ho,hd,hp,by simpa [ho] using sort_list_sorted h true⟩

end BlockIpc.DeadlineScheduler
