import BlockIpc.TransitionRuns

/-!
# The timeout timer of a request queue

All started requests of a queue are on timeout_list and share one timer. The timer function gives
the requests whose deadline has passed to rq_timed_out_fn and sets the timer for the earliest
deadline that its walk has met. A request that is reset goes back to the end of the list while the
walk is under way. Deadlines lie within half the range of jiffies, so they are compared as numbers.
Completions without the queue lock may mark a request at any time.
-/

namespace BlockIpc.TimeoutTimer

open Function List TransitionRuns

/-- The part of a request queue that has to do with timeouts. -/
structure Queue where
  /-- rq_timed_out_fn is set. -/
  timedOutFn : Bool
  rqTimeout : ℕ
  jiffies : ℕ
  /-- timeout_list. -/
  list : List ℕ
  timeout : ℕ → ℕ
  deadline : ℕ → ℕ
  /-- REQ_ATOM_COMPLETE of a request. -/
  complete : ℕ → Bool
  /-- When the timer expires, if it is pending. -/
  timer : Option ℕ
  /-- The timer has expired and its function waits for the queue lock. -/
  fired : Bool
  bug : Bool

def Queue.setList (s : Queue) (l : List ℕ) : Queue := {s with list := l}

/-- Set the timeout of a request. -/
def Queue.setTimeout (s : Queue) (r t : ℕ) : Queue := {s with timeout := update s.timeout r t}

/-- Set the deadline of a request. -/
def Queue.setDeadline (s : Queue) (r t : ℕ) : Queue := {s with deadline := update s.deadline r t}

/-- Set or clear REQ_ATOM_COMPLETE. -/
def Queue.setComplete (s : Queue) (r : ℕ) (b : Bool) : Queue := {s with complete := update s.complete r b}

def Queue.modTimer (s : Queue) (t : ℕ) : Queue := {s with timer := some t}

def Queue.bugOn (s : Queue) (b : Bool) : Queue := {s with bug := s.bug || b}

def blkDeleteTimer (s : Queue) (r : ℕ) : Queue := s.setList (s.list.erase r)

section

variable (round : ℕ → ℕ)

/-- The end of blk_add_timer. -/
def armTimer (s : Queue) (expiry : ℕ) : Queue :=
  match s.timer with
  | none => s.modTimer expiry
  | some e => if expiry<e then s.modTimer expiry else s

def blkAddTimer (s : Queue) (r : ℕ) : Queue :=
  if !s.timedOutFn then s
  else
    let s := s.bugOn (decide (r∈s.list) || s.complete r)
    let s := if s.timeout r=0 then s.setTimeout r s.rqTimeout else s
    let s := s.setDeadline r (s.jiffies+s.timeout r)
    let s := s.setList (s.list++[r])
    armTimer s (round (s.deadline r))

/-- What happens when a request is found to be late. -/
inductive Answer where
  /-- A completion has marked the request just before. -/
  | raced
  /-- BLK_EH_HANDLED. -/
  | handled
  /-- BLK_EH_RESET_TIMER, and the driver may have set another timeout. -/
  | reset (timeout : ℕ)
  /-- BLK_EH_NOT_HANDLED. -/
  | notHandled
  /-- Any other value. -/
  | bad
  deriving DecidableEq

/-- blk_rq_timed_out, for a request that is marked. -/
def blkRqTimedOut (s : Queue) (r : ℕ) : Answer → Queue
  | .reset t => blkAddTimer round ((s.setTimeout r t).setComplete r false) r
  | _ => s

/-- The entries from a given one on. -/
def fromEntry (l : List ℕ) : Option ℕ → List ℕ
  | none => []
  | some x => l.dropWhile (fun y => y≠x)

/-- The earlier of a deadline and the one that the walk has found before. -/
def earlier (next : Option ℕ) (d : ℕ) : Option ℕ :=
  match next with
  | none => some d
  | some n => if d<n then some d else some n

/-- The walk of blk_rq_timed_out_timer over the rest of the list, with next if next_set. The next
entry is taken before the body runs, and what follows it is read from the list as it is then. -/
def walk : ℕ → Queue → List ℕ → Option ℕ → List Answer → Option (Queue × Option ℕ)
  | _,s,[],next,[] => some (s,next)
  | _,_,[],_,_::_ => none
  | 0,_,_::_,_,_ => none
  | n+1,s,r::rest,next,as =>
    if s.deadline r ≤ s.jiffies then
      let s := blkDeleteTimer s r
      if s.complete r then walk n s (fromEntry s.list rest.head?) next as
      else
        match as with
        | [] => none
        | a::as =>
          let s := blkRqTimedOut round (s.setComplete r true) r a
          walk n s (fromEntry s.list rest.head?) next as
    else walk n s (fromEntry s.list rest.head?) (earlier next (s.deadline r)) as

/-- The end of blk_rq_timed_out_timer. -/
def rearm (s : Queue) (next : Option ℕ) : Queue :=
  match next with
  | none => s
  | some n => s.modTimer (round n)

def blkRqTimedOutTimer (s : Queue) (as : List Answer) : Option Queue :=
  (walk round (s.list.length+as.length) s s.list none as).map (fun x => rearm round x.1 x.2)

def blkAbortRequest (s : Queue) (r : ℕ) (a : Answer) : Queue :=
  if s.complete r then s
  else if a=.raced then s.setComplete r true
  else blkRqTimedOut round (blkDeleteTimer (s.setComplete r true) r) r a

/-- The loop of blk_abort_queue over the entries that were moved to its own list, with those
that stay on that list. -/
def abortLoop : Queue → List ℕ → List Answer → Option (Queue × List ℕ)
  | s,[],[] => some (s,[])
  | _,[],_::_ => none
  | s,r::rest,as =>
    if s.complete r then (abortLoop s rest as).map (fun x => (x.1,r::x.2))
    else
      match as with
      | [] => none
      | .raced::as => (abortLoop (blkAbortRequest round s r .raced) rest as).map (fun x => (x.1,r::x.2))
      | a::as => abortLoop (blkAbortRequest round s r a) rest as

/-- elv_abort_queue: the requests of the dispatch list are started and ended. -/
def elvAbortQueue (s : Queue) (l : List ℕ) : Queue :=
  l.foldl (fun s r => blkDeleteTimer (blkAddTimer round s r) r) s

def blkAbortQueue (s : Queue) (heads : List ℕ) (as : List Answer) : Option Queue :=
  let s := elvAbortQueue round s heads
  (abortLoop round (s.setList []) s.list as).map (fun x => x.1.setList (x.2++x.1.list))

/-- What can happen. -/
inductive Event where
  /-- Time passes. -/
  | tick
  /-- A request is started, with the timeout that the driver has set. -/
  | add (r timeout : ℕ)
  /-- blk_delete_timer. -/
  | delete (r : ℕ)
  /-- blk_complete_request marks a request, without the queue lock. -/
  | mark (r : ℕ)
  /-- blk_clear_rq_complete, for a request that is not on the list. -/
  | clear (r : ℕ)
  /-- The timer expires. -/
  | fire
  /-- The timer function has the lock. -/
  | timer (as : List Answer)
  /-- blk_abort_request. -/
  | abort (r : ℕ) (a : Answer)
  | abortQueue (heads : List ℕ) (as : List Answer)

/-- A request can be started. -/
def startable (s : Queue) (r : ℕ) : Bool := decide (r∉s.list) && !s.complete r

def timeoutStep (s : Queue) : Event → Option Queue
  | .tick => some {s with jiffies := s.jiffies+1}
  | .add r t => if startable s r then some (blkAddTimer round (s.setTimeout r t) r) else none
  | .delete r => some (blkDeleteTimer s r)
  | .mark r => some (s.setComplete r true)
  | .clear r => if r∉s.list then some (s.setComplete r false) else none
  | .fire =>
    if s.fired=false ∧ (s.timer.any (fun e => e ≤ s.jiffies))=true then some {s with timer := none, fired := true}
    else none
  | .timer as => if s.fired then (blkRqTimedOutTimer round s as).map (fun s => {s with fired := false}) else none
  | .abort r a => if r∈s.list then some (blkAbortRequest round s r a) else none
  | .abortQueue heads as =>
    if heads.all (startable s) && decide heads.Nodup then blkAbortQueue round s heads as else none

/-- A queue without requests. -/
def Start (s : Queue) : Prop := s.list=[] ∧ s.fired=false ∧ s.bug=false

/-- The states when the queue lock is free. -/
def TimeoutRun : Queue → Prop := Reachable Start (fun s e t => timeoutStep round s e=some t)

/-- The timeout that blk_add_timer gives to a request. -/
def newTimeout (s : Queue) (timeout : ℕ) : ℕ := if timeout=0 then s.rqTimeout else timeout

/-- The timeout of a request that is reset. -/
def Answer.reset? : Answer → Option ℕ
  | .reset timeout => some timeout
  | _ => none

/-- The deadline of a request has passed. -/
def late (s : Queue) (r : ℕ) : Bool := decide (s.deadline r ≤ s.jiffies)

/-- A request is reset to a deadline that is not before all those that have not passed yet. -/
def notBefore (s : Queue) (timeout : ℕ) : Bool :=
  s.list.all (late s) ||
    s.list.any (fun x => !late s x && decide (round (s.deadline x) ≤ round (s.jiffies+newTimeout s timeout)))

/-- When the timer function runs, no request is reset without a timeout. If the last entry of the list
is late and not complete and is the only one that is reset, its new deadline is not before all those
that have not passed yet. -/
def inOrder (s : Queue) : Event → Bool
  | .timer as =>
    as.all (fun a => a.reset?.all (fun u => decide (newTimeout s u≠0))) &&
      (as.dropLast.any (fun a => a.reset?.isSome) ||
        s.list.getLast?.all (fun r => !late s r || s.complete r ||
          as.getLast?.all (fun a => a.reset?.all (notBefore round s))))
  | _ => true

/-- One such event. -/
def inOrderStep (s : Queue) (e : Event) : Option Queue := if inOrder round s e then timeoutStep round s e else none

/-- The states that such events reach. -/
def InOrderRun : Queue → Prop := Reachable Start (fun s e t => inOrderStep round s e=some t)

end

section

variable {round : ℕ → ℕ} {s t : Queue} {r x : ℕ} {l : List ℕ}

/-- The timer is pending and expires in time for a request. -/
def Covers (round : ℕ → ℕ) (s : Queue) (r : ℕ) : Prop := ∃ e, s.timer=some e ∧ e ≤ round (s.deadline r)

/-- The timer is set for the expiry or stays at an earlier time. -/
theorem armTimer_eq (s : Queue) (e : ℕ) : ∃ m, armTimer s e=s.modTimer m ∧ m≤e ∧ ∀ k, s.timer=some k → m≤k := by
  unfold armTimer
  cases hs : s.timer with
  | none => exact ⟨e,rfl,le_refl e,nofun⟩
  | some k =>
    by_cases hk : e<k
    · refine ⟨e,if_pos hk,le_refl e,fun m hm => ?_⟩
      cases hm
      omega
    · refine ⟨k,?_,by omega,fun m hm => ?_⟩
      · simp only [if_neg hk,Queue.modTimer,← hs]
      · cases hm
        omega

theorem blkAddTimer_eq (round : ℕ → ℕ) (hf : s.timedOutFn=true) (hr : r∉s.list) (hc : s.complete r=false) :
    ∃ t d m, blkAddTimer round s r=(((s.setTimeout r t).setDeadline r d).setList (s.list++[r])).modTimer m ∧
      d=s.jiffies+newTimeout s (s.timeout r) ∧ m ≤ round d ∧ ∀ k, s.timer=some k → m≤k := by
  have hbug : s.bugOn (decide (r∈s.list) || s.complete r)=s := by
    simp [Queue.bugOn,hr,hc]
  obtain ⟨t,ht,rfl⟩ : ∃ t, (if s.timeout r=0 then s.setTimeout r s.rqTimeout else s)=s.setTimeout r t ∧
      t=newTimeout s (s.timeout r) := by
    unfold newTimeout
    split
    · exact ⟨s.rqTimeout,rfl,rfl⟩
    · exact ⟨s.timeout r,by simp [Queue.setTimeout],rfl⟩
  have hself : (s.setTimeout r (newTimeout s (s.timeout r))).timeout r=newTimeout s (s.timeout r) := update_self ..
  obtain ⟨m,hm,hle,hk⟩ := armTimer_eq
    (((s.setTimeout r (newTimeout s (s.timeout r))).setDeadline r (s.jiffies+newTimeout s (s.timeout r))).setList
      (s.list++[r])) (round (s.jiffies+newTimeout s (s.timeout r)))
  refine ⟨newTimeout s (s.timeout r),_,m,?_,rfl,hle,hk⟩
  rw [← hm]
  simp only [blkAddTimer,hf,Bool.not_true,Bool.false_eq_true,if_false,hbug,ht]
  rw [hself]
  congr 1
  exact congrArg round (update_self ..)

/-- A request that the driver resets is unmarked and put at the end of the list. -/
theorem blkRqTimedOut_reset (round : ℕ → ℕ) (hf : s.timedOutFn=true) (hr : r∉s.list) (hc : s.complete r=false)
    (u : ℕ) : ∃ w d m, blkRqTimedOut round (s.setComplete r true) r (.reset u)=
        (((s.setTimeout r w).setDeadline r d).setList (s.list++[r])).modTimer m ∧
      d=s.jiffies+newTimeout s u ∧ m ≤ round d := by
  have hback : ((s.setComplete r true).setTimeout r u).setComplete r false=s.setTimeout r u := by
    simp only [Queue.setComplete,Queue.setTimeout,update_idem,← hc,update_eq_self]
  obtain ⟨w,d,m,heq,hd,hm,_⟩ := blkAddTimer_eq round (s := s.setTimeout r u) hf hr hc
  refine ⟨w,d,m,?_,?_,hm⟩
  · rw [blkRqTimedOut,hback,heq]
    simp only [Queue.setTimeout,update_idem]
  · rw [hd]
    exact congrArg (fun k => s.jiffies+newTimeout s k) (update_self ..)

variable {a b vis rest k : List ℕ} {as as₀ : List Answer} {u s₀ : Queue} {next next' : Option ℕ}

/-- The entries from the first one of a part of the list on. -/
theorem fromEntry_append {c : List ℕ} (h : (a++b).Nodup) :
    fromEntry (a++b++c) b.head?=if b=[] then [] else b++c := by
  cases b with
  | nil => rfl
  | cons x b =>
    have hx : ∀ y∈a, decide (y≠x)=true := by
      intro y hy
      have hne := (nodup_append.mp h).2.2 y hy x mem_cons_self
      exact decide_eq_true hne
    simp only [head?_cons,fromEntry,append_assoc]
    rw [dropWhile_append_of_pos hx,cons_append,dropWhile_cons_of_neg (by simp)]
    rfl

theorem fromEntry_rest (h : (a++b).Nodup) : fromEntry (a++b) b.head?=b := by
  have hfrom := fromEntry_append (c := []) h
  rw [append_nil,append_nil] at hfrom
  rw [hfrom]
  split
  · rename_i hnil
    exact hnil.symm
  · rfl

/-- The walk has passed some entries and has some ahead. -/
structure Walk (round : ℕ → ℕ) (s : Queue) (vis rest : List ℕ) (next : Option ℕ) : Prop where
  list_eq : s.list=vis++rest
  /-- A request is once on the list. -/
  nodup : s.list.Nodup
  noBug : s.bug=false
  /-- The walk has found the earliest of the deadlines that it has passed, but for a request
  that was put back at the very end. -/
  seen : ∀ x∈vis, s.complete x=true ∨ (∃ n, next=some n ∧ n ≤ s.deadline x) ∨
    (rest=[] ∧ Covers round s x ∧ ∀ n, next=some n → round n ≤ round (s.deadline x))

/-- The walk has met the deadline itself and those before. -/
theorem earlier_spec (next : Option ℕ) (d : ℕ) : ∃ n, earlier next d=some n ∧ n≤d ∧ ∀ k, next=some k → n≤k := by
  unfold earlier
  cases next with
  | none => exact ⟨d,rfl,le_refl d,nofun⟩
  | some k =>
    by_cases hk : d<k
    · refine ⟨d,if_pos hk,le_refl d,fun m hm => ?_⟩
      cases hm
      omega
    · refine ⟨k,if_neg hk,by omega,fun m hm => ?_⟩
      cases hm
      omega

/-- What is left of the list when an entry is deleted. -/
theorem Walk.erase_eq (h : Walk round s vis (r::rest) next) : s.list.erase r=vis++rest := by
  have hn := h.nodup
  rw [h.list_eq] at hn ⊢
  have hr : r∉vis := fun hm => (nodup_append.mp hn).2.2 r hm r mem_cons_self rfl
  rw [erase_append_right _ hr,erase_cons_head]

/-- Nothing is twice on it. -/
theorem Walk.nodup_rest (h : Walk round s vis (r::rest) next) : (vis++rest).Nodup := h.erase_eq ▸ h.nodup.erase r

/-- With an entry ahead no request was put back at the end. -/
theorem Walk.seen_cons (h : Walk round s vis (r::rest) next) :
    ∀ x∈vis, s.complete x=true ∨ ∃ n, next=some n ∧ n ≤ s.deadline x := fun x hx =>
  (h.seen x hx).imp_right (fun hx => hx.resolve_right (fun hno => cons_ne_nil r rest hno.1))

/-- An entry that is late leaves the list and does not come back. -/
theorem Walk.drop (h : Walk round s vis (r::rest) next) (ht : t.list=s.list.erase r) (hb : t.bug=s.bug)
    (hd : t.deadline=s.deadline) (hc : ∀ x, s.complete x=true → t.complete x=true) : Walk round t vis rest next := by
  have hlist : t.list=vis++rest := ht.trans h.erase_eq
  refine ⟨hlist,hlist ▸ h.nodup_rest,hb.trans h.noBug,fun x hx => ?_⟩
  rw [hd]
  exact (h.seen_cons x hx).imp (hc x) .inl

/-- An entry that is late is put back; the walk goes on to it unless it was the last one. -/
theorem Walk.reset {u v m : ℕ} (h : Walk round s vis (r::rest) next)
    (ht : t=((((blkDeleteTimer s r).setTimeout r u).setDeadline r v).setList
      ((blkDeleteTimer s r).list++[r])).modTimer m)
    (hm : m ≤ round v) (hlast : rest=[] → ∀ n, next=some n → round n ≤ round v) :
    fromEntry t.list rest.head?=(if rest=[] then [] else rest++[r]) ∧
      ∃ vis', Walk round t vis' (if rest=[] then [] else rest++[r]) next := by
  have hn := h.nodup_rest
  have hr : r∉vis++rest := h.erase_eq ▸ h.nodup.not_mem_erase
  have hlist : t.list=vis++rest++[r] := by
    rw [ht,← h.erase_eq]
    rfl
  have hn' : t.list.Nodup := by
    rw [hlist]
    exact (perm_append_singleton r (vis++rest)).nodup_iff.mpr (nodup_cons.mpr ⟨hr,hn⟩)
  have hself : t.deadline r=v := by
    rw [ht]
    exact update_self ..
  have hbug : t.bug=false := by
    rw [ht]
    exact h.noBug
  have hold : ∀ x∈vis, t.complete x=true ∨ ∃ n, next=some n ∧ n≤t.deadline x := by
    intro x hx
    have hdead : t.deadline x=s.deadline x := by
      rw [ht]
      exact update_of_ne (fun hxr : x=r => hr (hxr ▸ mem_append_left rest hx)) ..
    rw [hdead,ht]
    exact h.seen_cons x hx
  refine ⟨by rw [hlist]; exact fromEntry_append hn,?_⟩
  cases rest with
  | nil =>
    rw [append_nil] at hlist
    refine ⟨vis++[r],by rw [if_pos rfl,append_nil]; exact hlist,hn',hbug,fun x hx => ?_⟩
    rcases mem_append.mp hx with hx|hx
    · exact (hold x hx).imp_right .inl
    · rw [mem_singleton.mp hx,hself]
      refine .inr (.inr ⟨rfl,⟨m,?_,by rw [hself]; exact hm⟩,hlast rfl⟩)
      rw [ht]
      rfl
  | cons y rest =>
    rw [if_neg (cons_ne_nil y rest)]
    exact ⟨vis,by rw [hlist,append_assoc],hn',hbug,fun x hx => (hold x hx).imp_right .inl⟩

/-- An entry that is not late is passed. -/
theorem Walk.pass (h : Walk round s vis (r::rest) next) :
    fromEntry s.list rest.head?=rest ∧ Walk round s (vis++[r]) rest (earlier next (s.deadline r)) := by
  have hlist : s.list=(vis++[r])++rest := by
    rw [h.list_eq,append_assoc]
    rfl
  obtain ⟨n,hn,hle,hk⟩ := earlier_spec next (s.deadline r)
  refine ⟨by rw [hlist]; exact fromEntry_rest (hlist ▸ h.nodup),hlist,h.nodup,h.noBug,fun x hx => ?_⟩
  rcases mem_append.mp hx with hx|hx
  · exact (h.seen_cons x hx).imp_right (fun ⟨k,hfk,hkx⟩ => .inl ⟨n,hn,(hk k hfk).trans hkx⟩)
  · rw [mem_singleton.mp hx]
    exact .inr (.inl ⟨n,hn,hle⟩)

/-- Since the walk has started no request was put back. -/
structure Unmoved (s₀ : Queue) (as₀ : List Answer) (s : Queue) (rest : List ℕ) (next : Option ℕ) (as : List Answer) :
    Prop where
  /-- The answers so far. -/
  used : ∃ used, as₀=used++as ∧ ∀ a∈used, a.reset?=none
  /-- next is the earliest deadline of the entries so far that are not late. -/
  done : ∃ done, s₀.list=done++rest ∧
    (∀ x∈done, late s₀ x=false → ∃ n, next=some n ∧ n ≤ s₀.deadline x) ∧
    (next≠none → ∃ x∈done, late s₀ x=false)
  /-- The entries ahead are as they were. -/
  same : ∀ x∈rest, s.deadline x=s₀.deadline x ∧ s.complete x=s₀.complete x

/-- The walk since its start: once a request was put back, the last entry ahead is not late. -/
structure Since (s₀ : Queue) (as₀ : List Answer) (s : Queue) (rest : List ℕ) (next : Option ℕ) (as : List Answer) :
    Prop where
  /-- Neither jiffies nor rq_timeout changes. -/
  clock : s.jiffies=s₀.jiffies ∧ s.rqTimeout=s₀.rqTimeout
  answers : as ⊆ as₀
  /-- Whether a request was put back. -/
  phase : Unmoved s₀ as₀ s rest next as ∨ ∀ y∈rest.getLast?, s.jiffies<s.deadline y

/-- The walk goes on to the next entry, with an answer or without one. -/
theorem Since.forward (used : List Answer) (h : Since s₀ as₀ s (r::rest) next (used++as))
    (hused : ∀ a∈used, a.reset?=none) (ht : t.jiffies=s.jiffies ∧ t.rqTimeout=s.rqTimeout ∧ t.deadline=s.deadline)
    (hc : ∀ x∈rest, t.complete x=s.complete x)
    (hkeep : ∀ k, next=some k → ∃ n, next'=some n ∧ n≤k) (hr : late s r=false → ∃ n, next'=some n ∧ n ≤ s.deadline r)
    (hset : next'≠none → next≠none ∨ late s r=false) : Since s₀ as₀ t rest next' as := by
  obtain ⟨hj,hq,hd⟩ := ht
  refine ⟨⟨hj.trans h.clock.1,hq.trans h.clock.2⟩,fun a ha => h.answers (mem_append_right used ha),?_⟩
  rcases h.phase with ⟨⟨before,has,hbefore⟩,⟨done,hlist,hearly,hnext⟩,hsame⟩|hlast
  · have hlate : late s₀ r=late s r := by
      unfold late
      rw [(hsame r mem_cons_self).1,h.clock.1]
    refine .inl ⟨⟨before++used,by rw [has,append_assoc],fun a ha => (mem_append.mp ha).elim (hbefore a) (hused a)⟩,
      ⟨done++[r],by rw [hlist,append_assoc]; rfl,fun x hx hxl => ?_,fun hn => ?_⟩,fun x hx => ?_⟩
    · rcases mem_append.mp hx with hx|hx
      · obtain ⟨k,hk,hkx⟩ := hearly x hx hxl
        obtain ⟨n,hn,hnk⟩ := hkeep k hk
        exact ⟨n,hn,hnk.trans hkx⟩
      · obtain rfl := mem_singleton.mp hx
        rw [← (hsame x mem_cons_self).1]
        exact hr (hlate ▸ hxl)
    · rcases hset hn with hn|hn
      · obtain ⟨x,hx,hxl⟩ := hnext hn
        exact ⟨x,mem_append_left _ hx,hxl⟩
      · exact ⟨r,mem_append_right _ mem_cons_self,hlate.trans hn⟩
    · rw [hd,hc x hx]
      exact hsame x (mem_cons_of_mem r hx)
  · refine .inr (fun y hy => ?_)
    rw [hj,hd]
    refine hlast y ?_
    cases rest with
    | nil => cases hy
    | cons z rest => exact hy

/-- The last entry of the list is reset alone: the condition is about its new deadline. -/
theorem Since.last (hmono : Monotone round) (ho : inOrder round s₀ (.timer as₀)=true) {v : ℕ}
    (h : Since s₀ as₀ s [r] next [.reset v]) (hlate : s.deadline r ≤ s.jiffies) (hc : s.complete r=false) (n : ℕ)
    (hn : next=some n) : round n ≤ round (s.jiffies+newTimeout s v) := by
  have htimeout : newTimeout s v=newTimeout s₀ v := by
    unfold newTimeout
    rw [h.clock.2]
  rcases h.phase with ⟨⟨used,rfl,hused⟩,⟨done,hlist,hearly,hnext⟩,hsame⟩|hlast
  · obtain ⟨hd,hcr⟩ := hsame r mem_cons_self
    have hrl : late s₀ r=true := decide_eq_true (by rw [← hd,← h.clock.1]; exact hlate)
    have hnone : used.any (fun a => a.reset?.isSome)=false := by
      rw [any_eq_false]
      exact fun a ha => by simp [hused a ha]
    have hbefore : notBefore round s₀ v=true := by
      have hcond := (Bool.and_eq_true_iff.mp ho).2
      rw [dropLast_concat,hnone,hlist,getLast?_concat,getLast?_concat] at hcond
      simpa [hrl,← hcr,hc,Answer.reset?] using hcond
    rw [htimeout,h.clock.1]
    rcases Bool.or_eq_true_iff.mp hbefore with hall|hany
    · obtain ⟨x,hx,hxl⟩ := hnext (by rw [hn]; exact Option.some_ne_none n)
      have hx' := all_eq_true.mp hall x (hlist ▸ mem_append_left _ hx)
      rw [hxl] at hx'
      cases hx'
    · obtain ⟨x,hx,hxp⟩ := any_eq_true.mp hany
      rw [Bool.and_eq_true,Bool.not_eq_true',decide_eq_true_eq] at hxp
      have hdone : x∈done := by
        rw [hlist] at hx
        rcases mem_append.mp hx with hx|hx
        · exact hx
        · rw [mem_singleton.mp hx,hrl] at hxp
          cases hxp.1
      obtain ⟨k,hk,hkx⟩ := hearly x hdone hxp.1
      cases hn.symm.trans hk
      exact (hmono hkx).trans hxp.2
  · exact absurd (hlast r rfl) (not_lt.mpr hlate)

/-- A request that is put back is not late. -/
theorem Since.newTimeout_pos (ho : inOrder round s₀ (.timer as₀)=true) {v : ℕ}
    (h : Since s₀ as₀ s rest next (.reset v::as)) : 0<newTimeout s v := by
  have hall := all_eq_true.mp (Bool.and_eq_true_iff.mp ho).1 (.reset v) (h.answers mem_cons_self)
  have hpos : newTimeout s₀ v≠0 := of_decide_eq_true hall
  have htimeout : newTimeout s v=newTimeout s₀ v := by
    unfold newTimeout
    rw [h.clock.2]
  omega

theorem walk_nil {n : ℕ} {g : Option ℕ} (h : walk round n s [] next as=some (t,g)) : s=t ∧ next=g := by
  cases as with
  | nil =>
    unfold walk at h
    exact Prod.mk.inj (Option.some.inj h)
  | cons a as =>
    unfold walk at h
    cases h

theorem walk_inv {n : ℕ} {g : Option ℕ} (hmono : Monotone round) (ho : inOrder round s₀ (.timer as₀)=true)
    (hf : s.timedOutFn=true) (h : Walk round s vis rest next) (hs : Since s₀ as₀ s rest next as)
    (hw : walk round n s rest next as=some (t,g)) : ∃ vis', Walk round t vis' [] g ∧ t.timedOutFn=true := by
  induction n generalizing s vis rest next as with
  | zero =>
    cases rest with
    | nil =>
      obtain ⟨rfl,rfl⟩ := walk_nil hw
      exact ⟨vis,h,hf⟩
    | cons r rest => cases hw
  | succ n ih =>
    cases rest with
    | nil =>
      obtain ⟨rfl,rfl⟩ := walk_nil hw
      exact ⟨vis,h,hf⟩
    | cons r rest =>
      unfold walk at hw
      by_cases hlate : s.deadline r ≤ s.jiffies
      · have hlt : late s r=true := decide_eq_true hlate
        have hgo : ∀ k, next=some k → ∃ n, next=some n ∧ n≤k := fun k hk => ⟨k,hk,le_rfl⟩
        have hrest : fromEntry (blkDeleteTimer s r).list rest.head?=rest := by
          rw [show (blkDeleteTimer s r).list=_ from h.erase_eq]
          exact fromEntry_rest h.nodup_rest
        have hr : r∉(blkDeleteTimer s r).list := h.nodup.not_mem_erase
        simp only [if_pos hlate] at hw
        by_cases hc : (blkDeleteTimer s r).complete r=true
        · rw [if_pos hc,hrest] at hw
          exact ih (s := blkDeleteTimer s r) hf (h.drop rfl rfl rfl (fun _ hx => hx))
            (hs.forward [] nofun ⟨rfl,rfl,rfl⟩ (fun _ _ => rfl) hgo (fun hno => by rw [hlt] at hno; cases hno) .inl) hw
        · rw [if_neg hc] at hw
          cases as with
          | nil => cases hw
          | cons a as =>
            -- a request that is not reset is marked and does not come back
            have hleave (ha : a.reset?=none) (hw : walk round n ((blkDeleteTimer s r).setComplete r true)
                (fromEntry (blkDeleteTimer s r).list rest.head?) next as=some (t,g)) :
                ∃ vis', Walk round t vis' [] g ∧ t.timedOutFn=true := by
              rw [hrest] at hw
              refine ih (s := (blkDeleteTimer s r).setComplete r true) hf (h.drop rfl rfl rfl (fun x hx => ?_))
                (hs.forward [a] (forall_mem_singleton.mpr ha) ⟨rfl,rfl,rfl⟩ (fun x hx => ?_) hgo
                  (fun hno => by rw [hlt] at hno; cases hno) .inl) hw
              · by_cases hxr : x=r
                · rw [hxr]
                  exact update_self ..
                · exact (update_of_ne hxr ..).trans hx
              · have hmem : x∈s.list.erase r := h.erase_eq ▸ mem_append_right vis hx
                exact update_of_ne (fun hxr : x=r => hr (hxr ▸ hmem)) ..
            cases a with
            | reset u =>
              obtain ⟨w,v,m,heq,hv,hm⟩ := blkRqTimedOut_reset round (s := blkDeleteTimer s r) hf hr
                ((Bool.not_eq_true _).mp hc) u
              change v=s.jiffies+newTimeout s u at hv
              dsimp only at hw
              have hlast (hnil : rest=[]) (k : ℕ) (hk : next=some k) : round k ≤ round v := by
                subst hnil
                cases as with
                | nil => exact hv ▸ hs.last hmono ho hlate ((Bool.not_eq_true _).mp hc) k hk
                | cons a as => cases n <;> cases hw
              obtain ⟨hfrom,vis',hi⟩ := h.reset heq hm hlast
              rw [hfrom] at hw
              refine ih (by rw [heq]; exact hf) hi ⟨?_,fun a ha => hs.answers (mem_cons_of_mem _ ha),
                .inr (fun y hy => ?_)⟩ hw
              · rw [heq]
                exact hs.clock
              · split at hy
                · cases hy
                · rw [getLast?_concat] at hy
                  cases hy
                  have hpos := hs.newTimeout_pos ho
                  rw [heq]
                  change s.jiffies<update s.deadline r v r
                  rw [update_self]
                  omega
            | raced | handled | notHandled | bad => exact hleave rfl hw
      · simp only [if_neg hlate] at hw
        obtain ⟨hfrom,hi⟩ := h.pass
        rw [hfrom] at hw
        obtain ⟨m,hm,hle,hk⟩ := earlier_spec next (s.deadline r)
        exact ih hf hi (hs.forward [] nofun ⟨rfl,rfl,rfl⟩ (fun _ _ => rfl) (fun k hk' => ⟨m,hm,hk k hk'⟩)
          (fun _ => ⟨m,hm,hle⟩) (fun _ => .inr (decide_eq_false hlate))) hw

/-- Everything that can be said when the lock is free. -/
structure TimeoutInv (round : ℕ → ℕ) (s : Queue) : Prop where
  /-- A request is once on the list. -/
  nodup : s.list.Nodup
  noBug : s.bug=false
  /-- Without rq_timed_out_fn no request is on the list. -/
  fn : s.timedOutFn=false → s.list=[]
  /-- The timer covers all requests that are not complete, unless its function waits. -/
  covered : s.fired=false → ∀ x∈s.list, s.complete x=true ∨ Covers round s x

/-- A request leaves the list. -/
theorem TimeoutInv.delete (h : TimeoutInv round s) (r : ℕ) : TimeoutInv round (blkDeleteTimer s r) :=
  ⟨h.nodup.erase r,h.noBug,fun hf => by rw [blkDeleteTimer,h.fn hf]; rfl,
    fun hf x hx => h.covered hf x (mem_of_mem_erase hx)⟩

theorem TimeoutInv.mark (h : TimeoutInv round s) (r : ℕ) : TimeoutInv round (s.setComplete r true) := by
  refine ⟨h.nodup,h.noBug,h.fn,fun hf x hx => ?_⟩
  by_cases hxr : x=r
  · exact .inl (by rw [hxr]; exact update_self ..)
  · rcases h.covered hf x hx with hc|hc
    · exact .inl ((update_of_ne hxr ..).trans hc)
    · exact .inr hc

/-- What a request has that is not on the list does not matter. -/
theorem TimeoutInv.clear (h : TimeoutInv round s) (hr : r∉s.list) (b : Bool) :
    TimeoutInv round (s.setComplete r b) := by
  refine ⟨h.nodup,h.noBug,h.fn,fun hf x hx => ?_⟩
  have hxr : x≠r := fun hxr => hr (hxr ▸ hx)
  rcases h.covered hf x hx with hc|hc
  · exact .inl ((update_of_ne hxr ..).trans hc)
  · exact .inr hc

/-- A request is started. -/
theorem TimeoutInv.add (h : TimeoutInv round s) (hr : r∉s.list) (hc : s.complete r=false) :
    TimeoutInv round (blkAddTimer round s r) := by
  cases hf : s.timedOutFn with
  | false =>
    have hnone : blkAddTimer round s r=s := by
      simp [blkAddTimer,hf]
    rw [hnone]
    exact h
  | true =>
    obtain ⟨u,d,m,heq,_,hm,hk⟩ := blkAddTimer_eq round hf hr hc
    rw [heq]
    have hn : (s.list++[r]).Nodup := (perm_append_singleton r s.list).nodup_iff.mpr
      (nodup_cons.mpr ⟨hr,h.nodup⟩)
    refine ⟨hn,h.noBug,fun hno => absurd (hf.symm.trans hno) nofun,fun hfi x hx => ?_⟩
    have hself : ((((s.setTimeout r u).setDeadline r d).setList (s.list++[r])).modTimer m).deadline r=d :=
      update_self ..
    rcases mem_append.mp hx with hx|hx
    · have hxr : x≠r := fun hxr => hr (hxr ▸ hx)
      have hdead : ((((s.setTimeout r u).setDeadline r d).setList (s.list++[r])).modTimer m).deadline x=s.deadline x :=
        update_of_ne hxr ..
      rcases h.covered hfi x hx with hx|⟨e,he,hle⟩
      · exact .inl hx
      · exact .inr ⟨m,rfl,by rw [hdead]; exact (hk e he).trans hle⟩
    · rw [mem_singleton.mp hx]
      exact .inr ⟨m,rfl,by rw [hself]; exact hm⟩

/-- A late request that is marked and off the list. -/
theorem TimeoutInv.timedOut (h : TimeoutInv round s) (hr : r∉s.list) (a : Answer) :
    TimeoutInv round (blkRqTimedOut round s r a) := by
  cases a with
  | reset u =>
    have hset : TimeoutInv round (s.setTimeout r u) := {h with}
    exact (hset.clear hr false).add hr (update_self ..)
  | raced | handled | notHandled | bad => exact h

/-- blk_abort_request. -/
theorem TimeoutInv.abort (h : TimeoutInv round s) (r : ℕ) (a : Answer) :
    TimeoutInv round (blkAbortRequest round s r a) := by
  unfold blkAbortRequest
  split
  · exact h
  · split
    · exact h.mark r
    · exact ((h.mark r).delete r).timedOut (h.nodup.not_mem_erase) a

theorem blkAddTimer_frame (round : ℕ → ℕ) (s : Queue) (r : ℕ) :
    ((blkAddTimer round s r).list=s.list ∨ (blkAddTimer round s r).list=s.list++[r]) ∧
      (blkAddTimer round s r).complete=s.complete ∧ (blkAddTimer round s r).timedOutFn=s.timedOutFn := by
  unfold blkAddTimer
  split
  · exact ⟨.inl rfl,rfl,rfl⟩
  · dsimp only
    split
    all_goals
      obtain ⟨m,hm,_⟩ := armTimer_eq _ _
      rw [hm]
      exact ⟨.inr rfl,rfl,rfl⟩

theorem blkAbortRequest_frame (round : ℕ → ℕ) (a : Answer) (hr : r∉s.list) :
    ((blkAbortRequest round s r a).list=s.list ∨ (blkAbortRequest round s r a).list=s.list++[r]) ∧
      (∀ x, x≠r → (blkAbortRequest round s r a).complete x=s.complete x) ∧
      (blkAbortRequest round s r a).timedOutFn=s.timedOutFn := by
  have hdel : blkDeleteTimer (s.setComplete r true) r=s.setComplete r true := by
    simp only [blkDeleteTimer,Queue.setList,Queue.setComplete,erase_of_not_mem hr]
  have hmark : ∀ x, x≠r → (s.setComplete r true).complete x=s.complete x := fun x hx => update_of_ne hx ..
  unfold blkAbortRequest
  split
  · exact ⟨.inl rfl,fun _ _ => rfl,rfl⟩
  · split
    · exact ⟨.inl rfl,hmark,rfl⟩
    · rw [hdel]
      cases a with
      | reset u =>
        obtain ⟨hl,hc,hf⟩ := blkAddTimer_frame round (((s.setComplete r true).setTimeout r u).setComplete r false) r
        refine ⟨hl,fun x hx => ?_,hf⟩
        rw [blkRqTimedOut,hc]
        exact (update_of_ne hx ..).trans (hmark x hx)
      | raced | handled | notHandled | bad => exact ⟨.inl rfl,hmark,rfl⟩

/-- What the loop of blk_abort_queue leaves of a list of requests. -/
structure Aborted (round : ℕ → ℕ) (s : Queue) (l : List ℕ) (t : Queue) (k : List ℕ) : Prop where
  inv : TimeoutInv round t
  /-- No request is on both lists. -/
  nodup : (k++t.list).Nodup
  /-- The requests that stay are complete. -/
  complete : ∀ x∈k, t.complete x=true
  /-- They were on the list of the loop. -/
  subset : ∀ x∈k, x∈l
  /-- Other requests are not touched. -/
  frame : ∀ x, x∉l → t.complete x=s.complete x ∧ (x∈t.list → x∈s.list)
  /-- rq_timed_out_fn stays. -/
  fn : t.timedOutFn=s.timedOutFn

/-- A complete request stays on the list of the loop. -/
theorem Aborted.keep (h : Aborted round u l t k) (hr : r∉l) (hrl : r∉s.list) (hul : u.list=s.list)
    (hur : u.complete r=true) (hux : ∀ x, x≠r → u.complete x=s.complete x) (huf : u.timedOutFn=s.timedOutFn) :
    Aborted round s (r::l) t (r::k) := by
  have hnot : r∉k++t.list := by
    intro hm
    rcases mem_append.mp hm with hm|hm
    · exact hr (h.subset r hm)
    · exact hrl (hul ▸ (h.frame r hr).2 hm)
  refine ⟨h.inv,nodup_cons.mpr ⟨hnot,h.nodup⟩,forall_mem_cons.mpr ⟨(h.frame r hr).1.trans hur,h.complete⟩,
    forall_mem_cons.mpr ⟨mem_cons_self,fun x hx => mem_cons_of_mem r (h.subset x hx)⟩,fun x hx => ?_,h.fn.trans huf⟩
  rw [mem_cons,not_or] at hx
  have hf := h.frame x hx.2
  exact ⟨hf.1.trans (hux x hx.1),fun hm => hul ▸ hf.2 hm⟩

/-- A request leaves the list of the loop. -/
theorem Aborted.leave (h : Aborted round u l t k) (hul : u.list=s.list ∨ u.list=s.list++[r])
    (hux : ∀ x, x≠r → u.complete x=s.complete x) (huf : u.timedOutFn=s.timedOutFn) :
    Aborted round s (r::l) t k := by
  refine ⟨h.inv,h.nodup,h.complete,fun x hx => mem_cons_of_mem r (h.subset x hx),fun x hx => ?_,
    h.fn.trans huf⟩
  rw [mem_cons,not_or] at hx
  have hf := h.frame x hx.2
  refine ⟨hf.1.trans (hux x hx.1),fun hm => ?_⟩
  have hm := hf.2 hm
  rcases hul with hul|hul
  · exact hul ▸ hm
  · rw [hul,mem_append,mem_singleton] at hm
    exact hm.resolve_right hx.1

/-- The loop of blk_abort_queue. -/
theorem abortLoop_inv (h : TimeoutInv round s) (hn : (l++s.list).Nodup) (ha : abortLoop round s l as=some (t,k)) :
    Aborted round s l t k := by
  induction l generalizing s k as with
  | nil =>
    cases as with
    | nil =>
      cases ha
      exact ⟨h,h.nodup,fun x hx => absurd hx not_mem_nil,fun x hx => hx,fun x _ => ⟨rfl,id⟩,rfl⟩
    | cons a as => cases ha
  | cons r rest ih =>
    rw [cons_append,nodup_cons,mem_append,not_or] at hn
    obtain ⟨⟨hr,hrl⟩,hrest⟩ := hn
    unfold abortLoop at ha
    by_cases hc : s.complete r=true
    · rw [if_pos hc] at ha
      obtain ⟨⟨v,m⟩,hv,hvm⟩ := Option.map_eq_some_iff.mp ha
      cases hvm
      exact (ih h hrest hv).keep hr hrl rfl hc (fun _ _ => rfl) rfl
    · rw [if_neg hc] at ha
      cases as with
      | nil => cases ha
      | cons a as =>
        obtain ⟨hl,hx,hfn⟩ := blkAbortRequest_frame round a hrl
        have hi := h.abort r a
        have hgone : ∀ {k : List ℕ}, abortLoop round (blkAbortRequest round s r a) rest as=some (t,k) →
            Aborted round s (r::rest) t k := by
          intro k hk
          refine (ih hi ?_ hk).leave hl hx hfn
          rcases hl with hl|hl
          · rw [hl]
            exact hrest
          · rw [hl,← append_assoc]
            refine (perm_append_singleton r _).nodup_iff.mpr (nodup_cons.mpr ⟨?_,hrest⟩)
            rw [mem_append,not_or]
            exact ⟨hr,hrl⟩
        cases a with
        | raced =>
          obtain ⟨⟨v,m⟩,hv,hvm⟩ := Option.map_eq_some_iff.mp ha
          cases hvm
          have heq : blkAbortRequest round s r .raced=s.setComplete r true := by
            simp [blkAbortRequest,hc]
          rw [heq] at hv hi hx
          exact (ih hi hrest hv).keep hr hrl rfl (update_self ..) hx rfl
        | reset u | handled | notHandled | bad => exact hgone ha

theorem TimeoutInv.elvAbort (h : TimeoutInv round s) (hn : l.Nodup) (hs : ∀ r∈l, r∉s.list ∧ s.complete r=false) :
    TimeoutInv round (elvAbortQueue round s l) := by
  induction l generalizing s with
  | nil => exact h
  | cons r l ih =>
    obtain ⟨hr,hl⟩ := nodup_cons.mp hn
    obtain ⟨⟨hrl,hrc⟩,hrest⟩ := forall_mem_cons.mp hs
    refine ih ((h.add hrl hrc).delete r) hl (fun x hx => ?_)
    obtain ⟨hxl,hxc⟩ := hrest x hx
    obtain ⟨hlist,hcomp,_⟩ := blkAddTimer_frame round s r
    have hxr : x≠r := fun hxr => hr (hxr ▸ hx)
    refine ⟨fun hm => ?_,?_⟩
    · have hm := mem_of_mem_erase hm
      rcases hlist with hlist|hlist
      · exact hxl (hlist ▸ hm)
      · rw [hlist,mem_append,mem_singleton] at hm
        exact hxl (hm.resolve_right hxr)
    · change (blkAddTimer round s r).complete x=false
      rw [hcomp]
      exact hxc

theorem TimeoutInv.abortQueue {heads : List ℕ} (h : TimeoutInv round s) (hn : heads.Nodup)
    (hs : ∀ r∈heads, r∉s.list ∧ s.complete r=false) (ha : blkAbortQueue round s heads as=some t) :
    TimeoutInv round t := by
  have hi := h.elvAbort hn hs
  obtain ⟨⟨v,k⟩,hv,rfl⟩ := Option.map_eq_some_iff.mp ha
  have hempty : TimeoutInv round ((elvAbortQueue round s heads).setList []) :=
    ⟨nodup_nil,hi.noBug,fun _ => rfl,fun _ x hx => absurd hx not_mem_nil⟩
  have hab := abortLoop_inv hempty (by rw [show (Queue.setList _ []).list=[] from rfl,append_nil]; exact hi.nodup) hv
  refine ⟨hab.nodup,hab.inv.noBug,fun hf => ?_,fun hf x hx => ?_⟩
  · have hnil : (elvAbortQueue round s heads).list=[] := hi.fn (hab.fn.symm.trans hf)
    have hk : k=[] := by
      refine eq_nil_iff_forall_not_mem.mpr (fun x hx => ?_)
      have hm := hab.subset x hx
      rw [hnil] at hm
      cases hm
    change k++v.list=[]
    rw [hk,hab.inv.fn hf]
    rfl
  · rcases mem_append.mp hx with hx|hx
    · exact .inl (hab.complete x hx)
    · exact hab.inv.covered hf x hx

theorem TimeoutInv.timer (hmono : Monotone round) (h : TimeoutInv round s) (ho : inOrder round s (.timer as)=true)
    (ht : blkRqTimedOutTimer round s as=some t) : TimeoutInv round {t with fired := false} := by
  obtain ⟨⟨u,next⟩,hu,rfl⟩ := Option.map_eq_some_iff.mp ht
  have hrearm : (rearm round u next).list=u.list ∧ (rearm round u next).complete=u.complete ∧
      (rearm round u next).deadline=u.deadline ∧ (rearm round u next).bug=u.bug ∧
      (rearm round u next).timedOutFn=u.timedOutFn := by
    unfold rearm
    split
    · exact ⟨rfl,rfl,rfl,rfl,rfl⟩
    · exact ⟨rfl,rfl,rfl,rfl,rfl⟩
  obtain ⟨hl,hc,hd,hb,hfn⟩ := hrearm
  cases hf : s.timedOutFn with
  | false =>
    have hempty := h.fn hf
    rw [hempty] at hu
    cases as with
    | nil =>
      cases hu
      refine ⟨h.nodup,h.noBug,fun _ => hempty,fun _ x hx => ?_⟩
      change x∈s.list at hx
      rw [hempty] at hx
      cases hx
    | cons a as => cases hu
  | true =>
    have hstart : Walk round s [] s.list none := ⟨rfl,h.nodup,h.noBug,fun x hx => absurd hx not_mem_nil⟩
    have hsince : Since s as s s.list none as := ⟨⟨rfl,rfl⟩,Subset.refl as,
      .inl ⟨⟨[],rfl,nofun⟩,⟨[],rfl,nofun,fun hno => absurd rfl hno⟩,fun _ _ => ⟨rfl,rfl⟩⟩⟩
    obtain ⟨vis,hw,hfu⟩ := walk_inv hmono ho hf hstart hsince hu
    have hvis : u.list=vis := by
      rw [hw.list_eq,append_nil]
    refine ⟨hl ▸ hw.nodup,hb.trans hw.noBug,fun hno => ?_,fun _ x hx => ?_⟩
    · exact absurd (hfu.symm.trans (hfn.symm.trans hno)) nofun
    · have hx : x∈vis := by
        rw [← hvis,← hl]
        exact hx
      change (rearm round u next).complete x=true ∨
        ∃ e, (rearm round u next).timer=some e ∧ e ≤ round ((rearm round u next).deadline x)
      rw [hc,hd]
      refine (hw.seen x hx).imp_right (fun hx => ?_)
      cases next with
      | none =>
        rcases hx with ⟨n,hno,_⟩|⟨_,hcov,_⟩
        · cases hno
        · exact hcov
      | some n =>
        refine ⟨round n,rfl,?_⟩
        rcases hx with ⟨m,hm,hle⟩|⟨_,_,hle⟩
        · cases hm
          exact hmono hle
        · exact hle n rfl

theorem startable_iff : startable s r=true ↔ r∉s.list ∧ s.complete r=false := by
  rw [startable,Bool.and_eq_true,decide_eq_true_iff,Bool.not_eq_true']

/-- Every event keeps the requests covered. -/
theorem TimeoutInv.step {e : Event} (hmono : Monotone round) (h : TimeoutInv round s)
    (hs : inOrderStep round s e=some t) : TimeoutInv round t := by
  obtain ⟨ho,hs⟩ := Option.ite_none_right_eq_some.mp hs
  cases e with
  | tick =>
    cases hs
    exact {h with}
  | add r u =>
    obtain ⟨hr,rfl⟩ := of_guard hs
    obtain ⟨hl,hc⟩ := startable_iff.mp hr
    exact TimeoutInv.add (s := s.setTimeout r u) {h with} hl hc
  | delete r =>
    cases hs
    exact h.delete r
  | mark r =>
    cases hs
    exact h.mark r
  | clear r =>
    obtain ⟨hr,rfl⟩ := of_guard hs
    exact h.clear hr false
  | fire =>
    obtain ⟨-,rfl⟩ := of_guard hs
    exact ⟨h.nodup,h.noBug,h.fn,fun hf => absurd hf nofun⟩
  | timer as =>
    obtain ⟨-,hs⟩ := Option.ite_none_right_eq_some.mp hs
    obtain ⟨u,hu,rfl⟩ := Option.map_eq_some_iff.mp hs
    exact h.timer hmono ho hu
  | abort r a =>
    obtain ⟨-,rfl⟩ := of_guard hs
    exact h.abort r a
  | abortQueue heads as =>
    obtain ⟨hheads,hs⟩ := Option.ite_none_right_eq_some.mp hs
    rw [Bool.and_eq_true,all_eq_true,decide_eq_true_iff] at hheads
    exact h.abortQueue hheads.2 (fun r hr => startable_iff.mp (hheads.1 r hr)) hs

/-- The requests are covered in every state. -/
theorem TimeoutInv.run (hmono : Monotone round) (h : InOrderRun round s) : TimeoutInv round s := by
  refine h.invariant (fun u hu => ?_) (fun _ _ _ _ hi hs => hi.step hmono hs)
  obtain ⟨hl,_,hb⟩ := hu
  exact ⟨hl ▸ nodup_nil,hb,fun _ => hl,fun _ x hx => absurd (hl ▸ hx) not_mem_nil⟩

end

/-- As long as the timer function does not reset the last entry of the list alone to a deadline
before those that have not passed, and resets no request without a timeout: whenever the timer
function does not wait for the lock, the timer is pending for every request of the list that
is not marked complete, and expires no later than its rounded deadline. -/
theorem timer_covers_of_inOrder {round : ℕ → ℕ} {s : Queue} {r : ℕ} (hmono : Monotone round)
    (h : InOrderRun round s) (hf : s.fired=false) (hr : r∈s.list) (hc : s.complete r=false) :
    s.bug=false ∧ ∃ e, s.timer=some e ∧ e ≤ round (s.deadline r) := by
  have hi := TimeoutInv.run hmono h
  refine ⟨hi.noBug,?_⟩
  rcases hi.covered hf r hr with hc'|hcov
  · exact absurd (hc.symm.trans hc') nofun
  · exact hcov

/-- A queue with a timeout of 30. -/
def newQueue : Queue := ⟨true,30,0,[],fun _ => 0,fun _ => 0,fun _ => false,none,false,false⟩

/-- Two requests that time out, the first one is reset. -/
theorem timer_covers_of_inOrder_reset :
    ∃ s, InOrderRun id s ∧ s.list=[2,1] ∧ s.timer=some 2 ∧ s.bug=false ∧ ∃ e, s.timer=some e ∧ e ≤ s.deadline 1 := by
  obtain ⟨s,hrun,hl,ht,hf,hc⟩ :
    ∃ s, InOrderRun id s ∧ s.list=[2,1] ∧ s.timer=some 2 ∧ s.fired=false ∧ s.complete 1=false :=
    exists_run (fun _ _ _ => id) (s := newQueue) ⟨rfl,rfl,rfl⟩ [.add 1 1,.add 2 2,.tick,.fire,.timer [.reset 4]]
      (by decide)
  exact ⟨s,hrun,hl,ht,timer_covers_of_inOrder monotone_id hrun hf (by rw [hl]; decide) hc⟩

/-- The last request of the list times out and is reset to a deadline of 15, while the first
one has the deadline 1000: the timer is set for 1000. From the expiry of the timer until its
function has the lock it is not pending. -/
theorem timer_misses_last :
    (∃ s, TimeoutRun id s ∧ s.fired=false ∧ 2∈s.list ∧ s.complete 2=false ∧ s.deadline 2=15 ∧ s.timer=some 1000) ∧
    ∃ s, TimeoutRun id s ∧ s.fired=true ∧ 1∈s.list ∧ s.complete 1=false ∧ s.timer=none :=
  ⟨exists_run (fun _ _ _ => id) (s := newQueue) ⟨rfl,rfl,rfl⟩
    ([.add 1 1000,.add 2 10]++List.replicate 10 .tick++[.fire,.timer [.reset 5]]) (by decide),
    exists_run (fun _ _ _ => id) (s := newQueue) ⟨rfl,rfl,rfl⟩ [.add 1 2,.tick,.tick,.fire] (by decide)⟩

end BlockIpc.TimeoutTimer
