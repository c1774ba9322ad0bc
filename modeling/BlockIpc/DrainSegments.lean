import BlockIpc.TransitionRuns

/-!
# The segment of the drain buffer

A queue with a drain buffer needs one more segment for every request with data. blk_peek_request
counts it whenever it reaches a request without REQ_DONTPREP, and takes it back only if the
request is deferred. One request with data is followed from its insertion on.
-/

namespace BlockIpc.DrainSegments

open TransitionRuns

inductive Place where
  | queued
  | started
  /-- Ended by blk_peek_request. -/
  | ended
  deriving DecidableEq

/-- The request, and what blk_peek_request has returned last. -/
structure Rq where
  place : Place
  nrPhysSegments : ℕ
  dontprep : Bool
  /-- The last blk_peek_request has returned the request, and it has not been requeued since. -/
  returned : Bool
  /-- The last thing that happened to it is that it was deferred or requeued. -/
  putBack : Bool
  deriving DecidableEq

/-- The return value of prep_rq_fn. -/
inductive Prep where
  | ok
  | defer
  | kill
  /-- Any other value. -/
  | bad
  deriving DecidableEq

/-- What happens to the request. -/
inductive Event where
  /-- blk_peek_request, with the return value of prep_rq_fn and whether it sets REQ_DONTPREP. -/
  | peek (prep : Prep) (sets : Bool)
  /-- blk_start_request. -/
  | start
  /-- blk_requeue_request; the driver may have cleared REQ_DONTPREP. -/
  | requeue (clears : Bool)
  deriving DecidableEq

/-- blk_peek_request with the request at the head of a queue that has a drain buffer. -/
def blkPeekRequest (prepRqFn : Bool) (rq : Rq) (prep : Prep) (sets : Bool) : Rq :=
  if rq.dontprep then {rq with returned := true, putBack := false}
  else
    let rq := {rq with nrPhysSegments := rq.nrPhysSegments+1}
    if !prepRqFn then {rq with returned := true, putBack := false}
    else
      let rq := {rq with dontprep := rq.dontprep || sets}
      match prep with
      | .ok | .bad => {rq with returned := true, putBack := false}
      | .defer =>
        {rq with
          nrPhysSegments := if rq.dontprep then rq.nrPhysSegments else rq.nrPhysSegments-1
          returned := false
          putBack := true}
      | .kill => {rq with place := .ended, returned := false, putBack := false}

def step (prepRqFn : Bool) (rq : Rq) : Event → Option Rq
  | .peek prep sets => if rq.place=.queued then some (blkPeekRequest prepRqFn rq prep sets) else none
  | .start => if rq.place=.queued ∧ rq.returned then some {rq with place := .started} else none
  | .requeue clears =>
    if rq.place=.started then
      some {rq with place := .queued, dontprep := rq.dontprep && !clears, returned := false, putBack := true}
    else none

/-- The request when it is inserted, with its data segments. -/
def inserted (segments : ℕ) : Rq := ⟨.queued,segments,false,false,false⟩

/-- A request that was returned without REQ_DONTPREP is not peeked at again, and a request is requeued
with the flag only. -/
def careful (rq : Rq) : Event → Bool
  | .peek _ _ => rq.dontprep || !rq.returned
  | .start => true
  | .requeue clears => rq.dontprep && !clears

/-- The states that such steps reach. -/
def CarefulRun (prepRqFn : Bool) (segments : ℕ) : Rq → Prop :=
  Reachable (fun rq => rq=inserted segments) (fun rq e t => careful rq e=true ∧ step prepRqFn rq e=some t)

structure DrainInv (segments : ℕ) (rq : Rq) : Prop where
  /-- The drain segment is counted with the flag, and while the request is returned. -/
  counted : rq.place≠.ended → rq.nrPhysSegments=segments+if rq.dontprep || rq.returned then 1 else 0
  returned : rq.returned=true → rq.place≠.ended ∧ rq.putBack=false

variable {segments : ℕ} {prepRqFn : Bool} {rq t : Rq} {e : Event}

/-- A request is returned with its segment counted. -/
theorem DrainInv.of_returned (dontprep : Bool) : DrainInv segments ⟨.queued,segments+1,dontprep,true,false⟩ :=
  ⟨fun _ => by simp,fun _ => ⟨nofun,rfl⟩⟩

theorem DrainInv.peek (h : DrainInv segments rq) (hq : rq.place=.queued) (prep : Prep) (sets : Bool)
    (hc : careful rq (.peek prep sets)=true) : DrainInv segments (blkPeekRequest prepRqFn rq prep sets) := by
  obtain ⟨_,n,dontprep,returned,putBack⟩ := rq
  subst hq
  have hcount : n=segments+if dontprep || returned then 1 else 0 := h.counted nofun
  cases dontprep with
  | true =>
    subst hcount
    exact .of_returned true
  | false =>
    obtain rfl : returned=false := by simpa [careful] using hc
    obtain rfl : n=segments := hcount
    cases prepRqFn with
    | false => exact .of_returned false
    | true =>
      cases prep with
      | ok | bad => exact .of_returned sets
      | defer =>
        cases sets with
        | true | false => exact ⟨fun _ => rfl,nofun⟩
      | kill => exact ⟨fun hne => absurd rfl hne,nofun⟩

theorem DrainInv.step (h : DrainInv segments rq) (hc : careful rq e=true)
    (hs : DrainSegments.step prepRqFn rq e=some t) : DrainInv segments t := by
  cases e with
  | peek prep sets =>
    obtain ⟨hq,rfl⟩ := of_guard hs
    exact h.peek hq prep sets hc
  | start =>
    obtain ⟨⟨hq,hr⟩,rfl⟩ := of_guard hs
    exact ⟨fun _ => h.counted (by simp [hq]),fun hr => ⟨nofun,(h.returned hr).2⟩⟩
  | requeue clears =>
    obtain ⟨hq,rfl⟩ := of_guard hs
    have hcount := h.counted (by simp [hq])
    obtain ⟨hd,hk⟩ := Bool.and_eq_true_iff.mp hc
    exact ⟨fun _ => by simpa [hd,hk] using hcount,nofun⟩

/-- If a request that was returned without REQ_DONTPREP is not peeked at again and the flag is set at
every requeue, a request that is returned has one segment more than at its insertion, and one that is
deferred or requeued without the flag has no more. -/
theorem drain_counted_once {segments : ℕ} {prepRqFn : Bool} {rq : Rq} (hr : CarefulRun prepRqFn segments rq) :
    (rq.returned=true → rq.nrPhysSegments=segments+1) ∧
    (rq.putBack=true → rq.place=.queued → rq.dontprep=false → rq.nrPhysSegments=segments) := by
  have h : DrainInv segments rq := by
    refine Reachable.invariant ?_ (fun _ _ _ _ h hs => h.step hs.1 hs.2) hr
    rintro _ rfl
    exact ⟨fun _ => rfl,nofun⟩
  refine ⟨fun hret => ?_,fun hput hq hd => ?_⟩
  · rw [h.counted (h.returned hret).1,hret,Bool.or_true]
    rfl
  · have hret : rq.returned=false := by
      by_contra hne
      exact absurd (hput.symm.trans (h.returned (Bool.eq_true_of_not_eq_false hne)).2) nofun
    rw [h.counted (by simp [hq]),hd,hret]
    rfl

/-- A request is deferred, prepared, started, requeued and returned again; without prep_rq_fn one is
returned and started. -/
theorem drain_counted_once_retry :
    (∃ rq, CarefulRun true 3 rq ∧ rq.place=.queued ∧ rq.returned=true ∧ rq.nrPhysSegments=4) ∧
    ∃ rq, CarefulRun false 3 rq ∧ rq.place=.started ∧ rq.nrPhysSegments=4 := by
  have hnext (p : Bool) : ∀ rq e t, (if careful rq e then step p rq e else none)=some t →
      careful rq e=true ∧ step p rq e=some t := fun rq e t => Option.ite_none_right_eq_some.mp
  obtain ⟨rq,hr,hq,hret⟩ : ∃ rq, CarefulRun true 3 rq ∧ rq.place=.queued ∧ rq.returned=true :=
    exists_run (hnext true) rfl [.peek .defer false,.peek .ok true,.start,.requeue false,.peek .ok true] (by decide)
  obtain ⟨x,hx,hp,hxr⟩ : ∃ rq, CarefulRun false 3 rq ∧ rq.place=.started ∧ rq.returned=true :=
    exists_run (hnext false) rfl [.peek .ok false,.start] (by decide)
  exact ⟨⟨rq,hr,hq,hret,(drain_counted_once hr).1 hret⟩,x,hx,hp,(drain_counted_once hx).1 hxr⟩

/-- Without prep_rq_fn a second peek counts the segment again, and so it does if prep_rq_fn does
not set the flag; a request that is requeued without the flag keeps the segment. -/
theorem drain_counted_again : (∃ rq, Reachable (fun rq => rq=inserted 3) (fun rq e t => step false rq e=some t) rq ∧
      rq.returned=true ∧ rq.nrPhysSegments=5) ∧
    (∃ rq, Reachable (fun rq => rq=inserted 3) (fun rq e t => step true rq e=some t) rq ∧
      rq.returned=true ∧ rq.nrPhysSegments=5) ∧
    ∃ rq, Reachable (fun rq => rq=inserted 3) (fun rq e t => step true rq e=some t) rq ∧
      rq.putBack=true ∧ rq.place=.queued ∧ rq.dontprep=false ∧ rq.nrPhysSegments=4 :=
  ⟨exists_run (fun _ _ _ => id) rfl [.peek .ok false,.peek .ok false] (by decide),
    exists_run (fun _ _ _ => id) rfl [.peek .ok false,.peek .ok false] (by decide),
    exists_run (fun _ _ _ => id) rfl [.peek .ok true,.start,.requeue true] (by decide)⟩

end BlockIpc.DrainSegments
