import BlockIpc.PhysSegments

/-!
# Integrity segments of requests

A bio may carry integrity data, pieces of memory of their own. nr_integrity_segments of a request
is what a driver goes by for the integrity scatterlist. A bio that is merged into a request adds
its segments. The bio that a request is built from is not counted, and neither are the segments
of a request that is merged into another one.
-/

namespace BlockIpc.IntegritySegments

open Function TransitionRuns PhysSegments

/-- The limits of a queue with those for integrity data. -/
structure Queue where
  limits : Limits
  maxIntegritySegments : ℕ

structure Bio where
  data : PhysSegments.Bio
  /-- bi_integrity, with bip_vec. -/
  integrity : Option (List Vec)

structure Request where
  data : PhysSegments.Request
  /-- bi_integrity of the bios from bio to biotail. -/
  integrity : List (Option (List Vec))
  nrIntegritySegments : ℕ

def bioIntegrity (b : Bio) : Bool := b.integrity.isSome

/-- blk_integrity_rq: bio_integrity of the first bio. -/
def blkIntegrityRq (r : Request) : Bool := r.integrity.head?.any Option.isSome

/-- The pieces that bio_for_each_integrity_vec visits. -/
def integrityVecs (l : List (Option (List Vec))) : List Vec := l.flatMap (fun i => i.getD [])

section

variable (q : Queue)

/-- Whether a piece goes on with the segment of the piece before it. -/
def integrityGoesOn (ivprv : Vec) (segSize : ℕ) (iv : Vec) : Bool :=
  biovecPhysMergeable q.limits ivprv iv && biovecSegBoundary q.limits ivprv iv &&
    !decide (q.limits.maxSegmentSize<segSize+iv.len)

/-- The loop of blk_rq_count_integrity_sg, with ivprv, segments and seg_size. -/
def countLoop : Option Vec → ℕ → ℕ → List Vec → ℕ
  | _,segments,_,[] => segments
  | some p,segments,segSize,v::vs =>
    if integrityGoesOn q p segSize v then countLoop (some v) segments (segSize+v.len) vs
    else countLoop (some v) (segments+1) v.len vs
  | none,segments,_,v::vs => countLoop (some v) (segments+1) v.len vs

/-- blk_rq_count_integrity_sg for a chain of bios. -/
def blkRqCountIntegritySg (l : List (Option (List Vec))) : ℕ := countLoop q none 0 0 (integrityVecs l)

/-- The loop of blk_rq_map_integrity_sg; the last entry comes first. -/
def mapIntegrityLoop : Option Vec → List Sg → List Vec → List Sg
  | some p,sg::sgs,v::vs =>
    if integrityGoesOn q p sg.length v then mapIntegrityLoop (some v) ({sg with length := sg.length+v.len}::sgs) vs
    else mapIntegrityLoop (some v) (⟨bvecToPhys q.limits v,v.len⟩::sg::sgs) vs
  | _,sgs,v::vs => mapIntegrityLoop (some v) (⟨bvecToPhys q.limits v,v.len⟩::sgs) vs
  | _,sgs,[] => sgs

/-- blk_rq_map_integrity_sg for the bios of a request. -/
def blkRqMapIntegritySg (r : Request) : List Sg := (mapIntegrityLoop q none [] (integrityVecs r.integrity)).reverse

/-- blk_integrity_merge_bio: the new count, if it is within the limit. -/
def blkIntegrityMergeBio (r : Request) (b : Bio) : Option ℕ :=
  if q.maxIntegritySegments < r.nrIntegritySegments+blkRqCountIntegritySg q [b.integrity] then none
  else some (r.nrIntegritySegments+blkRqCountIntegritySg q [b.integrity])

/-- blk_integrity_merge_rq: whether it allows the merge. -/
def blkIntegrityMergeRq (r next : Request) : Bool :=
  if blkIntegrityRq r≠blkIntegrityRq next then false
  else if q.maxIntegritySegments < r.nrIntegritySegments+next.nrIntegritySegments then false
  else true

/-- ll_new_hw_segment: the two new counts, if the bio may be merged. -/
def llNewHwSegment (r : Request) (b : Bio) : Option (ℕ × ℕ) :=
  if q.limits.maxSegments < r.data.nrPhysSegments+b.data.physSegments then none
  else if bioIntegrity b then
    (blkIntegrityMergeBio q r b).map (fun n => (r.data.nrPhysSegments+b.data.physSegments,n))
  else some (r.data.nrPhysSegments+b.data.physSegments,r.nrIntegritySegments)

/-- ll_back_merge_fn, and the bio at the end of the request if it succeeds. -/
def backMerge (r : Request) (b : Bio) : Request :=
  if mergeSectors q.limits r.data<blkRqSectors r.data+bioSectors b.data then r
  else
    let r := {r with data := {r.data with bios := onLast (validate q.limits) r.data.bios}}
    let b := {b with data := validate q.limits b.data}
    match llNewHwSegment q r b with
    | none => r
    | some (nrPhys,nrIntegrity) =>
      ⟨⟨r.data.bios++[b.data],nrPhys,r.data.blockPc⟩,r.integrity++[b.integrity],nrIntegrity⟩

/-- ll_front_merge_fn, and the bio at the front of the request if it succeeds. -/
def frontMerge (r : Request) (b : Bio) : Request :=
  if mergeSectors q.limits r.data<blkRqSectors r.data+bioSectors b.data then r
  else
    let b := {b with data := validate q.limits b.data}
    let r := {r with data := {r.data with bios := r.data.bios.modifyHead (validate q.limits)}}
    match llNewHwSegment q r b with
    | none => r
    | some (nrPhys,nrIntegrity) =>
      ⟨⟨b.data::r.data.bios,nrPhys,r.data.blockPc⟩,b.integrity::r.integrity,nrIntegrity⟩

/-- blk_rq_init and blk_rq_bio_prep. -/
def blkRqBioPrep (b : Bio) (blockPc : Bool) : Request :=
  ⟨PhysSegments.blkRqBioPrep q.limits ⟨[],0,blockPc⟩ b.data,[b.integrity],0⟩

/-- ll_merge_requests_fn, and the bios of the second request at the end of the first one if it
succeeds. -/
def mergeRequests (r next : Request) : Request × Request :=
  let refuse := blkIntegrityRq r && !blkIntegrityMergeRq q r next
  let p := PhysSegments.mergeRequests q.limits r.data next.data refuse
  -- attempt_merge has taken the bios of the second request when none are left there
  if p.2.bios=[] then
    ({r with
        data := p.1
        integrity := r.integrity++next.integrity},
      {next with
        data := p.2
        integrity := []})
  else ({r with data := p.1},{next with data := p.2})

end

/-- What can happen. -/
inductive Event where
  /-- A request is built from a bio. -/
  | build (r : ℕ) (b : Bio) (blockPc : Bool)
  /-- bio_attempt_back_merge. -/
  | back (r : ℕ) (b : Bio)
  /-- bio_attempt_front_merge. -/
  | front (r : ℕ) (b : Bio)
  /-- blk_rq_append_bio for a request that has a bio. -/
  | append (r : ℕ) (b : Bio)
  /-- attempt_merge. -/
  | merge (r next : ℕ)

/-- One step of a history. elv_rq_merge_ok lets only bios with integrity data into requests with
integrity data; blk_rq_append_bio does not ask. -/
def step (q : Queue) (s : ℕ → Request) : Event → Option (ℕ → Request)
  | .build r b blockPc => some (update s r (blkRqBioPrep q b blockPc))
  | .back r b =>
    if bioIntegrity b=blkIntegrityRq (s r) then some (update s r (backMerge q (s r) b)) else none
  | .front r b =>
    if bioIntegrity b=blkIntegrityRq (s r) then some (update s r (frontMerge q (s r) b)) else none
  | .append r b => some (update s r (backMerge q (s r) b))
  | .merge r next =>
    if r≠next then
      some (update (update s r (mergeRequests q (s r) (s next)).1) next
        (mergeRequests q (s r) (s next)).2)
    else none

/-- No request has been built. -/
def newRequests : ℕ → Request := fun _ => ⟨⟨[],0,false⟩,[],0⟩

/-- The loop of blk_rq_map_integrity_sg makes an entry if it has a piece. -/
theorem mapIntegrityLoop_ne_nil (q : Queue) (p : Option Vec) (sgs : List Sg) (l : List Vec) (h : sgs≠[] ∨ l≠[]) :
    mapIntegrityLoop q p sgs l≠[] := by
  fun_induction mapIntegrityLoop q p sgs l with
  | case1 p sg sgs v vs hgoes ih => exact ih (.inl (List.cons_ne_nil _ _))
  | case2 p sg sgs v vs hgoes ih => exact ih (.inl (List.cons_ne_nil _ _))
  | case3 p sgs v vs hnone ih => exact ih (.inl (List.cons_ne_nil _ _))
  | case4 p sgs => exact h.resolve_right (fun hne => hne rfl)

/-- Whatever has happened before, a request that is built from a bio with integrity pieces has
fewer integrity segments counted than its scatterlist has entries. -/
theorem build_not_counted (q : Queue) (s : ℕ → Request) (r : ℕ) (b : Bio) {iv : Vec} {ivs : List Vec}
    (hb : b.integrity=some (iv::ivs)) (blockPc : Bool) : ∃ t, step q s (.build r b blockPc)=some t ∧
      (t r).nrIntegritySegments<(blkRqMapIntegritySg q (t r)).length := by
  refine ⟨_,rfl,?_⟩
  have hvecs : integrityVecs [b.integrity]=iv::ivs := by
    rw [hb]
    exact List.append_nil _
  rw [update_self]
  change 0<((mapIntegrityLoop q none [] (integrityVecs [b.integrity])).reverse).length
  rw [List.length_reverse]
  refine List.length_pos_iff.mpr (mapIntegrityLoop_ne_nil q none [] _ (.inr ?_))
  rw [hvecs]
  exact List.cons_ne_nil iv ivs

/-- A device that takes one integrity segment. -/
def oneSegment : Queue := ⟨⟨true,65536,128,2^32-1,1024,1024,1000,12⟩,1⟩

/-- A bio of one page with integrity data at the start of another one. -/
def protectedBio (pfn : ℕ) (integrity : List Vec) : Bio := ⟨⟨[⟨pfn,0,4096⟩],0,0,0,false⟩,some integrity⟩

/-- A request is built while another one, with a merged bio, is there. -/
theorem build_not_counted_second : ∃ s t, Reachable (fun s => s=newRequests)
      (fun s e t => step oneSegment s e=some t) s ∧ (s 0).nrIntegritySegments=1 ∧
    step oneSegment s (.build 1 (protectedBio 30 [⟨300,0,64⟩]) false)=some t ∧
    (t 1).nrIntegritySegments<(blkRqMapIntegritySg oneSegment (t 1)).length := by
  obtain ⟨s,hrun,hs⟩ : ∃ s, Reachable (fun s => s=newRequests) (fun s e t => step oneSegment s e=some t) s ∧
      (s 0).nrIntegritySegments=1 :=
    exists_run (fun _ _ _ => id) rfl
      [.build 0 (protectedBio 10 [⟨100,0,64⟩]) false,.back 0 (protectedBio 20 [⟨200,0,64⟩])] (by decide)
  obtain ⟨t,ht,hlt⟩ := build_not_counted oneSegment s 1 (protectedBio 30 [⟨300,0,64⟩]) rfl false
  exact ⟨s,t,hrun,hs,ht,hlt⟩

/-- A request is built from a protected bio and another one is merged into it. The device takes
one integrity segment, one is counted, and the scatterlist has two; right after the request is
built none is counted and the scatterlist has one. -/
theorem first_bio_not_counted :
    (∃ s : ℕ → Request, Reachable (fun s => s=newRequests) (fun s e t => step oneSegment s e=some t) s ∧
      (s 0).nrIntegritySegments=0 ∧ (blkRqMapIntegritySg oneSegment (s 0)).length=1) ∧
    ∃ s : ℕ → Request, Reachable (fun s => s=newRequests) (fun s e t => step oneSegment s e=some t) s ∧
      (s 0).nrIntegritySegments=1 ∧ (blkRqMapIntegritySg oneSegment (s 0)).length=2 ∧
      oneSegment.maxIntegritySegments<(blkRqMapIntegritySg oneSegment (s 0)).length := by
  constructor
  · exact exists_run (fun _ _ _ => id) rfl [.build 0 (protectedBio 10 [⟨100,0,64⟩]) false] (by decide)
  · exact exists_run (fun _ _ _ => id) rfl
      [.build 0 (protectedBio 10 [⟨100,0,64⟩]) false,.back 0 (protectedBio 20 [⟨200,0,64⟩])] (by decide)

end BlockIpc.IntegritySegments
