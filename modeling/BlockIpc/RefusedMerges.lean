import BlockIpc.IntegritySegments

/-!
# Merges that are refused

attempt_merge asks one condition after the other. When the segments of two requests join,
ll_merge_requests_fn notes the size of the joined segment in the bios of a request that has one
segment, and asks for the limits after that. A merge that is refused there leaves the sizes.
-/

namespace BlockIpc.RefusedMerges

open PhysSegments (Limits Vec onLast validate blkRecountSegments blkRqSectors bioSectors mergeSectors
  blkPhysContigSegment joinSizes frontOf backOf frontOf_of_head? backOf_of_getLast? onLast_concat)
open IntegritySegments

/-- A request, with what the conditions ask for. -/
structure Rq where
  id : ℕ
  /-- Bios and segments. -/
  segs : Request
  /-- blk_rq_pos. -/
  pos : ℕ
  /-- REQ_NOMERGE. -/
  noMerge : Bool
  /-- Another one of RQ_NOMERGE_FLAGS. -/
  busy : Bool
  discard : Bool
  secure : Bool
  /-- REQ_TYPE_FS. -/
  fs : Bool
  write : Bool
  rqDisk : ℕ
  special : Bool

structure Disk where
  limits : Queue
  lastMerge : Option ℕ

def rqMergeable (rq : Rq) : Bool := !(rq.noMerge || rq.busy) && (rq.discard || rq.fs)

/-- ll_merge_requests_fn from where the sizes have been written. -/
def mergeLimits (q : Queue) (req next : Rq) (joined : Bool) (p : PhysSegments.Request × PhysSegments.Request) :
    Bool × Rq × Rq :=
  let total := req.segs.data.nrPhysSegments+next.segs.data.nrPhysSegments-joined.toNat
  let req := {req with segs.data := p.1}
  let next := {next with segs.data := p.2}
  if q.limits.maxSegments<total then (false,req,next)
  else if blkIntegrityRq req.segs && !blkIntegrityMergeRq q req.segs next.segs then (false,req,next)
  else (true,{req with segs.data.nrPhysSegments := total},next)

/-- ll_merge_requests_fn: the return value and the requests. -/
def llMergeRequestsFn (q : Queue) (req next : Rq) : Bool × Rq × Rq :=
  match req.segs.data.bios.getLast?,next.segs.data.bios.head? with
  | some tail,some head =>
    if req.special || next.special then (false,req,next)
    else if q.limits.maxSectors<blkRqSectors req.segs.data+blkRqSectors next.segs.data then (false,req,next)
    else if blkPhysContigSegment q.limits tail head then
      mergeLimits q req next true (joinSizes req.segs.data next.segs.data (tail.backSize+head.frontSize))
    else mergeLimits q req next false (req.segs.data,next.segs.data)
  | _,_ => (false,req,next)

/-- attempt_merge, up to where the merge is allowed. -/
def attemptMerge (q : Queue) (req next : Rq) : Bool × Rq × Rq :=
  if !rqMergeable req || !rqMergeable next then (false,req,next)
  else if req.discard≠next.discard then (false,req,next)
  else if req.secure≠next.secure then (false,req,next)
  else if req.pos+blkRqSectors req.segs.data≠next.pos then (false,req,next)
  else if req.write≠next.write ∨ req.rqDisk≠next.rqDisk ∨ next.special=true then (false,req,next)
  else llMergeRequestsFn q req next

/-- Set REQ_NOMERGE, and clear last_merge if it is this request. -/
def refuse (d : Disk) (req : Rq) : Disk × Rq :=
  ({d with lastMerge := if d.lastMerge=some req.id then none else d.lastMerge},{req with noMerge := true})

def llNewHwSegment (d : Disk) (req : Rq) (b : Bio) : Bool × Disk × Rq :=
  match IntegritySegments.llNewHwSegment d.limits req.segs b with
  | none => (false,refuse d req)
  | some (nrPhys,nrIntegrity) =>
    (true,d,{req with segs.data.nrPhysSegments := nrPhys, segs.nrIntegritySegments := nrIntegrity})

/-- A bio at one end of the request: the return value, the queue, the request and the bio. -/
def llMergeFn (atEnd : (PhysSegments.Bio → PhysSegments.Bio) → List PhysSegments.Bio → List PhysSegments.Bio)
    (d : Disk) (req : Rq) (b : Bio) : Bool × (Disk × Rq) × Bio :=
  let q := d.limits.limits
  if mergeSectors q req.segs.data<blkRqSectors req.segs.data+bioSectors b.data then (false,refuse d req,b)
  else
    let b := {b with data := validate q b.data}
    let r := llNewHwSegment d {req with segs.data.bios := atEnd (validate q) req.segs.data.bios} b
    (r.1,r.2,b)

def llBackMergeFn : Disk → Rq → Bio → Bool × (Disk × Rq) × Bio := llMergeFn onLast

def llFrontMergeFn : Disk → Rq → Bio → Bool × (Disk × Rq) × Bio := llMergeFn (fun f l => l.modifyHead f)

/-- A bio is as before, or it was stale and has been recounted. -/
def Recounted (q : Limits) (b c : PhysSegments.Bio) : Prop := c=b ∨ b.segValid=false ∧ c=blkRecountSegments q b

/-- What a bio that is refused leaves: REQ_NOMERGE, and last_merge without this request. -/
structure Refused (d : Disk) (req : Rq) (b : Bio) (r : (Disk × Rq) × Bio) : Prop where
  queue : r.1.1={d with lastMerge := if d.lastMerge=some req.id then none else d.lastMerge}
  request : r.1.2={req with noMerge := true, segs.data.bios := r.1.2.segs.data.bios}
  bios : List.Forall₂ (Recounted d.limits.limits) req.segs.data.bios r.1.2.segs.data.bios
  bio : r.2={b with data := r.2.data} ∧ Recounted d.limits.limits b.data r.2.data

variable {d : Disk} {q : Queue} {req next : Rq} {b : Bio}

theorem recounted_validate (q : Limits) (b : PhysSegments.Bio) : Recounted q b (validate q b) := by
  unfold validate
  split
  · exact .inl rfl
  · next h => exact .inr ⟨by simpa using h,rfl⟩

/-- A bio that is refused at one end. -/
theorem llMergeFn_refused
    {atEnd : (PhysSegments.Bio → PhysSegments.Bio) → List PhysSegments.Bio → List PhysSegments.Bio}
    (hend : ∀ q l, List.Forall₂ (Recounted q) l (atEnd (validate q) l)) (h : (llMergeFn atEnd d req b).1=false) :
    Refused d req b (llMergeFn atEnd d req b).2 := by
  unfold llMergeFn at h ⊢
  dsimp only at h ⊢
  split
  · exact ⟨rfl,rfl,List.forall₂_same.mpr (fun _ _ => .inl rfl),rfl,.inl rfl⟩
  · next hsize =>
    rw [if_neg hsize] at h
    unfold llNewHwSegment at h ⊢
    split at h
    · exact ⟨rfl,rfl,hend _ _,rfl,recounted_validate _ _⟩
    · cases h

/-- The size that ll_merge_requests_fn notes for a joined segment. -/
def joinedSize (req next : Rq) : ℕ := backOf req.segs.data.bios+frontOf next.segs.data.bios

/-- A request of one segment has not noted the joined size yet. -/
def SizeChanges (req next : Rq) : Prop :=
  req.segs.data.nrPhysSegments=1 ∧ frontOf req.segs.data.bios≠joinedSize req next ∨
    next.segs.data.nrPhysSegments=1 ∧ backOf next.segs.data.bios≠joinedSize req next

/-- The checks before the first write of ll_merge_requests_fn pass, the segments join, a size changes,
and a check after that refuses. -/
structure LateRefusal (q : Queue) (req next : Rq) : Prop where
  plain : req.special=false ∧ next.special=false
  sectors : blkRqSectors req.segs.data+blkRqSectors next.segs.data≤q.limits.maxSectors
  joins : ∃ tail head, req.segs.data.bios.getLast?=some tail ∧ next.segs.data.bios.head?=some head ∧
    blkPhysContigSegment q.limits tail head=true
  changes : SizeChanges req next
  refused : q.limits.maxSegments<req.segs.data.nrPhysSegments+next.segs.data.nrPhysSegments-1 ∨
    blkIntegrityRq req.segs=true ∧ blkIntegrityMergeRq q req.segs next.segs=false

/-- The checks of attempt_merge pass as well. -/
structure LeavesSize (q : Queue) (req next : Rq) : Prop extends LateRefusal q req next where
  mergeable : rqMergeable req=true ∧ rqMergeable next=true
  alike : req.discard=next.discard ∧ req.secure=next.secure ∧ req.write=next.write ∧ req.rqDisk=next.rqDisk
  adjacent : req.pos+blkRqSectors req.segs.data=next.pos

/-- The front size of the first bio changes unless it is that already. -/
theorem front_eq_iff {l : List PhysSegments.Bio} (hl : l≠[]) (n : ℕ) :
    l.modifyHead (fun b => {b with frontSize := n})=l ↔ frontOf l=n := by
  cases l with
  | nil => exact absurd rfl hl
  | cons b l =>
    obtain ⟨vecs,front,back,nr,valid⟩ := b
    simp [frontOf,eq_comm]

/-- The back size of the last bio changes unless it is that already. -/
theorem back_eq_iff {l : List PhysSegments.Bio} (hl : l≠[]) (n : ℕ) :
    onLast (fun b => {b with backSize := n}) l=l ↔ backOf l=n := by
  have hlast := List.getLast?_eq_some_getLast hl
  rw [backOf_of_getLast? hlast]
  obtain ⟨k,hk⟩ := List.getLast?_eq_some_iff.mp hlast
  generalize l.getLast hl=b at hk
  obtain ⟨vecs,front,back,nr,valid⟩ := b
  rw [hk,onLast_concat]
  simp [eq_comm]

/-- Noting the joined size leaves both requests as they are if it is there. -/
theorem joinSizes_eq_iff {r n : PhysSegments.Request} (hr : r.bios≠[]) (hn : n.bios≠[]) (size : ℕ) :
    joinSizes r n size=(r,n) ↔
      ¬(r.nrPhysSegments=1 ∧ frontOf r.bios≠size ∨ n.nrPhysSegments=1 ∧ backOf n.bios≠size) := by
  obtain ⟨bios,nr,pc⟩ := r
  obtain ⟨bios',nr',pc'⟩ := n
  have hfst := front_eq_iff hr size
  have hsnd := back_eq_iff hn size
  dsimp only [joinSizes] at hfst hsnd ⊢
  split_ifs with h h' h' <;> simp [h,h',hfst,hsnd]

/-- A refusal by the limits leaves the sizes that have been written. -/
theorem mergeLimits_refused {joined : Bool} {p : PhysSegments.Request × PhysSegments.Request}
    (h : (mergeLimits q req next joined p).1=false) :
    (mergeLimits q req next joined p).2=({req with segs.data := p.1},{next with segs.data := p.2}) ∧
    (q.limits.maxSegments < req.segs.data.nrPhysSegments+next.segs.data.nrPhysSegments-joined.toNat ∨
      blkIntegrityRq req.segs=true ∧ blkIntegrityMergeRq q req.segs next.segs=false) := by
  unfold mergeLimits at h ⊢
  dsimp only at h ⊢
  split_ifs at h ⊢ with hsegs hint
  · exact ⟨rfl,.inl hsegs⟩
  · -- the integrity data is not part of what has been written
    rw [Bool.and_eq_true,Bool.not_eq_true'] at hint
    exact ⟨rfl,.inr hint⟩

theorem withData_eq_iff (p : PhysSegments.Request × PhysSegments.Request) :
    (({req with segs.data := p.1},{next with segs.data := p.2}) : Rq × Rq)=(req,next) ↔
      p=(req.segs.data,next.segs.data) := by
  refine ⟨fun h => ?_,fun h => by rw [h]⟩
  obtain ⟨hreq,hnext⟩ := Prod.mk.inj h
  exact Prod.ext (congrArg (fun r => r.segs.data) hreq) (congrArg (fun r => r.segs.data) hnext)

/-- ll_merge_requests_fn leaves the requests, or it refuses after a size has changed. -/
theorem llMergeRequestsFn_unchanged_iff (h : (llMergeRequestsFn q req next).1=false) :
    (llMergeRequestsFn q req next).2=(req,next) ↔ ¬LateRefusal q req next := by
  unfold llMergeRequestsFn at h ⊢
  split at h
  case h_2 hnone =>
    refine iff_of_true rfl (fun hl => ?_)
    obtain ⟨_,_,ht,hh,_⟩ := hl.joins
    exact hnone _ _ ht hh
  case h_1 tail head ht hh =>
    have hr : req.segs.data.bios≠[] := fun hnil => by simp [hnil] at ht
    have hn : next.segs.data.bios≠[] := fun hnil => by simp [hnil] at hh
    have hsizes := joinSizes_eq_iff hr hn (tail.backSize+head.frontSize)
    have hsize : joinedSize req next=tail.backSize+head.frontSize :=
      congrArg₂ (·+·) (backOf_of_getLast? ht) (frontOf_of_head? hh)
    split_ifs at h ⊢ with hspecial hsectors hj
    · exact iff_of_true rfl (fun hl => by simp [hl.plain] at hspecial)
    · exact iff_of_true rfl (fun hl => absurd hsectors (not_lt.mpr hl.sectors))
    · obtain ⟨heq,hrefused⟩ := mergeLimits_refused h
      rw [heq,withData_eq_iff,hsizes,← hsize]
      refine not_congr ⟨fun hc => ⟨by simpa using hspecial,not_lt.mp hsectors,⟨tail,head,ht,hh,hj⟩,hc,hrefused⟩,
        fun hl => hl.changes⟩
    · rw [(mergeLimits_refused h).1]
      refine iff_of_true rfl (fun hl => ?_)
      obtain ⟨_,_,ht',hh',hj'⟩ := hl.joins
      cases ht.symm.trans ht'
      cases hh.symm.trans hh'
      exact hj hj'

/-- A bio that is refused leaves the queue, the request and the bio as they were, apart from stale
bios that are recounted, REQ_NOMERGE and last_merge. A request that is refused leaves both requests
as they were, unless a size has changed before the check that refuses. -/
theorem refused_merge_unchanged (d : Disk) (req next : Rq) (b : Bio) :
    ((llBackMergeFn d req b).1=false → Refused d req b (llBackMergeFn d req b).2) ∧
    ((llFrontMergeFn d req b).1=false → Refused d req b (llFrontMergeFn d req b).2) ∧
    ((attemptMerge d.limits req next).1=false →
      ((attemptMerge d.limits req next).2=(req,next) ↔ ¬LeavesSize d.limits req next)) := by
  refine ⟨llMergeFn_refused (fun q l => ?_),llMergeFn_refused (fun q l => ?_),fun h => ?_⟩
  · exact PhysSegments.forall₂_onLast (fun _ => .inl rfl) (recounted_validate q) l
  · cases l with
    | nil => exact .nil
    | cons c l => exact .cons (recounted_validate q c) (List.forall₂_same.mpr (fun _ _ => .inl rfl))
  · unfold attemptMerge at h ⊢
    split_ifs at h ⊢ with hm hdiscard hsecure hpos hother
    · exact iff_of_true rfl (fun hl => by simp [hl.mergeable] at hm)
    · exact iff_of_true rfl (fun hl => hdiscard hl.alike.1)
    · exact iff_of_true rfl (fun hl => hsecure hl.alike.2.1)
    · exact iff_of_true rfl (fun hl => hpos hl.adjacent)
    · exact iff_of_true rfl (fun hl => by simp [hl.alike,hl.plain] at hother)
    · rw [llMergeRequestsFn_unchanged_iff h]
      refine not_congr ⟨fun hl => ⟨hl,by simpa using hm,?_,not_not.mp hpos⟩,fun hl => hl.toLateRefusal⟩
      obtain ⟨hwrite,hdisk,-⟩ : req.write=next.write ∧ req.rqDisk=next.rqDisk ∧ _ := by simpa using hother
      exact ⟨not_not.mp hdiscard,not_not.mp hsecure,hwrite,hdisk⟩

/-- A request of one page, with integrity data or not. -/
def pageRq (id pfn pos : ℕ) (integrity : Option (List Vec)) : Rq :=
  ⟨id,⟨⟨[⟨[⟨pfn,0,4096⟩],4096,4096,1,true⟩],1,false⟩,[integrity],0⟩,pos,false,false,false,false,true,false,0,false⟩

theorem refused_merge_unchanged_apart :
    (attemptMerge oneSegment (pageRq 0 10 0 none) {pageRq 1 11 8 none with rqDisk := 1}).2=
      (pageRq 0 10 0 none,{pageRq 1 11 8 none with rqDisk := 1}) :=
  ((refused_merge_unchanged ⟨oneSegment,none⟩ (pageRq 0 10 0 none) {pageRq 1 11 8 none with rqDisk := 1}
    (protectedBio 0 [])).2.2 (by decide)).mpr (fun hl => absurd hl.alike (by decide))

/-- A request with integrity data and one without, of a page each, are neighbours on the disk and in
memory. The merge is refused, and the front size of the first bio is that of both pages. -/
theorem refused_merge_leaves_size :
    (attemptMerge oneSegment (pageRq 0 10 0 (some [⟨100,0,64⟩])) (pageRq 1 11 8 none)).1=false ∧
    (pageRq 0 10 0 (some [⟨100,0,64⟩])).segs.data.bios.map PhysSegments.Bio.frontSize=[4096] ∧
    (attemptMerge oneSegment (pageRq 0 10 0 (some [⟨100,0,64⟩])) (pageRq 1 11 8 none)).2.1.segs.data.bios.map
      PhysSegments.Bio.frontSize=[8192] := by
  decide

end BlockIpc.RefusedMerges
