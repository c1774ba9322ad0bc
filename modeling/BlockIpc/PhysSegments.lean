import BlockIpc.TransitionRuns
import BlockIpc.GreedySplits

/-!
# Physical segments of requests

Pieces of memory of a request that are next to each other can share an entry of the scatterlist.
nr_phys_segments is kept up to date when bios and requests are merged, by sums and by one less
where two segments join, which is decided by the sizes of the first and last segment that the
bios have cached. The pieces are below the bounce limit, and no drain buffer is used.
-/

namespace BlockIpc.PhysSegments

open Function List TransitionRuns GreedySplits

structure Limits where
  /-- blk_queue_cluster. -/
  cluster : Bool
  maxSegmentSize : ℕ
  maxSegments : ℕ
  segmentBoundary : ℕ
  maxSectors : ℕ
  maxHwSectors : ℕ
  bouncePfn : ℕ
  pageShift : ℕ

structure Vec where
  /-- page_to_pfn of bv_page. -/
  pfn : ℕ
  offset : ℕ
  len : ℕ
  deriving DecidableEq

structure Bio where
  /-- bi_io_vec from bi_idx on; bi_size is the length of these pieces. -/
  vecs : List Vec
  /-- bi_seg_front_size. -/
  frontSize : ℕ
  /-- bi_seg_back_size. -/
  backSize : ℕ
  physSegments : ℕ
  segValid : Bool
  deriving DecidableEq

structure Request where
  bios : List Bio
  nrPhysSegments : ℕ
  /-- cmd_type is REQ_TYPE_BLOCK_PC. -/
  blockPc : Bool
  deriving DecidableEq

/-- bi_size. -/
def Bio.size (b : Bio) : ℕ := total Vec.len b.vecs

/-- The pieces of all bios of a request. -/
def vecsOf (bios : List Bio) : List Vec := bios.flatMap Bio.vecs

def blkRqSectors (r : Request) : ℕ := (r.bios.map Bio.size).sum/512

def bioSectors (b : Bio) : ℕ := b.size/512

/-- Change the last entry of a list. -/
def onLast (f : Bio → Bio) : List Bio → List Bio
  | [] => []
  | [b] => [f b]
  | b::c::bs => b::onLast f (c::bs)

section

variable (q : Limits)

def bvecToPhys (v : Vec) : ℕ := v.pfn*2^q.pageShift+v.offset

def biovecPhysMergeable (v w : Vec) : Bool := decide (bvecToPhys q v+v.len=bvecToPhys q w)

def biovecSegBoundary (v w : Vec) : Bool :=
  decide (bvecToPhys q v ||| q.segmentBoundary=(bvecToPhys q w+w.len-1) ||| q.segmentBoundary)

/-- Whether a piece goes on with the segment of the piece before it. -/
def goesOn (prv : Vec) (segSize : ℕ) (v : Vec) : Bool :=
  q.cluster && !decide (q.maxSegmentSize<segSize+v.len) && biovecPhysMergeable q prv v && biovecSegBoundary q prv v

/-- What the loop of __blk_recalc_rq_segments has found. -/
structure Found where
  /-- nr_phys_segs. -/
  nr : ℕ
  segSize : ℕ
  /-- bi_seg_front_size of the first bio. -/
  front : ℕ

/-- Keep the larger front size after the first segment. -/
def Found.keep (f : Found) : ℕ := if f.nr=1 ∧ f.front<f.segSize then f.segSize else f.front

/-- The loop of __blk_recalc_rq_segments, with bvprv and highprv. -/
def recalcLoop : Option Vec → Bool → Found → List Vec → Found
  | _,_,f,[] => f
  | prv,highprv,f,v::vs =>
    let high := decide (q.bouncePfn<v.pfn)
    let joined := match prv with
      | none => false
      | some p => goesOn q p f.segSize v
    if !(high || highprv) && joined then recalcLoop (some v) highprv {f with segSize := f.segSize+v.len} vs
    else recalcLoop (some v) high ⟨f.nr+1,v.len,f.keep⟩ vs

/-- __blk_recalc_rq_segments: the number, and the bios with their sizes. -/
def blkRecalcSegments (bios : List Bio) : ℕ × List Bio :=
  match bios with
  | [] => (0,[])
  | b::bs =>
    let f := recalcLoop q none true ⟨0,0,b.frontSize⟩ (vecsOf (b::bs))
    (f.nr,onLast (fun c => {c with backSize := max c.backSize f.segSize}) ({b with frontSize := f.keep}::bs))

def blkRecalcRqSegments (r : Request) : Request :=
  let f := blkRecalcSegments q r.bios
  {r with
    bios := f.2
    nrPhysSegments := f.1}

def blkRecountSegments (b : Bio) : Bio :=
  let f := recalcLoop q none true ⟨0,0,b.frontSize⟩ b.vecs
  {b with
    frontSize := f.keep
    backSize := max b.backSize f.segSize
    physSegments := f.nr
    segValid := true}

/-- Recount a bio that is not marked. -/
def validate (b : Bio) : Bio := if b.segValid then b else blkRecountSegments q b

def blkPhysContigSegment (b nxt : Bio) : Bool :=
  q.cluster && !decide (q.maxSegmentSize<b.backSize+nxt.frontSize) &&
    match b.vecs.getLast?,nxt.vecs.head? with
    | some v,some w => biovecPhysMergeable q v w && biovecSegBoundary q v w
    | _,_ => true

/-- An entry of the scatterlist. -/
structure Sg where
  start : ℕ
  length : ℕ

/-- ll_new_hw_segment: the merged count; blk_integrity_merge_bio may refuse. -/
def llNewHwSegment (r : Request) (b : Bio) (refuse : Bool) : Option ℕ :=
  if q.maxSegments<r.nrPhysSegments+b.physSegments then none
  else if refuse then none
  else some (r.nrPhysSegments+b.physSegments)

/-- max_sectors, an unsigned short. -/
def mergeSectors (r : Request) : ℕ := (if r.blockPc then q.maxHwSectors else q.maxSectors)%2^16

/-- ll_back_merge_fn, and the bio at the end of the request if it succeeds. -/
def backMerge (r : Request) (b : Bio) (refuse : Bool) : Request :=
  if mergeSectors q r<blkRqSectors r+bioSectors b then r
  else
    let r := {r with bios := onLast (validate q) r.bios}
    let b := validate q b
    match llNewHwSegment q r b refuse with
    | none => r
    | some n => {r with bios := r.bios++[b], nrPhysSegments := n}

/-- ll_front_merge_fn, and the bio at the front of the request if it succeeds. -/
def frontMerge (r : Request) (b : Bio) (refuse : Bool) : Request :=
  if mergeSectors q r<blkRqSectors r+bioSectors b then r
  else
    let b := validate q b
    let r := {r with bios := r.bios.modifyHead (validate q)}
    match llNewHwSegment q r b refuse with
    | none => r
    | some n => {r with bios := b::r.bios, nrPhysSegments := n}

def blkRqBioPrep (r : Request) (b : Bio) : Request :=
  {r with
    bios := [validate q b]
    nrPhysSegments := (validate q b).physSegments}

def blkRqAppendBio (r : Request) (b : Bio) (refuse : Bool) : Request :=
  if r.bios=[] then blkRqBioPrep q r b else backMerge q r b refuse

/-- The two bios that ll_merge_requests_fn changes when segments join. -/
def joinSizes (r next : Request) (segSize : ℕ) : Request × Request :=
  (if r.nrPhysSegments=1 then {r with bios := r.bios.modifyHead (fun b => {b with frontSize := segSize})} else r,
    if next.nrPhysSegments=1 then {next with bios := onLast (fun b => {b with backSize := segSize}) next.bios}
    else next)

/-- ll_merge_requests_fn, and the bios of the second request at the end of the first one if it
succeeds; blk_integrity_merge_rq may refuse. -/
def mergeRequests (r next : Request) (refuse : Bool) : Request × Request :=
  match r.bios.getLast?,next.bios.head? with
  | some tail,some head =>
    if q.maxSectors<blkRqSectors r+blkRqSectors next then (r,next)
    else
      let joined := blkPhysContigSegment q tail head
      let p := if joined then joinSizes r next (tail.backSize+head.frontSize) else (r,next)
      let total := r.nrPhysSegments+next.nrPhysSegments-joined.toNat
      if q.maxSegments<total then p
      else if refuse then p
      else ({p.1 with bios := p.1.bios++p.2.bios, nrPhysSegments := total},{p.2 with bios := []})
  | _,_ => (r,next)

/-- The pieces of a bio after some bytes are done. -/
def advance : List Vec → ℕ → List Vec
  | [],_ => []
  | v::vs,n =>
    if v.len≤n then advance vs (n-v.len)
    else {v with offset := v.offset+n, len := v.len-n}::vs

/-- The bios of a request after some bytes are done. -/
def completeBios : List Bio → ℕ → List Bio
  | [],_ => []
  | b::bs,n =>
    if b.size≤n then
      if n-b.size=0 then bs else completeBios bs (n-b.size)
    else {b with vecs := advance b.vecs n}::bs

def blkUpdateRequest (r : Request) (n : ℕ) : Request :=
  let r' := {r with bios := completeBios r.bios n}
  if r'.bios=[] then r' else blkRecalcRqSegments q r'

end

/-- A piece that a queue takes: it has data and is below the bounce limit. -/
def Vec.fine (q : Limits) (v : Vec) : Bool := decide (0<v.len) && decide (v.pfn≤q.bouncePfn)

/-- A bio that a queue takes: it has data, and its segments are within the limit. -/
def Bio.fine (q : Limits) (b : Bio) : Bool :=
  decide (b.vecs≠[]) && b.vecs.all (Vec.fine q) && decide ((blkRecountSegments q b).physSegments≤q.maxSegments)

/-- What can happen. A bio may have been counted before, when it was not merged. -/
inductive Event where
  /-- A request is made from a bio. -/
  | prep (r : ℕ) (b : Bio) (counted blockPc : Bool)
  /-- bio_attempt_back_merge or blk_rq_append_bio. -/
  | append (r : ℕ) (b : Bio) (counted refuse : Bool)
  /-- bio_attempt_front_merge. -/
  | front (r : ℕ) (b : Bio) (counted refuse : Bool)
  /-- attempt_merge. -/
  | merge (r next : ℕ) (refuse : Bool)
  /-- blk_update_request. -/
  | complete (r n : ℕ)
  /-- blk_recalc_rq_segments. -/
  | recalc (r : ℕ)
  /-- blk_recount_segments for a bio of a request. -/
  | recount (r i : ℕ)

/-- A bio when it comes to the queue. -/
def arriving (q : Limits) (b : Bio) (counted : Bool) : Bio :=
  if counted then blkRecountSegments q b else {b with segValid := false}

/-- One step of a history. -/
def step (q : Limits) (s : ℕ → Request) : Event → Option (ℕ → Request)
  | .prep r b counted blockPc =>
    if (s r).bios=[] ∧ b.fine q then
      some (update s r (blkRqBioPrep q {s r with blockPc := blockPc} (arriving q b counted)))
    else none
  | .append r b counted refuse =>
    if b.fine q then some (update s r (blkRqAppendBio q (s r) (arriving q b counted) refuse)) else none
  | .front r b counted refuse =>
    if (s r).bios≠[] ∧ b.fine q then
      some (update s r (frontMerge q (s r) (arriving q b counted) refuse))
    else none
  | .merge r next refuse =>
    if r≠next then
      let p := mergeRequests q (s r) (s next) refuse
      some (update (update s r p.1) next p.2)
    else none
  | .complete r n => some (update s r (blkUpdateRequest q (s r) n))
  | .recalc r => if (s r).bios=[] then none else some (update s r (blkRecalcRqSegments q (s r)))
  | .recount r i =>
    some (update s r {s r with bios := (s r).bios.modify i (blkRecountSegments q)})

/-- No request has been made. -/
def newRequests : ℕ → Request := fun _ => ⟨[],0,false⟩

section

variable {q : Limits}

/-- Whether two pieces may be neighbours in a segment. -/
def fits (q : Limits) (v w : Vec) : Bool := q.cluster && biovecPhysMergeable q v w && biovecSegBoundary q v w

/-- A split of the pieces of a queue. -/
abbrev SplitOf (q : Limits) (P : List (List Vec)) (l : List Vec) : Prop := Split (fits q) Vec.len q.maxSegmentSize P l

/-- The counter and the two sizes describe a split of the pieces. -/
abbrev Describes (q : Limits) (front back n : ℕ) (l : List Vec) : Prop :=
  Cover (fits q) Vec.len q.maxSegmentSize front back n l

/-- What the loop of __blk_recalc_rq_segments knows about the pieces before: they are split, the
last block ends with the piece before and has the size of the segment, and the size of the first
one is kept once there are two. -/
structure Scanned (q : Limits) (p : Vec) (f : Found) (l : List Vec) (P : List (List Vec)) (b : List Vec) : Prop where
  split : SplitOf q (P++[b]) l
  /-- The number of blocks. -/
  count : P.length+1=f.nr
  last : b.getLast?=some p
  /-- The last block. -/
  size : total Vec.len b=f.segSize
  first : ∀ c∈P.head?, total Vec.len c≤f.front

variable {p : Vec} {f : Found} {l b : List Vec} {P : List (List Vec)}

/-- The size of the first block is kept. -/
theorem Scanned.keep (h : Scanned q p f l P b) : ∀ c∈(P++[b]).head?, total Vec.len c≤f.keep := by
  have hcount := h.count
  intro c hc
  unfold Found.keep
  cases P with
  | nil =>
    cases hc
    have hone : f.nr=1 := hcount.symm
    rw [h.size]
    split
    case isTrue => exact le_refl _
    case isFalse hn => exact not_lt.mp (fun hlt => hn ⟨hone,hlt⟩)
  | cons d P =>
    have hne : ¬(f.nr=1 ∧ f.front<f.segSize) := by
      rw [length_cons] at hcount
      omega
    rw [if_neg hne]
    exact h.first c hc

end

section

variable {q : Limits}

/-- A bio with the same pieces and sizes that are not smaller. -/
structure Grown (b c : Bio) : Prop where
  vecs : c.vecs=b.vecs
  /-- The first segment. -/
  front : b.frontSize ≤ c.frontSize
  /-- The last segment. -/
  back : b.backSize ≤ c.backSize

theorem Grown.refl (b : Bio) : Grown b b := ⟨rfl,le_refl _,le_refl _⟩

/-- The size of the first segment that the first bio has cached. -/
def frontOf : List Bio → ℕ
  | [] => 0
  | b::_ => b.frontSize

/-- The size of the last segment that the last bio has cached. -/
def backOf : List Bio → ℕ
  | [] => 0
  | [b] => b.backSize
  | _::c::bs => backOf (c::bs)

variable {l k : List Bio} {b : Bio} {R : Bio → Bio → Prop} {f : Bio → Bio} {r next : Request} {n size : ℕ}
  {s : ℕ → Request}

theorem frontOf_of_head? (h : l.head?=some b) : frontOf l=b.frontSize := by
  cases l with
  | nil => cases h
  | cons c l =>
    cases h
    rfl

theorem backOf_of_getLast? (h : l.getLast?=some b) : backOf l=b.backSize := by
  induction l with
  | nil => cases h
  | cons c l ih =>
    cases l with
    | nil =>
      cases h
      rfl
    | cons d l =>
      rw [getLast?_cons_cons] at h
      exact ih h

theorem frontOf_append (hl : l≠[]) (k : List Bio) : frontOf (l++k)=frontOf l := by
  cases l with
  | nil => exact absurd rfl hl
  | cons b l => rfl

/-- The last bio of two lists. -/
theorem backOf_append (l : List Bio) (hk : k≠[]) : backOf (l++k)=backOf k := by
  obtain ⟨c,hc⟩ : ∃ c, k.getLast?=some c := ⟨_,getLast?_eq_some_getLast hk⟩
  rw [backOf_of_getLast? hc,backOf_of_getLast? (b := c)]
  rw [getLast?_append_of_ne_nil l hk,hc]

/-- Bios with the same pieces. -/
def SameVecs (l k : List Bio) : Prop := List.Forall₂ (fun b c => c.vecs=b.vecs) l k

/-- The pieces of all bios. -/
theorem SameVecs.vecsOf_eq (h : SameVecs l k) : vecsOf k=vecsOf l := by
  induction h with
  | nil => rfl
  | @cons b c l k hb _ ih =>
    change c.vecs++vecsOf k=b.vecs++vecsOf l
    rw [hb,ih]

theorem SameVecs.data (h : SameVecs l k) (hl : ∀ b∈l, b.vecs≠[]) : ∀ c∈k, c.vecs≠[] := by
  induction h with
  | nil => nofun
  | cons hb _ ih =>
    intro d hd
    rcases mem_cons.mp hd with rfl|hd
    · rw [hb]
      exact hl _ mem_cons_self
    · exact ih (fun e he => hl e (mem_cons_of_mem _ he)) d hd

theorem SameVecs.ne_nil (h : SameVecs l k) (hk : k≠[]) : l≠[] := by
  intro hl
  refine hk (eq_nil_of_length_eq_zero ?_)
  rw [← h.length_eq,hl]
  rfl

/-- The last bio changes within a relation. -/
theorem forall₂_onLast (hR : ∀ b, R b b) (hf : ∀ b, R b (f b)) (l : List Bio) : List.Forall₂ R l (onLast f l) := by
  induction l with
  | nil => exact List.Forall₂.nil
  | cons b l ih =>
    cases l with
    | nil => exact List.Forall₂.cons (hf b) List.Forall₂.nil
    | cons c l => exact List.Forall₂.cons (hR b) ih

/-- A segment ends where an aligned range does. -/
def Limits.Aligned (q : Limits) : Prop := ∃ k, q.segmentBoundary=2^k-1

/-- What the counter of a request says about its bios. -/
structure ReqOk (q : Limits) (r : Request) : Prop where
  /-- The counter is within the limit. -/
  within : q.Aligned → r.nrPhysSegments≤q.maxSegments
  data : ∀ b∈r.bios, b.vecs≠[]
  /-- The queue takes all pieces. -/
  fine : ∀ v∈vecsOf r.bios, v.fine q=true
  /-- The counter and the sizes of the first and last bio describe a split. -/
  sizes : r.bios≠[] → Describes q (frontOf r.bios) (backOf r.bios) r.nrPhysSegments (vecsOf r.bios)

/-- A request with bios has pieces. -/
theorem vecsOf_ne_nil (hdata : ∀ b∈l, b.vecs≠[]) (hl : l≠[]) : vecsOf l≠[] := by
  cases l with
  | nil => exact absurd rfl hl
  | cons b l => exact append_ne_nil_of_left_ne_nil (hdata b mem_cons_self) _

/-- A greedy pass needs no more segments than the counter. -/
theorem ReqOk.blocks_le (h : ReqOk q r) :
    blocks (fits q) Vec.len q.maxSegmentSize (vecsOf r.bios) ≤ r.nrPhysSegments := by
  by_cases hb : r.bios=[]
  · rw [hb]
    exact Nat.zero_le _
  · exact (h.sizes hb).blocks_le

/-- A request without bios. -/
theorem ReqOk.empty (hle : q.Aligned → r.nrPhysSegments≤q.maxSegments) (hb : r.bios=[]) : ReqOk q r := by
  refine ⟨hle,?_,?_,fun h => absurd hb h⟩
  · rw [hb]
    nofun
  · rw [hb]
    nofun

/-- The cached sizes change. -/
theorem ReqOk.resize (h : ReqOk q r) (hk : SameVecs r.bios k)
    (hsizes : r.bios≠[] → Describes q (frontOf k) (backOf k) r.nrPhysSegments (vecsOf r.bios)) :
    ReqOk q {r with bios := k} := by
  have hvecs := hk.vecsOf_eq
  refine ⟨h.within,hk.data h.data,fun v hv => h.fine v (hvecs ▸ hv),fun hne => ?_⟩
  change Describes q (frontOf k) (backOf k) r.nrPhysSegments (vecsOf k)
  rw [hvecs]
  exact hsizes (hk.ne_nil hne)

/-- The bios of two requests. -/
theorem ReqOk.concat (h : ReqOk q r) (h' : ReqOk q next) (hr : r.bios≠[]) (hn : next.bios≠[]) (hle : n≤q.maxSegments)
    (blockPc : Bool) (hsizes : Describes q (frontOf r.bios) (backOf next.bios) n (vecsOf r.bios++vecsOf next.bios)) :
    ReqOk q ⟨r.bios++next.bios,n,blockPc⟩ := by
  have hvecs : vecsOf (r.bios++next.bios)=vecsOf r.bios++vecsOf next.bios := flatMap_append
  refine ⟨fun _ => hle,fun b hb => ?_,fun v hv => ?_,fun _ => ?_⟩
  · rcases mem_append.mp hb with hb|hb
    · exact h.data b hb
    · exact h'.data b hb
  · change v∈vecsOf (r.bios++next.bios) at hv
    rw [hvecs] at hv
    rcases mem_append.mp hv with hv|hv
    · exact h.fine v hv
    · exact h'.fine v hv
  · change Describes q (frontOf (r.bios++next.bios)) (backOf (r.bios++next.bios)) n (vecsOf (r.bios++next.bios))
    rw [frontOf_append hr,backOf_append _ hn,hvecs]
    exact hsizes

/-- The bios of two requests, with the sum of their counters. -/
theorem ReqOk.add (h : ReqOk q r) (h' : ReqOk q next) (hr : r.bios≠[]) (hn : next.bios≠[])
    (hle : r.nrPhysSegments+next.nrPhysSegments≤q.maxSegments) (blockPc : Bool) :
    ReqOk q ⟨r.bios++next.bios,r.nrPhysSegments+next.nrPhysSegments,blockPc⟩ :=
  h.concat h' hr hn hle blockPc
    ((h.sizes hr).append (h'.sizes hn) (vecsOf_ne_nil h.data hr) (vecsOf_ne_nil h'.data hn))

/-- The cached sizes grow. -/
theorem ReqOk.grow (h : ReqOk q r) (hk : List.Forall₂ Grown r.bios k) : ReqOk q {r with bios := k} := by
  have hsame : SameVecs r.bios k := hk.imp (fun _ _ hg => hg.vecs)
  have hfront : ∀ {l k : List Bio}, List.Forall₂ Grown l k → frontOf l≤frontOf k := by
    intro l k hl
    cases hl with
    | nil => exact le_refl _
    | cons hb _ => exact hb.front
  have hback : ∀ {l k : List Bio}, List.Forall₂ Grown l k → backOf l≤backOf k := by
    intro l k hl
    induction hl with
    | nil => exact le_refl _
    | cons hb hrest ih =>
      cases hrest with
      | nil => exact hb.back
      | cons _ _ => exact ih
  exact h.resize hsame (fun hne => (h.sizes hne).mono (hfront hk) (hback hk))

theorem onLast_concat (f : Bio → Bio) (l : List Bio) (b : Bio) : onLast f (l++[b])=l++[f b] := by
  induction l with
  | nil => rfl
  | cons c l ih =>
    cases l with
    | nil => rfl
    | cons d l => exact congrArg (List.cons c) ih

/-- A request with the same pieces and other cached sizes. -/
structure Resized (q : Limits) (r : Request) (front back : ℕ) (r' : Request) : Prop where
  /-- Its counter is right. -/
  ok : ReqOk q r'
  same : SameVecs r.bios r'.bios
  /-- Its first segment. -/
  front : frontOf r'.bios=front
  /-- Its last segment. -/
  back : backOf r'.bios=back

theorem Resized.refl (h : ReqOk q r) : Resized q r (frontOf r.bios) (backOf r.bios) r :=
  ⟨h,forall₂_same.mpr (fun _ _ => rfl),rfl,rfl⟩

theorem Resized.ne_nil {r' : Request} {front back : ℕ} (h : Resized q r front back r') (hr : r.bios≠[]) :
    r'.bios≠[] := by
  intro hnil
  have hlen := h.same.length_eq
  rw [hnil] at hlen
  exact hr (eq_nil_of_length_eq_zero hlen)

/-- An address with the low bits set is the end of its aligned range. -/
theorem or_mask (k y : ℕ) : y ||| (2^k-1)=2^k*(y/2^k)+(2^k-1) := by
  have hlt : 2^k-1<2^k := Nat.sub_lt (Nat.two_pow_pos k) Nat.one_pos
  rw [Nat.two_pow_add_eq_or_of_lt hlt]
  refine Nat.eq_of_testBit_eq (fun i => ?_)
  rw [Nat.testBit_or,Nat.testBit_or,Nat.testBit_two_pow_sub_one,Nat.testBit_two_pow_mul,Nat.testBit_div_two_pow]
  by_cases hi : i<k
  · simp [hi]
  · have hk : k ≤ i := not_lt.mp hi
    simp [hi,hk]

/-- An address between two of one aligned range is in it. -/
theorem boundary_between {a y e : ℕ} (hq : q.Aligned) (ha : a≤y) (he : y≤e)
    (h : a ||| q.segmentBoundary=e ||| q.segmentBoundary) : y ||| q.segmentBoundary=e ||| q.segmentBoundary := by
  obtain ⟨k,hk⟩ := hq
  rw [hk] at h ⊢
  simp only [or_mask] at h ⊢
  have hmul : 2^k*(a/2^k)=2^k*(e/2^k) := Nat.add_right_cancel h
  have hdiv : a/2^k=e/2^k := Nat.eq_of_mul_eq_mul_left (Nat.two_pow_pos k) hmul
  have hay := Nat.div_le_div_right (c := 2^k) ha
  have hye := Nat.div_le_div_right (c := 2^k) he
  have hy : y/2^k=e/2^k := by omega
  rw [hy]

/-- The rest of a piece has the same neighbours. -/
theorem fits_trim {v w : Vec} (hq : q.Aligned) (hn : n<v.len) (h : fits q v w=true) :
    fits q {v with offset := v.offset+n, len := v.len-n} w=true := by
  unfold fits biovecPhysMergeable biovecSegBoundary bvecToPhys at h ⊢
  simp only [Bool.and_eq_true,decide_eq_true_eq] at h ⊢
  obtain ⟨⟨hc,hm⟩,hb⟩ := h
  exact ⟨⟨hc,by omega⟩,boundary_between hq (by omega) (by omega) hb⟩

/-- What is left of a bio after some bytes. -/
theorem advance_spec {l : List Vec} (hn : n<total Vec.len l) (hfine : ∀ v∈l, v.fine q=true) :
    advance l n≠[] ∧ (∀ v∈advance l n, v.fine q=true) ∧ (q.Aligned → ∀ k,
      blocks (fits q) Vec.len q.maxSegmentSize (advance l n++k)≤blocks (fits q) Vec.len q.maxSegmentSize (l++k)) := by
  induction l generalizing n with
  | nil => cases hn
  | cons v l ih =>
    have hrest : ∀ w∈l, w.fine q=true := fun w hw => hfine w (mem_cons_of_mem v hw)
    unfold advance
    split
    case isTrue hle =>
      have hlt : n-v.len<total Vec.len l := by
        change n<v.len+total Vec.len l at hn
        omega
      obtain ⟨hne,hf,hb⟩ := ih hlt hrest
      exact ⟨hne,hf,fun hq k => (hb hq k).trans (blocks_tail v (l++k))⟩
    case isFalse hlt =>
      have hlt' : n<v.len := not_le.mp hlt
      refine ⟨cons_ne_nil _ _,fun w hw => ?_,fun hq k => ?_⟩
      · rcases mem_cons.mp hw with rfl|hw
        · have hv := hfine v mem_cons_self
          unfold Vec.fine at hv ⊢
          simp only [Bool.and_eq_true,decide_eq_true_eq] at hv ⊢
          exact ⟨by omega,hv.2⟩
        · exact hrest w hw
      · exact blocks_lighter (l++k) (fun w hw => fits_trim hq hlt' hw) (Nat.sub_le _ _)

end

end BlockIpc.PhysSegments
