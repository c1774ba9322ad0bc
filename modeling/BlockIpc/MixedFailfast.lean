import BlockIpc.TransitionRuns

/-!
# Requests of mixed failfast bits

A request has failfast bits of its own. While all its bios agree with them the bits of the
bios are not looked at; the first merge that disagrees hands the bits of the request out to
its bios and marks the request as mixed. From then on blk_rq_err_bytes fails the bios at the
front that have all the bits of the request, and blk_update_request takes the bits of the
first bio that is left.
-/

namespace BlockIpc.MixedFailfast

open Function List TransitionRuns

/-- The bits of REQ_FAILFAST_MASK: DEV, TRANSPORT and DRIVER. -/
def failfastMask : BitVec 3 := BitVec.allOnes 3

structure Bio where
  /-- bi_rw & REQ_FAILFAST_MASK. -/
  failfast : BitVec 3
  rahead : Bool
  /-- The lengths of its vectors from bi_idx on. -/
  vecs : List ℕ
  data : 0<vecs.sum

/-- bi_size. -/
def Bio.size (b : Bio) : ℕ := b.vecs.sum

def Bio.curBytes (b : Bio) : ℕ := b.vecs.headD 0

structure Rq where
  /-- The bios from the first to biotail. -/
  bios : List Bio
  /-- cmd_flags & REQ_FAILFAST_MASK. -/
  failfast : BitVec 3
  /-- REQ_MIXED_MERGE. -/
  mixed : Bool
  dataLen : ℕ

/-- The length of a list of bios. -/
def bytes (l : List Bio) : ℕ := (l.map Bio.size).sum

def initRequestFromBio (b : Bio) : Rq :=
  ⟨[b],if b.rahead then b.failfast ||| failfastMask else b.failfast,false,b.size⟩

/-- A bio gets the bits of its request. -/
def Bio.add (ff : BitVec 3) (b : Bio) : Bio := {b with failfast := b.failfast ||| ff}

def blkRqSetMixedMerge (rq : Rq) : Rq :=
  if rq.mixed then rq else {rq with bios := rq.bios.map (Bio.add rq.failfast), mixed := true}

/-- The mark before a bio is merged. -/
def markBio (rq : Rq) (b : Bio) : Rq := if rq.failfast≠b.failfast then blkRqSetMixedMerge rq else rq

/-- bio_attempt_back_merge, once ll_back_merge_fn agrees. -/
def bioAttemptBackMerge (rq : Rq) (b : Bio) : Rq :=
  let rq := markBio rq b
  {rq with bios := rq.bios++[b], dataLen := rq.dataLen+b.size}

/-- bio_attempt_front_merge, once ll_front_merge_fn agrees. -/
def bioAttemptFrontMerge (rq : Rq) (b : Bio) : Rq :=
  let rq := markBio rq b
  {rq with bios := b::rq.bios, dataLen := rq.dataLen+b.size}

/-- The bios and the length of next go to req. -/
def join (req next : Rq) : Rq := {req with bios := req.bios++next.bios, dataLen := req.dataLen+next.dataLen}

/-- attempt_merge, once all its checks agree. -/
def attemptMerge (req next : Rq) : Rq :=
  if req.mixed || next.mixed || decide (req.failfast≠next.failfast)
  then join (blkRqSetMixedMerge req) (blkRqSetMixedMerge next) else join req next

/-- The loop of blk_update_request over the vectors of a bio that is not done: what is left
of them and how many bytes are done. -/
def advance : List ℕ → ℕ → List ℕ × ℕ
  | [],_ => ([],0)
  | v::vs,n =>
    if n<v then ((v-n)::vs,n)
    else if n-v=0 then (vs,v)
    else ((advance vs (n-v)).1,v+(advance vs (n-v)).2)

theorem advance_spec {vs : List ℕ} {n : ℕ} (h : n<vs.sum) : (advance vs n).1.sum=vs.sum-n ∧ (advance vs n).2=n := by
  induction vs generalizing n with
  | nil => exact absurd h (Nat.not_lt_zero n)
  | cons v vs ih =>
    rw [sum_cons] at h ⊢
    unfold advance
    split
    case isTrue hlt =>
      rw [sum_cons]
      omega
    case isFalse hge =>
      split
      case isTrue hz =>
        change vs.sum=v+vs.sum-n ∧ v=n
        omega
      case isFalse hz =>
        obtain ⟨hsum,hdone⟩ := ih (n := n-v) (by omega)
        change (advance vs (n-v)).1.sum=v+vs.sum-n ∧ v+(advance vs (n-v)).2=n
        rw [hsum,hdone]
        omega

/-- req_bio_endio of a part of a bio. -/
def Bio.endio (b : Bio) (n : ℕ) (h : n<b.size) : Bio :=
  if n=0 then b else
    {b with
      vecs := (advance b.vecs n).1
      data := by
        rw [(advance_spec h).1]
        exact Nat.sub_pos_of_lt h}

/-- The loop of blk_update_request over the bios: what is left and how many bytes are done. -/
def updateBios : List Bio → ℕ → List Bio × ℕ
  | [],_ => ([],0)
  | b::l,n =>
    if h : n<b.size then (b.endio n h::l,(advance b.vecs n).2)
    else if l≠[] ∧ n-b.size=0 then (l,b.size)
    else ((updateBios l (n-b.size)).1,b.size+(updateBios l (n-b.size)).2)

/-- The request after its loop, when the first bio is left. -/
def settle (rq : Rq) (b : Bio) (l : List Bio) (total : ℕ) : Rq :=
  let len := rq.dataLen-total
  ⟨b::l,if rq.mixed then b.failfast else rq.failfast,rq.mixed,if len<b.curBytes then b.curBytes else len⟩

/-- blk_update_request; nothing is left of a request that is done. -/
def blkUpdateRequest (rq : Rq) (n : ℕ) : Option Rq :=
  match updateBios rq.bios n with
  | ([],_) => none
  | (b::l,total) => some (settle rq b l total)

/-- The loop of blk_rq_err_bytes. -/
def errBytes (ff : BitVec 3) : List Bio → ℕ
  | [] => 0
  | b::l => if b.failfast &&& ff≠ff then 0 else b.size+errBytes ff l

/-- blk_rq_err_bytes; nothing when its BUG_ON is met. -/
def blkRqErrBytes (rq : Rq) : Option ℕ :=
  if !rq.mixed then some rq.dataLen
  else if rq.dataLen≠0 ∧ errBytes rq.failfast rq.bios=0 then none
  else some (errBytes rq.failfast rq.bios)

/-- What happens to requests. -/
inductive Event where
  /-- A request is built from a bio. -/
  | build (r : ℕ) (b : Bio)
  /-- A bio is merged at the end. -/
  | back (r : ℕ) (b : Bio)
  | front (r : ℕ) (b : Bio)
  /-- Two requests are merged. -/
  | merge (r n : ℕ)
  /-- Bytes of a request are done. -/
  | update (r n : ℕ)

abbrev Table := ℕ → Option Rq

def rqStep (s : Table) : Event → Option Table
  | .build r b => if (s r).isNone then some (update s r (some (initRequestFromBio b))) else none
  | .back r b => (s r).map (fun x => update s r (some (bioAttemptBackMerge x b)))
  | .front r b => (s r).map (fun x => update s r (some (bioAttemptFrontMerge x b)))
  | .merge r n =>
    if r=n then none
    else (s r).bind (fun x => (s n).map (fun y =>
      update (update s n none) r (some (attemptMerge x y))))
  | .update r n => (s r).map (fun x => update s r (blkUpdateRequest x n))

/-- All states. -/
def RqRun : Table → Prop := Reachable (fun s => s=fun _ => none) (fun s e t => rqStep s e=some t)

/-- The bios of the second list have the failfast bits of those of the first one. -/
def covers (l m : List Bio) : Bool := l.all (fun a => m.all (fun b => decide (b.failfast &&& a.failfast=a.failfast)))

/-- A bio that is merged at the front has the failfast bits of the request. Where a merge does not mark
the request as mixed, the bios behind have the bits of those before them; read-ahead bios may have
fewer bits than their request. -/
def alike (s : Table) : Event → Bool
  | .front r b => (s r).all (fun x => decide (b.failfast=x.failfast) && (x.mixed || covers [b] x.bios))
  | .merge r n => (s r).all (fun x => (s n).all (fun y =>
      x.mixed || y.mixed || decide (x.failfast≠y.failfast) || covers x.bios y.bios))
  | _ => true

/-- One such event. -/
def alikeStep (s : Table) (e : Event) : Option Table := if alike s e then rqStep s e else none

/-- The states that such events reach. -/
def AlikeRun : Table → Prop := Reachable (fun s => s=fun _ => none) (fun s e t => alikeStep s e=some t)

section

variable {s t : Table} {x y : Rq} {b : Bio} {r n : ℕ}

theorem and_mask (f : BitVec 3) : failfastMask &&& f=f := BitVec.allOnes_and

/-- A bio agrees with the bits of a request that is not mixed. -/
def Agrees (ff : BitVec 3) (b : Bio) : Prop := b.failfast=ff ∨ (b.rahead=true ∧ ff=failfastMask)

/-- A bio has the bits of another one. -/
def Bio.Has (a b : Bio) : Prop := b.failfast &&& a.failfast=a.failfast

structure RqInv (x : Rq) : Prop where
  ne : x.bios≠[]
  len : x.dataLen=bytes x.bios
  /-- A mixed request has the bits of its first bio. -/
  mixed : x.mixed=true → ∀ b∈x.bios.head?, b.failfast=x.failfast
  /-- The bios of any other request agree with it. -/
  plain : x.mixed=false → ∀ b∈x.bios, Agrees x.failfast b
  /-- Each of them has the bits of those before it. -/
  order : x.mixed=false → x.bios.Pairwise Bio.Has

theorem bytes_append (l m : List Bio) : bytes (l++m)=bytes l+bytes m := by
  simp [bytes]

theorem mem_head_append {l m : List Bio} (hl : l≠[]) (hb : b∈(l++m).head?) : b∈l.head? := by
  rwa [head?_append_of_ne_nil l hl] at hb

/-- A bio that agrees has exactly the bits of the request, once it got them. -/
theorem Agrees.add {ff : BitVec 3} (h : Agrees ff b) : (b.add ff).failfast=ff := by
  rcases h with h|⟨_,h⟩
  · change b.failfast ||| ff=ff
    rw [h,BitVec.or_self]
  · change b.failfast ||| ff=ff
    rw [h]
    exact BitVec.or_allOnes

/-- A bio with the bits of a request has those of its bios. -/
theorem Agrees.has {a : Bio} (h : Agrees b.failfast a) : a.Has b := by
  unfold Bio.Has
  rcases h with h|⟨_,h⟩
  · rw [h,BitVec.and_self]
  · rw [h,and_mask]

theorem covers_iff {l m : List Bio} : covers l m=true ↔ ∀ a∈l, ∀ b∈m, a.Has b := by
  simp [covers,Bio.Has]

theorem RqInv.init (b : Bio) : RqInv (initRequestFromBio b) := by
  refine ⟨nofun,?_,nofun,fun _ c hc => ?_,fun _ => pairwise_singleton _ _⟩
  · simp [initRequestFromBio,bytes]
  · rw [mem_singleton.mp hc]
    unfold Agrees initRequestFromBio
    cases hr : b.rahead with
    | false => exact .inl rfl
    | true => exact .inr ⟨rfl,BitVec.or_allOnes⟩

/-- blk_rq_set_mixed_merge. -/
theorem RqInv.setMixed (h : RqInv x) :
    RqInv (blkRqSetMixedMerge x) ∧ (blkRqSetMixedMerge x).mixed=true ∧ (blkRqSetMixedMerge x).failfast=x.failfast := by
  unfold blkRqSetMixedMerge
  cases hm : x.mixed with
  | true => exact ⟨h,hm,rfl⟩
  | false =>
    refine ⟨⟨?_,?_,fun _ c hc => ?_,nofun,nofun⟩,rfl,rfl⟩
    · simpa using h.ne
    · change x.dataLen=bytes (x.bios.map (Bio.add x.failfast))
      rw [h.len]
      simp only [bytes,map_map]
      rfl
    · change c∈(x.bios.map (Bio.add x.failfast)).head? at hc
      rw [head?_map] at hc
      obtain ⟨a,ha,hac⟩ := Option.map_eq_some_iff.mp hc
      rw [← hac]
      exact (h.plain hm a (mem_of_mem_head? ha)).add

theorem RqInv.mark (h : RqInv x) (b : Bio) :
    RqInv (markBio x b) ∧ (markBio x b).failfast=x.failfast ∧ ((markBio x b).mixed=false → x.failfast=b.failfast) := by
  unfold markBio
  by_cases hb : x.failfast=b.failfast
  · rw [if_neg (not_not_intro hb)]
    exact ⟨h,rfl,fun _ => hb⟩
  · rw [if_pos hb]
    obtain ⟨hi,hm,hf⟩ := h.setMixed
    exact ⟨hi,hf,fun hno => absurd (hm.symm.trans hno) nofun⟩

theorem RqInv.back (h : RqInv x) (b : Bio) : RqInv (bioAttemptBackMerge x b) := by
  obtain ⟨hi,hf,hb⟩ := h.mark b
  refine ⟨append_ne_nil_of_right_ne_nil _ nofun,?_,fun hm c hc => ?_,fun hm c hc => ?_,fun hm => ?_⟩
  · change (markBio x b).dataLen+b.size=bytes ((markBio x b).bios++[b])
    rw [bytes_append,hi.len]
    simp [bytes]
  · exact hi.mixed hm c (mem_head_append hi.ne hc)
  · rcases mem_append.mp hc with hc|hc
    · exact hi.plain hm c hc
    · rw [mem_singleton.mp hc]
      exact .inl ((hb hm).symm.trans hf.symm)
  · refine pairwise_append.mpr ⟨hi.order hm,pairwise_singleton _ _,fun a ha c hc => ?_⟩
    rw [mem_singleton.mp hc]
    refine Agrees.has ?_
    rw [← hb hm,← hf]
    exact hi.plain hm a ha

/-- bio_attempt_front_merge of a bio with the bits of the request. -/
theorem RqInv.front (h : RqInv x) (hb : b.failfast=x.failfast) (hcover : x.mixed=false → ∀ c∈x.bios, b.Has c) :
    RqInv (bioAttemptFrontMerge x b) := by
  have hmark : markBio x b=x := if_neg (not_not_intro hb.symm)
  unfold bioAttemptFrontMerge
  rw [hmark]
  refine ⟨nofun,?_,fun _ c hc => ?_,fun hm c hc => ?_,fun hm => pairwise_cons.mpr ⟨hcover hm,h.order hm⟩⟩
  · change x.dataLen+b.size=bytes (b::x.bios)
    rw [h.len]
    simp [bytes,Nat.add_comm]
  · cases hc
    exact hb
  · rcases mem_cons.mp hc with hc|hc
    · rw [hc]
      exact .inl hb
    · exact h.plain hm c hc

/-- Two requests that are both mixed, or agree. -/
theorem RqInv.join (hx : RqInv x) (hy : RqInv y) (hm : x.mixed=y.mixed)
    (hf : x.mixed=false → x.failfast=y.failfast ∧ ∀ a∈x.bios, ∀ b∈y.bios, a.Has b) : RqInv (join x y) := by
  refine ⟨append_ne_nil_of_left_ne_nil hx.ne _,?_,fun h c hc => ?_,fun h c hc => ?_,fun h =>
    pairwise_append.mpr ⟨hx.order h,hy.order (hm.symm.trans h),(hf h).2⟩⟩
  · change x.dataLen+y.dataLen=bytes (x.bios++y.bios)
    rw [bytes_append,hx.len,hy.len]
  · exact hx.mixed h c (mem_head_append hx.ne hc)
  · rcases mem_append.mp hc with hc|hc
    · exact hx.plain h c hc
    · have hag := hy.plain (hm.symm.trans h) c hc
      rw [← (hf h).1] at hag
      exact hag

theorem RqInv.merge (hx : RqInv x) (hy : RqInv y)
    (hcover : x.mixed=false → y.mixed=false → x.failfast=y.failfast → ∀ a∈x.bios, ∀ b∈y.bios, a.Has b) :
    RqInv (attemptMerge x y) := by
  unfold attemptMerge
  split
  · obtain ⟨hix,hmx,_⟩ := hx.setMixed
    obtain ⟨hiy,hmy,_⟩ := hy.setMixed
    exact hix.join hiy (hmx.trans hmy.symm) (fun hno => absurd (hmx.symm.trans hno) nofun)
  · rename_i hno
    simp only [Bool.or_eq_true,decide_eq_true_eq,not_or,Bool.not_eq_true,not_not] at hno
    exact hx.join hy (hno.1.1.trans hno.1.2.symm) (fun _ => ⟨hno.2,hcover hno.1.1 hno.1.2 hno.2⟩)

/-- The bits that blk_update_request leaves as they are. -/
def Bio.bits (b : Bio) : BitVec 3 × Bool := (b.failfast,b.rahead)

/-- A bio of which a part is done. -/
theorem endio_spec (h : n<b.size) : (b.endio n h).size=b.size-n ∧ (b.endio n h).bits=b.bits := by
  unfold Bio.endio
  split
  case isTrue hz =>
    rw [hz]
    exact ⟨rfl,rfl⟩
  case isFalse hz => exact ⟨(advance_spec h).1,rfl⟩

/-- What the loop over the bios leaves and does. The bios that are left have the bits that they
had. -/
theorem updateBios_spec (l : List Bio) (n : ℕ) : bytes (updateBios l n).1+(updateBios l n).2=bytes l ∧
      (updateBios l n).1.map Bio.bits <:+ l.map Bio.bits := by
  induction l generalizing n with
  | nil => exact ⟨rfl,suffix_rfl⟩
  | cons b l ih =>
    unfold updateBios
    split
    case isTrue h =>
      obtain ⟨hsize,hbits⟩ := endio_spec h
      refine ⟨?_,?_⟩
      · change (b.endio n h).size+bytes l+(advance b.vecs n).2=b.size+bytes l
        rw [hsize,(advance_spec h).2]
        omega
      · rw [map_cons,hbits]
        exact suffix_rfl
    case isFalse h =>
      split
      · exact ⟨Nat.add_comm ..,suffix_cons _ _⟩
      · obtain ⟨hsum,hold⟩ := ih (n-b.size)
        refine ⟨?_,hold.trans (suffix_cons _ _)⟩
        change bytes (updateBios l (n-b.size)).1+(b.size+(updateBios l (n-b.size)).2)=b.size+bytes l
        omega

/-- The current vector of a bio is not longer than the bio. -/
theorem curBytes_le (b : Bio) : b.curBytes≤b.size := by
  unfold Bio.curBytes Bio.size
  cases b.vecs with
  | nil => exact Nat.le_refl 0
  | cons v vs =>
    rw [sum_cons]
    exact Nat.le_add_right v vs.sum

theorem RqInv.update (h : RqInv x) (hu : blkUpdateRequest x n=some y) : RqInv y := by
  obtain ⟨hsum,hold⟩ := updateBios_spec x.bios n
  unfold blkUpdateRequest at hu
  split at hu
  case h_1 => cases hu
  case h_2 b l total heq =>
    cases hu
    rw [heq] at hsum hold
    have hlen : x.dataLen-total=bytes (b::l) := by
      rw [h.len,← hsum]
      exact Nat.add_sub_cancel ..
    have hcur : ¬ x.dataLen-total<b.curBytes := by
      have hle := curBytes_le b
      have hcons : bytes (b::l)=b.size+bytes l := rfl
      omega
    refine ⟨nofun,?_,fun hm c hc => ?_,fun hm c hc => ?_,fun hm => ?_⟩
    · change (if x.dataLen-total<b.curBytes then b.curBytes else x.dataLen-total)=_
      rw [if_neg hcur,hlen]
      rfl
    · cases hc
      exact (if_pos hm).symm
    · obtain ⟨a,ha,hac⟩ := mem_map.mp (hold.subset (mem_map_of_mem hc))
      obtain ⟨hf,hr⟩ := Prod.mk.inj hac
      change Agrees (if x.mixed then b.failfast else x.failfast) c
      rw [if_neg (fun hyes => absurd (hyes.symm.trans hm) nofun)]
      have hag := h.plain hm a ha
      unfold Agrees at hag ⊢
      rw [← hf,← hr]
      exact hag
    · have hbits : (x.bios.map Bio.bits).Pairwise (fun a b => b.1 &&& a.1=a.1) := pairwise_map.mpr (h.order hm)
      have hleft : ((b::l).map Bio.bits).Pairwise (fun a b => b.1 &&& a.1=a.1) := hbits.sublist hold.sublist
      rw [pairwise_map] at hleft
      exact hleft

/-- What holds for all requests. -/
def TableInv (s : Table) : Prop := ∀ r x, s r=some x → RqInv x

/-- A change of one request. -/
theorem TableInv.set {o : Option Rq} (h : TableInv s) (ho : ∀ x, o=some x → RqInv x) : TableInv (update s r o) := by
  intro q x hq
  by_cases hqr : q=r
  · rw [hqr,update_self] at hq
    exact ho x hq
  · rw [update_of_ne hqr] at hq
    exact h q x hq

theorem TableInv.step {e : Event} (h : TableInv s) (ha : alike s e=true) (hs : rqStep s e=some t) : TableInv t := by
  cases e with
  | build r b =>
    obtain ⟨_,rfl⟩ := of_guard hs
    exact h.set (fun x hx => Option.some.inj hx ▸ RqInv.init b)
  | back r b =>
    obtain ⟨y,hy,ht⟩ := Option.map_eq_some_iff.mp hs
    cases ht
    exact h.set (fun x hx => Option.some.inj hx ▸ (h r y hy).back b)
  | front r b =>
    obtain ⟨y,hy,ht⟩ := Option.map_eq_some_iff.mp hs
    cases ht
    obtain ⟨hb,hcover⟩ : b.failfast=y.failfast ∧ (y.mixed=true ∨ covers [b] y.bios=true) := by
      simpa [alike,hy] using ha
    refine h.set (fun x hx => Option.some.inj hx ▸ (h r y hy).front hb (fun hm => ?_))
    exact covers_iff.mp (hcover.resolve_left (by rw [hm]; exact Bool.false_ne_true)) b (mem_singleton_self b)
  | merge r n =>
    obtain ⟨_,ht⟩ := Option.ite_none_left_eq_some.mp hs
    obtain ⟨x,hx,hbind⟩ := Option.bind_eq_some_iff.mp ht
    obtain ⟨y,hy,hmap⟩ := Option.map_eq_some_iff.mp hbind
    cases hmap
    have hgone : TableInv (update s n none) := h.set nofun
    refine hgone.set (fun z hz => Option.some.inj hz ▸ (h r x hx).merge (h n y hy) (fun hmx hmy hf => ?_))
    exact covers_iff.mp (by simpa [alike,hx,hy,hmx,hmy,hf] using ha)
  | update r n =>
    obtain ⟨y,hy,ht⟩ := Option.map_eq_some_iff.mp hs
    cases ht
    exact h.set (fun x hx => (h r y hy).update hx)

theorem TableInv.run (h : AlikeRun s) : TableInv s := by
  refine Reachable.invariant (fun t ht r x hx => ?_) (fun _ _ _ _ hi hs => ?_) h
  · rw [ht] at hx
    cases hx
  · obtain ⟨ha,hstep⟩ := Option.ite_none_right_eq_some.mp hs
    exact hi.step ha hstep

/-- blk_rq_err_bytes counts the bios at the front that have all the bits. -/
theorem errBytes_eq (ff : BitVec 3) (l : List Bio) :
    ∃ k, errBytes ff l=bytes (l.take k) ∧ ∀ b∈l.take k, b.failfast &&& ff=ff := by
  induction l with
  | nil => exact ⟨0,rfl,nofun⟩
  | cons b l ih =>
    unfold errBytes
    by_cases hb : b.failfast &&& ff=ff
    · obtain ⟨k,hk,hall⟩ := ih
      refine ⟨k+1,?_,fun c hc => ?_⟩
      · rw [if_neg (not_not_intro hb),hk]
        rfl
      · rw [take_succ_cons] at hc
        rcases mem_cons.mp hc with hc|hc
        · exact hc ▸ hb
        · exact hall c hc
    · exact ⟨0,if_pos hb,nofun⟩

/-- A first bio with all the bits is counted. -/
theorem errBytes_pos {ff : BitVec 3} {l : List Bio} (hb : b.failfast &&& ff=ff) : 0<errBytes ff (b::l) := by
  unfold errBytes
  rw [if_neg (not_not_intro hb)]
  exact Nat.add_pos_left b.data _

theorem bytes_take_le (l : List Bio) (k : ℕ) : bytes (l.take k)≤bytes l := by
  have h := bytes_append (l.take k) (l.drop k)
  rw [take_append_drop] at h
  omega

end

/-- The first bio of a mixed request has all failfast bits of the request. blk_rq_err_bytes of
any request meets no BUG_ON and returns a positive number of bytes that ends with a bio, and
the bios counted have all failfast bits of the first one. -/
theorem err_bytes_progress_of_alike {s : Table} {r : ℕ} {x : Rq} (h : AlikeRun s) (hr : s r=some x) :
    (x.mixed=true → ∃ b∈x.bios.head?, b.failfast &&& x.failfast=x.failfast) ∧
      ∃ n k, blkRqErrBytes x=some n ∧ 0<n ∧ n≤x.dataLen ∧ n=bytes (x.bios.take k) ∧
        ∀ b∈x.bios.take k, ∀ f∈x.bios.head?, b.failfast &&& f.failfast=f.failfast := by
  have hi := TableInv.run h r x hr
  obtain ⟨f,l,hl⟩ := exists_cons_of_ne_nil hi.ne
  have hhead : x.bios.head?=some f := by
    rw [hl]
    rfl
  have hlen : 0<x.dataLen := by
    rw [hi.len,hl]
    exact Nat.add_pos_left f.data _
  cases hm : x.mixed with
  | true =>
    have hf : f.failfast=x.failfast := hi.mixed hm f hhead
    have hself : f.failfast &&& x.failfast=x.failfast := by
      rw [hf,BitVec.and_self]
    have hpos : 0<errBytes x.failfast x.bios := by
      rw [hl]
      exact errBytes_pos hself
    obtain ⟨k,hk,hall⟩ := errBytes_eq x.failfast x.bios
    refine ⟨fun _ => ⟨f,hhead,hself⟩,errBytes x.failfast x.bios,k,?_,hpos,?_,hk,fun b hb g hg => ?_⟩
    · simp [blkRqErrBytes,hm,hpos.ne']
    · rw [hi.len,hk]
      exact bytes_take_le x.bios k
    · rw [hi.mixed hm g hg]
      exact hall b hb
  | false =>
    refine ⟨nofun,x.dataLen,x.bios.length,?_,hlen,Nat.le_refl _,?_,fun b hb g hg => ?_⟩
    · simp [blkRqErrBytes,hm]
    · rw [take_length]
      exact hi.len
    · cases hhead.symm.trans hg
      have horder := hi.order hm
      rw [take_length,hl] at hb
      rw [hl] at horder
      rcases mem_cons.mp hb with rfl|hb
      · exact BitVec.and_self
      · exact (pairwise_cons.mp horder).1 b hb

def sector (ff : BitVec 3) (ra : Bool) : Bio := ⟨ff,ra,[512],Nat.succ_pos _⟩

/-- A bio without failfast bits is merged behind a read-ahead bio: only the first one is
failed. -/
theorem err_bytes_progress_of_alike_back :
    ∃ s x, AlikeRun s ∧ s 1=some x ∧ x.mixed=true ∧ x.bios.map Bio.failfast=[7,0] ∧ blkRqErrBytes x=some 512 ∧
      ∃ b∈x.bios.head?, b.failfast &&& x.failfast=x.failfast := by
  obtain ⟨s,hrun,hv⟩ : ∃ s, AlikeRun s ∧
      (s 1).map (fun x => (x.mixed,x.bios.map Bio.failfast,blkRqErrBytes x))=some (true,[7,0],some 512) :=
    exists_run (fun _ _ _ => id) rfl [.build 1 (sector 0 true),.back 1 (sector 0 false)] (by decide)
  obtain ⟨x,hx,hp⟩ := Option.map_eq_some_iff.mp hv
  simp only [Prod.mk.injEq] at hp
  obtain ⟨hm,hbits,hn⟩ := hp
  exact ⟨s,x,hrun,hx,hm,hbits,hn,(err_bytes_progress_of_alike hrun hx).1 hm⟩

/-- A bio without failfast bits is merged before one with a bit: no bio is counted and the
BUG_ON is met. A read-ahead request is merged to one of all bits: its bio is counted without them. -/
theorem err_bytes_stuck :
    (∃ s, RqRun s ∧ (s 1).map (fun x => ((x.mixed,x.bios.map Bio.failfast,x.failfast),x.dataLen,blkRqErrBytes x))=
      some ((true,[0,1],1),1024,none)) ∧
    ∃ s, RqRun s ∧ (s 1).map (fun x => ((x.mixed,x.bios.map Bio.failfast,x.failfast),x.dataLen,blkRqErrBytes x))=
      some ((false,[7,0],7),1024,some 1024) :=
  ⟨exists_run (fun _ _ _ => id) rfl [.build 1 (sector 1 false),.front 1 (sector 0 false)] (by decide),
    exists_run (fun _ _ _ => id) rfl [.build 1 (sector 7 false),.build 2 (sector 0 true),.merge 1 2] (by decide)⟩

end BlockIpc.MixedFailfast
