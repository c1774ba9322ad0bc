import BlockIpc.Draining
import BlockIpc.KernelNumbers

/-!
# Partial completion of a request

blk_update_request ends some bytes of a request: whole bios at the front, then whole vectors of the
next bio, then a part of a vector. The bio that is not done is changed only after the loop. A
request of which nothing is left is not updated further, and its bios are all ended unless it is a
step of a flush sequence.
-/

namespace BlockIpc.PartialCompletion

open List Draining KernelNumbers

structure Vec where
  page : ℕ
  offset : ℕ
  len : ℕ
  deriving DecidableEq

structure Bio where
  id : ℕ
  sector : BitVec 64
  size : ℕ
  idx : ℕ
  /-- bi_io_vec, of bi_vcnt entries. -/
  vecs : List Vec
  /-- bi_rw & REQ_FAILFAST_MASK. -/
  failfast : BitVec 3
  uptodate : Bool
  quiet : Bool
  deriving DecidableEq

structure Request where
  bios : List Bio
  dataLen : ℕ
  sector : BitVec 64
  /-- cmd_type is REQ_TYPE_FS. -/
  fs : Bool
  discard : Bool
  /-- REQ_MIXED_MERGE. -/
  mixed : Bool
  quiet : Bool
  flushSeq : Bool
  /-- cmd_flags & REQ_FAILFAST_MASK. -/
  failfast : BitVec 3
  errors : ℤ
  /-- buffer: the page and the offset. -/
  buffer : Option (ℕ × ℕ)
  deriving DecidableEq

/-- What calls have done besides: the bios that were ended with their errors, and the messages. -/
structure Log where
  /-- bio_endio. -/
  ended : List (ℕ × ℤ)
  /-- The message of req_bio_endio on too many bytes. -/
  tooMany : Bool
  /-- The message on a bad index of a vector. -/
  badIdx : Bool
  bug : Bool
  /-- The message on a botched request. -/
  botched : Bool
  deriving DecidableEq

def reqBioEndio (rq : Request) (b : Bio) (nbytes : ℕ) (error : ℤ) (log : Log) : Bio × Log :=
  let done := if b.size<nbytes then b.size else nbytes
  let b' : Bio := {b with
    uptodate := if error≠0 then false else b.uptodate
    quiet := b.quiet || rq.quiet
    size := b.size-done
    sector := b.sector+BitVec.ofNat 64 (done/512)}
  (b',{log with
    tooMany := log.tooMany || decide (b.size<nbytes)
    ended :=
      if b'.size=0 ∧ rq.flushSeq=false then
        log.ended++[(b.id,if error≠0 then error else if b.uptodate then 0 else -eio)]
      else log.ended})

/-- The variables of the loop of blk_update_request. -/
structure Scan where
  bios : List Bio
  nrBytes : ℕ
  totalBytes : ℕ
  bioNbytes : ℕ
  nextIdx : ℕ
  log : Log

/-- The loop of blk_update_request, with a bound on its rounds. -/
def scan (rq : Request) (error : ℤ) : ℕ → Scan → Scan
  | 0,x => x
  | fuel+1,x =>
    match x.bios with
    | [] => x
    | b::bs =>
      if b.size≤x.nrBytes then
        let y : Scan := ⟨bs,x.nrBytes-b.size,x.totalBytes+b.size,0,0,(reqBioEndio rq b b.size error x.log).2⟩
        if bs≠[] ∧ y.nrBytes=0 then y else scan rq error fuel y
      else
        match b.vecs[b.idx+x.nextIdx]? with
        | none => {x with log := {x.log with badIdx := true}}
        | some v =>
          let log := {x.log with bug := x.log.bug || decide (b.size<v.len)}
          if x.nrBytes<v.len then
            ⟨b::bs,x.nrBytes,x.totalBytes+x.nrBytes,x.bioNbytes+x.nrBytes,x.nextIdx,log⟩
          else
            let y : Scan := ⟨b::bs,x.nrBytes-v.len,x.totalBytes+v.len,x.bioNbytes+v.len,x.nextIdx+1,log⟩
            if y.nrBytes=0 then y else scan rq error fuel y

/-- Rounds that are enough: one for each bio and one for each vector. -/
def rounds (bios : List Bio) : ℕ := (bios.map (fun b => b.vecs.length+1)).sum+1

/-- A part of a vector is done. -/
def Vec.cut (n : ℕ) (v : Vec) : Vec := ⟨v.page,v.offset+n,v.len-n⟩

/-- The bio that is not done, after the loop. -/
def advanceBio (b : Bio) (nextIdx nrBytes : ℕ) : Bio :=
  {b with
    idx := b.idx+nextIdx
    vecs := b.vecs.modify (b.idx+nextIdx) (Vec.cut nrBytes)}

/-- bio_cur_bytes of a bio with data. -/
def Bio.curBytes (b : Bio) : ℕ := (b.vecs[b.idx]?).elim 0 Vec.len

def Bio.data (b : Bio) : Option (ℕ × ℕ) := (b.vecs[b.idx]?).map (fun v => (v.page,v.offset))

/-- The request after a call that leaves bios, with the first of them. -/
def settle (rq : Request) (x : Scan) (b : Bio) (bs : List Bio) (log : Log) : Request × Log :=
  let left : ℕ := (((rq.dataLen : ℤ)-x.totalBytes)%2^32).toNat
  let botched := decide (left<b.curBytes)
  ({rq with
      bios := b::bs
      dataLen := if botched then b.curBytes else left
      buffer := b.data
      sector := if rq.fs || rq.discard then rq.sector+BitVec.ofInt 64 (toInt x.totalBytes>>>(9 : ℕ)) else rq.sector
      failfast := if rq.mixed then b.failfast else rq.failfast},
    {log with botched := log.botched || botched})

/-- blk_update_request: the returned value, the request, and what has been done. -/
def blkUpdateRequest (rq : Request) (error : ℤ) (nrBytes : ℕ) (log : Log) : Bool × Request × Log :=
  if rq.bios=[] then (false,rq,log)
  else
    let rq := {rq with errors := if rq.fs then 0 else rq.errors}
    let x := scan rq error (rounds rq.bios) ⟨rq.bios,nrBytes,0,0,0,log⟩
    match x.bios with
    | [] =>
      (false,{rq with
        bios := []
        dataLen := 0},x.log)
    | b::bs =>
      if x.bioNbytes≠0 then
        let p := reqBioEndio rq b x.bioNbytes error x.log
        (true,settle rq x (advanceBio p.1 x.nextIdx x.nrBytes) bs p.2)
      else (true,settle rq x b bs x.log)

/-- Calls without an error, one after the other. -/
def updates (p : Request × Log) (counts : List ℕ) : Request × Log :=
  counts.foldl (fun p n => (blkUpdateRequest p.1 0 n p.2).2) p

/-- A bio without the vectors that are done. -/
def Bio.norm (b : Bio) : Bio :=
  {b with
    idx := 0
    vecs := b.vecs.drop b.idx}

/-- Some bytes of a bio without done vectors are done, for a request that is quiet or not. -/
def Bio.cut (quiet : Bool) (n : ℕ) (b : Bio) : Bio :=
  {b with
    size := b.size-n
    sector := b.sector+BitVec.ofNat 64 (n/512)
    vecs := drain Vec.len Vec.cut b.vecs n
    quiet := b.quiet || quiet}

/-- The vectors of a bio are its data, and there is some. -/
def Bio.Whole (b : Bio) : Prop := bytes Vec.len b.vecs=b.size ∧ 0<b.size

/-- How a bio is ended without an error of the call. -/
def Bio.ending (b : Bio) : ℕ × ℤ := (b.id,if b.uptodate then 0 else -eio)

section

variable {rq : Request} {b : Bio} {bs bios : List Bio} {n : ℕ} {log : Log}

theorem cuts_vec : Cuts Vec.len Vec.cut (fun _ => True) := by
  refine ⟨fun _ => rfl,fun _ _ _ _ => ?_⟩
  unfold Vec.cut
  rw [Nat.add_assoc,Nat.sub_sub]

/-- The vectors from an index on, after a change there. -/
theorem drop_modify_self {α : Type*} (f : α → α) (l : List α) (i : ℕ) :
    (l.modify i f).drop i=(l.drop i).modifyHead f := by
  rw [modify_eq_take_drop]
  by_cases hi : i≤l.length
  · rw [drop_append_of_le_length (by rw [length_take]; omega)]
    have hnil : (l.take i).drop i=[] := drop_eq_nil_of_le (length_take_le i l)
    rw [hnil,nil_append]
  · have hnil : l.drop i=[] := drop_eq_nil_of_le (by omega)
    rw [hnil]
    exact drop_eq_nil_of_le (by simp)

/-- The loop over the vectors of a bio that is not done: the bytes are all counted, and the vectors
that are left after the change are those of the bytes taken. -/
theorem scan_vecs (rq : Request) (bs : List Bio) (log : Log) (fuel k total bioBytes : ℕ)
    (hn : n<bytes Vec.len (b.vecs.drop (b.idx+k)))
    (hsize : bytes Vec.len (b.vecs.drop (b.idx+k))≤b.size) (hfuel : (b.vecs.drop (b.idx+k)).length≤fuel) :
    ∃ k' r, scan rq 0 fuel ⟨b::bs,n,total,bioBytes,k,log⟩=⟨b::bs,r,total+n,bioBytes+n,k',log⟩ ∧
      (0<n → ((b.vecs.modify (b.idx+k') (Vec.cut r)).drop (b.idx+k'))=
        drain Vec.len Vec.cut (b.vecs.drop (b.idx+k)) n) := by
  induction fuel generalizing n k total bioBytes with
  | zero =>
    rw [length_eq_zero_iff.mp (Nat.le_zero.mp hfuel)] at hn
    exact absurd hn (Nat.not_lt_zero n)
  | succ fuel ih =>
    cases hrest : b.vecs.drop (b.idx+k) with
    | nil =>
      rw [hrest] at hn
      exact absurd hn (Nat.not_lt_zero n)
    | cons v rest =>
      have hnext : b.vecs.drop (b.idx+(k+1))=rest := by
        rw [← Nat.add_assoc,← drop_drop,hrest]
        rfl
      have hget : b.vecs[b.idx+k]?=some v := by
        have hzero : (b.vecs.drop (b.idx+k))[0]?=b.vecs[b.idx+k+0]? := getElem?_drop
        rw [hrest] at hzero
        exact hzero.symm
      have hsum : bytes Vec.len (v::rest)=v.len+bytes Vec.len rest := sum_cons
      rw [hrest,hsum] at hn hsize
      rw [hrest,length_cons] at hfuel
      have hbug : {log with bug := log.bug || decide (b.size<v.len)}=log := by
        have hno : ¬b.size<v.len := by omega
        simp [hno]
      unfold scan
      dsimp only
      rw [if_neg (by omega),hget]
      dsimp only
      rw [hbug]
      by_cases hlt : n<v.len
      · rw [if_pos hlt]
        refine ⟨k,n,rfl,fun hpos => ?_⟩
        rw [drop_modify_self,hrest,drain_cons_of_lt rest hpos hlt]
        rfl
      · rw [if_neg hlt]
        by_cases hzero : n-v.len=0
        · rw [if_pos hzero]
          have heq : v.len=n := by omega
          refine ⟨k+1,0,by rw [hzero,heq],fun hpos => ?_⟩
          rw [drop_modify_self,hnext,drain_cons_of_le rest hpos (not_lt.mp hlt),hzero,drain_zero]
          cases rest <;> rfl
        · rw [if_neg hzero]
          obtain ⟨k',r,hscan,hdrain⟩ := ih (n := n-v.len) (k+1) (total+v.len) (bioBytes+v.len) (by rw [hnext]; omega)
            (by rw [hnext]; omega) (by rw [hnext]; omega)
          refine ⟨k',r,?_,fun hpos => ?_⟩
          · rw [hscan]
            congr 1 <;> omega
          · rw [hdrain (by omega),hnext,drain_cons_of_le rest hpos (not_lt.mp hlt)]

/-- The bios after the loop, with the change of the first one. -/
def Scan.settled (rq : Request) (x : Scan) : List Bio :=
  match x.bios with
  | [] => []
  | b::bs =>
    if x.bioNbytes≠0 then advanceBio (reqBioEndio rq b x.bioNbytes 0 x.log).1 x.nextIdx x.nrBytes::bs else b::bs

/-- The log after some bios are ended. -/
def Log.add (log : Log) (rq : Request) (l : List (ℕ × ℤ)) : Log :=
  {log with ended := if rq.flushSeq then log.ended else log.ended++l}

theorem Log.add_nil (log : Log) (rq : Request) : log.add rq []=log := by
  unfold Log.add
  rw [append_nil,ite_self]

/-- Bios are ended one after the other. -/
theorem Log.add_add (log : Log) (rq : Request) (l k : List (ℕ × ℤ)) : (log.add rq l).add rq k=log.add rq (l++k) := by
  unfold Log.add
  cases rq.flushSeq with
  | true => rfl
  | false =>
    dsimp only
    rw [if_neg Bool.false_ne_true,if_neg Bool.false_ne_true,if_neg Bool.false_ne_true,append_assoc]

theorem reqBioEndio_whole (rq : Request) (b : Bio) (log : Log) :
    (reqBioEndio rq b b.size 0 log).2=log.add rq [b.ending] := by
  unfold reqBioEndio Log.add Bio.ending
  cases hf : rq.flushSeq <;> simp

theorem reqBioEndio_part (rq : Request) (log : Log) (hn : n<b.size) : reqBioEndio rq b n 0 log=({b with
      quiet := b.quiet || rq.quiet
      size := b.size-n
      sector := b.sector+BitVec.ofNat 64 (n/512)},log) := by
  have hno : ¬b.size<n := by omega
  have hleft : b.size-n≠0 := by omega
  unfold reqBioEndio
  simp [hno,hleft]

/-- The loop over the bios: what is left of them, which are ended, and the bytes that are counted. -/
theorem scan_bios (rq : Request) (bios : List Bio) (hw : ∀ b∈bios, b.norm.Whole) (fuel n total : ℕ) (log : Log)
    (hfuel : (bios.map (fun b => b.vecs.length+1)).sum≤fuel) :
    ((scan rq 0 fuel ⟨bios,n,total,0,0,log⟩).settled rq).map Bio.norm=
        drain Bio.size (Bio.cut rq.quiet) (bios.map Bio.norm) n ∧
      (scan rq 0 fuel ⟨bios,n,total,0,0,log⟩).log=log.add rq ((drained Bio.size (bios.map Bio.norm) n).map Bio.ending) ∧
      ((scan rq 0 fuel ⟨bios,n,total,0,0,log⟩).bios≠[] → (scan rq 0 fuel ⟨bios,n,total,0,0,log⟩).totalBytes=total+n ∧
        ∀ c cs, (scan rq 0 fuel ⟨bios,n,total,0,0,log⟩).bios=c::cs →
          (scan rq 0 fuel ⟨bios,n,total,0,0,log⟩).bioNbytes<c.size) := by
  induction bios generalizing fuel n total log with
  | nil =>
    have hscan : scan rq 0 fuel ⟨[],n,total,0,0,log⟩=⟨[],n,total,0,0,log⟩ := by
      cases fuel <;> rfl
    rw [hscan]
    exact ⟨rfl,(Log.add_nil log rq).symm,fun h => absurd rfl h⟩
  | cons b bs ih =>
    have hb := hw b mem_cons_self
    have hbs : ∀ c∈bs, c.norm.Whole := fun c hc => hw c (mem_cons_of_mem b hc)
    rw [map_cons,sum_cons] at hfuel
    have hpos : 0<b.size := hb.2
    obtain ⟨fuel,rfl⟩ : ∃ f, fuel=f+1 := ⟨fuel-1,by omega⟩
    by_cases hle : b.size≤n
    · have hle' : b.norm.size≤n := hle
      have hdrain := @drain_cons_of_le _ _ (Bio.cut rq.quiet) _ _ (bs.map Bio.norm) (by omega : 0<n) hle'
      have hdrained := drained_cons_of_le (bs.map Bio.norm) (by omega : 0<n) hle'
      have hkey : b.norm.ending=b.ending := rfl
      rw [map_cons,hdrain,hdrained,map_cons,hkey]
      unfold scan
      dsimp only
      rw [if_pos hle,reqBioEndio_whole]
      by_cases hstop : bs≠[] ∧ n-b.size=0
      · rw [if_pos hstop]
        have hzero : n-b.norm.size=0 := hstop.2
        rw [hzero,drain_zero,drained_zero]
        refine ⟨?_,rfl,fun _ => ⟨?_,fun c cs hc => ?_⟩⟩
        · unfold Scan.settled
          cases bs <;> rfl
        · change total+b.size=total+n
          omega
        · dsimp only at hc
          exact (hbs c (hc ▸ mem_cons_self)).2
      · rw [if_neg hstop]
        obtain ⟨hset,hlog,hrest⟩ := ih hbs fuel (n-b.size) (total+b.size) (log.add rq [b.ending]) (by omega)
        refine ⟨hset,?_,fun hne => ⟨?_,(hrest hne).2⟩⟩
        · rw [hlog,Log.add_add]
          rfl
        · rw [(hrest hne).1]
          omega
    · have hlt : n<b.size := not_le.mp hle
      have hlt' : n<b.norm.size := hlt
      have hvecs : bytes Vec.len (b.vecs.drop (b.idx+0))=b.size := hb.1
      have hlen : (b.vecs.drop (b.idx+0)).length≤fuel+1 := by
        rw [length_drop]
        omega
      obtain ⟨k,r,hscan,hleft⟩ := scan_vecs rq bs log (fuel+1) 0 total 0 (hlt.trans_eq hvecs.symm)
        hvecs.le hlen
      rw [Nat.zero_add] at hscan
      rw [hscan,map_cons,drained_cons_of_lt (bs.map Bio.norm) hlt',map_nil,Log.add_nil]
      refine ⟨?_,rfl,fun _ => ⟨rfl,fun c cs hc => ?_⟩⟩
      · unfold Scan.settled
        dsimp only
        rcases Nat.eq_zero_or_pos n with hz|hn
        · rw [if_neg (not_not.mpr hz),hz,drain_zero]
          rfl
        · rw [if_pos hn.ne',drain_cons_of_lt (bs.map Bio.norm) hn hlt',reqBioEndio_part rq log hlt,map_cons]
          congr 1
          unfold Bio.norm advanceBio Bio.cut
          dsimp only
          rw [hleft hn]
          rfl
      · cases hc
        exact hlt

end

section

variable {rq rq' : Request} {b : Bio} {bs : List Bio} {n : ℕ} {log : Log}

/-- A request whose bios have data, and whose length is theirs. -/
structure Valid (rq : Request) : Prop where
  whole : ∀ b∈rq.bios, b.norm.Whole
  len : rq.dataLen=bytes Bio.size rq.bios
  /-- The length is an unsigned int. -/
  small : rq.dataLen<2^32

theorem bytes_map_norm (l : List Bio) : bytes Bio.size (l.map Bio.norm)=bytes Bio.size l := by
  unfold bytes
  rw [map_map]
  rfl

/-- Bios are cut as pieces of a list are, by counts of whole sectors after the first. -/
theorem cuts_bio (quiet : Bool) : Cuts Bio.size (Bio.cut quiet) (fun n => 512 ∣ n) := by
  refine ⟨fun _ => rfl,fun {m n a} _ _ _ hfine => ?_⟩
  have hdiv : (m+n)/512=m/512+n/512 := Nat.add_div_of_dvd_left hfine
  unfold Bio.cut
  dsimp only
  rw [← drain_add cuts_vec a.vecs m trivial,Nat.sub_sub,hdiv,BitVec.ofNat_add,BitVec.add_assoc,Bool.or_assoc,
    Bool.or_self]

theorem whole_cut (quiet : Bool) (n : ℕ) (b : Bio) (_ : 0<n) (hlt : n<b.size) (hb : b.Whole) :
    (Bio.cut quiet n b).Whole := by
  refine ⟨?_,Nat.sub_pos_of_lt hlt⟩
  unfold Bio.cut
  dsimp only
  rw [bytes_drain cuts_vec,hb.1]

/-- The current vector is not longer than the bio. -/
theorem curBytes_le (hb : b.norm.Whole) : b.curBytes≤b.size := by
  have hlen : bytes Vec.len (b.vecs.drop b.idx)=b.size := hb.1
  have hget : (b.vecs.drop b.idx)[0]?=b.vecs[b.idx]? := getElem?_drop
  unfold Bio.curBytes
  cases hv : b.vecs.drop b.idx with
  | nil =>
    rw [hv] at hget
    rw [← hget]
    exact Nat.zero_le b.size
  | cons v rest =>
    rw [hv] at hget
    have hsum : bytes Vec.len (v::rest)=v.len+bytes Vec.len rest := sum_cons
    rw [← hget,← hlen,hv,hsum]
    exact Nat.le_add_right v.len _

/-- A request of which something is left, after some bytes are done. -/
def Request.after (rq : Request) (n : ℕ) (b : Bio) (bs : List Bio) : Request :=
  {rq with
    bios := b::bs
    dataLen := rq.dataLen-n
    buffer := b.data
    sector := if rq.fs || rq.discard then rq.sector+BitVec.ofInt 64 (toInt n>>>(9 : ℕ)) else rq.sector
    failfast := if rq.mixed then b.failfast else rq.failfast
    errors := if rq.fs then 0 else rq.errors}

structure Updated (rq : Request) (n : ℕ) (log : Log) (r : Bool × Request × Log) : Prop where
  bios : r.2.1.bios.map Bio.norm=drain Bio.size (Bio.cut rq.quiet) (rq.bios.map Bio.norm) n
  log : r.2.2=log.add rq ((drained Bio.size (rq.bios.map Bio.norm) n).map Bio.ending)
  /-- The returned value. -/
  ret : r.1=false ↔ r.2.1.bios=[]
  dataLen : r.2.1.dataLen=rq.dataLen-n
  flags : r.2.1.fs=rq.fs ∧ r.2.1.discard=rq.discard ∧ r.2.1.mixed=rq.mixed ∧ r.2.1.quiet=rq.quiet ∧
    r.2.1.flushSeq=rq.flushSeq
  /-- The request if something is left. -/
  left : ∀ b bs, r.2.1.bios=b::bs → r.2.1=rq.after n b bs

/-- The bios that are left are whole. -/
theorem Valid.whole_drain (hv : Valid rq) (n : ℕ) :
    ∀ b∈drain Bio.size (Bio.cut rq.quiet) (rq.bios.map Bio.norm) n, b.Whole := by
  have hwhole : ∀ b∈rq.bios.map Bio.norm, b.Whole := by
    intro b hb
    obtain ⟨c,hc,rfl⟩ := mem_map.mp hb
    exact hv.whole c hc
  exact forall_drain (whole_cut rq.quiet) hwhole n

variable {r : Bool × Request × Log} {x : Scan} {m : ℕ} {counts : List ℕ} {p : Request × Log}

/-- After a call the request is valid. -/
theorem Updated.valid (h : Updated rq n log r) (hv : Valid rq) : Valid r.2.1 := by
  refine ⟨fun b hb => ?_,?_,?_⟩
  · have hall := hv.whole_drain n
    rw [← h.bios] at hall
    exact hall b.norm (mem_map_of_mem hb)
  · rw [h.dataLen,hv.len,← bytes_map_norm r.2.1.bios,h.bios,bytes_drain (cuts_bio rq.quiet),bytes_map_norm]
  · rw [h.dataLen]
    exact (Nat.sub_le _ _).trans_lt hv.small

/-- The request after the loop, if the first bio is not longer than what is left. -/
theorem settle_eq (rq : Request) (bs : List Bio) (log : Log) (htotal : x.totalBytes=n) (hn : n ≤ rq.dataLen)
    (hsmall : rq.dataLen<2^32) (hcur : b.curBytes ≤ rq.dataLen-n) (herr : rq.errors=if rq.fs then 0 else rq.errors) :
    settle rq x b bs log=(rq.after n b bs,log) := by
  have hleft : (((rq.dataLen : ℤ)-x.totalBytes)%2^32).toNat=rq.dataLen-n := by
    rw [htotal]
    omega
  have hno : ¬rq.dataLen-n<b.curBytes := not_lt.mpr hcur
  unfold settle Request.after
  dsimp only
  rw [hleft,htotal,← herr]
  simp [hno]

/-- A call that does not end the loop without bios: the first bio is the one after the change. -/
theorem blkUpdateRequest_left (hne : rq.bios≠[])
    (hx : scan {rq with errors := if rq.fs then 0 else rq.errors} 0 (rounds rq.bios) ⟨rq.bios,n,0,0,0,log⟩=x)
    (hbios : x.bios=b::bs) (hpart : x.bioNbytes<b.size) :
    ∃ c, x.settled {rq with errors := if rq.fs then 0 else rq.errors}=c::bs ∧ blkUpdateRequest rq 0 n log=
      (true,settle {rq with errors := if rq.fs then 0 else rq.errors} x c bs x.log) := by
  unfold blkUpdateRequest Scan.settled
  rw [if_neg hne]
  dsimp only
  rw [hx,hbios]
  dsimp only
  by_cases hzero : x.bioNbytes=0
  · rw [if_neg (not_not.mpr hzero),if_neg (not_not.mpr hzero)]
    exact ⟨b,rfl,rfl⟩
  · rw [if_pos hzero,if_pos hzero,reqBioEndio_part _ x.log hpart]
    exact ⟨_,rfl,rfl⟩

theorem blkUpdateRequest_spec (hv : Valid rq) (hn : n ≤ rq.dataLen) (log : Log) :
    Updated rq n log (blkUpdateRequest rq 0 n log) := by
  by_cases hnil : rq.bios=[]
  · have hzero : rq.dataLen=0 := by
      rw [hv.len,hnil]
      rfl
    have hcall : blkUpdateRequest rq 0 n log=(false,rq,log) := if_pos hnil
    rw [hcall]
    refine ⟨?_,?_,⟨fun _ => hnil,fun _ => rfl⟩,?_,⟨rfl,rfl,rfl,rfl,rfl⟩,fun b bs hb => ?_⟩
    · rw [hnil]
      rfl
    · rw [hnil]
      exact (Log.add_nil log rq).symm
    · change rq.dataLen=rq.dataLen-n
      omega
    · dsimp only at hb
      rw [hnil] at hb
      cases hb
  · obtain ⟨hset,hlog,hrest⟩ := scan_bios {rq with errors := if rq.fs then 0 else rq.errors} rq.bios hv.whole
      (rounds rq.bios) n 0 log (Nat.le_add_right _ 1)
    generalize hx : scan {rq with errors := if rq.fs then 0 else rq.errors} 0 (rounds rq.bios) ⟨rq.bios,n,0,0,0,log⟩=x
      at hset hlog hrest
    have hbytes := bytes_drain (cuts_bio rq.quiet) (rq.bios.map Bio.norm) n
    rw [bytes_map_norm,← hv.len] at hbytes
    cases hbios : x.bios with
    | nil =>
      have hcall : blkUpdateRequest rq 0 n log=(false,{rq with
          bios := []
          dataLen := 0
          errors := if rq.fs then 0 else rq.errors},x.log) := by
        unfold blkUpdateRequest
        rw [if_neg hnil]
        dsimp only
        rw [hx,hbios]
      have hnone : x.settled {rq with errors := if rq.fs then 0 else rq.errors}=[] := by
        unfold Scan.settled
        rw [hbios]
      rw [hnone] at hset
      rw [hcall]
      refine ⟨hset,hlog,⟨fun _ => rfl,fun _ => rfl⟩,?_,⟨rfl,rfl,rfl,rfl,rfl⟩,nofun⟩
      dsimp only
      rw [← hbytes,← hset]
      rfl
    | cons b bs =>
      obtain ⟨htotal,hpart⟩ := hrest (by rw [hbios]; exact cons_ne_nil b bs)
      rw [Nat.zero_add] at htotal
      obtain ⟨c,hc,hcall⟩ := blkUpdateRequest_left hnil hx hbios (hpart b bs hbios)
      rw [hc] at hset
      have hlen : bytes Bio.size (c::bs)=rq.dataLen-n := by
        rw [← bytes_map_norm,hset]
        exact hbytes
      have hwhole : c.norm.Whole := by
        have hall := hv.whole_drain n
        rw [← hset] at hall
        exact hall c.norm mem_cons_self
      have hsum : bytes Bio.size (c::bs)=c.size+bytes Bio.size bs := sum_cons
      have hcur : c.curBytes ≤ rq.dataLen-n := (curBytes_le hwhole).trans (by omega)
      have hsettle := settle_eq {rq with errors := if rq.fs then 0 else rq.errors} bs x.log
        htotal hn hv.small hcur (by dsimp only; split <;> rfl)
      rw [hcall,hsettle]
      refine ⟨hset,hlog,⟨nofun,nofun⟩,rfl,⟨rfl,rfl,rfl,rfl,rfl⟩,fun d ds hd => ?_⟩
      cases hd
      unfold Request.after
      dsimp only
      congr 1
      by_cases hfs : rq.fs=true
      · rw [if_pos hfs,if_pos hfs]
      · rw [if_neg hfs]

/-- A bio without its sector. -/
def Bio.unsectored (b : Bio) : Bio := {b with sector := 0}

/-- Some bytes of a bio are done, and its sector is left alone. -/
def Bio.cutVecs (quiet : Bool) (n : ℕ) (b : Bio) : Bio := {Bio.cut quiet n b with sector := b.sector}

/-- Without the sectors bios are cut as pieces of a list are. -/
theorem cuts_unsectored (quiet : Bool) : Cuts Bio.size (Bio.cutVecs quiet) (fun _ => True) := by
  refine ⟨fun _ => rfl,fun {m n a} _ _ _ _ => ?_⟩
  unfold Bio.cutVecs Bio.cut
  dsimp only
  rw [← drain_add cuts_vec a.vecs m trivial,Nat.sub_sub,Bool.or_assoc,Bool.or_self]

/-- The bios that are left, without their sectors. -/
theorem map_unsectored_drain (quiet : Bool) (l : List Bio) (n : ℕ) :
    (drain Bio.size (Bio.cut quiet) l n).map Bio.unsectored=
      drain Bio.size (Bio.cutVecs quiet) (l.map Bio.unsectored) n := by
  have hlen : ∀ b : Bio, b.unsectored.size=b.size := fun _ => rfl
  have hcut : ∀ m b, (Bio.cut quiet m b).unsectored=Bio.cutVecs quiet m b.unsectored := fun _ _ => rfl
  exact drain_map hlen hcut l n

/-- The sectors that two counts advance. -/
theorem sector_add (hn : 512 ∣ n) (hsmall : m+n<2^31) (s : BitVec 64) :
    s+BitVec.ofInt 64 (toInt m>>>(9 : ℕ))+BitVec.ofInt 64 (toInt n>>>(9 : ℕ))=
      s+BitVec.ofInt 64 (toInt (m+n : ℕ)>>>(9 : ℕ)) := by
  have hmax : intMax=2147483647 := rfl
  have hm : toInt m=m := toInt_of_range (by omega) (by omega)
  have hn' : toInt n=n := toInt_of_range (by omega) (by omega)
  have hs : toInt (m+n : ℕ)=(m+n : ℕ) := toInt_of_range (by omega) (by omega)
  have hdiv : (m+n)/512=m/512+n/512 := Nat.add_div_of_dvd_left hn
  have hshift : ((m+n : ℕ) : ℤ)>>>(9 : ℕ)=(m : ℤ)>>>(9 : ℕ)+(n : ℤ)>>>(9 : ℕ) := by
    rw [Int.shiftRight_eq_div_pow,Int.shiftRight_eq_div_pow,Int.shiftRight_eq_div_pow]
    omega
  rw [hm,hn',hs,hshift,BitVec.ofInt_add,BitVec.add_assoc]

/-- What several calls do. -/
structure Ran (rq : Request) (counts : List ℕ) (log : Log) (p : Request × Log) : Prop where
  /-- Without a call nothing is done. -/
  none : counts=[] → p.1=rq
  valid : Valid p.1
  /-- The bios that are left, without their sectors. -/
  vecs : (p.1.bios.map Bio.norm).map Bio.unsectored=
    drain Bio.size (Bio.cutVecs rq.quiet) ((rq.bios.map Bio.norm).map Bio.unsectored) counts.sum
  /-- The bios that are left, for counts of whole sectors. -/
  bios : (∀ n∈counts, 512 ∣ n) →
    p.1.bios.map Bio.norm=drain Bio.size (Bio.cut rq.quiet) (rq.bios.map Bio.norm) counts.sum
  log : p.2=log.add rq ((drained Bio.size (rq.bios.map Bio.norm) counts.sum).map Bio.ending)
  dataLen : p.1.dataLen=rq.dataLen-counts.sum
  /-- The request if something is left. -/
  left : counts≠[] → ∀ b bs, p.1.bios=b::bs → p.1={rq.after counts.sum b bs with sector := p.1.sector} ∧
    ((∀ n∈counts, 512 ∣ n) → rq.dataLen<2^31 → p.1.sector=(rq.after counts.sum b bs).sector)

theorem Ran.nil (hv : Valid rq) (log : Log) : Ran rq [] log (rq,log) := by
  refine ⟨fun _ => rfl,hv,?_,fun _ => ?_,?_,rfl,fun h => absurd rfl h⟩
  · rw [sum_nil,drain_zero]
  · rw [sum_nil,drain_zero]
  · rw [sum_nil,drained_zero]
    exact (Log.add_nil log rq).symm

/-- The bios that are ended do not depend on sectors. -/
theorem map_ending_unsectored (l : List Bio) (n : ℕ) :
    (drained Bio.size (l.map Bio.unsectored) n).map Bio.ending=(drained Bio.size l n).map Bio.ending := by
  induction l generalizing n with
  | nil => rfl
  | cons b l ih =>
    rw [map_cons]
    rcases Nat.eq_zero_or_pos n with rfl|hn
    · rw [drained_zero,drained_zero]
    · by_cases hle : b.size≤n
      · have hle' : b.unsectored.size≤n := hle
        rw [drained_cons_of_le _ hn hle,drained_cons_of_le _ hn hle',map_cons,map_cons]
        exact congrArg (List.cons _) (ih (n-b.size))
      · have hlt' : n<b.unsectored.size := not_le.mp hle
        rw [drained_cons_of_lt _ (not_le.mp hle),drained_cons_of_lt _ hlt']

/-- Two requests of which something is left, one after the other. -/
theorem Request.after_after (rq : Request) (m n : ℕ) (b c : Bio) (bs cs : List Bio) :
    (rq.after m b bs).after n c cs={rq.after (m+n) c cs with sector := ((rq.after m b bs).after n c cs).sector} := by
  unfold Request.after
  dsimp only
  cases rq.mixed <;> cases rq.fs <;> simp only [Nat.sub_sub,if_true,if_false,Bool.false_eq_true]

/-- The sector that two counts lead to. -/
theorem Request.after_after_sector (rq : Request) (b c : Bio) (bs cs : List Bio) (hn : 512 ∣ n) (hsmall : m+n<2^31) :
    ((rq.after m b bs).after n c cs).sector=(rq.after (m+n) c cs).sector := by
  unfold Request.after
  dsimp only
  by_cases hmoves : (rq.fs || rq.discard)=true
  · rw [if_pos hmoves,if_pos hmoves,if_pos hmoves,sector_add hn hsmall]
  · rw [if_neg hmoves,if_neg hmoves,if_neg hmoves]

/-- A request that lost its bios has none later. -/
theorem Ran.bios_ne_nil (h : Ran rq counts log p) (hp : p.1.bios≠[]) : rq.bios≠[] := by
  intro hnil
  have hvecs := h.vecs
  rw [hnil] at hvecs
  exact hp (map_eq_nil_iff.mp (map_eq_nil_iff.mp hvecs))

/-- One call and then several. -/
theorem Ran.cons (hsum : n+counts.sum ≤ rq.dataLen) (h : Updated rq n log r) (hp : Ran r.2.1 counts r.2.2 p) :
    Ran rq (n::counts) log p := by
  obtain ⟨hfs,hdiscard,hmixed,hquiet,hseq⟩ := h.flags
  have hfirst : (r.2.1.bios.map Bio.norm).map Bio.unsectored=
      drain Bio.size (Bio.cutVecs rq.quiet) ((rq.bios.map Bio.norm).map Bio.unsectored) n := by
    rw [h.bios,map_unsectored_drain]
  have hadd : ∀ l, r.2.2.add r.2.1 l=r.2.2.add rq l := by
    intro l
    unfold Log.add
    rw [hseq]
  refine ⟨fun hnil => absurd hnil (cons_ne_nil n counts),hp.valid,?_,fun hfine => ?_,?_,?_,fun _ b bs hb => ?_⟩
  · rw [hp.vecs,hfirst,hquiet,sum_cons,drain_add (cuts_unsectored rq.quiet) _ n trivial]
  · have hrest : ∀ m∈counts, 512 ∣ m := fun m hm => hfine m (mem_cons_of_mem n hm)
    rw [hp.bios hrest,h.bios,hquiet,sum_cons,drain_add (cuts_bio rq.quiet) _ n (dvd_sum hrest)]
  · have hkey : ∀ (n : ℕ) (b : Bio), (Bio.cutVecs rq.quiet n b).ending=b.ending := fun _ _ => rfl
    rw [hp.log,hadd,h.log,Log.add_add,sum_cons,← map_ending_unsectored (rq.bios.map Bio.norm) (n+counts.sum),
      drained_add (cuts_unsectored rq.quiet) hkey,← hfirst,map_ending_unsectored,map_ending_unsectored]
  · rw [hp.dataLen,h.dataLen,sum_cons,Nat.sub_sub]
  · have hne : r.2.1.bios≠[] := hp.bios_ne_nil (hb ▸ cons_ne_nil b bs)
    obtain ⟨c,cs,hc⟩ := exists_cons_of_ne_nil hne
    have hafter := h.left c cs hc
    cases counts with
    | nil =>
      have hsame := hp.none rfl
      obtain ⟨rfl,rfl⟩ := List.cons.inj (hc.symm.trans (hsame ▸ hb))
      rw [hsame,hafter,sum_singleton]
      exact ⟨rfl,fun _ _ => rfl⟩
    | cons m ms =>
      obtain ⟨hrest,hsector⟩ := hp.left (cons_ne_nil m ms) b bs hb
      rw [hafter] at hrest hsector
      rw [Request.after_after] at hrest
      rw [sum_cons]
      refine ⟨hrest,fun hfine hsmall => ?_⟩
      have hms : ∀ k∈m::ms, 512 ∣ k := fun k hk => hfine k (mem_cons_of_mem n hk)
      rw [hsector hms ((Nat.sub_le _ _).trans_lt hsmall)]
      exact rq.after_after_sector c b cs bs (dvd_sum hms) (hsum.trans_lt hsmall)

/-- What several calls do. -/
theorem updates_ran (hv : Valid rq) (hsum : counts.sum ≤ rq.dataLen) (log : Log) :
    Ran rq counts log (updates (rq,log) counts) := by
  induction counts generalizing rq log with
  | nil => exact Ran.nil hv log
  | cons n counts ih =>
    rw [sum_cons] at hsum
    have h : Updated rq n log (blkUpdateRequest rq 0 n log) := blkUpdateRequest_spec hv (by omega) log
    exact Ran.cons hsum h (ih (h.valid hv) (by rw [h.dataLen]; omega) _)

theorem data_norm (b : Bio) : b.norm.unsectored.data=b.data := by
  unfold Bio.data Bio.unsectored Bio.norm
  dsimp only
  rw [getElem?_drop,Nat.add_zero]

/-- Bios that agree without their sectors leave requests that agree without theirs. -/
theorem Request.after_congr (rq : Request) {b c : Bio} (h : b.norm.unsectored=c.norm.unsectored) (bs cs : List Bio) :
    {rq.after n b bs with
      bios := []
      sector := 0}=
    {rq.after n c cs with
      bios := []
      sector := 0} := by
  have hdata : b.data=c.data := by rw [← data_norm b,h,data_norm]
  have hfast : b.norm.unsectored.failfast=c.norm.unsectored.failfast := congrArg Bio.failfast h
  change b.failfast=c.failfast at hfast
  unfold Request.after
  dsimp only
  rw [hdata,hfast]

/-- Nothing has been done. -/
def Log.empty : Log := ⟨[],false,false,false,false⟩

/-- No message was printed. -/
def Log.Quiet (log : Log) : Prop := log.tooMany=false ∧ log.badIdx=false ∧ log.bug=false ∧ log.botched=false

/-- The ended bios are the first ones, those whose last byte is done. -/
theorem Ran.ended (h : Ran rq counts Log.empty p) (hv : Valid rq) (hseq : rq.flushSeq=false) :
    p.2.ended.map Prod.fst++p.1.bios.map Bio.id=rq.bios.map Bio.id ∧
      ∀ k, k<p.2.ended.length ↔ k < rq.bios.length ∧ bytes Bio.size (rq.bios.take (k+1)) ≤ counts.sum := by
  have hended : p.2.ended=(drained Bio.size (rq.bios.map Bio.norm) counts.sum).map Bio.ending := by
    rw [h.log]
    unfold Log.add
    rw [hseq]
    rfl
  have hids : ∀ l : List Bio, ((l.map Bio.norm).map Bio.unsectored).map Bio.id=l.map Bio.id := by
    intro l
    rw [map_map,map_map]
    rfl
  have hkey : ∀ (m : ℕ) (b : Bio), (Bio.cutVecs rq.quiet m b).id=b.id := fun _ _ => rfl
  constructor
  · have hfst : p.2.ended.map Prod.fst=
        (drained Bio.size ((rq.bios.map Bio.norm).map Bio.unsectored) counts.sum).map Bio.id := by
      rw [hended,← map_ending_unsectored,map_map]
      rfl
    rw [hfst,← hids p.1.bios,h.vecs,drained_append_drain hkey,hids]
  · intro k
    have hpos : ∀ b∈rq.bios.map Bio.norm, 0<b.size := by
      intro b hb
      obtain ⟨c,hc,rfl⟩ := mem_map.mp hb
      exact (hv.whole c hc).2
    rw [hended,length_map,lt_length_drained_iff hpos,length_map,← map_take,bytes_map_norm]

/-- The sector after several calls. -/
theorem Ran.sector (h : Ran rq counts log p) (hfs : rq.fs=true) (hsum : counts.sum ≤ rq.dataLen)
    (hfine : ∀ n∈counts, 512 ∣ n) (hsmall : rq.dataLen<2^31) (hne : p.1.bios≠[]) :
    p.1.sector=rq.sector+BitVec.ofNat 64 (counts.sum/512) := by
  by_cases hnil : counts=[]
  · rw [h.none hnil,hnil]
    exact (BitVec.add_zero _).symm
  obtain ⟨b,bs,hb⟩ := exists_cons_of_ne_nil hne
  have hmax : intMax=2147483647 := rfl
  have hint : toInt counts.sum=counts.sum := toInt_of_range (by omega) (by omega)
  have hdiv : (counts.sum : ℤ)>>>(9 : ℕ)=(counts.sum/512 : ℕ) := by
    rw [Int.shiftRight_eq_div_pow]
    rfl
  rw [(h.left hnil b bs hb).2 hfine hsmall]
  unfold Request.after
  dsimp only
  rw [hfs,Bool.true_or,if_pos rfl,hint,hdiv,BitVec.ofInt_natCast]

/-- Calls without an error, on a request whose bios are whole, that together do not exceed it: the log,
the length and the bios without their sectors are those of one call with the sum; with counts of whole
sectors so are the bios, and if something is left so is the request. The length is that of the bios that
are left. Unless the request is a step of a flush sequence each bio is ended once, in order, when its
last byte is done. While something is left the sector has advanced by the sectors that are done. A call
returns false exactly when nothing is left, and no message is printed. -/
theorem partial_completion_additive {counts : List ℕ} (hv : Valid rq) (hsum : counts.sum ≤ rq.dataLen) :
    let s := updates (rq,Log.empty) counts
    let t := (blkUpdateRequest rq 0 counts.sum Log.empty).2
    (counts≠[] →
      s.2=t.2 ∧ s.1.dataLen=t.1.dataLen ∧
      (s.1.bios.map Bio.norm).map Bio.unsectored=(t.1.bios.map Bio.norm).map Bio.unsectored ∧
      ((∀ n∈counts, 512 ∣ n) → s.1.bios.map Bio.norm=t.1.bios.map Bio.norm) ∧
      (s.1.bios≠[] →
        {s.1 with
          bios := []
          sector := 0}=
        {t.1 with
          bios := []
          sector := 0} ∧
        ((∀ n∈counts, 512 ∣ n) → rq.dataLen<2^31 → s.1.sector=t.1.sector))) ∧
    s.1.dataLen=bytes Bio.size s.1.bios ∧ s.1.dataLen+counts.sum=rq.dataLen ∧
    (rq.flushSeq=false → s.2.ended.map Prod.fst++s.1.bios.map Bio.id=rq.bios.map Bio.id ∧
      ∀ k, k<s.2.ended.length ↔ k < rq.bios.length ∧ bytes Bio.size (rq.bios.take (k+1)) ≤ counts.sum) ∧
    (rq.flushSeq=true → s.2.ended=[]) ∧
    (rq.fs=true → (∀ n∈counts, 512 ∣ n) → rq.dataLen<2^31 → s.1.bios≠[] →
      s.1.sector=rq.sector+BitVec.ofNat 64 (counts.sum/512)) ∧
    (∀ n ≤ s.1.dataLen, (blkUpdateRequest s.1 0 n s.2).1=false ↔ (blkUpdateRequest s.1 0 n s.2).2.1.bios=[]) ∧
    s.2.Quiet := by
  intro s t
  have hs : Ran rq counts Log.empty s := updates_ran hv hsum Log.empty
  have ht : Updated rq counts.sum Log.empty (blkUpdateRequest rq 0 counts.sum Log.empty) :=
    blkUpdateRequest_spec hv hsum Log.empty
  have hvecs : (s.1.bios.map Bio.norm).map Bio.unsectored=(t.1.bios.map Bio.norm).map Bio.unsectored := by
    rw [hs.vecs,ht.bios,map_unsectored_drain]
  refine ⟨fun hne => ⟨by rw [hs.log,ht.log],by rw [hs.dataLen,ht.dataLen],hvecs,
    fun hfine => by rw [hs.bios hfine,ht.bios],fun hleft => ?_⟩,hs.valid.len,by rw [hs.dataLen]; omega,
    fun hseq => hs.ended hv hseq,fun hseq => ?_,fun hfs hfine hsmall hleft => hs.sector hfs hsum hfine hsmall hleft,
    fun n hn => (blkUpdateRequest_spec hs.valid hn s.2).ret,?_⟩
  · obtain ⟨b,bs,hb⟩ := exists_cons_of_ne_nil hleft
    rw [hb] at hvecs
    have htne : t.1.bios≠[] := by
      intro hnil
      rw [hnil] at hvecs
      exact cons_ne_nil _ _ hvecs
    obtain ⟨c,cs,hc⟩ := exists_cons_of_ne_nil htne
    rw [hc] at hvecs
    have hbc : b.norm.unsectored=c.norm.unsectored := (List.cons.inj hvecs).1
    obtain ⟨hreq,hsector⟩ := hs.left hne b bs hb
    rw [hreq,ht.left c cs hc]
    exact ⟨rq.after_congr hbc bs cs,hsector⟩
  · rw [hs.log]
    unfold Log.add
    rw [hseq]
    rfl
  · rw [hs.log]
    exact ⟨rfl,rfl,rfl,rfl⟩

end

/-- A request of two bios, the first one with two vectors. -/
def twoBios : Request :=
  ⟨[⟨0,8,1024,0,[⟨0,0,512⟩,⟨1,0,512⟩],0,true,false⟩,⟨1,10,1024,0,[⟨2,0,1024⟩],0,true,false⟩],2048,8,true,false,false,
    false,false,0,0,none⟩

/-- Two calls end the first bio and cut the vector of the second one. -/
theorem partial_completion_additive_two : Valid twoBios ∧
    (updates (twoBios,Log.empty) [256,1024]).2.ended.map Prod.fst=[0] ∧
    (updates (twoBios,Log.empty) [256,1024]).1.bios.map Bio.vecs=[[⟨2,256,768⟩]] ∧
    (updates (twoBios,Log.empty) [256,1024]).1.dataLen=768 := by
  have hv : Valid twoBios :=
    ⟨forall_mem_cons.mpr ⟨⟨rfl,by decide⟩,forall_mem_singleton.mpr ⟨rfl,by decide⟩⟩,rfl,by decide⟩
  have h := @partial_completion_additive twoBios [256,1024] hv (by decide)
  have hids := (h.2.2.2.1 rfl).1
  have hleft : (updates (twoBios,Log.empty) [256,1024]).1.bios.map Bio.id=[1] := by decide
  rw [hleft] at hids
  exact ⟨hv,append_cancel_right (hids.trans rfl),by decide,Nat.add_right_cancel (h.2.2.1.trans rfl)⟩

/-- A request of one bio of two sectors. -/
def twoSectors : Request := ⟨[⟨0,8,1024,0,[⟨0,0,1024⟩],0,true,false⟩],1024,8,true,false,false,false,false,0,0,none⟩

/-- A request that is done in two calls has not advanced its sector as far as one that is done in one
call or as the sectors that are done. -/
theorem done_request_keeps_sector : Valid twoSectors ∧ (updates (twoSectors,Log.empty) [512,512]).1.sector=9 ∧
      (blkUpdateRequest twoSectors 0 1024 Log.empty).2.1.sector=8 ∧
      twoSectors.sector+BitVec.ofNat 64 (1024/512)=10 := by
  refine ⟨⟨fun b hb => ?_,rfl,by decide⟩,by decide,by decide,by decide⟩
  obtain rfl := mem_singleton.mp hb
  exact ⟨rfl,by decide⟩

end BlockIpc.PartialCompletion
