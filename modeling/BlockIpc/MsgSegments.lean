import BlockIpc.CheckedMath
import BlockIpc.KernelNumbers

/-!
# Segments of a message

load_msg copies a message into a chain of chunks of at most a page, store_msg
copies it out again. Each one cuts the length with a counter of its own. A load
that fails frees the chain that it has linked so far.
-/

namespace BlockIpc.MsgSegments

open List CheckedMath KernelNumbers

/-- Sizes of a page and of the headers of a chunk, and the width of a size_t. -/
structure Layout where
  pageSize : ℕ
  /-- sizeof(struct msg_msg). -/
  msgHeader : ℕ
  /-- sizeof(struct msg_msgseg). -/
  segHeader : ℕ
  /-- Bits of a size_t. -/
  width : ℕ
  /-- A page holds more than the headers, and its size is a word. -/
  fits : msgHeader<pageSize ∧ segHeader<pageSize ∧ pageSize<2^width

def Layout.datalenMsg (lay : Layout) : ℕ := lay.pageSize-lay.msgHeader

def Layout.datalenSeg (lay : Layout) : ℕ := lay.pageSize-lay.segHeader

/-- A chunk: the number of the kmalloc that returned it, and its payload. -/
structure Chunk (β : Type) where
  /-- The number of the kmalloc. -/
  id : ℕ
  /-- What follows the header. -/
  payload : List β

/-- What allocations, copies and the security hook answer. -/
structure Answers where
  /-- Whether a kmalloc succeeds. -/
  alloc : ℕ → Bool
  /-- Whether copying a chunk succeeds. -/
  copy : ℕ → Bool
  /-- The answer of security_msg_msg_alloc. -/
  security : Option Errno

/-- The result of load_msg. -/
inductive Loaded (β : Type) where
  /-- A message: the chain that starts with its first chunk. -/
  | msg (chain : List (Chunk β))
  /-- An error, the chunks that were allocated and those that were freed. -/
  | error (code : ℤ) (allocated freed : List ℕ)

variable {β : Type}

/-- free_msg: the chunks that are freed. -/
def freeMsg (chain : List (Chunk β)) : List ℕ := chain.map Chunk.id

/-- The loop of load_msg: the chain and the chunks allocated so far, the rest of the text and of the
length. -/
def loadSegs (lay : Layout) (ans : Answers) (chain : List (Chunk β)) (allocated : List ℕ) (src : List β) (len : ℕ) :
    Loaded β :=
  if len=0 then
    match ans.security with
    | none => .msg chain
    | some err => .error err.code allocated (freeMsg chain)
  else
    let alen := if lay.datalenSeg<len then lay.datalenSeg else len
    let seg := allocated.length
    if l30SizeAddOverflow lay.width lay.segHeader alen=none then .error (-eoverflow) allocated (freeMsg chain)
    else if ans.alloc seg=false then .error (-enomem) allocated (freeMsg chain)
    else if ans.copy seg=false then .error (-efault) (allocated++[seg]) (freeMsg (chain++[⟨seg,[]⟩]))
    else loadSegs lay ans (chain++[⟨seg,src.take alen⟩]) (allocated++[seg]) (src.drop alen) (len-alen)
termination_by len
decreasing_by
  have := lay.fits.2.1
  unfold Layout.datalenSeg
  split <;> omega

/-- load_msg of a text and an int. -/
def loadMsg (lay : Layout) (ans : Answers) (src : List β) (len : ℤ) : Loaded β :=
  if len<0 then .error (-einval) [] []
  else
    let alen := if lay.datalenMsg<len.toNat then lay.datalenMsg else len.toNat
    if l30SizeAddOverflow lay.width lay.msgHeader alen=none then .error (-eoverflow) [] []
    else if ans.alloc 0=false then .error (-enomem) [] []
    else if ans.copy 0=false then .error (-efault) [0] (freeMsg [(⟨0,[]⟩ : Chunk β)])
    else loadSegs lay ans [⟨0,src.take alen⟩] [0] (src.drop alen) (len.toNat-alen)

/-- The result of store_msg. -/
inductive Stored (β : Type) where
  | done (written : List β)
  /-- A copy failed. -/
  | fault
  /-- A chunk that does not exist or bytes behind a chunk were read. -/
  | wild

/-- The loop of store_msg. -/
def storeSegs (lay : Layout) (copy : ℕ → Bool) (written : List β) : List (Chunk β) → ℕ → Stored β
  | [],len => if len=0 then .done written else .wild
  | seg::rest,len =>
    if len=0 then .done written
    else
      let alen := if lay.datalenSeg<len then lay.datalenSeg else len
      if seg.payload.length<alen then .wild
      else if copy seg.id=false then .fault
      else storeSegs lay copy (written++seg.payload.take alen) rest (len-alen)

/-- store_msg of a chain. -/
def storeMsg (lay : Layout) (copy : ℕ → Bool) (len : ℕ) : List (Chunk β) → Stored β
  | [] => .wild
  | msg::segs =>
    let alen := if lay.datalenMsg<len then lay.datalenMsg else len
    if msg.payload.length<alen then .wild
    else if copy msg.id=false then .fault
    else storeSegs lay copy (msg.payload.take alen) segs (len-alen)

def payload (chain : List (Chunk β)) : List β := (chain.map Chunk.payload).flatten

/-- The later chunks of a message with some rest of the text: full, but for the last one, and not
empty. -/
inductive Cut (size : ℕ) : List (Chunk β) → List β → Prop
  /-- Nothing is left. -/
  | nil : Cut size [] []
  /-- A chunk as large as possible. -/
  | cons {seg : Chunk β} {segs : List (Chunk β)} {src : List β} (hne : src≠[]) (hseg : seg.payload=src.take size)
    (h : Cut size segs (src.drop size)) : Cut size (seg::segs) src

variable {lay : Layout} {ans : Answers} {chain segs : List (Chunk β)} {allocated freed : List ℕ} {src written : List β}
  {len size n : ℕ} {code : ℤ} {copy : ℕ → Bool}

/-- A chunk of at most a page has a size. -/
theorem overflow_ne_none {header alen : ℕ} (h : header<lay.pageSize) (ha : alen≤lay.pageSize-header) :
    l30SizeAddOverflow lay.width header alen≠none := by
  have hlt : header+alen<2^lay.width := lt_of_le_of_lt (by omega) lay.fits.2.2
  rw [(l30SizeAddOverflow_eq_some (by omega)).mpr ⟨hlt,rfl⟩]
  exact nofun

theorem piece_eq (a b : ℕ) : (if a<b then a else b)=min a b := by
  split <;> omega

/-- What a piece leaves of a part of a text. -/
theorem drop_split (src : List β) (size len : ℕ) :
    (src.take len).drop size=(src.drop (min size len)).take (len-min size len) := by
  rw [drop_take]
  by_cases hle : size≤len
  · rw [min_eq_left hle]
  · rw [Nat.sub_eq_zero_of_le (by omega),min_eq_right (by omega),Nat.sub_self,take_zero,take_zero]

/-- The rest of a load: a message whose later chunks are cut from the text, or an error after which
each chunk has been freed once. -/
theorem loadSegs_spec (lay : Layout) (ans : Answers) (hlen : len ≤ src.length) (hchain : freeMsg chain=allocated)
    (hids : allocated=List.range allocated.length) :
    (∃ segs, loadSegs lay ans chain allocated src len=.msg (chain++segs) ∧ Cut lay.datalenSeg segs (src.take len)) ∨
    (∃ code allocated' freed, loadSegs lay ans chain allocated src len=.error code allocated' freed ∧
      freed=allocated' ∧ freed.Nodup ∧ ¬((∀ k, ans.alloc k=true ∧ ans.copy k=true) ∧ ans.security=none)) := by
  induction len using Nat.strong_induction_on generalizing chain allocated src with
  | _ len ih =>
    have hnodup : allocated.Nodup := hids ▸ nodup_range
    have hids' : allocated++[allocated.length]=List.range (allocated++[allocated.length]).length := by
      rw [length_append,length_singleton,range_succ,← hids]
    have hpos : 0<lay.datalenSeg := Nat.sub_pos_of_lt lay.fits.2.1
    rw [loadSegs]
    by_cases hz : len=0
    · rw [if_pos hz]
      cases hs : ans.security with
      | none => exact .inl ⟨[],by rw [append_nil],by rw [hz,take_zero]; exact .nil⟩
      | some err => exact .inr ⟨_,_,_,rfl,hchain,hchain ▸ hnodup,fun hc => absurd hc.2 nofun⟩
    rw [if_neg hz]
    dsimp only
    have hsize : l30SizeAddOverflow lay.width lay.segHeader (min lay.datalenSeg len)≠none :=
      overflow_ne_none lay.fits.2.1 (min_le_left _ _)
    rw [piece_eq,if_neg hsize]
    cases ha : ans.alloc allocated.length with
    | false =>
      refine .inr ⟨_,_,_,if_pos rfl,hchain,hchain ▸ hnodup,fun hc => ?_⟩
      rw [(hc.1 _).1] at ha
      cases ha
    | true =>
    rw [if_neg nofun]
    have hlinked : ∀ x : List β, freeMsg (chain++[⟨allocated.length,x⟩])=allocated++[allocated.length] := by
      intro x
      unfold freeMsg at hchain ⊢
      rw [map_append,hchain]
      rfl
    cases hc : ans.copy allocated.length with
    | false =>
      refine .inr ⟨_,_,_,if_pos rfl,hlinked [],?_,fun hg => ?_⟩
      · rw [hlinked,hids']
        exact nodup_range
      · rw [(hg.1 _).2] at hc
        cases hc
    | true =>
      rw [if_neg nofun]
      have hrest : len-min lay.datalenSeg len≤(src.drop (min lay.datalenSeg len)).length := by
        rw [length_drop]
        omega
      rcases ih _ (by omega) hrest (hlinked _) hids' with ⟨segs,hload,hcut⟩|herr
      · refine .inl ⟨⟨allocated.length,src.take (min lay.datalenSeg len)⟩::segs,?_,
          .cons (fun hnil => hz ?_) (take_take ..).symm ?_⟩
        · rw [hload,append_assoc]
          rfl
        · have hl := congrArg List.length hnil
          rw [length_take] at hl
          exact (Nat.min_eq_zero_iff.mp hl).resolve_right (by omega)
        · rw [drop_split]
          exact hcut
      · exact .inr herr

/-- A chain that is cut from a text holds it. -/
theorem Cut.payload_eq (h : Cut size segs src) : payload segs=src := by
  induction h with
  | nil => rfl
  | @cons seg segs src _ hseg _ ih =>
    change seg.payload++payload segs=src
    rw [ih,hseg,take_append_drop]

/-- Later chunks are not too large and not empty. -/
theorem Cut.sizes (h : Cut size segs src) (hpos : 0<size) :
    ∀ seg∈segs, seg.payload.length ≤ size ∧ seg.payload≠[] := by
  induction h with
  | nil => exact nofun
  | cons hne hseg _ ih =>
    rw [forall_mem_cons,hseg]
    refine ⟨⟨length_take_le ..,fun hnil => ?_⟩,ih⟩
    exact (take_eq_nil_iff.mp hnil).elim hpos.ne' hne

/-- A piece of a text and the rest that is asked for. -/
theorem take_split (src : List β) (size n : ℕ) :
    (src.take size).take (min size n)++(src.drop size).take (n-min size n)=src.take n := by
  rw [take_take,min_eq_left (min_le_left _ _)]
  by_cases hle : size≤n
  · rw [min_eq_left hle,← take_add,Nat.add_sub_cancel' hle]
  · rw [min_eq_right (by omega),Nat.sub_self,take_zero,append_nil]

/-- The loop of store_msg writes what is asked for, unless a copy fails. -/
theorem Cut.store (h : Cut lay.datalenSeg segs src) (copy : ℕ → Bool) (written : List β) (hn : n ≤ src.length) :
    storeSegs lay copy written segs n=.done (written++src.take n) ∨
      storeSegs lay copy written segs n=.fault ∧ ∃ k, copy k=false := by
  induction h generalizing n written with
  | nil =>
    rw [storeSegs,if_pos (Nat.le_zero.mp hn)]
    exact .inl (by rw [take_nil,append_nil])
  | @cons seg segs src hne hseg h ih =>
    rw [storeSegs]
    by_cases hz : n=0
    · rw [if_pos hz,hz,take_zero,append_nil]
      exact .inl rfl
    rw [if_neg hz]
    dsimp only
    rw [piece_eq,hseg,if_neg (by rw [length_take]; omega)]
    cases hc : copy seg.id with
    | false => exact .inr ⟨if_pos rfl,seg.id,hc⟩
    | true =>
      rw [if_neg nofun]
      have hrest : n-min lay.datalenSeg n≤(src.drop lay.datalenSeg).length := by
        rw [length_drop]
        omega
      rcases ih _ hrest with hd|hf
      · refine .inl (hd.trans ?_)
        rw [append_assoc,take_split]
      · exact .inr hf

/-- A load of some part of a text: a message that holds it, or an error after which each chunk has
been freed once. -/
theorem loadMsg_spec (lay : Layout) (ans : Answers) (hlen : len ≤ src.length) :
    (∃ head segs, loadMsg lay ans src len=.msg (head::segs) ∧ head.payload=(src.take len).take lay.datalenMsg ∧
      Cut lay.datalenSeg segs ((src.take len).drop lay.datalenMsg)) ∨
    (∃ code allocated freed, loadMsg lay ans src len=.error code allocated freed ∧ freed=allocated ∧ freed.Nodup ∧
      ¬((∀ k, ans.alloc k=true ∧ ans.copy k=true) ∧ ans.security=none)) := by
  unfold loadMsg
  rw [if_neg (by omega),Int.toNat_natCast]
  dsimp only
  have hsize : l30SizeAddOverflow lay.width lay.msgHeader (min lay.datalenMsg len)≠none :=
    overflow_ne_none lay.fits.1 (min_le_left _ _)
  rw [piece_eq,if_neg hsize]
  cases ha : ans.alloc 0 with
  | false =>
    refine .inr ⟨_,_,_,if_pos rfl,rfl,nodup_nil,fun hc => ?_⟩
    rw [(hc.1 0).1] at ha
    cases ha
  | true =>
  rw [if_neg nofun]
  cases hc : ans.copy 0 with
  | false =>
    refine .inr ⟨_,_,_,if_pos rfl,rfl,nodup_singleton 0,fun hg => ?_⟩
    rw [(hg.1 0).2] at hc
    cases hc
  | true =>
    rw [if_neg nofun]
    have hrest : len-min lay.datalenMsg len≤(src.drop (min lay.datalenMsg len)).length := by
      rw [length_drop]
      omega
    have hchain : freeMsg [⟨0,src.take (min lay.datalenMsg len)⟩]=[0] := rfl
    rcases loadSegs_spec lay ans hrest hchain rfl with ⟨segs,hload,hcut⟩|herr
    · refine .inl ⟨_,segs,hload,(take_take ..).symm,?_⟩
      rw [drop_split]
      exact hcut
    · exact .inr herr

/-- A text of at most INT_MAX bytes that is loaded while every allocation and copy succeeds is held by
a chain of chunks that are not too large, of which the later ones are not empty. store_msg writes any
first part of it, and reads nothing behind the chain whatever the copies answer. If a load fails then
each chunk that was allocated is freed once. -/
theorem msg_segments_roundtrip (lay : Layout) (ans : Answers) {b : List β} (hlen : (b.length : ℤ) ≤ intMax) :
    ((∀ k, ans.alloc k=true ∧ ans.copy k=true) → ans.security=none →
      ∃ head segs, loadMsg lay ans b (toInt b.length)=.msg (head::segs) ∧ payload (head::segs)=b ∧
        head.payload.length≤lay.datalenMsg ∧
        (∀ seg∈segs, seg.payload.length≤lay.datalenSeg ∧ seg.payload≠[]) ∧
        ∀ n≤b.length, ∀ copy, storeMsg lay copy n (head::segs)≠.wild ∧
          ((∀ k, copy k=true) → storeMsg lay copy n (head::segs)=.done (b.take n))) ∧
    (∀ code allocated freed, loadMsg lay ans b (toInt b.length)=.error code allocated freed →
      freed=allocated ∧ freed.Nodup) := by
  rw [toInt_of_range (Int.natCast_nonneg _) hlen]
  rcases loadMsg_spec lay ans (le_refl b.length) with ⟨head,segs,hload,hhead,hcut⟩|⟨_,_,_,herr,hfreed,hnodup,hbad⟩
  · rw [take_length] at hhead hcut
    refine ⟨fun _ _ => ⟨head,segs,hload,?_,?_,hcut.sizes (Nat.sub_pos_of_lt lay.fits.2.1),fun n hn copy => ?_⟩,
      fun code allocated freed he => ?_⟩
    · change head.payload++payload segs=b
      rw [hcut.payload_eq,hhead,take_append_drop]
    · rw [hhead]
      exact length_take_le ..
    · have hrest : n-min lay.datalenMsg n≤(b.drop lay.datalenMsg).length := by
        rw [length_drop]
        omega
      unfold storeMsg
      dsimp only
      rw [piece_eq,hhead,if_neg (by rw [length_take]; omega)]
      cases hc : copy head.id with
      | false => exact ⟨by rw [if_pos rfl]; exact nofun,fun hg => absurd ((hg head.id).symm.trans hc) nofun⟩
      | true =>
        rw [if_neg nofun]
        rcases hcut.store copy ((b.take lay.datalenMsg).take (min lay.datalenMsg n)) hrest with hd|⟨hf,k,hk⟩
        · rw [hd,take_split]
          exact ⟨nofun,fun _ => rfl⟩
        · rw [hf]
          exact ⟨nofun,fun hg => absurd ((hg k).symm.trans hk) nofun⟩
    · rw [hload] at he
      cases he
  · refine ⟨fun hg hs => absurd ⟨hg,hs⟩ hbad,fun code allocated freed he => ?_⟩
    rw [herr] at he
    cases he
    exact ⟨hfreed,hnodup⟩

/-- Five bytes in chunks of two and three. -/
theorem msg_segments_roundtrip_five : ∃ chain : List (Chunk ℕ),
    loadMsg ⟨4,2,1,8,by decide⟩ ⟨fun _ => true,fun _ => true,none⟩ [1,2,3,4,5] 5=.msg chain ∧
      payload chain=[1,2,3,4,5] ∧
      storeMsg ⟨4,2,1,8,by decide⟩ (fun _ => true) 4 chain=.done [1,2,3,4] := by
  obtain ⟨head,segs,hload,hpayload,-,-,hstore⟩ :=
    (msg_segments_roundtrip ⟨4,2,1,8,by decide⟩ ⟨fun _ => true,fun _ => true,none⟩ (b := [1,2,3,4,5]) (by decide)).1
      (fun _ => ⟨rfl,rfl⟩) rfl
  exact ⟨_,hload,hpayload,(hstore 4 (by decide) _).2 (fun _ => rfl)⟩

end BlockIpc.MsgSegments
