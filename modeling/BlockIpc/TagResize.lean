import BlockIpc.TagSharing
import BlockIpc.KernelNumbers

/-!
# Growing a tag map

blk_queue_resize_tags replaces the two arrays of a tag map by larger ones and copies the old ones.
init_tag_map makes the depth smaller if it is more than twice nr_requests of the queue, and
nr_requests may have been lowered by sysfs since the old arrays were made, while the copies go by the
old depth. Every call is made under the queue lock and is one step.
-/

namespace BlockIpc.TagResize

open Function List TransitionRuns KernelNumbers

/-- blk_queue_tag. A bit of tag_map is an entry of a list, whole words of them. -/
structure TagMap where
  realMaxDepth : ℕ
  maxDepth : ℕ
  tagIndex : List (Option ℕ)
  tagMap : List Bool
  refcnt : ℕ
  deriving DecidableEq

def divRoundUp (n d : ℕ) : ℕ := (n+d-1)/d

def blkdevMinRq : ℕ := 4

section

-- BITS_PER_LONG
variable (bitsPerLong : ℕ)

/-- The depth that init_tag_map uses for a queue, or without one; nr_requests is an unsigned long. -/
def adjustedDepth (nrRequests : Option ℕ) (depth : ℤ) : ℤ :=
  match nrRequests with
  | none => depth
  | some n => if ((n*2)%2^bitsPerLong : ℕ)<depth then ((n*2)%2^bitsPerLong : ℕ) else depth

/-- init_tag_map, with the two allocations: the new depth and the new arrays. -/
def initTagMap (nrRequests : Option ℕ) (depth : ℤ) (indexAlloc mapAlloc : Bool) :
    Except ℤ (ℕ × List (Option ℕ) × List Bool) :=
  if depth≤0 then .error (-einval)
  else if adjustedDepth bitsPerLong nrRequests depth≤0 then .error (-einval)
  else if indexAlloc=false then .error (-enomem)
  else if mapAlloc=false then .error (-enomem)
  else
    let d := (adjustedDepth bitsPerLong nrRequests depth).toNat
    .ok (d,List.replicate d none,List.replicate (divRoundUp d bitsPerLong*bitsPerLong) false)

/-- memcpy of some entries from the start of an array to another one. -/
def memcpy {α : Type*} (dst src : List α) (n : ℕ) : List α := src.take n++dst.drop n

/-- What blk_queue_resize_tags returns and leaves, and the pointers and words that were copied. -/
structure Resized where
  /-- The returned value. -/
  ret : ℤ
  map : Option TagMap
  /-- The pointers and the words that were copied. -/
  copied : Option (ℕ × ℕ)
  deriving DecidableEq

/-- blk_queue_resize_tags, with the two allocations. -/
def blkQueueResizeTags (nrRequests : ℕ) (bqt : Option TagMap) (newDepth : ℤ) (indexAlloc mapAlloc : Bool) : Resized :=
  if newDepth≤0 then ⟨-einval,bqt,none⟩
  else
    match bqt with
    | none => ⟨-enxio,none,none⟩
    | some m =>
      if newDepth ≤ m.realMaxDepth then ⟨0,some {m with maxDepth := newDepth.toNat},none⟩
      else if m.refcnt≠1 then ⟨-ebusy,some m,none⟩
      else
        match initTagMap bitsPerLong (some nrRequests) newDepth indexAlloc mapAlloc with
        | .error e => ⟨e,some m,none⟩
        | .ok (d,index,map) =>
          let words := divRoundUp m.realMaxDepth bitsPerLong
          ⟨0,some ⟨d,d,memcpy index m.tagIndex m.realMaxDepth,memcpy map m.tagMap (words*bitsPerLong),m.refcnt⟩,
            some (m.realMaxDepth,words)⟩

/-- The queues, the map that some of them use, and the tags of the requests. -/
structure State where
  map : Option TagMap
  /-- queue_tags of a queue is the map. -/
  uses : ℕ → Bool
  nrRequests : ℕ → ℕ
  tag : ℕ → Option ℕ

def State.queueTags (s : State) (q : ℕ) : Option TagMap := if s.uses q then s.map else none

/-- blk_queue_resize_tags for a queue. -/
def State.resize (s : State) (q : ℕ) (newDepth : ℤ) (indexAlloc mapAlloc : Bool) : Resized :=
  blkQueueResizeTags bitsPerLong (s.nrRequests q) (s.queueTags q) newDepth indexAlloc mapAlloc

def findFirstZeroBit (bits : List Bool) (size : ℕ) : ℕ := (bits.take size).findIdx (fun b => !b)

/-- What can happen. -/
inductive Event where
  /-- blk_queue_init_tags without a map. -/
  | init (q : ℕ) (depth : ℤ) (tagsAlloc indexAlloc mapAlloc : Bool)
  /-- blk_init_tags. -/
  | external (depth : ℤ) (tagsAlloc indexAlloc mapAlloc : Bool)
  /-- blk_queue_init_tags with the map. -/
  | share (q : ℕ) (depth : ℤ) (indexAlloc mapAlloc : Bool)
  /-- blk_queue_start_tag; there may be too many asynchronous requests in flight. -/
  | start (q r : ℕ) (async full : Bool)
  /-- blk_queue_end_tag. -/
  | finish (q r : ℕ)
  /-- blk_queue_resize_tags. -/
  | resize (q : ℕ) (newDepth : ℤ) (indexAlloc mapAlloc : Bool)
  /-- queue_requests_store of a number. -/
  | store (q nr : ℕ)

/-- __blk_queue_init_tags: the new map, if it can be made. -/
def newTagMap (nrRequests : Option ℕ) (depth : ℤ) (tagsAlloc indexAlloc mapAlloc : Bool) : Option TagMap :=
  if tagsAlloc=false then none
  else
    match initTagMap bitsPerLong nrRequests depth indexAlloc mapAlloc with
    | .error _ => none
    | .ok (d,index,map) => some ⟨d,d,index,map,1⟩

/-- The state after a resize for a queue. -/
def State.resized (s : State) (q : ℕ) (newDepth : ℤ) (indexAlloc mapAlloc : Bool) : State :=
  if s.uses q then {s with map := (s.resize bitsPerLong q newDepth indexAlloc mapAlloc).map} else s

/-- blk_queue_init_tags without a map, for a queue that uses none or the map. -/
def blkQueueInitTags (s : State) (q : ℕ) (depth : ℤ) (tagsAlloc indexAlloc mapAlloc : Bool) : State :=
  if s.uses q then s.resized bitsPerLong q depth indexAlloc mapAlloc
  else
    match newTagMap bitsPerLong (some (s.nrRequests q)) depth tagsAlloc indexAlloc mapAlloc with
    | none => s
    | some m =>
      {s with
        map := some m
        uses := update s.uses q true}

/-- blk_queue_init_tags with the map. -/
def blkQueueShareTags (s : State) (m : TagMap) (q : ℕ) (depth : ℤ) (indexAlloc mapAlloc : Bool) : State :=
  if s.uses q then s.resized bitsPerLong q depth indexAlloc mapAlloc
  else
    {s with
      map := some {m with refcnt := m.refcnt+1}
      uses := update s.uses q true}

def blkQueueStartTag (s : State) (m : TagMap) (r : ℕ) (async full : Bool) : State :=
  let call : TagSharing.Call := ⟨r,async,m.maxDepth⟩
  let t := findFirstZeroBit m.tagMap call.depth
  if async=true ∧ 1 < m.maxDepth ∧ full=true then s
  else if call.depth≤t then s
  else
    {s with
      map := some {m with
        tagMap := m.tagMap.set t true
        tagIndex := m.tagIndex.set t (some r)}
      tag := update s.tag r (some t)}

def blkQueueEndTag (s : State) (m : TagMap) (r t : ℕ) : State :=
  if m.realMaxDepth≤t then s
  else
    {s with
      map := some {m with
        tagMap := m.tagMap.set t false
        tagIndex := m.tagIndex.set t none}
      tag := update s.tag r none}

/-- One step. A request that is started has no tag and one that is ended has one. -/
def step (s : State) : Event → Option State
  | .init q depth tagsAlloc indexAlloc mapAlloc =>
    if s.uses q=true ∨ s.map=none then some (blkQueueInitTags bitsPerLong s q depth tagsAlloc indexAlloc mapAlloc)
    else none
  | .external depth tagsAlloc indexAlloc mapAlloc =>
    if s.map=none then some {s with map := newTagMap bitsPerLong none depth tagsAlloc indexAlloc mapAlloc} else none
  | .share q depth indexAlloc mapAlloc =>
    s.map.map (fun m => blkQueueShareTags bitsPerLong s m q depth indexAlloc mapAlloc)
  | .start q r async full =>
    if s.tag r=none then (s.queueTags q).map (fun m => blkQueueStartTag s m r async full) else none
  | .finish q r => (s.queueTags q).bind (fun m => (s.tag r).map (fun t => blkQueueEndTag s m r t))
  | .resize q newDepth indexAlloc mapAlloc => some (s.resized bitsPerLong q newDepth indexAlloc mapAlloc)
  | .store q nr => some {s with nrRequests := update s.nrRequests q (max nr blkdevMinRq)}

/-- No map has been made. -/
def noMap (nrRequests : ℕ → ℕ) : State := ⟨none,fun _ => false,nrRequests,fun _ => none⟩

/-- A resize that grows a map is not reduced below its depth. -/
def Grows (s : State) (q : ℕ) (newDepth : ℤ) : Prop :=
  ∀ m, s.queueTags q=some m → m.realMaxDepth<newDepth →
    (m.realMaxDepth : ℤ)≤adjustedDepth bitsPerLong (some (s.nrRequests q)) newDepth

/-- No call reduces a growing map below its depth. -/
def Wide (s : State) : Event → Prop
  | .init q depth _ _ _ => Grows bitsPerLong s q depth
  | .share q depth _ _ => Grows bitsPerLong s q depth
  | .resize q newDepth _ _ => Grows bitsPerLong s q newDepth
  | _ => True

end

section

variable {bitsPerLong : ℕ} {m : TagMap} {tag : ℕ → Option ℕ} {r t : ℕ}

/-- The words of a map hold its bits. -/
theorem le_divRoundUp_mul (hb : 0<bitsPerLong) (n : ℕ) : n≤divRoundUp n bitsPerLong*bitsPerLong := by
  have hmod := Nat.mod_lt (n+bitsPerLong-1) hb
  have hdiv := Nat.div_add_mod (n+bitsPerLong-1) bitsPerLong
  unfold divRoundUp
  rw [Nat.mul_comm]
  omega

variable {n k d i q : ℕ} {nrRequests : Option ℕ} {depth newDepth : ℤ} {indexAlloc mapAlloc : Bool} {α : Type*}

theorem divRoundUp_mono (h : n≤k) : divRoundUp n bitsPerLong≤divRoundUp k bitsPerLong := by
  unfold divRoundUp
  exact Nat.div_le_div_right (by omega)

/-- A map whose arrays have the sizes that go with the depth, and whose entries and bits are those of
the tags of requests. -/
structure MapOk (bitsPerLong : ℕ) (m : TagMap) (tag : ℕ → Option ℕ) : Prop where
  indexLength : m.tagIndex.length=m.realMaxDepth
  mapLength : m.tagMap.length=divRoundUp m.realMaxDepth bitsPerLong*bitsPerLong
  maxDepth : m.maxDepth ≤ m.realMaxDepth
  index : ∀ r t, tag r=some t ↔ m.tagIndex[t]?=some (some r)
  bit : ∀ t, m.tagMap[t]?=some true ↔ ∃ r, tag r=some t

theorem initTagMap_ok {index : List (Option ℕ)} {map : List Bool}
    (h : initTagMap bitsPerLong nrRequests depth indexAlloc mapAlloc=.ok (d,index,map)) :
    d=(adjustedDepth bitsPerLong nrRequests depth).toNat ∧ index=List.replicate d none ∧
      map=List.replicate (divRoundUp d bitsPerLong*bitsPerLong) false := by
  unfold initTagMap at h
  split_ifs at h
  cases h
  exact ⟨rfl,rfl,rfl⟩

/-- A failure is reported by a value that is not zero. -/
theorem initTagMap_error {e : ℤ} (h : initTagMap bitsPerLong nrRequests depth indexAlloc mapAlloc=.error e) : e≠0 := by
  unfold initTagMap at h
  split_ifs at h
  all_goals
    cases h
    decide

/-- Entries of a list of one value. -/
theorem getElem?_replicate_ne {a b : α} (hab : a≠b) : (List.replicate n a)[i]?≠some b := by
  rw [getElem?_replicate]
  split
  case isTrue => exact fun h => hab (Option.some.inj h)
  case isFalse => nofun

/-- The entries of an array after a copy into a larger one of a single value. -/
theorem getElem?_memcpy {src : List α} {a b : α} (hab : a≠b) (hn : src.length=n) (k : ℕ) :
    (memcpy (List.replicate k a) src n)[i]?=some b ↔ src[i]?=some b := by
  unfold memcpy
  rw [take_of_length_le hn.le,getElem?_append,drop_replicate]
  split
  case isTrue => exact Iff.rfl
  case isFalse hge =>
    rw [getElem?_eq_none (not_lt.mp hge)]
    exact ⟨fun h => absurd h (getElem?_replicate_ne hab),nofun⟩

/-- The size of an array after a copy into a larger one. -/
theorem length_memcpy {src : List α} (a : α) (hn : src.length=n) (hk : n≤k) :
    (memcpy (List.replicate k a) src n).length=k := by
  unfold memcpy
  rw [length_append,take_of_length_le hn.le,length_drop,length_replicate,hn]
  omega

/-- A map of a new depth without tags. -/
theorem mapOk_new (d : ℕ) (refcnt : ℕ) (htag : ∀ r, tag r=none) :
    MapOk bitsPerLong ⟨d,d,List.replicate d none,List.replicate (divRoundUp d bitsPerLong*bitsPerLong) false,
      refcnt⟩ tag := by
  refine ⟨length_replicate,length_replicate,le_refl d,fun r t => ?_,fun t => ?_⟩
  · rw [htag r]
    exact ⟨nofun,fun h => absurd h (getElem?_replicate_ne (Option.some_ne_none r).symm)⟩
  · refine ⟨fun h => absurd h (getElem?_replicate_ne Bool.false_ne_true),?_⟩
    rintro ⟨r,hr⟩
    rw [htag r] at hr
    cases hr

/-- The copies into arrays that are not smaller. -/
theorem MapOk.grow (h : MapOk bitsPerLong m tag) (hd : m.realMaxDepth≤d) :
    MapOk bitsPerLong ⟨d,d,memcpy (List.replicate d none) m.tagIndex m.realMaxDepth,
      memcpy (List.replicate (divRoundUp d bitsPerLong*bitsPerLong) false) m.tagMap
        (divRoundUp m.realMaxDepth bitsPerLong*bitsPerLong),m.refcnt⟩ tag := by
  refine ⟨length_memcpy none h.indexLength hd,?_,le_refl d,fun r t => ?_,fun t => ?_⟩
  · exact length_memcpy false h.mapLength (Nat.mul_le_mul_right bitsPerLong (divRoundUp_mono hd))
  · rw [h.index r t]
    exact (getElem?_memcpy (Option.some_ne_none r).symm h.indexLength d).symm
  · rw [← h.bit t]
    exact getElem?_memcpy Bool.false_ne_true h.mapLength _

/-- What blk_queue_resize_tags does to a map that is not reduced below its depth. -/
theorem MapOk.resize (h : MapOk bitsPerLong m tag) (nrRequests : ℕ) (indexAlloc mapAlloc : Bool)
    (hgrow : m.realMaxDepth<newDepth → (m.realMaxDepth : ℤ)≤adjustedDepth bitsPerLong (some nrRequests) newDepth) :
    ((blkQueueResizeTags bitsPerLong nrRequests (some m) newDepth indexAlloc mapAlloc).ret≠0 ∧
      (blkQueueResizeTags bitsPerLong nrRequests (some m) newDepth indexAlloc mapAlloc).map=some m) ∨
    ((blkQueueResizeTags bitsPerLong nrRequests (some m) newDepth indexAlloc mapAlloc).ret=0 ∧
      ∃ m', (blkQueueResizeTags bitsPerLong nrRequests (some m) newDepth indexAlloc mapAlloc).map=some m' ∧
        MapOk bitsPerLong m' tag ∧ m.realMaxDepth ≤ m'.realMaxDepth ∧
        ∀ n w, (blkQueueResizeTags bitsPerLong nrRequests (some m) newDepth indexAlloc mapAlloc).copied=some (n,w) →
          n ≤ m'.realMaxDepth ∧ w≤divRoundUp m'.realMaxDepth bitsPerLong) := by
  unfold blkQueueResizeTags
  split
  case isTrue => exact .inl ⟨show -einval≠0 by decide,rfl⟩
  case isFalse hpos =>
    dsimp only
    split
    case isTrue hle =>
      refine .inr ⟨rfl,_,rfl,{h with maxDepth := ?_},le_refl _,nofun⟩
      dsimp only
      omega
    case isFalse hlt =>
      split
      case isTrue => exact .inl ⟨show -ebusy≠0 by decide,rfl⟩
      case isFalse =>
        split
        case h_1 e he => exact .inl ⟨initTagMap_error he,rfl⟩
        case h_2 d index map he =>
          obtain ⟨hd,rfl,rfl⟩ := initTagMap_ok he
          have hdeep : m.realMaxDepth≤d := by
            have hle := hgrow (not_le.mp hlt)
            omega
          refine .inr ⟨rfl,_,rfl,h.grow hdeep,hdeep,fun n w hcopied => ?_⟩
          cases hcopied
          exact ⟨hdeep,divRoundUp_mono hdeep⟩

/-- The first clear bit below a size. -/
theorem findFirstZeroBit_spec {bits : List Bool} {size : ℕ} (h : findFirstZeroBit bits size<size)
    (hsize : size≤bits.length) : bits[findFirstZeroBit bits size]?=some false := by
  have hlen : (bits.take size).length=size := length_take_of_le hsize
  have hlt : (bits.take size).findIdx (fun b => !b)<(bits.take size).length := by
    rw [hlen]
    exact h
  have hbit := findIdx_getElem (w := hlt)
  rw [getElem_take] at hbit
  have hin : findFirstZeroBit bits size<bits.length := h.trans_le hsize
  rw [getElem?_eq_getElem hin]
  exact congrArg some (Bool.not_eq_true' _ ▸ hbit)

/-- A request gets a tag whose bit is clear. -/
theorem MapOk.start (hb : 0<bitsPerLong) (h : MapOk bitsPerLong m tag) (ht : t < m.realMaxDepth)
    (hfree : m.tagMap[t]?=some false) (hr : tag r=none) : MapOk bitsPerLong {m with
      tagMap := m.tagMap.set t true
      tagIndex := m.tagIndex.set t (some r)} (update tag r (some t)) := by
  have hnone : ∀ x, tag x≠some t := by
    intro x hx
    have hbit := (h.bit t).mpr ⟨x,hx⟩
    rw [hfree] at hbit
    cases hbit
  have hlen := h.indexLength
  have hwords := h.mapLength.trans_ge (le_divRoundUp_mul hb m.realMaxDepth)
  refine ⟨length_set.trans hlen,length_set.trans h.mapLength,h.maxDepth,fun x y => ?_,fun y => ?_⟩
  · have hold := h.index x y
    dsimp only
    rw [getElem?_set,update_apply]
    grind
  · have hold := h.bit y
    dsimp only
    rw [getElem?_set]
    simp only [update_apply]
    grind

/-- A request gives its tag back. -/
theorem MapOk.finish (h : MapOk bitsPerLong m tag) (hr : tag r=some t) : MapOk bitsPerLong {m with
      tagMap := m.tagMap.set t false
      tagIndex := m.tagIndex.set t none} (update tag r none) := by
  have honly : ∀ x, tag x=some t → x=r := by
    intro x hx
    have hsame := (h.index x t).mp hx
    rw [(h.index r t).mp hr] at hsame
    exact (Option.some.inj (Option.some.inj hsame)).symm
  refine ⟨length_set.trans h.indexLength,length_set.trans h.mapLength,h.maxDepth,fun x y => ?_,fun y => ?_⟩
  · have hold := h.index x y
    dsimp only
    rw [getElem?_set,update_apply]
    grind
  · have hold := h.bit y
    dsimp only
    rw [getElem?_set]
    simp only [update_apply]
    grind

/-- The map is as it should be, and there are no tags without one. -/
structure Good (bitsPerLong : ℕ) (s : State) : Prop where
  noTags : s.map=none → ∀ r, s.tag r=none
  ok : ∀ m, s.map=some m → MapOk bitsPerLong m s.tag

variable {s s' : State}

theorem map_of_queueTags (h : s.queueTags q=some m) : s.map=some m := (Option.ite_none_right_eq_some.mp h).2

theorem MapOk.good (h : MapOk bitsPerLong m tag) (uses : ℕ → Bool) (nrRequests : ℕ → ℕ) :
    Good bitsPerLong ⟨some m,uses,nrRequests,tag⟩ := ⟨nofun,fun _ hx => Option.some.inj hx ▸ h⟩

theorem Good.resized (h : Good bitsPerLong s) (indexAlloc mapAlloc : Bool) (hw : Grows bitsPerLong s q newDepth) :
    Good bitsPerLong (s.resized bitsPerLong q newDepth indexAlloc mapAlloc) := by
  unfold State.resized
  split
  case isFalse => exact h
  case isTrue huses =>
    have htags : s.queueTags q=s.map := if_pos huses
    cases hm : s.map with
    | none =>
      have hnone : (s.resize bitsPerLong q newDepth indexAlloc mapAlloc).map=none := by
        unfold State.resize blkQueueResizeTags
        rw [htags,hm]
        split
        case isTrue => rfl
        case isFalse => rfl
      rw [hnone,← hm]
      exact h
    | some m =>
      have hres := (h.ok m hm).resize (s.nrRequests q) indexAlloc mapAlloc (hw m (htags.trans hm))
      unfold State.resize
      rw [htags,hm]
      rcases hres with ⟨-,hmap⟩|⟨-,m',hmap,hok,-,-⟩
      · rw [hmap,← hm]
        exact h
      · rw [hmap]
        exact hok.good s.uses s.nrRequests

theorem newTagMap_ok {tagsAlloc : Bool}
    (h : newTagMap bitsPerLong nrRequests depth tagsAlloc indexAlloc mapAlloc=some m) (htag : ∀ r, tag r=none) :
    MapOk bitsPerLong m tag := by
  obtain ⟨-,h⟩ := Option.ite_none_left_eq_some.mp h
  split at h
  case h_1 => cases h
  case h_2 d index map he =>
    obtain ⟨-,rfl,rfl⟩ := initTagMap_ok he
    cases h
    exact mapOk_new d 1 htag

/-- blk_queue_init_tags keeps the map as it should be. -/
theorem Good.init (h : Good bitsPerLong s) (tagsAlloc indexAlloc mapAlloc : Bool) (hfree : s.uses q=true ∨ s.map=none)
    (hw : Grows bitsPerLong s q depth) :
    Good bitsPerLong (blkQueueInitTags bitsPerLong s q depth tagsAlloc indexAlloc mapAlloc) := by
  unfold blkQueueInitTags
  split
  case isTrue => exact h.resized indexAlloc mapAlloc hw
  case isFalse huses =>
    split
    case h_1 => exact h
    case h_2 hnew => exact (newTagMap_ok hnew (h.noTags (hfree.resolve_left huses))).good _ s.nrRequests

/-- A queue that comes to use the map. -/
theorem Good.share (h : Good bitsPerLong s) (hm : s.map=some m) (indexAlloc mapAlloc : Bool)
    (hw : Grows bitsPerLong s q depth) :
    Good bitsPerLong (blkQueueShareTags bitsPerLong s m q depth indexAlloc mapAlloc) := by
  have hok := h.ok m hm
  unfold blkQueueShareTags
  split
  case isTrue => exact h.resized indexAlloc mapAlloc hw
  case isFalse =>
    have hshared : MapOk bitsPerLong {m with refcnt := m.refcnt+1} s.tag := {hok with}
    exact hshared.good _ s.nrRequests

/-- blk_queue_start_tag keeps the map as it should be. -/
theorem Good.start (hb : 0<bitsPerLong) (h : Good bitsPerLong s) (hm : s.map=some m) (async full : Bool)
    (hr : s.tag r=none) : Good bitsPerLong (blkQueueStartTag s m r async full) := by
  have hok := h.ok m hm
  unfold blkQueueStartTag
  dsimp only
  split
  case isTrue => exact h
  case isFalse =>
    split
    case isTrue => exact h
    case isFalse hlt =>
      have hle : (TagSharing.Call.mk r async m.maxDepth).depth ≤ m.realMaxDepth :=
        (TagSharing.Call.depth_le _).1.trans hok.maxDepth
      have hsize := hle.trans (hok.mapLength.trans_ge (le_divRoundUp_mul hb m.realMaxDepth))
      have hfree := findFirstZeroBit_spec (not_le.mp hlt) hsize
      exact (hok.start hb ((not_le.mp hlt).trans_le hle) hfree hr).good s.uses s.nrRequests

/-- blk_queue_end_tag keeps the map as it should be. -/
theorem Good.finish (h : Good bitsPerLong s) (hm : s.map=some m) (hr : s.tag r=some t) :
    Good bitsPerLong (blkQueueEndTag s m r t) := by
  unfold blkQueueEndTag
  split
  case isTrue => exact h
  case isFalse => exact ((h.ok m hm).finish hr).good s.uses s.nrRequests

/-- A step keeps the map as it should be. -/
theorem step_good (hb : 0<bitsPerLong) {e : Event} (h : Good bitsPerLong s) (hw : Wide bitsPerLong s e)
    (hs : step bitsPerLong s e=some s') : Good bitsPerLong s' := by
  cases e with
  | init q depth tagsAlloc indexAlloc mapAlloc =>
    obtain ⟨hfree,rfl⟩ := of_guard hs
    exact h.init tagsAlloc indexAlloc mapAlloc hfree hw
  | external depth tagsAlloc indexAlloc mapAlloc =>
    obtain ⟨hm,rfl⟩ := of_guard hs
    exact ⟨fun _ => h.noTags hm,fun m hnew => newTagMap_ok hnew (h.noTags hm)⟩
  | share q depth indexAlloc mapAlloc =>
    obtain ⟨m,hm,hs⟩ := Option.map_eq_some_iff.mp hs
    cases hs
    exact h.share hm indexAlloc mapAlloc hw
  | start q r async full =>
    obtain ⟨hr,hs⟩ := Option.ite_none_right_eq_some.mp hs
    obtain ⟨m,hm,hs⟩ := Option.map_eq_some_iff.mp hs
    cases hs
    exact h.start hb (map_of_queueTags hm) async full hr
  | finish q r =>
    obtain ⟨m,hm,hs⟩ := Option.bind_eq_some_iff.mp hs
    obtain ⟨t,hr,hs⟩ := Option.map_eq_some_iff.mp hs
    cases hs
    exact h.finish (map_of_queueTags hm) hr
  | resize q newDepth indexAlloc mapAlloc =>
    cases hs
    exact h.resized indexAlloc mapAlloc hw
  | store q nr =>
    cases hs
    exact ⟨h.noTags,h.ok⟩

end

/-- blk_queue_resize_tags preserves a tag map: after an error it is unchanged, and after a success
every tag in use belongs to the same request and has its bit set, every other bit is clear, the real
depth has not become smaller, and the copies stay within the new arrays, if no growing map is reduced
below its depth by nr_requests. -/
theorem resize_tags_preserves {bitsPerLong : ℕ} (hb : 0<bitsPerLong) {nrRequests : ℕ → ℕ} {s : State}
    (h : Reachable (fun s => s=noMap nrRequests) (fun s e t => step bitsPerLong s e=some t ∧ Wide bitsPerLong s e) s)
    (q : ℕ) (newDepth : ℤ) (indexAlloc mapAlloc : Bool) (hw : Grows bitsPerLong s q newDepth) :
    ((s.resize bitsPerLong q newDepth indexAlloc mapAlloc).ret≠0 →
      (s.resize bitsPerLong q newDepth indexAlloc mapAlloc).map=s.queueTags q) ∧
    ((s.resize bitsPerLong q newDepth indexAlloc mapAlloc).ret=0 →
      ∃ m m', s.queueTags q=some m ∧ (s.resize bitsPerLong q newDepth indexAlloc mapAlloc).map=some m' ∧
        (∀ r t, s.tag r=some t → m'.tagIndex[t]?=some (some r) ∧ m'.tagMap[t]?=some true) ∧
        (∀ t, (∀ r, s.tag r≠some t) → m'.tagMap[t]?≠some true) ∧ m.realMaxDepth ≤ m'.realMaxDepth ∧
        ∀ n w, (s.resize bitsPerLong q newDepth indexAlloc mapAlloc).copied=some (n,w) →
          n ≤ m'.realMaxDepth ∧ w≤divRoundUp m'.realMaxDepth bitsPerLong) := by
  have hgood : Good bitsPerLong s := by
    refine Reachable.invariant (I := Good bitsPerLong) ?_ ?_ h
    · rintro s rfl
      exact ⟨fun _ _ => rfl,nofun⟩
    · intro s e t _ hI hst
      exact step_good hb hI hst.2 hst.1
  cases hm : s.queueTags q with
  | none =>
    unfold State.resize blkQueueResizeTags
    rw [hm]
    split
    case isTrue => exact ⟨fun _ => rfl,fun hret => absurd hret (show -einval≠0 by decide)⟩
    case isFalse => exact ⟨fun _ => rfl,fun hret => absurd hret (show -enxio≠0 by decide)⟩
  | some m =>
    have hok := hgood.ok m (map_of_queueTags hm)
    have hres := hok.resize (s.nrRequests q) indexAlloc mapAlloc (hw m hm)
    unfold State.resize
    rw [hm]
    rcases hres with ⟨hret,hmap⟩|⟨hret,m',hmap,hok',hle,hcopied⟩
    · exact ⟨fun _ => hmap,fun hzero => absurd hzero hret⟩
    · refine ⟨fun hne => absurd hret hne,fun _ => ⟨m,m',rfl,hmap,fun r t hr => ?_,fun t hnone hbit => ?_,hle,hcopied⟩⟩
      · exact ⟨(hok'.index r t).mp hr,(hok'.bit t).mpr ⟨r,hr⟩⟩
      · obtain ⟨r,hr⟩ := (hok'.bit t).mp hbit
        exact hnone r hr

/-- A map of depth two with a tag in use grows to depth four. -/
theorem resize_tags_preserves_four : ∃ s, Reachable (fun s => s=noMap (fun _ => 128))
      (fun s e t => step 64 s e=some t ∧ Wide 64 s e) s ∧ s.tag 7=some 0 ∧
    (s.resize 64 0 4 true true).ret=0 ∧
    ∃ m', (s.resize 64 0 4 true true).map=some m' ∧ m'.tagIndex[0]?=some (some 7) ∧ m'.tagMap[0]?=some true := by
  have hrun : (replay (step 64) (noMap (fun _ => 128)) [.init 0 2 true true true,.start 0 7 false false]).map
      (fun s => decide (s.tag 7=some 0 ∧ (s.resize 64 0 4 true true).ret=0 ∧ s.nrRequests 0=128))=some true := by
    decide
  obtain ⟨s,hs,hdec⟩ := Option.map_eq_some_iff.mp hrun
  obtain ⟨htag,hret,hnr⟩ := of_decide_eq_true hdec
  obtain ⟨s₁,h₁,hs⟩ := Option.bind_eq_some_iff.mp hs
  obtain ⟨s₂,h₂,hs⟩ := Option.bind_eq_some_iff.mp hs
  cases hs
  have hinit : Wide 64 (noMap (fun _ => 128)) (.init 0 2 true true true) := nofun
  have hreach : Reachable (fun s => s=noMap (fun _ => 128)) (fun s e t => step 64 s e=some t ∧ Wide 64 s e) s :=
    Reachable.next (Reachable.next (Reachable.start rfl) ⟨h₁,hinit⟩) ⟨h₂,trivial⟩
  have hgrows : Grows 64 s 0 4 := by
    intro m hm hlt
    rw [hnr]
    change (m.realMaxDepth : ℤ)≤4
    omega
  obtain ⟨m,m',-,hm',htags,-,-,-⟩ := (resize_tags_preserves (by decide) hreach 0 4 true true hgrows).2 hret
  exact ⟨s,hreach,htag,hret,m',hm',htags 7 0 htag⟩

/-- A map of depth 200 is made while nr_requests is 128, nr_requests is lowered to 4, and a resize to
300 makes arrays for 8 tags and copies 200 pointers and 4 words into them. -/
theorem resize_tags_overrun : ∃ s, Reachable (fun s => s=noMap (fun _ => 128)) (fun s e t => step 64 s e=some t) s ∧
    (s.resize 64 0 300 true true).ret=0 ∧ (s.resize 64 0 300 true true).copied=some (200,4) ∧
    ((s.resize 64 0 300 true true).map.map (fun m => (m.realMaxDepth,divRoundUp m.realMaxDepth 64))=some (8,1)) ∧
    (s.queueTags 0).map TagMap.realMaxDepth=some 200 :=
  exists_run (fun _ _ _ => id) rfl [.init 0 200 true true true,.store 0 4] (by decide)

end BlockIpc.TagResize
