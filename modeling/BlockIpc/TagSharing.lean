import BlockIpc.TransitionRuns

/-!
# Tags of queues that share a tag map

Several queues give tags from one map to their requests, each under its own lock, so the map is
changed by several processors at once, and only the operations on a bit are atomic. A bit is set
before the entry of tag_index is written, and the entry is cleared before the bit is, so a bit is
a lock for the entry. What a queue changes in its own request and list is one step. Calls of
blk_queue_resize_tags stay within real_max_depth.
-/

namespace BlockIpc.TagSharing

open Function TransitionRuns

/-- A call of blk_queue_start_tag that has read max_depth. -/
structure Call where
  rq : ℕ
  /-- The request is not rq_is_sync. -/
  async : Bool
  /-- max_depth of the map when the call read it. -/
  maxDepth : ℕ

/-- max_depth of blk_queue_start_tag: two tags are kept for requests that are rq_is_sync. -/
def Call.depth (c : Call) : ℕ :=
  if c.async=true ∧ 1<c.maxDepth then
    if c.maxDepth-2=0 then 1 else c.maxDepth-2
  else c.maxDepth

/-- Where a queue is in blk_queue_start_tag or blk_queue_end_tag. -/
inductive Pc where
  | idle
  /-- Before find_first_zero_bit. -/
  | finding (c : Call)
  /-- Before test_and_set_bit_lock. -/
  | found (c : Call) (t : ℕ)
  /-- The bit is set. -/
  | locked (c : Call) (t : ℕ)
  /-- The request has the tag. -/
  | tagged (c : Call) (t : ℕ)
  /-- The entry of tag_index is written. -/
  | indexed (c : Call) (t : ℕ)
  /-- The request is off the list and has no tag any more. -/
  | unlisted (r t : ℕ)
  /-- The entry of tag_index is cleared. -/
  | unindexed (t : ℕ)

/-- blk_queue_tag, with what it is used for. -/
structure State where
  realMaxDepth : ℕ
  maxDepth : ℕ
  tagMap : ℕ → Bool
  tagIndex : ℕ → Option ℕ
  tag : ℕ → Option ℕ
  /-- REQ_QUEUED of a request. -/
  queued : ℕ → Bool
  /-- tag_busy_list of a queue. -/
  busy : ℕ → List ℕ
  /-- Where a queue is. -/
  pc : ℕ → Pc
  /-- The call that gave a request its last tag. -/
  call : ℕ → Call

/-- Move a queue. -/
def State.goto (s : State) (q : ℕ) (p : Pc) : State := {s with pc := update s.pc q p}

/-- What can happen. -/
inductive Event where
  /-- blk_queue_start_tag is called; it may find too many asynchronous requests in flight. -/
  | start (q r : ℕ) (async full : Bool)
  /-- find_first_zero_bit. The bits may change while it looks, so it may find any tag. -/
  | find (q t : ℕ)
  /-- test_and_set_bit_lock. -/
  | testAndSet (q : ℕ)
  /-- The flag and the tag of the request. -/
  | assign (q : ℕ)
  /-- The entry of tag_index. -/
  | index (q : ℕ)
  /-- blk_start_request and list_add. -/
  | list (q : ℕ)
  /-- blk_queue_end_tag is called and takes the request off the list. -/
  | finish (q r : ℕ)
  /-- The entry of tag_index is cleared. -/
  | unindex (q : ℕ)
  /-- test_bit and clear_bit_unlock. -/
  | clear (q : ℕ)
  /-- blk_queue_resize_tags within real_max_depth. -/
  | resize (q depth : ℕ)

/-- One step. A queue is idle when one of the functions is called, since it holds its lock in all of
them, and a request is passed with the queue it belongs to. There is no step after a BUG. -/
def step (home : ℕ → ℕ) (s : State) : Event → Option State
  | .start q r async full =>
    match s.pc q with
    | .idle =>
      if home r=q ∧ s.queued r=false then
        -- the check of in_flight is made for an asynchronous request only
        if async=true ∧ 1<s.maxDepth ∧ full=true then some s
        else some (s.goto q (.finding ⟨r,async,s.maxDepth⟩))
      else none
    | _ => none
  | .find q t =>
    match s.pc q with
    | .finding c => if t<c.depth then some (s.goto q (.found c t)) else some (s.goto q .idle)
    | _ => none
  | .testAndSet q =>
    match s.pc q with
    | .found c t =>
      if s.tagMap t then some (s.goto q (.finding c))
      else some ({s with tagMap := update s.tagMap t true}.goto q (.locked c t))
    | _ => none
  | .assign q =>
    match s.pc q with
    | .locked c t =>
      some ({s with
        queued := update s.queued c.rq true
        tag := update s.tag c.rq (some t)
        call := update s.call c.rq c}.goto q (.tagged c t))
    | _ => none
  | .index q =>
    match s.pc q with
    | .tagged c t => some ({s with tagIndex := update s.tagIndex t (some c.rq)}.goto q (.indexed c t))
    | _ => none
  | .list q =>
    match s.pc q with
    | .indexed c _ => some ({s with busy := update s.busy q (c.rq::s.busy q)}.goto q .idle)
    | _ => none
  | .finish q r =>
    match s.pc q,s.tag r with
    | .idle,some t =>
      if home r=q then
        if s.realMaxDepth≤t then some s
        else
          some ({s with
            busy := update s.busy q ((s.busy q).erase r)
            queued := update s.queued r false
            tag := update s.tag r none}.goto q (.unlisted r t))
      else none
    | _,_ => none
  | .unindex q =>
    match s.pc q with
    | .unlisted _ t => some ({s with tagIndex := update s.tagIndex t none}.goto q (.unindexed t))
    | _ => none
  | .clear q =>
    match s.pc q with
    | .unindexed t =>
      if s.tagMap t then some ({s with tagMap := update s.tagMap t false}.goto q .idle)
      else some (s.goto q .idle)
    | _ => none
  | .resize q depth =>
    match s.pc q with
    | .idle => if 0<depth ∧ depth ≤ s.realMaxDepth then some {s with maxDepth := depth} else none
    | _ => none

/-- A new map of some depth, with queues that have not given any tags. -/
def newMap (depth : ℕ) : State :=
  ⟨depth,depth,fun _ => false,fun _ => none,fun _ => none,fun _ => false,fun _ => [],fun _ => .idle,
    fun _ => ⟨0,false,0⟩⟩

/-- The tag whose bit a queue holds for itself. -/
def Pc.holds : Pc → Option ℕ
  | .locked _ t => some t
  | .unlisted _ t => some t
  | .unindexed t => some t
  | _ => none

/-- The tag whose entry of tag_index is still to be written. -/
def Pc.hides : Pc → Option ℕ
  | .tagged _ t => some t
  | _ => none

/-- The request and the tag whose entry of tag_index is still to be cleared. -/
def Pc.shows : Pc → Option (ℕ × ℕ)
  | .unlisted r t => some (r,t)
  | _ => none

/-- The request that is still to be put on the list. -/
def Pc.fresh : Pc → Option ℕ
  | .tagged c _ => some c.rq
  | .indexed c _ => some c.rq
  | _ => none

attribute [grind] Pc.holds Pc.hides Pc.shows Pc.fresh

/-- A queue is between the two steps on a tag: the bit is set and the entry is not written, or the
entry is cleared or about to be and the bit is set. -/
def Pc.InWindow (p : Pc) (t : ℕ) : Prop := p.holds=some t ∨ p.hides=some t

/-- What is known about a queue at each place, with the tags of the requests and real_max_depth. -/
def Pc.Ok (home : ℕ → ℕ) (tag : ℕ → Option ℕ) (real q : ℕ) : Pc → Prop
  | .idle => True
  | .finding c => home c.rq=q ∧ tag c.rq=none ∧ c.maxDepth ≤ real
  | .found c t => (home c.rq=q ∧ tag c.rq=none ∧ c.maxDepth ≤ real) ∧ t<c.depth
  | .locked c t => (home c.rq=q ∧ tag c.rq=none ∧ c.maxDepth ≤ real) ∧ t<c.depth
  | .tagged c t => home c.rq=q ∧ tag c.rq=some t
  | .indexed c t => home c.rq=q ∧ tag c.rq=some t
  | .unlisted r _ => home r=q ∧ tag r=none
  | .unindexed _ => True

inductive Holder where
  | request (r : ℕ)
  /-- A queue that gives it to a request or takes it back. -/
  | queue (q : ℕ)

/-- The invariant: each tag has at most one holder. -/
structure Inv (home : ℕ → ℕ) (s : State) (holder : ℕ → Option Holder) : Prop where
  bit : ∀ t, s.tagMap t=(holder t).isSome
  tag : ∀ r t, s.tag r=some t ↔ holder t=some (.request r)
  holds : ∀ q t, (s.pc q).holds=some t ↔ holder t=some (.queue q)
  index : ∀ r t, s.tagIndex t=some r ↔
    (s.tag r=some t ∧ (s.pc (home r)).hides≠some t) ∨ (s.pc (home r)).shows=some (r,t)
  busy : ∀ q r, r∈s.busy q ↔ home r=q ∧ (s.tag r).isSome ∧ (s.pc q).fresh≠some r
  /-- A request is on a list once. -/
  nodup : ∀ q, (s.busy q).Nodup
  queued : ∀ r, s.queued r=(s.tag r).isSome
  /-- The places of the queues. -/
  ok : ∀ q, (s.pc q).Ok home s.tag s.realMaxDepth q
  depth : ∀ r t, s.tag r=some t → t<(s.call r).depth ∧ (s.call r).maxDepth ≤ s.realMaxDepth
  /-- The depth that a call will read. -/
  max : s.maxDepth ≤ s.realMaxDepth

section

variable {home : ℕ → ℕ} {s : State} {holder : ℕ → Option Holder} {q r t : ℕ} {c : Call} {p p' : Pc}

theorem Pc.holds_of_shows (h : p.shows=some (r,t)) : p.holds=some t := by
  cases p with
  | unlisted r' t' =>
    cases h
    rfl
  | _ => cases h

/-- A queue depends on the tags of its own requests. -/
theorem Pc.Ok.congr {tag tag' : ℕ → Option ℕ} {real : ℕ} (h : p.Ok home tag real q)
    (htag : ∀ r, home r=q → tag' r=tag r) : p.Ok home tag' real q := by
  cases p with
  | idle => trivial
  | finding c => exact ⟨h.1,(htag c.rq h.1).trans h.2.1,h.2.2⟩
  | found c t | locked c t => exact ⟨⟨h.1.1,(htag c.rq h.1.1).trans h.1.2.1,h.1.2.2⟩,h.2⟩
  | tagged c t | indexed c t => exact ⟨h.1,(htag c.rq h.1).trans h.2⟩
  | unlisted r t => exact ⟨h.1,(htag r h.1).trans h.2⟩
  | unindexed t => trivial

/-- What is known about a queue at its place. -/
theorem Inv.here (h : Inv home s holder) (hp : s.pc q=p) : p.Ok home s.tag s.realMaxDepth q := hp ▸ h.ok q

/-- A queue moves, and may change the tags of its own requests. -/
theorem Inv.ok_move (h : Inv home s holder) (p' : Pc) (tag' : ℕ → Option ℕ)
    (hok : p'.Ok home tag' s.realMaxDepth q) (htag : ∀ r, home r≠q → tag' r=s.tag r) (x : ℕ) :
    (update s.pc q p' x).Ok home tag' s.realMaxDepth x := by
  by_cases hx : x=q
  · rw [hx,update_self]
    exact hok
  · rw [update_of_ne hx]
    exact (h.ok x).congr (fun r hr => htag r (fun hq => hx (hr.symm.trans hq)))

/-- A queue moves to a place where it holds, hides and shows the same. -/
theorem Inv.move (h : Inv home s holder) (hp : s.pc q=p) (hholds : p'.holds=p.holds) (hhides : p'.hides=p.hides)
    (hshows : p'.shows=p.shows) (hfresh : p'.fresh=p.fresh) (hok : p'.Ok home s.tag s.realMaxDepth q) :
    Inv home (s.goto q p') holder := by
  have hsame : ∀ {β : Type} (f : Pc → β), f p'=f p → ∀ x, f ((s.goto q p').pc x)=f (s.pc x) := by
    intro β f hf x
    unfold State.goto
    dsimp only
    by_cases hx : x=q
    · rw [hx,update_self,hf,hp]
    · rw [update_of_ne hx]
  refine ⟨h.bit,h.tag,fun x t => ?_,fun x t => ?_,fun x r => ?_,h.nodup,h.queued,
    h.ok_move p' s.tag hok (fun _ _ => rfl),h.depth,h.max⟩
  · rw [hsame Pc.holds hholds]
    exact h.holds x t
  · rw [hsame Pc.hides hhides,hsame Pc.shows hshows]
    exact h.index x t
  · rw [hsame Pc.fresh hfresh]
    exact h.busy x r

/-- A tag whose bit is clear has no holder. -/
theorem Inv.free (h : Inv home s holder) (hbit : s.tagMap t=false) : holder t=none := by
  have hb := h.bit t
  rw [hbit] at hb
  exact Option.isNone_iff_eq_none.mp (Option.isSome_eq_false_iff.mp hb.symm)

/-- test_and_set_bit_lock finds a free tag. -/
theorem Inv.lock (h : Inv home s holder) (hp : s.pc q=.found c t) (hbit : s.tagMap t=false) :
    Inv home ({s with tagMap := update s.tagMap t true}.goto q (.locked c t))
      (update holder t (some (.queue q))) := by
  have hfree := h.free hbit
  have hhere := h.here hp
  have hok := h.ok_move (.locked c t) s.tag hhere (fun _ _ => rfl)
  obtain ⟨hb,ht,hh,hi,hl,hn,hq,-,hd,hm⟩ := h
  unfold State.goto
  refine ⟨?_,?_,?_,?_,?_,hn,hq,hok,hd,hm⟩ <;> intros <;> simp only [update_apply] <;> grind

/-- The request gets the tag from the queue. -/
theorem Inv.assign (h : Inv home s holder) (hp : s.pc q=.locked c t) : Inv home ({s with
        queued := update s.queued c.rq true
        tag := update s.tag c.rq (some t)
        call := update s.call c.rq c}.goto q (.tagged c t))
      (update holder t (some (.request c.rq))) := by
  obtain ⟨⟨hhome,hnone,hread⟩,hlt⟩ := h.here hp
  have hmine : holder t=some (.queue q) := (h.holds q t).mp (by rw [hp]; rfl)
  have hok := h.ok_move (.tagged c t) (update s.tag c.rq (some t))
    ⟨hhome,update_self ..⟩ (fun r hr => update_of_ne (by rintro rfl; exact hr hhome) ..)
  obtain ⟨hb,ht,hh,hi,hl,hn,hq,-,hd,hm⟩ := h
  unfold State.goto
  refine ⟨?_,?_,?_,?_,?_,hn,?_,hok,?_,hm⟩ <;> intros <;> simp only [update_apply] <;> grind

/-- The entry of tag_index is written. -/
theorem Inv.writeIndex (h : Inv home s holder) (hp : s.pc q=.tagged c t) :
    Inv home ({s with tagIndex := update s.tagIndex t (some c.rq)}.goto q (.indexed c t)) holder := by
  obtain ⟨hhome,htag⟩ := h.here hp
  have hmine : holder t=some (.request c.rq) := (h.tag c.rq t).mp htag
  have hok := h.ok_move (.indexed c t) s.tag ⟨hhome,htag⟩ (fun _ _ => rfl)
  have hshows : ∀ x r, (s.pc x).shows≠some (r,t) := by
    intro x r hx
    rw [(h.holds x t).mp (Pc.holds_of_shows hx)] at hmine
    cases hmine
  obtain ⟨hb,ht,hh,hi,hl,hn,hq,-,hd,hm⟩ := h
  unfold State.goto
  refine ⟨hb,ht,?_,?_,?_,hn,hq,hok,hd,hm⟩ <;> intros <;> simp only [update_apply] <;> grind

/-- The request is put on the list. -/
theorem Inv.addBusy (h : Inv home s holder) (hp : s.pc q=.indexed c t) :
    Inv home ({s with busy := update s.busy q (c.rq::s.busy q)}.goto q .idle) holder := by
  obtain ⟨hhome,htag⟩ := h.here hp
  have hnot : c.rq∉s.busy q := fun hmem => ((h.busy q c.rq).mp hmem).2.2 (by rw [hp]; rfl)
  have hok := h.ok_move .idle s.tag (q := q) trivial (fun _ _ => rfl)
  obtain ⟨hb,ht,hh,hi,hl,hn,hq,-,hd,hm⟩ := h
  unfold State.goto
  refine ⟨hb,ht,?_,?_,?_,?_,hq,hok,hd,hm⟩ <;> intros <;> simp only [update_apply] <;> grind

/-- The queue takes the tag back and the request off the list. -/
theorem Inv.takeBack (h : Inv home s holder) (hp : s.pc q=.idle) (hhome : home r=q) (htag : s.tag r=some t) :
    Inv home ({s with
        busy := update s.busy q ((s.busy q).erase r)
        queued := update s.queued r false
        tag := update s.tag r none}.goto q (.unlisted r t))
      (update holder t (some (.queue q))) := by
  have hmine : holder t=some (.request r) := (h.tag r t).mp htag
  have hok := h.ok_move (.unlisted r t) (update s.tag r none)
    ⟨hhome,update_self ..⟩ (fun x hx => update_of_ne (by rintro rfl; exact hx hhome) ..)
  obtain ⟨hb,ht,hh,hi,hl,hn,hq,-,hd,hm⟩ := h
  have hmem := fun x => (hn q).mem_erase_iff (a := x) (b := r)
  have herase := (hn q).erase r
  unfold State.goto
  refine ⟨?_,?_,?_,?_,?_,?_,?_,hok,?_,hm⟩ <;> intros <;> simp only [update_apply] <;> grind

/-- The entry of tag_index is cleared. -/
theorem Inv.clearIndex (h : Inv home s holder) (hp : s.pc q=.unlisted r t) :
    Inv home ({s with tagIndex := update s.tagIndex t none}.goto q (.unindexed t)) holder := by
  obtain ⟨hhome,htag⟩ := h.here hp
  have hmine : holder t=some (.queue q) := (h.holds q t).mp (by rw [hp]; rfl)
  have hok := h.ok_move (.unindexed t) s.tag (q := q) trivial (fun _ _ => rfl)
  have hshows : ∀ x r', (s.pc x).shows=some (r',t) → x=q := by
    intro x r' hx
    rw [(h.holds x t).mp (Pc.holds_of_shows hx)] at hmine
    cases hmine
    rfl
  obtain ⟨hb,ht,hh,hi,hl,hn,hq,-,hd,hm⟩ := h
  unfold State.goto
  refine ⟨hb,ht,?_,?_,?_,hn,hq,hok,hd,hm⟩ <;> intros <;> simp only [update_apply] <;> grind

/-- clear_bit_unlock. -/
theorem Inv.unlock (h : Inv home s holder) (hp : s.pc q=.unindexed t) :
    Inv home ({s with tagMap := update s.tagMap t false}.goto q .idle) (update holder t none) := by
  have hmine : holder t=some (.queue q) := (h.holds q t).mp (by rw [hp]; rfl)
  have hok := h.ok_move .idle s.tag (q := q) trivial (fun _ _ => rfl)
  obtain ⟨hb,ht,hh,hi,hl,hn,hq,-,hd,hm⟩ := h
  unfold State.goto
  refine ⟨?_,?_,?_,?_,?_,hn,hq,hok,hd,hm⟩ <;> intros <;> simp only [update_apply] <;> grind

theorem step_inv {s' : State} {e : Event} (h : Inv home s holder) (hs : step home s e=some s') :
    ∃ holder', Inv home s' holder' := by
  cases e with
  | start q r async full =>
    cases hp : s.pc q <;> simp only [step,hp] at hs <;> try cases hs
    obtain ⟨⟨hhome,hflag⟩,hs⟩ := Option.ite_none_right_eq_some.mp hs
    have hnone : s.tag r=none := by
      have hq := h.queued r
      rw [hflag] at hq
      exact Option.isNone_iff_eq_none.mp (Option.isSome_eq_false_iff.mp hq.symm)
    split at hs
    case isTrue =>
      cases hs
      exact ⟨holder,h⟩
    case isFalse =>
      cases hs
      exact ⟨holder,h.move hp rfl rfl rfl rfl ⟨hhome,hnone,h.max⟩⟩
  | find q t =>
    cases hp : s.pc q <;> simp only [step,hp] at hs <;> try cases hs
    split at hs
    case isTrue hlt =>
      cases hs
      exact ⟨holder,h.move hp rfl rfl rfl rfl ⟨h.here hp,hlt⟩⟩
    case isFalse =>
      cases hs
      exact ⟨holder,h.move hp rfl rfl rfl rfl trivial⟩
  | testAndSet q =>
    cases hp : s.pc q <;> simp only [step,hp] at hs <;> try cases hs
    split at hs
    case isTrue =>
      cases hs
      exact ⟨holder,h.move hp rfl rfl rfl rfl (h.here hp).1⟩
    case isFalse hbit =>
      cases hs
      exact ⟨_,h.lock hp (Bool.eq_false_iff.mpr hbit)⟩
  | assign q =>
    cases hp : s.pc q <;> simp only [step,hp] at hs <;> try cases hs
    exact ⟨_,h.assign hp⟩
  | index q =>
    cases hp : s.pc q <;> simp only [step,hp] at hs <;> try cases hs
    exact ⟨_,h.writeIndex hp⟩
  | list q =>
    cases hp : s.pc q <;> simp only [step,hp] at hs <;> try cases hs
    exact ⟨_,h.addBusy hp⟩
  | finish q r =>
    cases hp : s.pc q <;> cases ht : s.tag r <;> simp only [step,hp,ht] at hs <;> try cases hs
    obtain ⟨hhome,hs⟩ := Option.ite_none_right_eq_some.mp hs
    split at hs
    case isTrue =>
      cases hs
      exact ⟨holder,h⟩
    case isFalse =>
      cases hs
      exact ⟨_,h.takeBack hp hhome ht⟩
  | unindex q =>
    cases hp : s.pc q <;> simp only [step,hp] at hs <;> try cases hs
    exact ⟨_,h.clearIndex hp⟩
  | clear q =>
    cases hp : s.pc q <;> simp only [step,hp] at hs <;> try cases hs
    split at hs
    case isTrue =>
      cases hs
      exact ⟨_,h.unlock hp⟩
    case isFalse hbit =>
      have hmine := (h.holds q _).mp (show (s.pc q).holds=some _ by rw [hp]; rfl)
      rw [h.free (Bool.eq_false_iff.mpr hbit)] at hmine
      cases hmine
  | resize q depth =>
    cases hp : s.pc q <;> simp only [step,hp] at hs <;> try cases hs
    obtain ⟨⟨-,hle⟩,rfl⟩ := of_guard hs
    exact ⟨holder,{h with max := hle}⟩

/-- No tag of a new map has a holder. -/
theorem inv_newMap (depth : ℕ) : Inv home (newMap depth) (fun _ => none) := by
  refine ⟨fun _ => rfl,fun _ _ => ⟨nofun,nofun⟩,fun _ _ => ⟨nofun,nofun⟩,fun r t => ⟨nofun,?_⟩,fun q r => ⟨nofun,?_⟩,
    fun _ => List.nodup_nil,fun _ => rfl,fun _ => trivial,nofun,le_refl depth⟩
  · rintro (⟨htag,-⟩|hshows)
    · cases htag
    · cases hshows
  · rintro ⟨-,htag,-⟩
    cases htag

/-- The depth that is searched is not larger than the one that was read, and two less for an
asynchronous request if there are three. -/
theorem Call.depth_le (c : Call) : c.depth ≤ c.maxDepth ∧ (c.async=true → 3 ≤ c.maxDepth → c.depth=c.maxDepth-2) := by
  unfold Call.depth
  split
  case isTrue h =>
    split
    case isTrue => exact ⟨by omega,fun _ _ => by omega⟩
    case isFalse => exact ⟨by omega,fun _ _ => rfl⟩
  case isFalse h => exact ⟨le_refl _,fun ha hd => absurd ⟨ha,by omega⟩ h⟩

end

/-- Tags identify requests: no two requests have the same tag; outside the windows a bit is set if
and only if the entry of tag_index is the request with the tag; a tag is below the depth that was
read for it, two less for an asynchronous request; and a request with a tag is on the list of its
own queue, once, and on no other list, when its queue has finished blk_queue_start_tag. -/
theorem tags_identify_requests {home : ℕ → ℕ} {depth : ℕ} {s : State}
    (h : Reachable (fun s => s=newMap depth) (fun s e t => step home s e=some t) s) :
    (∀ r r' t, s.tag r=some t → s.tag r'=some t → r=r') ∧
    (∀ t, (∀ q, ¬(s.pc q).InWindow t) → (s.tagMap t=true ↔ ∃ r, s.tagIndex t=some r ∧ s.tag r=some t)) ∧
    (∀ r t, s.tag r=some t → t<(s.call r).maxDepth ∧
      ((s.call r).async=true → 3≤(s.call r).maxDepth → t<(s.call r).maxDepth-2)) ∧
    ∀ r, (s.tag r).isSome=true → (s.pc (home r)).fresh≠some r → ∀ q, (s.busy q).count r=if q=home r then 1 else 0 := by
  obtain ⟨holder,hinv⟩ : ∃ holder, Inv home s holder := by
    refine Reachable.invariant (I := fun s => ∃ holder, Inv home s holder) ?_ ?_ h
    · rintro s rfl
      exact ⟨_,inv_newMap depth⟩
    · rintro s e t _ ⟨holder,hI⟩ hs
      exact step_inv hI hs
  refine ⟨fun r r' t hr hr' => ?_,fun t hout => ⟨fun hbit => ?_,?_⟩,fun r t hr => ?_,fun r hr hfresh q => ?_⟩
  · have hsome := (hinv.tag r t).mp hr
    rw [(hinv.tag r' t).mp hr'] at hsome
    cases hsome
    rfl
  · -- the holder is a request, since a queue that holds the tag is in a window
    rw [hinv.bit,Option.isSome_iff_exists] at hbit
    obtain ⟨x,hx⟩ := hbit
    cases x with
    | queue q => exact absurd (.inl ((hinv.holds q t).mpr hx)) (hout q)
    | request r =>
      have htag := (hinv.tag r t).mpr hx
      exact ⟨r,(hinv.index r t).mpr (.inl ⟨htag,fun hh => hout (home r) (.inr hh)⟩),htag⟩
  · rintro ⟨r,-,htag⟩
    rw [hinv.bit,(hinv.tag r t).mp htag]
    rfl
  · obtain ⟨hlt,-⟩ := hinv.depth r t hr
    obtain ⟨hle,hasync⟩ := (s.call r).depth_le
    exact ⟨hlt.trans_le hle,fun ha hd => hlt.trans_eq (hasync ha hd)⟩
  · by_cases hq : q=home r
    · rw [if_pos hq,hq]
      exact List.count_eq_one_of_mem (hinv.nodup (home r)) ((hinv.busy (home r) r).mpr ⟨rfl,hr,hfresh⟩)
    · rw [if_neg hq]
      exact List.count_eq_zero.mpr (fun hmem => hq ((hinv.busy q r).mp hmem).1.symm)

/-- Two queues look for a tag at once and find the same free bit; the second one has to look again
after the first has set it. -/
def raceRun : List Event :=
  [.start 0 0 false false,.start 1 1 true false,.find 0 0,.find 1 0,.testAndSet 0,.testAndSet 1,.find 1 1,.testAndSet 1,
    .assign 1,.assign 0,.index 0,.index 1,.list 1,.list 0,.resize 0 1]

/-- Both requests have tags and are on their lists, also after the depth has been reduced. -/
theorem tags_identify_requests_race :
    ∃ s, Reachable (fun s => s=newMap 4) (fun s e t => step (fun r => r) s e=some t) s ∧
    s.tag 0=some 0 ∧ s.tag 1=some 1 ∧ s.maxDepth=1 ∧ (∀ q, (s.busy q).count 1=if q=1 then 1 else 0) := by
  obtain ⟨s,hreach,h0,h1,hd,hf⟩ : ∃ s, Reachable (fun s => s=newMap 4) (fun s e t => step (fun r => r) s e=some t) s ∧
      s.tag 0=some 0 ∧ s.tag 1=some 1 ∧ s.maxDepth=1 ∧ (s.pc 1).fresh≠some 1 :=
    exists_run (fun _ _ _ => id) rfl raceRun (by decide)
  exact ⟨s,hreach,h0,h1,hd,(tags_identify_requests hreach).2.2.2 1 (by rw [h1]; rfl) hf⟩

end BlockIpc.TagSharing
