import BlockIpc.SearchTrees

/-!
# The order of the dispatch list

elv_dispatch_sort walks the dispatch list from its end and puts a request behind the first one
that it must not pass. It passes only requests of its own direction and discard class that carry
no barrier and are not started. Among these the order is that of a one-way elevator: first the
positions from the boundary on, then the positions before it.
-/

namespace BlockIpc.DispatchSort

open List SearchTrees

/-- A request, as far as its place in the dispatch list depends on it. -/
structure Request where
  /-- The request itself. -/
  id : ℕ
  /-- blk_rq_pos. -/
  pos : ℕ
  /-- rq_data_dir. -/
  write : Bool
  discard : Bool
  softbarrier : Bool
  started : Bool
  deriving DecidableEq

/-- The part of a queue that elv_dispatch_sort works on. -/
structure Queue where
  /-- queue_head, from its first entry. -/
  queueHead : List Request
  endSector : ℕ
  lastMerge : Option ℕ
  /-- The requests in the merge hash. -/
  hash : List ℕ
  nrSorted : BitVec 32

/-- The request is of the direction and discard class of another one, and has no stop flag. -/
def sortable (rq x : Request) : Bool := rq.discard==x.discard && rq.write==x.write && !(x.softbarrier || x.started)

/-- The conditions under which the walk stops at an entry. -/
def stopsAt (boundary : ℕ) (rq x : Request) : Bool :=
  if rq.discard≠x.discard then true
  else if rq.write≠x.write then true
  else if x.softbarrier || x.started then true
  else if boundary ≤ rq.pos then
    if x.pos<boundary then false else decide (x.pos ≤ rq.pos)
  else if boundary≤x.pos then true
  else decide (x.pos ≤ rq.pos)

/-- The walk over the reversed list, and list_add behind the entry where it stops. -/
def sortInto (boundary : ℕ) (rq : Request) : List Request → List Request
  | [] => [rq]
  | x::l => if stopsAt boundary rq x then rq::x::l else x::sortInto boundary rq l

def elvDispatchSort (q : Queue) (rq : Request) : Queue where
  queueHead := (sortInto q.endSector rq q.queueHead.reverse).reverse
  endSector := q.endSector
  lastMerge := if q.lastMerge=some rq.id then none else q.lastMerge
  hash := q.hash.erase rq.id
  nrSorted := q.nrSorted-1

/-- The order of the elevator: the position of one request is not behind that of the other. -/
def Sweeps (boundary : ℕ) (x y : Request) : Prop :=
  (boundary≤x.pos ∧ y.pos<boundary) ∨ ((boundary≤x.pos ↔ boundary≤y.pos) ∧ x.pos≤y.pos)

/-- The longest end of a list whose requests are sortable for a request. -/
def sortableTail (rq : Request) (l : List Request) : List Request := l.rtakeWhile (sortable rq)

variable {b : ℕ} {rq x y z : Request} {l : List Request}

theorem Sweeps.trans (h : Sweeps b x y) (h' : Sweeps b y z) : Sweeps b x z := by
  unfold Sweeps at *
  omega

theorem not_sweeps : ¬Sweeps b x y ↔ Sweeps b y x ∧ x.pos≠y.pos := by
  unfold Sweeps
  omega

/-- The walk passes a sortable request exactly if that comes later in the order. -/
theorem stopsAt_of_sortable (h : sortable rq x=true) : stopsAt b rq x=true ↔ Sweeps b x rq := by
  simp only [sortable,Bool.and_eq_true,beq_iff_eq,Bool.not_eq_true'] at h
  obtain ⟨⟨hd,hw⟩,hf⟩ := h
  simp only [stopsAt,hd,hw,hf,ne_eq,not_true_eq_false,if_false,Bool.false_eq_true,Sweeps]
  split_ifs <;> simp only [decide_eq_true_eq,true_iff,false_iff] <;> omega

theorem stopsAt_of_not_sortable (h : sortable rq x=false) : stopsAt b rq x=true := by
  unfold stopsAt
  split_ifs with hd hw hf <;> first | rfl | simp_all [sortable]

/-- In an ordered tail the walk passes exactly the requests that come later. -/
theorem sortInto_spec {t f : List Request} (ht : ∀ x∈t, sortable rq x=true)
    (hp : t.Pairwise (fun x y => Sweeps b y x)) (hf : ∀ x∈f.head?, sortable rq x=false) :
    ∃ passed rest, t=passed++rest ∧ sortInto b rq (t++f)=passed++rq::(rest++f) ∧
      (∀ x∈passed, ¬Sweeps b x rq) ∧ ∀ x∈rest, Sweeps b x rq := by
  induction t with
  | nil =>
    refine ⟨[],[],rfl,?_,by simp,by simp⟩
    cases f with
    | nil => rfl
    | cons y f => simp [sortInto,stopsAt_of_not_sortable (hf y rfl)]
  | cons x t ih =>
    obtain ⟨hx,ht⟩ := forall_mem_cons.mp ht
    obtain ⟨hfirst,hp⟩ := pairwise_cons.mp hp
    by_cases hs : Sweeps b x rq
    · refine ⟨[],x::t,rfl,?_,by simp,?_⟩
      · simp [sortInto,(stopsAt_of_sortable hx).mpr hs]
      · simpa using ⟨hs,fun y hy => (hfirst y hy).trans hs⟩
    · obtain ⟨passed,rest,rfl,hi,hlater,hr⟩ := ih ht hp
      refine ⟨x::passed,rest,rfl,?_,by simpa using ⟨hs,hlater⟩,hr⟩
      simp [sortInto,mt (stopsAt_of_sortable hx).mp hs,← hi]

/-- What is on the list after the walk. -/
theorem mem_sortInto (hx : x∈sortInto b rq l) : x=rq ∨ x∈l := by
  induction l with
  | nil => exact .inl (mem_singleton.mp hx)
  | cons y l ih =>
    rw [sortInto] at hx
    split at hx
    · exact mem_cons.mp hx
    · rcases mem_cons.mp hx with rfl|hx
      · exact .inr mem_cons_self
      · exact (ih hx).imp_right (mem_cons_of_mem y)

/-- A list ends with its sortable tail, and no sortable request stands right before that. -/
theorem exists_front (rq : Request) (l : List Request) : ∃ front, l=front++sortableTail rq l ∧
    (∀ x∈front.reverse.head?, sortable rq x=false) ∧ ∀ x∈sortableTail rq l, sortable rq x=true := by
  refine ⟨l.rdropWhile (sortable rq),(rdropWhile_append_rtakeWhile ..).symm,fun x hx => ?_,
    fun x hx => mem_rtakeWhile_imp hx⟩
  rw [head?_reverse] at hx
  obtain ⟨hne,rfl⟩ := mem_getLast?_eq_getLast hx
  simpa using rdropWhile_last_not (sortable rq) l hne

/-- Where elv_dispatch_sort puts a request, if the requests that it may pass are in order. -/
theorem dispatchSort_place {q : Queue} {front tail : List Request} (hq : q.queueHead=front++tail)
    (hf : ∀ x∈front.reverse.head?, sortable rq x=false) (ht : ∀ x∈tail, sortable rq x=true)
    (hp : tail.Pairwise (Sweeps q.endSector)) :
    ∃ before after, tail=before++after ∧ (elvDispatchSort q rq).queueHead=front++(before++rq::after) ∧
      (∀ x∈before, Sweeps q.endSector x rq) ∧ ∀ x∈after, ¬Sweeps q.endSector x rq := by
  obtain ⟨passed,rest,he,hi,hlater,hr⟩ :=
    sortInto_spec (t := tail.reverse) (by simpa using ht) (pairwise_reverse.mpr hp) hf
  refine ⟨rest.reverse,passed.reverse,?_,?_,by simpa using hr,by simpa using hlater⟩
  · rw [← reverse_append,← he,reverse_reverse]
  · simp [elvDispatchSort,hq,hi]

theorem pairwise_place {before after : List Request} (h : (before++after).Pairwise (Sweeps b))
    (hb : ∀ x∈before, Sweeps b x rq) (ha : ∀ x∈after, ¬Sweeps b x rq) : (before++rq::after).Pairwise (Sweeps b) :=
  pairwise_insert (fun _ _ _ => Sweeps.trans) h (fun x hx => hb x (mem_of_mem_getLast? hx))
    (fun x hx => (not_sweeps.mp (ha x (mem_of_mem_head? hx))).1)

/-- Among the requests of one position the inserted one is the last. -/
theorem filter_insert {before after : List Request} (ha : ∀ x∈after, x.pos≠rq.pos) (p : ℕ) :
    (before++rq::after).filter (·.pos=p)=(before++after++[rq]).filter (·.pos=p) := by
  by_cases hp : rq.pos=p
  · have hnone : after.filter (·.pos=p)=[] := by simpa [filter_eq_nil_iff,← hp] using ha
    simp [hp,hnone]
  · simp [hp]

/-- A request of a class may pass the same requests as the others of it. -/
theorem sortable_congr (h : sortable rq x=true) : sortable x=sortable rq := by
  simp only [sortable,Bool.and_eq_true,beq_iff_eq] at h
  funext y
  simp [sortable,h.1.1,h.1.2]

/-- Requests of one class are inserted one after the other. -/
theorem dispatchSort_run {q : Queue} {front tail : List Request} (hq : q.queueHead=front++tail)
    (hf : ∀ x∈front.reverse.head?, sortable rq x=false) (ht : ∀ x∈tail, sortable rq x=true)
    (hp : tail.Pairwise (Sweeps q.endSector)) {rqs : List Request} (hc : ∀ x∈rqs, sortable rq x=true) :
    ∃ t, (rqs.foldl elvDispatchSort q).queueHead=front++t ∧ t.Perm (tail++rqs) ∧ t.Pairwise (Sweeps q.endSector) ∧
      ∀ p, t.filter (·.pos=p)=(tail++rqs).filter (·.pos=p) := by
  induction rqs generalizing q tail with
  | nil => exact ⟨tail,hq,by simp,hp,by simp⟩
  | cons x rqs ih =>
    obtain ⟨hx,hc⟩ := forall_mem_cons.mp hc
    have hsame := sortable_congr hx
    obtain ⟨before,after,rfl,hi,hb,ha⟩ := dispatchSort_place hq (hsame ▸ hf) (hsame ▸ ht) hp
    have hmid : (before++x::after).Perm (before++after++[x]) := by
      exact (perm_append_singleton x after).symm.append_left before |>.trans (by simp)
    obtain ⟨t,hlist,hperm,hpair,hfilter⟩ := ih (q := elvDispatchSort q x) hi
      (fun y hy => (mem_append.mp (hmid.mem_iff.mp hy)).elim (ht y) (by simpa using fun he => he ▸ hx))
      (pairwise_place hp hb ha) hc
    refine ⟨t,hlist,?_,hpair,fun p => ?_⟩
    · simpa using hperm.trans (hmid.append_right rqs)
    · rw [hfilter p,filter_append,filter_insert (fun y hy => (not_sweeps.mp (ha y hy)).2) p,
        ← filter_append,append_assoc (before++after)]
      rfl

/-- elv_dispatch_sort keeps the dispatch list a one-way elevator. If the sortable tail is in
order, the request is put into it, in order and behind all requests of its position, and no
other request is moved. Requests of one class that are inserted one after the other are in order
with the tail, and those of one position are in the order of their insertion. -/
theorem dispatch_sort_sweeps (q : Queue) (rq : Request)
    (h : (sortableTail rq q.queueHead).Pairwise (Sweeps q.endSector)) :
    (∃ front before after, q.queueHead=front++(before++after) ∧ sortableTail rq q.queueHead=before++after ∧
      (elvDispatchSort q rq).queueHead=front++(before++rq::after) ∧
      (before++rq::after).Pairwise (Sweeps q.endSector) ∧ ∀ x∈after, x.pos≠rq.pos) ∧
    ∀ rqs : List Request, (∀ x∈rqs, sortable rq x=true) →
      ∃ front tail, q.queueHead=front++sortableTail rq q.queueHead ∧
        (rqs.foldl elvDispatchSort q).queueHead=front++tail ∧ tail.Perm (sortableTail rq q.queueHead++rqs) ∧
        tail.Pairwise (Sweeps q.endSector) ∧
        ∀ p, tail.filter (·.pos=p)=(sortableTail rq q.queueHead++rqs).filter (·.pos=p) := by
  obtain ⟨front,hq,hf,ht⟩ := exists_front rq q.queueHead
  constructor
  · obtain ⟨before,after,he,hi,hb,ha⟩ := dispatchSort_place hq hf ht h
    rw [he] at h
    exact ⟨front,before,after,he ▸ hq,he,hi,pairwise_place h hb ha,fun x hx => (not_sweeps.mp (ha x hx)).2⟩
  · intro rqs hc
    obtain ⟨t,hlist,hrest⟩ := dispatchSort_run hq hf ht h hc
    exact ⟨front,t,hq,hlist,hrest⟩

/-- A request at a position. -/
def readAt (id pos : ℕ) : Request := ⟨id,pos,false,false,false,false⟩

/-- The boundary is 100, and a request that carries a barrier precedes the tail 150, 20. -/
def sweeping : Queue := ⟨[{readAt 1 400 with softbarrier := true},readAt 2 150,readAt 3 20],100,some 5,[4,5,6],3⟩

theorem dispatch_sort_sweeps_four :
    ([readAt 4 20,readAt 5 300,readAt 6 150].foldl elvDispatchSort sweeping).queueHead.map Request.id=[1,2,6,5,3,4] ∧
    ∃ front tail, sweeping.queueHead=front++sortableTail (readAt 4 20) sweeping.queueHead ∧
      ([readAt 4 20,readAt 5 300,readAt 6 150].foldl elvDispatchSort sweeping).queueHead=front++tail ∧
      tail.Pairwise (Sweeps 100) := by
  have htail : sortableTail (readAt 4 20) sweeping.queueHead=[readAt 2 150,readAt 3 20] := by decide
  have hp : (sortableTail (readAt 4 20) sweeping.queueHead).Pairwise (Sweeps sweeping.endSector) := by
    rw [htail]
    simp [Sweeps,sweeping,readAt]
  obtain ⟨front,tail,hq,hl,-,hs,-⟩ := (dispatch_sort_sweeps sweeping (readAt 4 20) hp).2
    [readAt 4 20,readAt 5 300,readAt 6 150] (by decide)
  exact ⟨by decide,front,tail,hq,hl,hs⟩

end BlockIpc.DispatchSort
