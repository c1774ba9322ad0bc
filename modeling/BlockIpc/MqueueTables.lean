import BlockIpc.MqueueInodes

/-!
# Message tables of POSIX queues

An eviction frees the table to which the inode points. An object of the inode cache still holds
the pointer of its previous use, so the pointer must be written before the inode can be evicted.
The exit that is taken when the sizes overflow precedes the write. It is not taken for attributes
that a user passes, nor for default attributes of which the size is a word. On a 64-bit machine
all admitted limits have that property; on a 32-bit machine they do not, and an eviction may free
a table that is free or in use elsewhere.
-/

namespace BlockIpc.MqueueTables

open Function TransitionRuns MqueueInodes

variable {pf : Platform}

/-- The size of a queue with the limits as attributes is a word. -/
def DefaultsFit (lim : MqLimits pf) : Prop := queueBytes lim.attr<2^pf.width

/-- The sizes of such a queue, and only of such a queue, can be calculated. -/
theorem defaults_isSome_iff (lim : MqLimits pf) : (mqCalculateSizes lim.attr).isSome=true ↔ DefaultsFit lim := by
  have hlim := lim.admitted
  unfold minMsgsizemax at hlim
  have h0 : 0<lim.attr.maxmsg := by
    show (0 : ℤ)<lim.msgMax
    omega
  have h1 : 0<lim.attr.msgsize := by
    show (0 : ℤ)<lim.msgsizeMax
    omega
  have hsome : ∀ p : ℕ×ℕ, mqCalculateSizes lim.attr=some p ↔ _ :=
    fun p => mqCalculateSizes_eq_some h0 h1
  constructor
  · intro h
    obtain ⟨p,hp⟩ := Option.isSome_iff_exists.mp h
    exact ((hsome p).mp hp).1
  · intro h
    have hq : 0≤queueBytes lim.attr := le_of_lt (mul_pos h0 (by omega))
    have ht : 0≤lim.attr.maxmsg*pf.pointerSize := mul_nonneg (le_of_lt h0) (Int.natCast_nonneg _)
    have hp := (hsome ((lim.attr.maxmsg*pf.pointerSize).toNat,(queueBytes lim.attr).toNat)).mpr
      ⟨h,Int.toNat_of_nonneg ht,Int.toNat_of_nonneg hq⟩
    rw [hp]
    rfl

/-- All limits that a 64-bit machine admits fit. -/
theorem defaultsFit_of_eight (h : pf.pointerSize=8) (lim : MqLimits pf) : DefaultsFit lim := by
  obtain ⟨⟨_,hmax⟩,_,hsize⟩ := lim.admitted
  unfold Platform.hardMsgmax at hmax
  unfold maxMsgsizemax at hsize
  have hle : lim.msgMax*(lim.msgsizeMax+8)≤16384*(1048576+8) :=
    Nat.mul_le_mul (by rw [h] at hmax; omega) (by omega)
  unfold DefaultsFit queueBytes Platform.width
  show (lim.msgMax : ℤ)*(lim.msgsizeMax+pf.pointerSize)<2^(8*pf.pointerSize)
  rw [h]
  calc (lim.msgMax : ℤ)*(lim.msgsizeMax+(8 : ℕ))≤16384*(1048576+8) := by exact_mod_cast hle
    _<2^(8*8) := by decide

/-- An inode that may be evicted: a live queue, or one at the label out_inode. -/
def Evictable (s : MqState pf) (o : ℕ) : Prop := o∈s.queues ∨ ∃ c n, s.pc c=.outInode n o

/-- The table pointer of an inode was written since the object became this inode,
and it is NULL or a table that was allocated for this inode. -/
structure OwnsTable (s : MqState pf) (o : ℕ) : Prop where
  /-- The pointer was written. -/
  assigned : (s.objs o).assigned=true
  /-- The table belongs to the inode. -/
  table : ∀ t, (s.objs o).messages=some t → s.tables t=some o

/-- A step at which a queue without attributes gets limits that fit. -/
def FittingNext (s : MqState pf) (e : MqEvent pf) (s' : MqState pf) : Prop :=
  (∀ c inode n u, e=.newInode c inode → s.pc c=.counted n u none → DefaultsFit (s.ns n).limits) ∧ MqNext s e s'

/-- States of runs in which the limits fit whenever they are used as attributes. -/
def FittingReachable (s : MqState pf) : Prop := Reachable MqStart FittingNext s

variable {s s' : MqState pf} {pc : CreatePc pf} {o c n u : ℕ} {e : MqEvent pf}

theorem mqReachable_of_fitting (hr : FittingReachable s) : MqReachable s :=
  Reachable.project id (fun _ h => h) (fun _ a _ h => ⟨a,h.2⟩) hr

/-- On a 64-bit machine every run is such a run. -/
theorem fittingReachable_of_eight (h : pf.pointerSize=8) (hr : MqReachable s) : FittingReachable s :=
  Reachable.project id (fun _ h => h)
    (fun s a _ hn => ⟨a,fun _ _ n _ _ _ => defaultsFit_of_eight h (s.ns n).limits,hn⟩) hr

/-- The inode whose table pointer a call has written, or about to be evicted by it. -/
def tabledInode : CreatePc pf → Option ℕ
  | .tabled _ _ o _ => some o
  | .outInode _ o => some o
  | _ => none

/-- It is the inode that the call is building. -/
theorem inode_of_tabledInode (h : tabledInode pc=some o) : pc.inode=some o := by
  cases pc with
  | tabled n u o' b | outInode n o' =>
    cases h
    rfl
  | _ => cases h

structure TableInv (s : MqState pf) : Prop where
  live : ∀ o∈s.queues, OwnsTable s o
  /-- An inode whose table pointer a call has written owns its table. -/
  building : ∀ c o, tabledInode (s.pc c)=some o → OwnsTable s o
  /-- Only tables of the evicted inode were freed. -/
  good : s.badFree=false

theorem tableInv_start (h : MqStart s) : TableInv s := by
  refine ⟨fun o ho => ?_,fun c o hc => ?_,h.badFree⟩
  · rw [h.queues] at ho
    cases ho
  · rw [h.idle] at hc
    cases hc

/-- An inode keeps its table if neither its pointer nor its tables are touched. -/
theorem OwnsTable.frame (h : OwnsTable s o) (hassigned : (s'.objs o).assigned=(s.objs o).assigned)
    (hmessages : (s'.objs o).messages=(s.objs o).messages) (htables : ∀ t, s.tables t=some o → s'.tables t=some o) :
    OwnsTable s' o := by
  refine ⟨by rw [hassigned]; exact h.assigned,fun t ht => ?_⟩
  rw [hmessages] at ht
  exact htables t (h.table t ht)

/-- A call advances. -/
theorem TableInv.go (hi : TableInv s) (hpc : ∀ o, tabledInode pc=some o → OwnsTable s o) : TableInv (s.go c pc) := by
  have hsame : ∀ {o}, OwnsTable s o → OwnsTable (s.go c pc) o :=
    fun h => h.frame rfl rfl (fun _ ht => ht)
  refine ⟨fun o ho => hsame (hi.live o ho),fun d o h => ?_,hi.good⟩
  rcases go_cases tabledInode h with ⟨_,h⟩|⟨_,h⟩
  · exact hsame (hpc o h)
  · exact hsame (hi.building d o h)

/-- Namespaces do not concern the tables. -/
theorem TableInv.setNs (hi : TableInv s) (n : ℕ) (ns : MqNs pf) : TableInv (s.setNs n ns) := by
  have hsame : ∀ {o}, OwnsTable s o → OwnsTable (s.setNs n ns) o :=
    fun h => h.frame rfl rfl (fun _ ht => ht)
  exact ⟨fun o ho => hsame (hi.live o ho),fun c o h => hsame (hi.building c o h),hi.good⟩

/-- An object that owns no table changes, and tables that were free are allocated
for it; the call that does so advances. -/
theorem TableInv.change (hi : TableInv s) (hqueues : s'.queues=s.queues) (hgood : s'.badFree=s.badFree)
    (hpc : s'.pc=update s.pc c pc) (hobjs : ∀ x, x≠o → s'.objs x=s.objs x)
    (htables : ∀ t x, s.tables t=some x → s'.tables t=some x) (hlive : o∉s.queues)
    (hothers : ∀ d, d≠c → tabledInode (s.pc d)≠some o) (howns : ∀ x, tabledInode pc=some x → OwnsTable s' x) :
    TableInv s' := by
  have hsame : ∀ {x}, x≠o → OwnsTable s x → OwnsTable s' x :=
    fun hx h => h.frame (by rw [hobjs _ hx]) (by rw [hobjs _ hx]) (fun t ht => htables t _ ht)
  refine ⟨fun x hx => ?_,fun d x h => ?_,hgood.trans hi.good⟩
  · rw [hqueues] at hx
    exact hsame (fun he => hlive (he ▸ hx)) (hi.live x hx)
  · rw [hpc] at h
    by_cases hd : d=c
    · subst hd
      rw [update_self] at h
      exact howns x h
    · rw [update_of_ne hd] at h
      exact hsame (fun he => hothers d hd (he ▸ h)) (hi.building d x h)

/-- The eviction of an inode that owns its table frees no other table. -/
theorem evict_tables (howns : OwnsTable s o) (hgood : s.badFree=false) : (mqueueEvictInode s o).badFree=false ∧
      ∀ t x, x≠o → s.tables t=some x → (mqueueEvictInode s o).tables t=some x := by
  obtain ⟨ns,mqBytes,hr⟩ := refund_frame (s.kfreeMessages o) o
  unfold mqueueEvictInode
  rw [hr]
  dsimp only
  unfold MqState.kfreeMessages
  split
  · exact ⟨hgood,fun t x _ h => h⟩
  · next t ht =>
    have hown := howns.table t ht
    refine ⟨by simp [hgood,hown],fun t' x hx h => ?_⟩
    have hne : t'≠t := by
      intro he
      rw [he,hown] at h
      exact hx (Option.some.inj h).symm
    rw [← h]
    exact update_of_ne hne _ _

/-- A free object is no inode of a live queue or of a call. -/
theorem not_used_of_free (hinode : InodeInv s) (hfree : s.allocated o=false) :
    o∉s.queues ∧ ∀ d, tabledInode (s.pc d)≠some o := by
  constructor
  · intro ho
    have h := hinode.live o ho
    rw [hfree] at h
    cases h
  · intro d h
    have ha := (hinode.building d o (inode_of_tabledInode h)).1
    rw [hfree] at ha
    cases ha

/-- The inode of a call is no other inode. -/
theorem not_used_of_building (hinode : InodeInv s) (hown : (s.pc c).inode=some o) :
    o∉s.queues ∧ ∀ d, d≠c → tabledInode (s.pc d)≠some o :=
  ⟨(hinode.building c o hown).2.1,
    fun d hd h => hd (hinode.distinct d c o (inode_of_tabledInode h) hown)⟩

/-- The sizes of a new inode can be calculated if the limits fit in case they are used. -/
theorem chosen_isSome (hinode : InodeInv s) {attr : Option (MqAttr pf)} (hp : s.pc c=.counted n u attr)
    (hfit : attr=none → DefaultsFit (s.ns n).limits) :
    (mqCalculateSizes (chosenAttr (s.ns n).limits attr)).isSome=true := by
  cases attr with
  | none => exact (defaults_isSome_iff (s.ns n).limits).mpr (hfit rfl)
  | some a => exact (hinode.attrs c a (by rw [hp]; rfl)).some

/-- The table of a live queue is freed with it. -/
theorem TableInv.evicted (hi : TableInv s) (hinode : InodeInv s) (ho : o∈s.queues) :
    TableInv {mqueueEvictInode s o with queues := s.queues.erase o} := by
  obtain ⟨hobjs,hpc,_⟩ := evict_frame s o
  obtain ⟨hgood,htables⟩ := evict_tables (hi.live o ho) hi.good
  have hsame : ∀ {x}, x≠o → OwnsTable s x →
      OwnsTable {mqueueEvictInode s o with queues := s.queues.erase o} x :=
    fun hx h => h.frame (by simp only [hobjs]) (by simp only [hobjs]) (fun t ht => htables t _ hx ht)
  refine ⟨fun x hx => ?_,fun d x h => ?_,hgood⟩
  · obtain ⟨hne,hx⟩ := hinode.nodup.mem_erase_iff.mp hx
    exact hsame hne (hi.live x hx)
  · simp only [hpc] at h
    have hne : x≠o := by
      intro he
      exact (hinode.building d x (inode_of_tabledInode h)).2.1 (he ▸ ho)
    exact hsame hne (hi.building d x h)

/-- The table of a failed creation is freed with its inode. -/
theorem TableInv.dropped (hi : TableInv s) (hinode : InodeInv s) (hp : s.pc c=.outInode n o) :
    TableInv ((mqueueEvictInode s o).go c (.failed n)) := by
  obtain ⟨hobjs,hpc,hqueues⟩ := evict_frame s o
  have howns := hi.building c o (by rw [hp]; rfl)
  obtain ⟨hgood,htables⟩ := evict_tables howns hi.good
  obtain ⟨hnot,hothers⟩ := not_used_of_building hinode (show (s.pc c).inode=some o by rw [hp]; rfl)
  have hsame : ∀ {x}, x≠o → OwnsTable s x → OwnsTable ((mqueueEvictInode s o).go c (.failed n)) x :=
    fun hx h => h.frame (by simp only [MqState.go,hobjs]) (by simp only [MqState.go,hobjs])
      (fun t ht => htables t _ hx ht)
  refine ⟨fun x hx => ?_,fun d x h => ?_,hgood⟩
  · simp only [MqState.go,hqueues] at hx
    exact hsame (fun he => hnot (he ▸ hx)) (hi.live x hx)
  · rcases go_cases tabledInode h with ⟨_,h⟩|⟨hd,h⟩
    · cases h
    · rw [hpc] at h
      exact hsame (fun he => hothers d hd (he ▸ h)) (hi.building d x h)

theorem TableInv.charged (hi : TableInv s) {bytes total : ℕ} (hp : s.pc c=.tabled n u o bytes) :
    TableInv ((s.charged u o total).go c (.done 0)) := by
  have hsame : ∀ {x}, OwnsTable s x → OwnsTable ((s.charged u o total).go c (.done 0)) x := by
    intro x h
    exact h.frame (objs_setInfo MqInfo.assigned (by rfl) x) (objs_setInfo MqInfo.messages (by rfl) x) (fun _ ht => ht)
  refine ⟨fun x hx => ?_,fun d x h => ?_,hi.good⟩
  · rcases List.mem_cons.mp hx with he|hx
    · rw [he]
      exact hsame (hi.building c o (by rw [hp]; rfl))
    · exact hsame (hi.live x hx)
  · rcases go_cases tabledInode h with ⟨_,h⟩|⟨_,h⟩
    · cases h
    · exact hsame (hi.building d x h)

/-- Every step at which the limits fit keeps it. -/
theorem TableInv.step (hi : TableInv s) (hinode : InodeInv s) (h : FittingNext s e s') : TableInv s' := by
  obtain ⟨hfit,h⟩ := h
  cases mqStep_cases h with
  | limits | cleared => exact hi.setNs _ _
  | opened | refused | rejected | noInode => exact hi.go (fun o h => by cases h)
  | @counted c n u _ attr hp =>
    have hcount : TableInv (s.addCount n 1) := hi.setNs _ _
    exact hcount.go (fun o h => by cases h)
  | @oversize c n u o attr hp hfree hsize =>
    have hsome := chosen_isSome hinode hp (fun ha => hfit c (some o) n u rfl (by rw [hp,ha]))
    rw [hsize] at hsome
    cases hsome
  | @sized c n u o tableBytes bytes attr hp hfree hsize =>
    obtain ⟨hlive,hothers⟩ := not_used_of_free hinode hfree
    exact hi.change rfl rfl rfl (fun x hx => update_of_ne hx _ _) (fun _ _ h => h) hlive
      (fun d _ => hothers d) (fun x h => by cases h)
  | @noTable c n u o bytes hp =>
    obtain ⟨hlive,hothers⟩ := not_used_of_building hinode (show (s.pc c).inode=some o by rw [hp]; rfl)
    refine hi.change rfl rfl rfl (fun x hx => update_of_ne hx _ _) (fun _ _ h => h) hlive
      hothers (fun x h => ?_)
    cases h
    constructor
    · simp [MqState.go,MqState.setInfo]
    · simp [MqState.go,MqState.setInfo]
  | @tabled c n u o bytes t hp hfree =>
    obtain ⟨hlive,hothers⟩ := not_used_of_building hinode (show (s.pc c).inode=some o by rw [hp]; rfl)
    refine hi.change rfl rfl rfl (fun x hx => update_of_ne hx _ _) (fun t' x h => ?_) hlive
      hothers (fun x h => ?_)
    · have hne : t'≠t := by
        intro he
        rw [he,hfree] at h
        cases h
      rw [← h]
      exact update_of_ne hne _ _
    · cases h
      constructor
      · simp [MqState.go,MqState.setInfo]
      · intro t' ht
        simp [MqState.go,MqState.setInfo] at ht ⊢
        rw [← ht,update_self]
  | @overQuota c rlimit n u o bytes hp =>
    refine hi.go (fun x h => ?_)
    cases h
    exact hi.building c o (by rw [hp]; rfl)
  | charged hp htotal hlimit => exact hi.charged hp
  | dropped hp => exact hi.dropped hinode hp
  | @rolledBack c n hp =>
    have hcount : TableInv (s.addCount n (-1)) := hi.setNs _ _
    exact hcount.go (fun o h => by cases h)
  | evicted ho => exact hi.evicted hinode ho

/-- It holds in all runs in which the limits fit. -/
theorem tableInv_of_fitting (hr : FittingReachable s) : TableInv s :=
  Reachable.invariant (I := TableInv) (fun _ h => tableInv_start h)
    (fun _ _ _ hr hi h => hi.step (inodeInv_of_reachable (mqReachable_of_fitting hr)) h) hr

/-- An inode that may be evicted owns its table. -/
theorem TableInv.owns (hi : TableInv s) (h : Evictable s o) : OwnsTable s o := by
  rcases h with ho|⟨c,n,hp⟩
  · exact hi.live o ho
  · exact hi.building c o (by rw [hp]; rfl)

/-- If the limits fit whenever they are used as attributes, the table pointer of
every inode that may be evicted was written by the call that built the inode and
is NULL or its own table, no eviction has freed another table, and the exit that
precedes the write is not taken. -/
theorem evict_frees_own_table_of_fit {s : MqState pf} (hr : FittingReachable s) :
    (∀ o, Evictable s o → OwnsTable s o) ∧ s.badFree=false ∧
    ∀ c n u attr, s.pc c=.counted n u attr → (attr=none → DefaultsFit (s.ns n).limits) →
      mqCalculateSizes (chosenAttr (s.ns n).limits attr)≠none := by
  have hi := tableInv_of_fitting hr
  refine ⟨fun o h => hi.owns h,hi.good,fun c n u attr hp hfit hnone => ?_⟩
  have hsome := chosen_isSome (inodeInv_of_reachable (mqReachable_of_fitting hr)) hp hfit
  rw [hnone] at hsome
  cases hsome

/-- Whether a step uses only limits that fit. -/
def fits (s : MqState pf) : MqEvent pf → Bool
  | .newInode c _ =>
    match s.pc c with
    | .counted n _ none => decide (queueBytes (s.ns n).limits.attr<2^pf.width)
    | _ => true
  | _ => true

/-- One step that uses only limits that fit. -/
def fittingStep (s : MqState pf) (e : MqEvent pf) : Option (MqState pf) := if fits s e then mqStep s e else none

theorem fittingStep_next (h : fittingStep s e=some s') : FittingNext s e s' := by
  unfold fittingStep at h
  split at h
  · next hfits =>
    refine ⟨fun c inode n u he hp => ?_,h⟩
    subst he
    simpa [fits,hp,DefaultsFit] using hfits
  · cases h

/-- On a 32-bit machine a queue is created, evicted and its object reused while the
limits fit: the new queue owns its table and nothing else was freed. -/
theorem evict_frees_own_table_of_fit_reused : ∃ s : MqState ⟨4,.inl rfl⟩, FittingReachable s ∧
    s.queues=[3] ∧ (s.objs 3).messages=some 6 ∧ OwnsTable s 3 ∧ s.badFree=false := by
  obtain ⟨s,hr,hq,hm⟩ : ∃ s : MqState ⟨4,.inl rfl⟩, FittingReachable s ∧ s.queues=[3] ∧ (s.objs 3).messages=some 6 :=
    exists_run (fun _ _ _ => fittingStep_next) (newMq_start _) [.doCreate 0 0 7 false none,.create 0 false,
      .newInode 0 (some 3),.kmalloc 0 (some 5),.charge 0 819200,.evict 3,
      .sysctl 0 (.msgMax 32768),.doCreate 1 0 7 false none,.create 1 false,
      .newInode 1 (some 3),.kmalloc 1 (some 6),.charge 1 4294967295] (by decide)
  obtain ⟨howns,hgood,_⟩ := evict_frees_own_table_of_fit hr
  exact ⟨s,hr,hq,hm,howns 3 (.inl (by rw [hq]; exact List.mem_singleton.mpr rfl)),hgood⟩

/-- On a 32-bit machine a queue is created on object 3 with table 5 and evicted. The
limits are raised to admitted values of which the size is no word, and a queue
without attributes is created on the same object: it is evicted before its table
pointer is written, and table 5 is freed a second time. -/
theorem evict_frees_foreign_table : ∃ s : MqState ⟨4,.inl rfl⟩, MqReachable s ∧ s.badFree=true :=
  exists_run (fun _ _ _ => id) (newMq_start _) [.doCreate 0 0 7 false none,.create 0 false,
    .newInode 0 (some 3),.kmalloc 0 (some 5),.charge 0 819200,.evict 3,
    .sysctl 0 (.msgMax 32768),.sysctl 0 (.msgsizeMax 1048576),.doCreate 1 0 7 false none,
    .create 1 false,.newInode 1 (some 3),.dropInode 1] (by decide)

/-- On a 64-bit machine no eviction frees another table. -/
theorem evict_frees_own_table_of_eight (h : pf.pointerSize=8) (hr : MqReachable s) :
    (∀ o, Evictable s o → OwnsTable s o) ∧ s.badFree=false := by
  have hi := tableInv_of_fitting (fittingReachable_of_eight h hr)
  exact ⟨fun o h => hi.owns h,hi.good⟩

/-- There the limits that broke a 32-bit machine are harmless: the object of an evicted queue is
reused, owns its new table and is evicted again, and nothing else was freed. -/
theorem evict_frees_own_table_of_eight_reused : ∃ s t : MqState ⟨8,.inr rfl⟩, MqReachable s ∧ MqReachable t ∧
    s.queues=[3] ∧ (s.objs 3).messages=some 6 ∧ OwnsTable s 3 ∧ t.queues=[] ∧ t.badFree=false := by
  obtain ⟨s,hr,hq,hm,t,ht,hn⟩ : ∃ s : MqState ⟨8,.inr rfl⟩, MqReachable s ∧ s.queues=[3] ∧
      (s.objs 3).messages=some 6 ∧ ∃ t, mqStep s (.evict 3)=some t ∧ t.queues=[] :=
    exists_run (fun _ _ _ => id) (newMq_start _) [.doCreate 0 0 7 false none,.create 0 false,
      .newInode 0 (some 3),.kmalloc 0 (some 5),.charge 0 819200,.evict 3,
      .sysctl 0 (.msgMax 32768),.sysctl 0 (.msgsizeMax 1048576),.doCreate 1 0 7 false none,
      .create 1 false,.newInode 1 (some 3),.kmalloc 1 (some 6),.charge 1 4294967295] (by decide)
  have htr : MqReachable t := hr.next ht
  exact ⟨s,t,hr,htr,hq,hm,(evict_frees_own_table_of_eight rfl hr).1 3 (.inl (hq ▸ List.mem_singleton.mpr rfl)),hn,
    (evict_frees_own_table_of_eight rfl htr).2⟩

/-- If the limits do not fit, a creation without attributes reaches the label
out_inode with a table pointer that it has not written. -/
theorem not_assigned_of_misfit (hp : s.pc c=.counted n u none) (hfree : s.allocated o=false)
    (hmisfit : ¬DefaultsFit (s.ns n).limits) :
    ∃ s', MqNext s (.newInode c (some o)) s' ∧ Evictable s' o ∧ (s'.objs o).assigned=false ∧
      (s'.objs o).messages=(s.objs o).messages := by
  have hnone : mqCalculateSizes (chosenAttr (s.ns n).limits none)=none := by
    rw [← defaults_isSome_iff] at hmisfit
    show mqCalculateSizes (s.ns n).limits.attr=none
    simpa using hmisfit
  refine ⟨(s.initInode o n none).go c (.outInode n o),?_,.inr ⟨c,n,update_self _ _ _⟩,?_,?_⟩
  · unfold MqNext
    simp [mqStep,hp,hfree,hnone]
  · simp [MqState.go,MqState.initInode,MqState.setInfo]
  · simp [MqState.go,MqState.initInode,MqState.setInfo]

end BlockIpc.MqueueTables
