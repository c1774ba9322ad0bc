import BlockIpc.ReferenceCounts
import BlockIpc.IpcKeys

/-!
# Lifetime of shared memory segments

A segment lives until it has been removed and its last attach is gone. An attach is counted by
do_shmat while it works, and by every mapping it or a fork leaves behind. Mappings and calls find
the segment again by its index alone, while other segments come and go. The steps are the parts of
these functions that the lock of the segment makes atomic.
-/

namespace BlockIpc.ShmLifetime

open Function (update update_self update_of_ne update_eq_self)
open KernelNumbers TransitionRuns ReferenceCounts SlotTable IpcIdentifiers IpcObjects IpcKeys

/-- A mapping of a segment, with the file data of its attach. -/
structure Vma where
  /-- Identifier in the file data. -/
  id : ℤ
  /-- The mapped segment. -/
  shp : ℕ

/-- Progress of a task in do_shmat. -/
inductive ShmatPc where
  | idle
  | counted (shmid : ℤ) (shp : ℕ)
  /-- Has set a file up, with the identifier read from the segment. -/
  | filed (shmid : ℤ) (shp : ℕ) (id : ℤ)
  /-- Has mapped the file or failed; about to drop its count. -/
  | leaving (shmid : ℤ) (shp : ℕ)
  deriving DecidableEq

/-- The segment that a call has counted itself on. -/
def ShmatPc.shp : ShmatPc → Option ℕ
  | .idle => none
  | .counted _ shp => some shp
  | .filed _ shp _ => some shp
  | .leaving _ shp => some shp

/-- Segments, mappings and calls. -/
structure ShmWorld where
  /-- Table of segments. -/
  space : IpcSpace
  /-- Live mappings. -/
  vma : ℕ → Option Vma
  /-- Progress of each task in do_shmat. -/
  pc : ℕ → ShmatPc
  /-- Segments whose removal was requested. -/
  removed : ℕ → Bool
  /-- A BUG_ON(IS_ERR(shp)) fired. -/
  bug : Bool

/-- Atomic steps. -/
inductive ShmEvent where
  /-- An attempt of shmget. -/
  | get (lim : IpcLimits) (params : IpcParams) (env : GetEnv) (caller : IpcCaller)
  /-- IPC_SET; a hook may refuse it. -/
  | set (id : ℤ) (caller : IpcCaller) (refused : Option Errno) (uid gid : ℕ) (mode : BitVec 32)
  /-- IPC_RMID; a hook may refuse it. -/
  | rmid (id : ℤ) (caller : IpcCaller) (refused : Option Errno)
  /-- do_shmat finds the segment and counts itself. -/
  | shmatStart (task : ℕ) (shmid : ℤ) (addrOk : Bool) (shmflg : BitVec 32) (caller : IpcCaller)
      (permission security : Option Errno)
  /-- do_shmat sets a file up, or fails to. -/
  | shmatFile (task : ℕ) (ok : Bool)
  /-- do_mmap opens a new mapping, or fails before that. -/
  | shmatMap (task m : ℕ) (ok : Bool)
  /-- do_shmat drops its count. -/
  | shmatEnd (task : ℕ)
  /-- A mapping is inherited or split. -/
  | fork (m child : ℕ)
  | close (m : ℕ)

/-- Finish a step of a function that has locked a segment, or stop at its
BUG_ON. -/
def ShmWorld.locked (s : ShmWorld) (r : Except ℤ (ℕ×IpcSpace)) (f : ShmWorld → ShmWorld) : ShmWorld :=
  match r with
  | .error _ => {s with bug := true}
  | .ok r => f {s with space := r.2}

/-- One atomic step, when it can be executed. -/
def shmStep (s : ShmWorld) : ShmEvent → Option ShmWorld
  | .get lim params env caller =>
    (ipcget .shm s.space lim params env caller).map (fun r => {s with space := r.2})
  | .set id caller refused uid gid mode =>
    match ipcctlPreDown s.space.table id caller with
    | .error _ => some s
    | .ok shp =>
      if refused.isSome=true then some s
      else some {s with space := {s.space with
        table := s.space.table.setPerm shp (ipcUpdatePerm uid gid mode)}}
  | .rmid id caller refused =>
    match ipcctlPreDown s.space.table id caller with
    | .error _ => some s
    | .ok shp =>
      if refused.isSome=true then some s
      else some {s with
        space := doShmRmid s.space shp
        removed := update s.removed shp true}
  | .shmatStart task shmid addrOk shmflg caller permission security =>
    if s.pc task=.idle then
      match doShmatStart s.space shmid addrOk shmflg caller permission security with
      | .error _ => some s
      | .ok r => some {s with
          space := r.2
          pc := update s.pc task (.counted shmid r.1)}
    else none
  | .shmatFile task ok =>
    match s.pc task with
    | .counted shmid shp =>
      let pc := if ok=true then .filed shmid shp (s.space.table.perms shp).id else .leaving shmid shp
      some {s with pc := update s.pc task pc}
    | _ => none
  | .shmatMap task m ok =>
    match s.pc task with
    | .filed shmid shp id =>
      if ok=false then some {s with pc := update s.pc task (.leaving shmid shp)}
      else if (s.vma m).isSome=true then none
      else some (s.locked (shmOpen s.space id) (fun s => {s with
        vma := update s.vma m (some ⟨id,shp⟩)
        pc := update s.pc task (.leaving shmid shp)}))
    | _ => none
  | .shmatEnd task =>
    match s.pc task with
    | .leaving shmid _ => some (s.locked (doShmatEnd s.space shmid) (fun s => {s with
        pc := update s.pc task .idle}))
    | _ => none
  | .fork m child =>
    match s.vma m with
    | none => none
    | some v =>
      if (s.vma child).isSome=true then none
      else some (s.locked (shmOpen s.space v.id) (fun s => {s with
        vma := update s.vma child (some v)}))
  | .close m =>
    match s.vma m with
    | none => none
    | some v => some (s.locked (shmClose s.space v.id) (fun s => {s with
        vma := update s.vma m none}))

/-- One atomic step as a relation. -/
def ShmNext (s : ShmWorld) (e : ShmEvent) (s' : ShmWorld) : Prop := shmStep s e=some s'

/-- No segment, mapping or call exists. -/
def ShmStart (s : ShmWorld) : Prop :=
  KeyStart s.space ∧ s.space.shmNattch=(fun _ => 0) ∧ s.space.destroys=(fun _ => 0) ∧
    s.vma=(fun _ => none) ∧ s.pc=(fun _ => .idle) ∧ s.removed=(fun _ => false) ∧ s.bug=false

/-- States of all interleavings. -/
def ShmReachable (s : ShmWorld) : Prop := Reachable ShmStart ShmNext s

/-- What keeps a segment: a mapping, on the left, or a call, on the right. -/
def holder (s : ShmWorld) : ℕ⊕ℕ → Option ℕ
  | .inl m => (s.vma m).map Vma.shp
  | .inr task => (s.pc task).shp

/-- What the counters and marks of segments say, for any holders. -/
structure SegmentCore (sp : IpcSpace) (own : ℕ⊕ℕ → Option ℕ) (removed : ℕ → Bool) : Prop where
  /-- Identifiers and keys are consistent. -/
  keys : KeyInv sp.table sp.nextPerm
  /-- The counter of a segment is the number of its holders. -/
  counts : Counts sp.shmNattch own
  /-- A segment with a holder is in the table. -/
  held : ∀ h p, own h=some p → ∃ idx, sp.table.ids.ipcsIdr.find idx=some p
  /-- A segment in the table is marked exactly if its removal was requested. -/
  dest : ∀ idx p, sp.table.ids.ipcsIdr.find idx=some p →
    ((sp.table.perms p).mode&&&shmDest≠0 ↔ removed p=true)
  /-- A segment that was removed and is gone was destroyed once. -/
  gone : ∀ p, removed p=true → (∀ idx, sp.table.ids.ipcsIdr.find idx≠some p) → sp.destroys p=1
  /-- Other segments were not destroyed. -/
  kept : ∀ p, removed p=false ∨ (∃ idx, sp.table.ids.ipcsIdr.find idx=some p) → sp.destroys p=0
  /-- Only allocated segments are removed. -/
  fresh : ∀ p, removed p=true → p<sp.nextPerm

/-- Between steps, a marked segment in the table also has a holder. -/
structure SegmentInv (sp : IpcSpace) (own : ℕ⊕ℕ → Option ℕ) (removed : ℕ → Bool) : Prop
    extends SegmentCore sp own removed where
  /-- The last holder of a marked segment destroys it. -/
  marked : ∀ idx p, sp.table.ids.ipcsIdr.find idx=some p → removed p=true → sp.shmNattch p≠0

/-- Setting the mark sets it. -/
theorem dest_or (mode : BitVec 32) : (mode|||shmDest)&&&shmDest≠0 := by
  have h : (mode|||shmDest)&&&shmDest=shmDest := by
    ext i hi
    simp
    intro h
    exact .inr h
  rw [h]
  decide

/-- A change of the permission bits leaves the mark. -/
theorem dest_update (mode bits : BitVec 32) : (mode&&&~~~sIrwxugo|||bits&&&sIrwxugo)&&&shmDest=mode&&&shmDest := by
  have hout : ~~~sIrwxugo&&&shmDest=shmDest := by decide
  have hin : sIrwxugo&&&shmDest=0 := by decide
  calc (mode&&&~~~sIrwxugo|||bits&&&sIrwxugo)&&&shmDest
      =mode&&&(~~~sIrwxugo&&&shmDest)|||bits&&&(sIrwxugo&&&shmDest) := by
        ext i hi
        simp only [BitVec.getElem_and,BitVec.getElem_or,Bool.and_assoc,Bool.and_or_distrib_right]
    _=mode&&&shmDest := by
        rw [hout,hin]
        simp

theorem dest_new (flg : BitVec 32) : flg&&&sIrwxugo&&&shmDest=0 := by
  rw [BitVec.and_assoc,show sIrwxugo&&&shmDest=0 by decide]
  simp

variable {sp sp' : IpcSpace} {own : ℕ⊕ℕ → Option ℕ} {removed : ℕ → Bool} {h : ℕ⊕ℕ} {p idx t m : ℕ}
  {params : IpcParams} {id : ℤ} {pc : ShmatPc} {s s' : ShmWorld} {v : Vma} {caller : IpcCaller} {ok : Bool}

/-- A new holder is counted. -/
theorem SegmentInv.attach (hi : SegmentInv sp own removed) (hn : own h=none)
    (hf : sp.table.ids.ipcsIdr.find idx=some p) : SegmentInv (sp.attach p) (update own h (some p)) removed := by
  refine ⟨⟨hi.keys,hi.counts.acquire hn,fun k q hk => ?_,hi.dest,hi.gone,hi.kept,hi.fresh⟩,
    fun j q hq hr => ?_⟩
  · by_cases hkh : k=h
    · subst hkh
      rw [update_self] at hk
      cases hk
      exact ⟨idx,hf⟩
    · rw [update_of_ne hkh] at hk
      exact hi.held k q hk
  · have hm := hi.marked j q hq hr
    unfold IpcSpace.attach
    dsimp only
    by_cases hqp : q=p
    · subst hqp
      rw [update_self]
      omega
    · rw [update_of_ne hqp]
      exact hm

/-- A holder is no longer counted. -/
theorem SegmentCore.release (hi : SegmentCore sp own removed) (hp : own h=some p) :
    SegmentCore {sp with shmNattch := update sp.shmNattch p (sp.shmNattch p-1)}
      (update own h none) removed := by
  refine ⟨hi.keys,hi.counts.release hp,fun k q hk => ?_,hi.dest,hi.gone,hi.kept,hi.fresh⟩
  by_cases hkh : k=h
  · subst hkh
    rw [update_self] at hk
    cases hk
  · rw [update_of_ne hkh] at hk
    exact hi.held k q hk

theorem SegmentCore.find_destroy (hi : SegmentCore sp own removed) (hf : sp.table.ids.ipcsIdr.find idx=some p)
    {j q : ℕ} : (shmDestroy sp p).table.ids.ipcsIdr.find j=some q ↔
      sp.table.ids.ipcsIdr.find j=some q ∧ q≠p := by
  change (ipcRmid sp.table p).ids.ipcsIdr.find j=some q ↔ _
  rw [hi.keys.toIdInv.find_rmid hf]
  constructor
  · intro hj
    split at hj
    · cases hj
    · next hne =>
      refine ⟨hj,fun he => hne ?_⟩
      subst he
      exact hi.keys.toIdInv.index_unique hj hf
  · rintro ⟨hj,hne⟩
    rw [if_neg]
    · exact hj
    · intro he
      rw [he,hf] at hj
      exact hne (Option.some.inj hj).symm

/-- Destroying a segment without holders. -/
theorem SegmentCore.destroy (hi : SegmentCore sp own removed) (hf : sp.table.ids.ipcsIdr.find idx=some p)
    (h0 : sp.shmNattch p=0) : SegmentCore (shmDestroy sp p) own (update removed p true) := by
  have hother : ∀ q, q≠p → (shmDestroy sp p).table.perms q=sp.table.perms q :=
    fun q hq => ipcRmid_perms hq
  have hdestroys : ∀ q, q≠p → (shmDestroy sp p).destroys q=sp.destroys q :=
    fun q hq => update_of_ne hq _ _
  refine ⟨hi.keys.rmid hf,hi.counts,fun k q hk => ?_,fun j q hq => ?_,fun q hr hq => ?_,
    fun q hq => ?_,fun q hr => ?_⟩
  · obtain ⟨j,hj⟩ := hi.held k q hk
    refine ⟨j,(hi.find_destroy hf).mpr ⟨hj,fun he => ?_⟩⟩
    subst he
    exact hi.counts.not_owner h0 k hk
  · obtain ⟨hq,hne⟩ := (hi.find_destroy hf).mp hq
    rw [hother q hne,update_of_ne hne]
    exact hi.dest j q hq
  · by_cases hqp : q=p
    · subst hqp
      have hold := hi.kept q (.inr ⟨idx,hf⟩)
      change update sp.destroys q (sp.destroys q+1) q=1
      rw [update_self,hold]
    · rw [update_of_ne hqp] at hr
      rw [hdestroys q hqp]
      exact hi.gone q hr (fun j hj => hq j ((hi.find_destroy hf).mpr ⟨hj,hqp⟩))
  · have hne : q≠p := by
      intro he
      subst he
      rcases hq with hq|⟨j,hj⟩
      · rw [update_self] at hq
        cases hq
      · exact ((hi.find_destroy hf).mp hj).2 rfl
    rw [hdestroys q hne]
    rw [update_of_ne hne] at hq
    refine hi.kept q (hq.imp_right (fun hex => ?_))
    obtain ⟨j,hj⟩ := hex
    exact ⟨j,((hi.find_destroy hf).mp hj).1⟩
  · by_cases hqp : q=p
    · subst hqp
      exact hi.keys.allocated idx q hf
    · rw [update_of_ne hqp] at hr
      exact hi.fresh q hr

/-- Destroying a segment leaves the marks of the others. -/
theorem SegmentInv.destroy (hi : SegmentCore sp own removed) (hf : sp.table.ids.ipcsIdr.find idx=some p)
    (h0 : sp.shmNattch p=0) (hm : ∀ j q, sp.table.ids.ipcsIdr.find j=some q → q≠p → removed q=true →
      sp.shmNattch q≠0) : SegmentInv (shmDestroy sp p) own (update removed p true) := by
  refine ⟨hi.destroy hf h0,fun j q hq hr => ?_⟩
  obtain ⟨hq,hne⟩ := (hi.find_destroy hf).mp hq
  rw [update_of_ne hne] at hr
  exact hm j q hq hne hr

/-- A holder leaves; the last one of a marked segment destroys it. -/
theorem SegmentInv.detach (hi : SegmentInv sp own removed) (hp : own h=some p) :
    SegmentInv (sp.detach p) (update own h none) removed := by
  obtain ⟨idx,hf⟩ := hi.held h p hp
  have hcore := hi.toSegmentCore.release hp
  have hself : update sp.shmNattch p (sp.shmNattch p-1) p=sp.shmNattch p-1 :=
    update_self ..
  have hother : ∀ q, q≠p → update sp.shmNattch p (sp.shmNattch p-1) q=sp.shmNattch q :=
    fun q hq => update_of_ne hq _ _
  unfold IpcSpace.detach
  dsimp only
  split
  · next hlast =>
    have hr := (hi.dest idx p hf).mp hlast.2
    have hsame : update removed p true=removed := by
      rw [← hr]
      exact update_eq_self ..
    have hdestroyed := SegmentInv.destroy hcore hf hlast.1 (fun j q hq hne hrq => by
      dsimp only
      rw [hother q hne]
      exact hi.marked j q hq hrq)
    rwa [hsame] at hdestroyed
  · next hnot =>
    refine ⟨hcore,fun j q hq hr => ?_⟩
    by_cases hqp : q=p
    · subst hqp
      exact fun h0 => hnot ⟨h0,(hi.dest j q hq).mpr hr⟩
    · dsimp only
      rw [hother q hqp]
      exact hi.marked j q hq hr

/-- A change of a permission structure that leaves the mark, or sets it together
with the request. -/
theorem SegmentCore.setPerm {removed' : ℕ → Bool} (hi : SegmentCore sp own removed)
    (hf : sp.table.ids.ipcsIdr.find idx=some p) {f : KernIpcPerm → KernIpcPerm}
    (hkeys : KeyInv (sp.table.setPerm p f) sp.nextPerm) (hr : ∀ q, q≠p → removed' q=removed q)
    (hp : removed p=true → removed' p=true) (hd : (f (sp.table.perms p)).mode&&&shmDest≠0 ↔ removed' p=true) :
    SegmentCore {sp with table := sp.table.setPerm p f} own removed' := by
  refine ⟨hkeys,hi.counts,hi.held,fun j q hq => ?_,fun q hrq hq => ?_,fun q hq => ?_,fun q hrq => ?_⟩
  · dsimp only
    by_cases hqp : q=p
    · subst hqp
      rw [setPerm_self]
      exact hd
    · rw [setPerm_of_ne hqp,hr q hqp]
      exact hi.dest j q hq
  · by_cases hqp : q=p
    · subst hqp
      exact absurd hf (hq idx)
    · rw [hr q hqp] at hrq
      exact hi.gone q hrq hq
  · by_cases hqp : q=p
    · subst hqp
      exact hi.kept q (.inr ⟨idx,hf⟩)
    · rw [hr q hqp] at hq
      exact hi.kept q hq
  · by_cases hqp : q=p
    · subst hqp
      exact hi.keys.allocated idx q hf
    · rw [hr q hqp] at hrq
      exact hi.fresh q hrq

theorem SegmentInv.set (hi : SegmentInv sp own removed) (hf : sp.table.ids.ipcsIdr.find idx=some p) (uid gid : ℕ)
    (mode : BitVec 32) :
    SegmentInv {sp with table := sp.table.setPerm p (ipcUpdatePerm uid gid mode)} own removed := by
  have hkeys : KeyInv (sp.table.setPerm p (ipcUpdatePerm uid gid mode)) sp.nextPerm := by
    refine KeyInv.setPerm hi.keys ?_ ?_ ?_ (.inl ?_) <;> rfl
  refine ⟨hi.toSegmentCore.setPerm hf hkeys (fun _ _ => rfl) id ?_,hi.marked⟩
  change (_&&&~~~sIrwxugo|||mode&&&sIrwxugo)&&&shmDest≠0 ↔ _
  rw [dest_update]
  exact hi.dest idx p hf

/-- A requested removal marks a segment with holders and destroys another. -/
theorem SegmentInv.rmid (hi : SegmentInv sp own removed) (hf : sp.table.ids.ipcsIdr.find idx=some p) :
    SegmentInv (doShmRmid sp p) own (update removed p true) := by
  have hself : update removed p true p=true := update_self ..
  have hother : ∀ q, q≠p → update removed p true q=removed q :=
    fun q hq => update_of_ne hq _ _
  unfold doShmRmid
  split
  · next hn =>
    have hkeys : KeyInv (sp.table.setPerm p (fun perm =>
        {perm with mode := perm.mode|||shmDest, key := ipcPrivate})) sp.nextPerm := by
      refine KeyInv.setPerm hi.keys ?_ ?_ ?_ (.inr ?_) <;> rfl
    refine ⟨hi.toSegmentCore.setPerm hf hkeys hother (fun _ => hself)
      ⟨fun _ => hself,fun _ => dest_or _⟩,fun j q hq hr => ?_⟩
    by_cases hqp : q=p
    · subst hqp
      exact hn
    · rw [hother q hqp] at hr
      exact hi.marked j q hq hr
  · next hn =>
    exact SegmentInv.destroy hi.toSegmentCore hf (not_not.mp hn) (fun j q hq _ hr => hi.marked j q hq hr)

/-- An attempt that created nothing keeps the segments. -/
theorem SegmentInv.notCreated (hi : SegmentInv sp own removed) (h : NotCreated sp sp') :
    SegmentInv sp' own removed := by
  have hids := h.ids
  refine ⟨⟨hi.keys.notCreated h,?_,fun k q hk => ?_,fun j q hq => ?_,fun q hr hq => ?_,fun q hq => ?_,
    fun q hr => lt_of_lt_of_le (hi.fresh q hr) h.nextPerm⟩,fun j q hq hr => ?_⟩
  · rw [h.shmNattch]
    exact hi.counts
  · rw [hids]
    exact hi.held k q hk
  · rw [hids] at hq
    rw [h.perms q (hi.keys.allocated j q hq)]
    exact hi.dest j q hq
  · rw [hids] at hq
    rw [h.destroys]
    exact hi.gone q hr hq
  · rw [hids] at hq
    rw [h.destroys]
    exact hi.kept q hq
  · rw [hids] at hq
    rw [h.shmNattch]
    exact hi.marked j q hq hr

/-- A created segment has no holders and no mark. -/
theorem SegmentInv.created (hi : SegmentInv sp own removed) (h : Created sp sp' params)
    (hkeys : KeyInv sp'.table sp'.nextPerm) : SegmentInv sp' own removed := by
  have hunowned : ∀ k, own k≠some sp.nextPerm := by
    intro k hk
    obtain ⟨j,hj⟩ := hi.held k _ hk
    exact hi.keys.fresh j hj
  have hzero : sp.shmNattch sp.nextPerm=0 := hi.counts.eq_zero hunowned
  have hnattch : sp'.shmNattch=sp.shmNattch := by
    rw [h.shmNattch,← hzero]
    exact update_eq_self ..
  have hnot : removed sp.nextPerm=false := by
    cases hr : removed sp.nextPerm with
    | false => rfl
    | true => exact absurd (hi.fresh _ hr) (lt_irrefl _)
  have hstay : ∀ j q, sp.table.ids.ipcsIdr.find j=some q → sp'.table.ids.ipcsIdr.find j=some q := by
    intro j q hq
    rw [h.added.find]
    exact (if_neg (ne_firstFree hq)).trans hq
  have hcases : ∀ j q, sp'.table.ids.ipcsIdr.find j=some q →
      q=sp.nextPerm ∨ sp.table.ids.ipcsIdr.find j=some q := by
    intro j q hq
    rw [h.added.find] at hq
    split at hq
    · exact .inl (Option.some.inj hq).symm
    · exact .inr hq
  refine ⟨⟨hkeys,?_,fun k q hk => ?_,fun j q hq => ?_,fun q hr hq => ?_,fun q hq => ?_,fun q hr => ?_⟩,
    fun j q hq hr => ?_⟩
  · rw [hnattch]
    exact hi.counts
  · obtain ⟨j,hj⟩ := hi.held k q hk
    exact ⟨j,hstay j q hj⟩
  · rcases hcases j q hq with hq|hq
    · rw [hq,hnot,h.added.newMode]
      simp [IpcTable.setUp,newPerm,dest_new]
    · have hne := ne_of_lt (hi.keys.allocated j q hq)
      rw [h.added.others q hne,(setUp_notAdded sp.table _ _).others q hne]
      exact hi.dest j q hq
  · rw [h.destroys]
    exact hi.gone q hr (fun j hj => hq j (hstay j q hj))
  · rw [h.destroys]
    rcases hq with hq|⟨j,hj⟩
    · exact hi.kept q (.inl hq)
    · rcases hcases j q hj with hq|hq
      · exact hi.kept q (.inl (hq ▸ hnot))
      · exact hi.kept q (.inr ⟨j,hq⟩)
  · rw [h.nextPerm]
    exact Nat.lt_succ_of_lt (hi.fresh q hr)
  · rw [hnattch]
    rcases hcases j q hq with hq|hq
    · rw [hq,hnot] at hr
      cases hr
    · exact hi.marked j q hq hr

/-- A holder finds its segment again by any identifier with its index. -/
theorem SegmentInv.finds (hi : SegmentInv sp own removed) (hp : own h=some p)
    (hid : ipcidToIdx id=ipcidToIdx (sp.table.perms p).id) : ipcLock sp.table id=.ok p := by
  obtain ⟨idx,hf⟩ := hi.held h p hp
  exact hi.keys.toIdInv.lock hf (hid.trans (hi.keys.toIdInv.fields hf).2.2.1)

/-- Removals keep the identifiers of all objects. -/
theorem ipcRmid_id (t : IpcTable) (p q : ℕ) : ((ipcRmid t p).perms q).id=(t.perms q).id := by
  by_cases hq : q=p
  · subst hq
    rw [ipcRmid_self]
  · rw [ipcRmid_perms hq]

theorem detach_id (sp : IpcSpace) (p q : ℕ) : ((sp.detach p).table.perms q).id=(sp.table.perms q).id := by
  unfold IpcSpace.detach
  dsimp only
  split
  · exact ipcRmid_id sp.table p q
  · rfl

/-- A requested removal keeps identifiers. -/
theorem doShmRmid_id (sp : IpcSpace) (p q : ℕ) : ((doShmRmid sp p).table.perms q).id=(sp.table.perms q).id := by
  unfold doShmRmid
  split
  · dsimp only
    by_cases hq : q=p
    · subst hq
      rw [setPerm_self]
    · rw [setPerm_of_ne hq]
  · exact ipcRmid_id sp.table p q

/-- What a call remembers about its segment. -/
def PcId (t : IpcTable) : ShmatPc → Prop
  | .idle => True
  | .counted shmid shp => ipcidToIdx shmid=ipcidToIdx (t.perms shp).id
  | .filed shmid shp id => ipcidToIdx shmid=ipcidToIdx (t.perms shp).id ∧ id=(t.perms shp).id
  | .leaving shmid shp => ipcidToIdx shmid=ipcidToIdx (t.perms shp).id

structure ShmInv (s : ShmWorld) : Prop where
  /-- Counters and marks of segments. -/
  segments : SegmentInv s.space (holder s) s.removed
  /-- Mappings know the identifier of their segment. -/
  vmaId : ∀ m v, s.vma m=some v → v.id=(s.space.table.perms v.shp).id
  /-- Calls know the index of their segment. -/
  pcId : ∀ t, PcId s.space.table (s.pc t)
  bug : s.bug=false

/-- What a call remembers stays true while identifiers do not change. -/
theorem PcId.keep {t t' : IpcTable} (h : PcId t pc) (hid : ∀ p, pc.shp=some p → (t'.perms p).id=(t.perms p).id) :
    PcId t' pc := by
  cases pc with
  | idle => trivial
  | counted shmid shp | filed shmid shp id | leaving shmid shp =>
    have he := hid shp rfl
    simp only [PcId] at h ⊢
    rw [he]
    exact h

theorem holder_of_vma (hv : s.vma m=some v) : holder s (.inl m)=some v.shp := by
  simp [holder,hv]

/-- A change of the segments that holders do not notice. -/
theorem ShmInv.respace (hi : ShmInv s) (hs : SegmentInv sp (holder s) removed)
    (hid : ∀ h p, holder s h=some p → (sp.table.perms p).id=(s.space.table.perms p).id) :
    ShmInv {s with space := sp, removed := removed} := by
  refine ⟨hs,fun m v hv => ?_,fun t => (hi.pcId t).keep (fun p hp => hid (.inr t) p hp),hi.bug⟩
  exact (hi.vmaId m v hv).trans (hid _ _ (holder_of_vma hv)).symm

/-- The holders after a mapping changed. -/
theorem holder_vma (s : ShmWorld) (m : ℕ) (x : Option Vma) : holder {s with vma := update s.vma m x}=
      update (holder s) (.inl m) (x.map Vma.shp) := by
  funext h
  cases h with
  | inl k =>
    by_cases hk : k=m
    · subst hk
      simp [holder]
    · simp [holder,hk]
  | inr t => simp [holder]

/-- The holders after a call moved on. -/
theorem holder_pc (s : ShmWorld) (t : ℕ) (x : ShmatPc) : holder {s with pc := update s.pc t x}=
      update (holder s) (.inr t) x.shp := by
  funext h
  cases h with
  | inl m => simp [holder]
  | inr k =>
    by_cases hk : k=t
    · subst hk
      simp [holder]
    · simp [holder,hk]

/-- A call that keeps its segment moves on. -/
theorem ShmInv.goto (hi : ShmInv s) (hsame : pc.shp=(s.pc t).shp) (hp : PcId s.space.table pc) :
    ShmInv {s with pc := update s.pc t pc} := by
  have hown : holder {s with pc := update s.pc t pc}=holder s := by
    rw [holder_pc,hsame]
    exact update_eq_self ..
  refine ⟨by rw [hown]; exact hi.segments,hi.vmaId,fun k => ?_,hi.bug⟩
  by_cases hk : k=t
  · subst hk
    simpa using hp
  · simpa [hk] using hi.pcId k

/-- A call becomes a holder of a segment. -/
theorem ShmInv.callHolds (hi : ShmInv s) (hidle : (s.pc t).shp=none) (hf : s.space.table.ids.ipcsIdr.find idx=some p)
    (hpc : pc.shp=some p) (hp : PcId s.space.table pc) :
    ShmInv {s with space := s.space.attach p, pc := update s.pc t pc} := by
  have hseg := hi.segments.attach (h := .inr t) hidle hf
  have hown : holder {s with space := s.space.attach p, pc := update s.pc t pc}=
      update (holder s) (.inr t) (some p) := by
    rw [← hpc]
    exact holder_pc s t pc
  refine ⟨by rw [hown]; exact hseg,hi.vmaId,fun k => ?_,hi.bug⟩
  by_cases hk : k=t
  · subst hk
    simp only [update_self]
    exact hp
  · simp only [update_of_ne hk]
    exact hi.pcId k

/-- A call gives its segment up. -/
theorem ShmInv.callLeaves (hi : ShmInv s) (hpc : (s.pc t).shp=some p) :
    ShmInv {s with space := s.space.detach p, pc := update s.pc t .idle} := by
  have hseg := hi.segments.detach (h := .inr t) hpc
  have hown : holder {s with space := s.space.detach p, pc := update s.pc t .idle}=
      update (holder s) (.inr t) none := holder_pc s t .idle
  refine ⟨by rw [hown]; exact hseg,fun m v hv => ?_,fun k => ?_,hi.bug⟩
  · exact (hi.vmaId m v hv).trans (detach_id s.space p v.shp).symm
  · by_cases hk : k=t
    · subst hk
      simp [PcId]
    · simp only [update_of_ne hk]
      exact (hi.pcId k).keep (fun q _ => detach_id s.space p q)

/-- A mapping becomes a holder of a segment that has one. -/
theorem ShmInv.vmaHolds (hi : ShmInv s) (hm : s.vma m=none) (hv : holder s h=some v.shp)
    (hid : v.id=(s.space.table.perms v.shp).id) :
    ShmInv {s with space := s.space.attach v.shp, vma := update s.vma m (some v)} := by
  obtain ⟨idx,hf⟩ := hi.segments.held h v.shp hv
  have hfree : holder s (.inl m)=none := by
    simp [holder,hm]
  have hseg := hi.segments.attach hfree hf
  have hown : holder {s with space := s.space.attach v.shp, vma := update s.vma m (some v)}=
      update (holder s) (.inl m) (some v.shp) := holder_vma s m (some v)
  refine ⟨by rw [hown]; exact hseg,fun k w hw => ?_,hi.pcId,hi.bug⟩
  by_cases hk : k=m
  · subst hk
    simp only [update_self] at hw
    cases hw
    exact hid
  · simp only [update_of_ne hk] at hw
    exact hi.vmaId k w hw

/-- A mapping gives its segment up. -/
theorem ShmInv.vmaLeaves (hi : ShmInv s) (hv : s.vma m=some v) :
    ShmInv {s with space := s.space.detach v.shp, vma := update s.vma m none} := by
  have hseg := hi.segments.detach (holder_of_vma hv)
  have hown : holder {s with space := s.space.detach v.shp, vma := update s.vma m none}=
      update (holder s) (.inl m) none := holder_vma s m none
  refine ⟨by rw [hown]; exact hseg,fun k w hw => ?_,fun k => ?_,hi.bug⟩
  · by_cases hk : k=m
    · subst hk
      simp at hw
    · simp only [update_of_ne hk] at hw
      exact (hi.vmaId k w hw).trans (detach_id s.space v.shp w.shp).symm
  · exact (hi.pcId k).keep (fun q _ => detach_id s.space v.shp q)

theorem shmOpen_eq (h : ipcLock sp.table id=.ok p) : shmOpen sp id=.ok (p,sp.attach p) := by
  simp [shmOpen,h]

theorem shmClose_eq (h : ipcLock sp.table id=.ok p) : shmClose sp id=.ok (p,sp.detach p) := by
  simp [shmClose,h]

/-- A mapping finds its segment. -/
theorem ShmInv.vma_finds (hi : ShmInv s) (hv : s.vma m=some v) : ipcLock s.space.table v.id=.ok v.shp :=
  hi.segments.finds (holder_of_vma hv) (by rw [hi.vmaId m v hv])

theorem ShmInv.call_finds (hi : ShmInv s) (hp : (s.pc t).shp=some p)
    (hid : ipcidToIdx id=ipcidToIdx (s.space.table.perms p).id) : ipcLock s.space.table id=.ok p :=
  hi.segments.finds (h := .inr t) hp hid

/-- An attempt of shmget keeps the invariant. -/
theorem ShmInv.get (hi : ShmInv s) {lim : IpcLimits} {env : GetEnv}
    (h : shmStep s (.get lim params env caller)=some s') : ShmInv s' := by
  obtain ⟨r,hr,heffect⟩ :=
    ipcget_effect .shm hi.segments.keys.toIdInv lim params env caller
  simp only [shmStep,hr,Option.map_some] at h
  cases h
  have hlt : ∀ k p, holder s k=some p → p<s.space.nextPerm := by
    intro k p hp
    obtain ⟨j,hj⟩ := hi.segments.held k p hp
    exact hi.segments.keys.allocated j p hj
  rcases heffect with hno|⟨hcreated,hkey⟩
  · exact hi.respace (hi.segments.notCreated hno) (fun k p hp => by rw [hno.perms p (hlt k p hp)])
  · refine hi.respace (hi.segments.created hcreated (hi.segments.keys.created hcreated hkey))
      (fun k p hp => ?_)
    have hne := ne_of_lt (hlt k p hp)
    rw [hcreated.added.others p hne,(setUp_notAdded s.space.table _ _).others p hne]

/-- A started attach is counted on the segment it found. -/
theorem ShmInv.shmatStart (hi : ShmInv s) {shmid : ℤ} {addrOk : Bool} {shmflg : BitVec 32}
    {permission security : Option Errno}
    (h : shmStep s (.shmatStart t shmid addrOk shmflg caller permission security)=some s') : ShmInv s' := by
  obtain ⟨hidle,h⟩ := Option.ite_none_right_eq_some.mp h
  split at h
  · cases h
    exact hi
  · next r hr =>
    cases h
    obtain ⟨hl,hr2⟩ := doShmatStart_ok hr
    obtain ⟨idx,hidx,hf,_⟩ := ipcLockCheck_ok hl
    rw [hr2]
    refine hi.callHolds (by rw [hidle]; rfl) hf rfl ?_
    simp only [PcId]
    rw [hidx,(hi.segments.keys.toIdInv.fields hf).2.2.1]

/-- Setting the file up reads the identifier of the segment. -/
theorem ShmInv.shmatFile (hi : ShmInv s) (h : shmStep s (.shmatFile t ok)=some s') : ShmInv s' := by
  have hk := hi.pcId t
  simp only [shmStep] at h
  split at h
  · next shmid shp hpc =>
    rw [hpc] at hk
    cases h
    cases ok with
    | true => exact hi.goto (by rw [hpc]; rfl) ⟨hk,rfl⟩
    | false => exact hi.goto (by rw [hpc]; rfl) hk
  · cases h

/-- A new mapping is counted before the call drops its own count. -/
theorem ShmInv.shmatMap (hi : ShmInv s) (h : shmStep s (.shmatMap t m ok)=some s') : ShmInv s' := by
  have hk := hi.pcId t
  simp only [shmStep] at h
  split at h
  · next shmid shp id hpc =>
    rw [hpc] at hk
    have hheld : (s.pc t).shp=some shp := by
      rw [hpc]
      rfl
    split at h
    · cases h
      exact hi.goto (by rw [hpc]; rfl) hk.1
    · split at h
      · cases h
      · next hfree =>
        have hvma : s.vma m=none := by simpa using hfree
        have hfind : ipcLock s.space.table id=.ok shp := hi.call_finds hheld (by rw [hk.2])
        simp only [ShmWorld.locked,shmOpen_eq hfind] at h
        cases h
        have hnew := hi.vmaHolds (h := .inr t) (v := ⟨id,shp⟩) hvma hheld hk.2
        exact hnew.goto hheld.symm hk.1
  · cases h

/-- The end of a call drops its count. -/
theorem ShmInv.shmatEnd (hi : ShmInv s) (h : shmStep s (.shmatEnd t)=some s') : ShmInv s' := by
  have hk := hi.pcId t
  simp only [shmStep] at h
  split at h
  · next shmid shp hpc =>
    rw [hpc] at hk
    have hheld : (s.pc t).shp=some shp := by
      rw [hpc]
      rfl
    have hfind := hi.call_finds hheld hk
    simp only [ShmWorld.locked,doShmatEnd,shmClose_eq hfind] at h
    cases h
    exact hi.callLeaves hheld
  · cases h

theorem ShmInv.step {e : ShmEvent} (hi : ShmInv s) (h : ShmNext s e s') : ShmInv s' := by
  unfold ShmNext at h
  cases e with
  | get lim params env caller => exact hi.get h
  | set id caller refused uid gid mode =>
    simp only [shmStep] at h
    split at h
    · cases h
      exact hi
    · next p hp =>
      split at h
      · cases h
        exact hi
      · cases h
        obtain ⟨idx,hf⟩ := ipcctlPreDown_ok hp
        refine hi.respace (hi.segments.set hf uid gid mode) (fun k q _ => ?_)
        by_cases hq : q=p
        · subst hq
          rw [setPerm_self]
          rfl
        · rw [setPerm_of_ne hq]
  | rmid id caller refused =>
    simp only [shmStep] at h
    split at h
    · cases h
      exact hi
    · next p hp =>
      split at h
      · cases h
        exact hi
      · cases h
        obtain ⟨idx,hf⟩ := ipcctlPreDown_ok hp
        exact hi.respace (hi.segments.rmid hf) (fun k q _ => doShmRmid_id s.space p q)
  | shmatStart t shmid addrOk shmflg caller permission security => exact hi.shmatStart h
  | shmatFile t ok => exact hi.shmatFile h
  | shmatMap t m ok => exact hi.shmatMap h
  | shmatEnd t => exact hi.shmatEnd h
  | fork m child =>
    simp only [shmStep] at h
    split at h
    · cases h
    · next v hv =>
      split at h
      · cases h
      · next hfree =>
        have hvma : s.vma child=none := by simpa using hfree
        simp only [ShmWorld.locked,shmOpen_eq (hi.vma_finds hv)] at h
        cases h
        exact hi.vmaHolds hvma (holder_of_vma hv) (hi.vmaId m v hv)
  | close m =>
    simp only [shmStep] at h
    split at h
    · cases h
    · next v hv =>
      simp only [ShmWorld.locked,shmClose_eq (hi.vma_finds hv)] at h
      cases h
      exact hi.vmaLeaves hv

/-- Nothing exists in the initial state. -/
theorem shmStart_inv (h : ShmStart s) : ShmInv s := by
  obtain ⟨hspace,hnattch,hdestroys,hvma,hpc,hremoved,hbug⟩ := h
  have hown : holder s=fun _ => none := by
    funext k
    cases k with
    | inl m => simp [holder,hvma]
    | inr t => simp [holder,hpc,ShmatPc.shp]
  have hnone : ∀ idx, s.space.table.ids.ipcsIdr.find idx=none := by
    intro idx
    rw [hspace.1]
    exact find_empty
  refine ⟨⟨⟨keyStart_inv hspace,?_,fun k p hk => ?_,fun j p hp => ?_,fun p hr => ?_,fun p _ => ?_,
    fun p hr => ?_⟩,fun j p hp => ?_⟩,fun m v hv => ?_,fun t => ?_,hbug⟩
  · rw [hnattch,hown]
    exact counts_none
  · simp [hown] at hk
  · simp [hnone] at hp
  · simp [hremoved] at hr
  · rw [hdestroys]
  · simp [hremoved] at hr
  · simp [hnone] at hp
  · simp [hvma] at hv
  · rw [hpc]
    trivial

/-- The invariant holds along every interleaving. -/
theorem shmReachable_inv (h : ShmReachable s) : ShmInv s := by
  refine Reachable.invariant ?_ ?_ h
  · intro s hs
    exact shmStart_inv hs
  · intro s e s' _ hi hs
    exact hi.step hs

/-- The counter of a segment is the number of its mappings and of the calls that
are attaching it. -/
theorem ShmInv.nattch_split (hi : ShmInv s) (p : ℕ) : ∃ M C : Finset ℕ,
    s.space.shmNattch p=M.card+C.card ∧ (∀ m, (s.vma m).map Vma.shp=some p ↔ m∈M) ∧
      (∀ t, (s.pc t).shp=some p ↔ t∈C) := by
  obtain ⟨T,hT,hmem⟩ := hi.segments.counts p
  refine ⟨T.toLeft,T.toRight,?_,fun m => ?_,fun t => ?_⟩
  · rw [← hT,Finset.card_toLeft_add_card_toRight]
  · rw [Finset.mem_toLeft,← hmem]
    rfl
  · rw [Finset.mem_toRight,← hmem]
    rfl

/-- A segment was destroyed once if its removal was requested and it has no
attaches, and not at all otherwise. -/
theorem ShmInv.destroys_eq (hi : ShmInv s) (p : ℕ) :
    s.space.destroys p=if s.removed p=true ∧ s.space.shmNattch p=0 then 1 else 0 := by
  by_cases hr : s.removed p=true
  · by_cases hf : ∃ idx, s.space.table.ids.ipcsIdr.find idx=some p
    · obtain ⟨idx,hf⟩ := hf
      rw [if_neg (fun h => hi.segments.marked idx p hf hr h.2)]
      exact hi.segments.kept p (.inr ⟨idx,hf⟩)
    · have hgone : ∀ idx, s.space.table.ids.ipcsIdr.find idx≠some p := fun idx h => hf ⟨idx,h⟩
      have hzero : s.space.shmNattch p=0 :=
        hi.segments.counts.eq_zero (fun k hk => hf (hi.segments.held k p hk))
      rw [if_pos ⟨hr,hzero⟩]
      exact hi.segments.gone p hr hgone
  · rw [if_neg (fun h => hr h.1)]
    exact hi.segments.kept p (.inl (Bool.eq_false_of_not_eq_true hr))

/-- In every interleaving no BUG_ON fires, since every mapping and every call
finds its own segment by its index; the counter of a segment is the number of
its mappings plus the number of calls that are attaching it; and a segment was
destroyed exactly once if its removal was requested and its counter is zero,
and not at all otherwise. -/
theorem shm_lifetime {s : ShmWorld} (h : ShmReachable s) : s.bug=false ∧
    (∀ m v, s.vma m=some v → ipcLock s.space.table v.id=.ok v.shp) ∧
    (∀ t shmid shp id, s.pc t=.filed shmid shp id → ipcLock s.space.table id=.ok shp) ∧
    (∀ t shmid shp, s.pc t=.leaving shmid shp → ipcLock s.space.table shmid=.ok shp) ∧
    (∀ p, ∃ M C : Finset ℕ, s.space.shmNattch p=M.card+C.card ∧
      (∀ m, (s.vma m).map Vma.shp=some p ↔ m∈M) ∧ (∀ t, (s.pc t).shp=some p ↔ t∈C)) ∧
    (∀ p, s.space.destroys p=if s.removed p=true ∧ s.space.shmNattch p=0 then 1 else 0) := by
  have hi := shmReachable_inv h
  refine ⟨hi.bug,fun m v hv => hi.vma_finds hv,fun t shmid shp id hpc => ?_,
    fun t shmid shp hpc => ?_,hi.nattch_split,hi.destroys_eq⟩
  · have hk := hi.pcId t
    rw [hpc] at hk
    exact hi.call_finds (t := t) (by rw [hpc]; rfl) (by rw [hk.2])
  · have hk := hi.pcId t
    rw [hpc] at hk
    exact hi.call_finds (t := t) (by rw [hpc]; rfl) hk

/-- No segment, mapping or call exists. -/
def newShm : ShmWorld := ⟨newSpace,fun _ => none,fun _ => .idle,fun _ => false,false⟩

/-- A segment is attached, inherited and removed; a second call is attaching it
when one mapping is closed. It is still there, and both remaining holders are
counted. -/
theorem shm_lifetime_removed : ∃ s : ShmWorld, ShmReachable s ∧ s.removed 0=true ∧
    s.pc 2=.leaving 0 0 ∧ s.space.shmNattch 0=2 ∧ s.space.destroys 0=0 ∧
    ipcLock s.space.table 0=.ok 0 ∧ s.bug=false := by
  obtain ⟨s,hr,hrem,hpc,hn⟩ : ∃ s, ShmReachable s ∧ s.removed 0=true ∧ s.pc 2=.leaving 0 0 ∧ s.space.shmNattch 0=2 :=
    exists_run (fun _ _ _ => id) (s := newShm) ⟨⟨rfl,rfl⟩,rfl,rfl,rfl,rfl,rfl,rfl⟩
      [.get defaultLimits exclusivePage smoothEnv plainCaller,
      .shmatStart 1 0 true 0 plainCaller none none,.shmatFile 1 true,.shmatMap 1 0 true,.shmatEnd 1,
      .fork 0 1,.rmid 0 plainCaller none,.shmatStart 2 0 true 0 plainCaller none none,
      .shmatFile 2 false,.close 0] (by decide)
  obtain ⟨hbug,_,_,hcall,_,hdestroys⟩ := shm_lifetime hr
  refine ⟨s,hr,hrem,hpc,hn,?_,hcall 2 0 0 hpc,hbug⟩
  rw [hdestroys 0,hn]
  simp

end BlockIpc.ShmLifetime
