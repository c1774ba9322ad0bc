import BlockIpc.IpcAccounts

/-!
# The number of pages in shared memory segments

A namespace counts the pages of its segments in an int. A creation computes pages in the width of
a size, keeps them in an int and compares the new total with the limit as a size; the destruction
recomputes them. As long as the exact total of an accepted creation fits an int, the count is
exact and the limit is kept. Otherwise a creation that succeeds makes it wrong.
-/

namespace BlockIpc.ShmPages

open Function KernelNumbers TransitionRuns IpcObjects IpcKeys IpcAccounts

/-- Number of pages that a size occupies. -/
def exactPages (size : ℤ) : ℤ := (size+pageSize-1)/pageSize

/-- Exact number of pages in the segments of a namespace. -/
def livePages (s : IpcSpace) : ℤ := liveTotal exactPages s

/-- The tests of newseg accept a size. -/
def Accepts (s : IpcSpace) (lim : IpcLimits) (size : ℤ) : Prop :=
  ¬(size<shmmin ∨ lim.shmCtlmax<size) ∧ ¬lim.shmCtlall<toInt (s.total+numpages size)%sizeRange

/-- If the tests accept a size then the exact total with it is an int. -/
def PagesFit (s : IpcSpace) (lim : IpcLimits) (size : ℤ) : Prop :=
  Accepts s lim size → livePages s+exactPages size ≤ intMax

/-- Segments that a call may create fit. -/
def EventFits (s : IpcSpace) : KeyEvent → Prop
  | .get lim params _ _ => PagesFit s lim params.size
  | .retry lim params _ _ => PagesFit s lim params.size
  | _ => True

/-- A call that creates only segments that fit. -/
def FittingNext (s : IpcSpace) (e : KeyEvent) (s' : IpcSpace) : Prop := EventFits s e ∧ KeyNext .shm s e s'

/-- A table of segments after its initialisation. -/
def PagesStart (s : IpcSpace) : Prop := KeyStart s ∧ s.total=0

/-- States of all runs on the segments. -/
def PagesReachable (s : IpcSpace) : Prop := Reachable PagesStart (KeyNext .shm) s

/-- States of the runs that create only segments that fit. -/
def FittingReachable (s : IpcSpace) : Prop := Reachable PagesStart FittingNext s

/-- What holds of the segments in those runs. -/
structure PagesInv (s : IpcSpace) : Prop where
  keys : KeyInv s.table s.nextPerm
  exact : s.total=livePages s
  /-- Segments are not empty. -/
  positive : ∀ idx p, s.table.ids.ipcsIdr.find idx=some p → shmmin ≤ s.extent p
  bounded : s.total ≤ intMax

variable {size : ℤ} {s s' : IpcSpace} {idx p : ℕ} {lim : IpcLimits} {params : IpcParams} {caller : IpcCaller}

theorem exactPages_nonneg (h : shmmin ≤ size) : 0≤exactPages size := by
  unfold shmmin at h
  unfold exactPages pageSize
  omega

/-- Pages that fit an int are computed exactly, in both widths. -/
theorem numpages_exact (h : shmmin ≤ size) (hmax : exactPages size ≤ intMax) :
    numpages size=exactPages size ∧ (size+pageSize-1)%sizeRange/pageSize=exactPages size := by
  have h0 := exactPages_nonneg h
  have hwide : (size+pageSize-1)%sizeRange=size+pageSize-1 := by
    unfold shmmin at h
    unfold exactPages intMax at hmax
    unfold pageSize sizeRange at *
    omega
  have hquot : (size+pageSize-1)%sizeRange/pageSize=exactPages size := by
    rw [hwide]
    rfl
  refine ⟨?_,hquot⟩
  unfold numpages
  rw [hquot]
  exact toInt_of_range h0 hmax

theorem PagesInv.account (hi : PagesInv s) : AccountInv exactPages shmmin s :=
  ⟨hi.keys,hi.exact,hi.positive,hi.bounded⟩

theorem pages_of_account (hi : AccountInv exactPages shmmin s) : PagesInv s :=
  ⟨hi.keys,hi.exact,hi.least,hi.bounded⟩

/-- What newseg does: it fails and leaves the segments, or the tests accept the
size and the segment is created and counted. -/
theorem newseg_cases (s : IpcSpace) (lim : IpcLimits) (params : IpcParams) (env : CreateEnv) (caller : IpcCaller) :
    let r := newseg s lim params env caller
    (r.1<0 ∧ NotCreated s r.2) ∨ (Accepts s lim params.size ∧ Created s r.2 params ∧
      Charged s r.2 params.size (numpages params.size)) := by
  unfold newseg
  dsimp only
  split
  · exact .inl ⟨show -einval<0 by decide,NotCreated.refl s⟩
  · next hsize =>
    split
    · exact .inl ⟨show -enospc<0 by decide,NotCreated.refl s⟩
    · next hall =>
      rcases createObject_cases s params env caller lim.shmCtlmni params.size
        (numpages params.size) with ⟨hneg,hno,_⟩|⟨_,hcreated,hcharged⟩
      · exact .inl ⟨hneg,hno⟩
      · exact .inr ⟨⟨hsize,hall⟩,hcreated,hcharged⟩

/-- An accepted segment that fits is counted exactly, and the limit holds. -/
theorem PagesInv.charged_total (hi : PagesInv s) (ha : Accepts s lim size) (hfit : PagesFit s lim size)
    (hc : Charged s s' size (numpages size)) :
    s'.total=livePages s+exactPages size ∧ livePages s+exactPages size≤lim.shmCtlall := by
  have hmax := hfit ha
  have h0 := hi.account.nonneg (fun _ => exactPages_nonneg)
  have hexact := hi.exact
  have hsize : shmmin ≤ size := by
    have h := ha.1
    omega
  have hp := exactPages_nonneg hsize
  have hnum : numpages size=exactPages size := (numpages_exact hsize (by omega)).1
  have hsum : toInt (s.total+numpages size)=livePages s+exactPages size := by
    rw [hnum,hexact]
    exact toInt_of_range (by omega) hmax
  refine ⟨hc.total.trans hsum,?_⟩
  have hall := ha.2
  rw [hsum] at hall
  have hmod : (livePages s+exactPages size)%sizeRange=livePages s+exactPages size := by
    unfold intMax at hmax
    unfold sizeRange
    omega
  rw [hmod] at hall
  omega

/-- Creating a segment only if it fits keeps the count. -/
theorem PagesInv.get (hi : PagesInv s) {env : GetEnv} (hfit : PagesFit s lim params.size)
    (h : (ipcget .shm s lim params env caller).map Prod.snd=some s') : PagesInv s' := by
  refine pages_of_account (hi.account.get ?_ h)
  rcases newseg_cases s lim params env.create caller with ⟨_,hno⟩|⟨ha,hcreated,hcharged⟩
  · exact .inl hno
  · obtain ⟨htotal,_⟩ := hi.charged_total ha hfit hcharged
    exact .inr fun hk => hi.account.created hk hcreated hcharged (not_lt.mp (not_or.mp ha.1).1) htotal
      (htotal.trans_le (hfit ha))

/-- Destroying a segment keeps the count. -/
theorem PagesInv.destroy (hi : PagesInv s) (h : s.table.ids.ipcsIdr.find idx=some p) : PagesInv (shmDestroy s p) :=
  pages_of_account (hi.account.rmid (fun _ => exactPages_nonneg) h rfl rfl rfl rfl
    (fun hmax => (numpages_exact (hi.positive idx p h) hmax).2))

/-- A change of permissions, attaches and marks keeps the count. -/
theorem PagesInv.same (hi : PagesInv s) (hk : KeyInv s'.table s'.nextPerm) (hids : s'.table.ids=s.table.ids)
    (he : s'.extent=s.extent) (ht : s'.total=s.total) : PagesInv s' :=
  pages_of_account (hi.account.same hk hids he ht)

/-- Removing a segment, now or later, keeps the count. -/
theorem PagesInv.rmid (hi : PagesInv s) (h : s.table.ids.ipcsIdr.find idx=some p) : PagesInv (doShmRmid s p) := by
  have hk : KeyInv (doShmRmid s p).table (doShmRmid s p).nextPerm :=
    removeObject_keys .shm hi.keys h
  unfold doShmRmid at hk ⊢
  split
  · next hn =>
    rw [if_pos hn] at hk
    exact hi.same hk rfl rfl rfl
  · exact hi.destroy h

theorem PagesInv.detach (hi : PagesInv s) (h : s.table.ids.ipcsIdr.find idx=some p) : PagesInv (s.detach p) := by
  unfold IpcSpace.detach
  dsimp only
  split
  · have hcounted : PagesInv {s with shmNattch := update s.shmNattch p (s.shmNattch p-1)} :=
      hi.same hi.keys rfl rfl rfl
    exact hcounted.destroy h
  · exact hi.same hi.keys rfl rfl rfl

/-- Every call that creates only what fits keeps the count. -/
theorem PagesInv.step {e : KeyEvent} (hi : PagesInv s) (h : FittingNext s e s') : PagesInv s' := by
  obtain ⟨hfit,h⟩ := h
  have hk : KeyInv s'.table s'.nextPerm := hi.keys.step h
  rcases keyStep_cases h with rfl|⟨lim,params,env,caller,he,hs⟩|⟨idx,p,hf,rfl|⟨uid,gid,mode,rfl⟩|⟨_,rfl|rfl⟩⟩
  · exact hi
  · rcases he with rfl|rfl
    · exact hi.get hfit hs
    · exact hi.get hfit hs
  · exact hi.rmid hf
  · exact hi.same hk rfl rfl rfl
  · exact hi.same hk rfl rfl rfl
  · exact hi.detach hf

/-- The count is exact in every run that creates only what fits. -/
theorem fittingReachable_pages (h : FittingReachable s) : PagesInv s := by
  refine Reachable.invariant ?_ ?_ h
  · intro s hs
    exact pages_of_account (.start hs.1 hs.2)
  · intro s e s' _ hi hs
    exact hi.step hs

/-- In every run that creates only segments with which the exact total is still an
int, shm_tot is the exact number of pages in the segments, and after a
successful creation it is the exact number again and at most the limit. -/
theorem shm_tot_exact_of_fitting {s : IpcSpace} (h : FittingReachable s) :
    s.total=livePages s ∧ ∀ lim params env caller, PagesFit s lim params.size →
      0≤(newseg s lim params env caller).1 →
      (newseg s lim params env caller).2.total=livePages (newseg s lim params env caller).2 ∧
      livePages (newseg s lim params env caller).2≤lim.shmCtlall := by
  have hi := fittingReachable_pages h
  refine ⟨hi.exact,fun lim params env caller hfit hr => ?_⟩
  rcases newseg_cases s lim params env caller with ⟨hneg,_⟩|⟨ha,hcreated,hcharged⟩
  · exact absurd hr (not_le.mpr hneg)
  · obtain ⟨htotal,hlimit⟩ := hi.charged_total ha hfit hcharged
    have hlive : livePages (newseg s lim params env caller).2=livePages s+exactPages params.size :=
      liveTotal_created hi.keys hcreated hcharged
    rw [hlive]
    exact ⟨htotal,hlimit⟩

/-- The segments after the creation of one page. -/
def onePage : IpcSpace := (newseg newSpace defaultLimits exclusivePage smoothEnv.create plainCaller).2

/-- A run that creates one page. -/
theorem onePage_reachable : FittingReachable onePage := by
  have hstart : FittingReachable newSpace := Reachable.start ⟨⟨rfl,rfl⟩,rfl⟩
  refine Reachable.next (a := .get defaultLimits exclusivePage smoothEnv plainCaller) hstart
    ⟨fun _ => ?_,rfl⟩
  decide

/-- After one page, a private segment of one byte more than a page is two more. -/
theorem shm_tot_exact_of_fitting_pages : FittingReachable onePage ∧ onePage.total=1 ∧ livePages onePage=1 ∧
    (newseg onePage defaultLimits ⟨0,0o600,4097⟩ smoothEnv.create plainCaller).2.total=3 ∧
    livePages (newseg onePage defaultLimits ⟨0,0o600,4097⟩ smoothEnv.create plainCaller).2=3 := by
  obtain ⟨hexact,hnew⟩ := shm_tot_exact_of_fitting onePage_reachable
  have hone : onePage.total=1 := by decide
  have hthree : (newseg onePage defaultLimits ⟨0,0o600,4097⟩ smoothEnv.create plainCaller).2.total=3 := by
    decide
  obtain ⟨htotal,_⟩ := hnew defaultLimits ⟨0,0o600,4097⟩ smoothEnv.create plainCaller
    (fun _ => by decide) (by decide)
  exact ⟨onePage_reachable,hone,hexact.symm.trans hone,hthree,htotal.symm.trans hthree⟩

/-- A creation that succeeds although the exact total is no int leaves a wrong
count. -/
theorem newseg_wrong_of_misfit (hi : PagesInv s) {env : CreateEnv} (hr : 0≤(newseg s lim params env caller).1)
    (hmisfit : ¬PagesFit s lim params.size) :
    (newseg s lim params env caller).2.total≠livePages (newseg s lim params env caller).2 := by
  rcases newseg_cases s lim params env caller with ⟨hneg,_⟩|⟨_,hcreated,hcharged⟩
  · exact absurd hr (not_le.mpr hneg)
  · have hlive : livePages (newseg s lim params env caller).2=livePages s+exactPages params.size :=
      liveTotal_created hi.keys hcreated hcharged
    have hint := (toInt_isInt (s.total+numpages params.size)).2
    unfold PagesFit at hmisfit
    rw [Classical.not_imp] at hmisfit
    rw [hcharged.total,hlive]
    omega

/-- A largest segment size of sixteen tebibytes and the default limit on pages. -/
def hugeLimits : IpcLimits := {defaultLimits with shmCtlmax := 17592186044416}

/-- A segment of sixteen tebibytes has 4294967296 pages, which an int keeps as zero:
the creation succeeds, counts nothing and exceeds the limit on pages. -/
theorem newseg_hides_pages : ∃ s : IpcSpace, PagesReachable s ∧ s.total=0 ∧ livePages s=4294967296 ∧
    hugeLimits.shmCtlall<livePages s := by
  have h : (keyStep .shm newSpace (.get hugeLimits ⟨5,0o3600,17592186044416⟩ smoothEnv plainCaller)).map
      (fun s => (s.total,livePages s))=some (0,4294967296) := by decide
  obtain ⟨s,hs,he⟩ := Option.map_eq_some_iff.mp h
  simp only [Prod.mk.injEq] at he
  refine ⟨s,Reachable.next (Reachable.start ⟨⟨rfl,rfl⟩,rfl⟩) hs,he.1,he.2,?_⟩
  rw [he.2]
  decide

end BlockIpc.ShmPages
