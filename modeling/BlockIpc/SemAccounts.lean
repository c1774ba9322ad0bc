import BlockIpc.IpcAccounts

/-!
# The number of semaphores in a namespace

A namespace counts the semaphores of its arrays in an int and compares it with
a limit that the administrator may change to any int at any time. The creation
of an array reorders the comparison as a subtraction. The count is exact, so
that it is never negative and no sum or difference leaves the range of an int,
whichever step of a creation fails and also when the namespace exits.
-/

namespace BlockIpc.SemAccounts

open KernelNumbers TransitionRuns SlotTable IpcObjects IpcKeys IpcAccounts

/-- The four limits sem_ctls, each an int. -/
structure SemCtls where
  /-- Largest number of semaphores in an array. -/
  scSemmsl : ℤ
  /-- Largest number of semaphores. -/
  scSemmns : ℤ
  /-- Largest number of operations in a call. -/
  scSemopm : ℤ
  /-- Largest number of arrays. -/
  scSemmni : ℤ
  ints : IsInt scSemmsl ∧ IsInt scSemmns ∧ IsInt scSemopm ∧ IsInt scSemmni

/-- The part of a namespace that concerns semaphores. -/
structure SemNs where
  /-- The arrays; the total is used_sems. -/
  space : IpcSpace
  /-- The limits in force. -/
  ctls : SemCtls
  semArraySize : ℤ
  semSize : ℤ

/-- The limits as the common code reads them. -/
def SemNs.limits (s : SemNs) : IpcLimits :=
  ⟨s.ctls.scSemmsl,s.ctls.scSemmns,s.ctls.scSemmni,0,0,0,0,s.semArraySize,s.semSize⟩

/-- The initial limits: SEMMSL, SEMMNS, SEMOPM and SEMMNI. -/
def semInitCtls : SemCtls :=
  ⟨250,32000,32,128,⟨by decide,by decide⟩,⟨by decide,by decide⟩,⟨by decide,by decide⟩,⟨by decide,by decide⟩⟩

/-- A namespace after sem_init_ns. -/
def SemNsStart (s : SemNs) : Prop := KeyStart s.space ∧ s.space.total=0 ∧ s.ctls=semInitCtls

/-- What happens to the arrays of a namespace. -/
inductive SemNsEvent where
  /-- A write to the sysctl file. -/
  | sysctl (ctls : SemCtls)
  /-- First attempt of semget. -/
  | semget (params : IpcParams) (env : GetEnv) (caller : IpcCaller)
  /-- A further attempt of the common get code after -EAGAIN. -/
  | retry (params : IpcParams) (env : GetEnv) (caller : IpcCaller)
  | rmid (id : ℤ) (caller : IpcCaller) (refused : Option Errno)
  | set (id : ℤ) (caller : IpcCaller) (refused : Option Errno) (uid gid : ℕ) (mode : BitVec 32)
  | exit

/-- One call on the arrays of a namespace. -/
def semNsStep (s : SemNs) : SemNsEvent → Option SemNs
  | .sysctl ctls => some {s with ctls := ctls}
  | .semget params env caller =>
    (keyStep .sem s.space (.get s.limits params env caller)).map (fun space => {s with space := space})
  | .retry params env caller =>
    (keyStep .sem s.space (.retry s.limits params env caller)).map (fun space => {s with space := space})
  | .rmid id caller refused =>
    (keyStep .sem s.space (.rmid id caller refused)).map (fun space => {s with space := space})
  | .set id caller refused uid gid mode =>
    (keyStep .sem s.space (.set id caller refused uid gid mode)).map (fun space => {s with space := space})
  | .exit => (freeIpcs .sem s.space).map (fun space => {s with space := space})

/-- One call as a relation. -/
def SemNsNext (s : SemNs) (e : SemNsEvent) (s' : SemNs) : Prop := semNsStep s e=some s'

/-- Namespaces of all runs. -/
def SemNsReachable (s : SemNs) : Prop := Reachable SemNsStart SemNsNext s

/-- Exact number of semaphores in the arrays of a namespace. -/
def liveSems (s : IpcSpace) : ℤ := liveTotal (fun nsems => nsems) s

/-- What holds of the arrays of a namespace. -/
structure SemAccountInv (s : IpcSpace) : Prop where
  keys : KeyInv s.table s.nextPerm
  exact : s.total=liveSems s
  /-- Arrays are not empty. -/
  positive : ∀ idx p, s.table.ids.ipcsIdr.find idx=some p → 0<s.extent p
  /-- The count is at most the largest int. -/
  bounded : s.total ≤ intMax

variable {s s' : IpcSpace} {params : IpcParams}

theorem SemAccountInv.account (hi : SemAccountInv s) : AccountInv (fun nsems => nsems) 1 s :=
  ⟨hi.keys,hi.exact,hi.positive,hi.bounded⟩

theorem sems_of_account (hi : AccountInv (fun nsems => nsems) 1 s) : SemAccountInv s :=
  ⟨hi.keys,hi.exact,hi.least,hi.bounded⟩

theorem SemAccountInv.nonneg (hi : SemAccountInv s) : 0 ≤ s.total := hi.account.nonneg (fun _ h => by omega)

/-- What newary does: it fails and leaves the arrays, or the limit admits the new
array and it is created and counted. -/
theorem newary_cases (s : IpcSpace) (lim : IpcLimits) (params : IpcParams) (env : CreateEnv) (caller : IpcCaller) :
    let r := newary s lim params env caller
    (r.1<0 ∧ NotCreated s r.2) ∨
      (0<params.size ∧ s.total≤lim.scSemmns ∧ params.size≤lim.scSemmns-s.total ∧
        Created s r.2 params ∧ Charged s r.2 params.size params.size) := by
  unfold newary
  dsimp only
  split
  · exact .inl ⟨show -einval<0 by decide,NotCreated.refl s⟩
  · next hpos =>
    split
    · exact .inl ⟨show -enospc<0 by decide,NotCreated.refl s⟩
    · next hroom =>
      split
      · exact .inl ⟨show -eoverflow<0 by decide,NotCreated.refl s⟩
      · rcases createObject_cases s params {env with file := none} caller lim.scSemmni params.size
          params.size with ⟨hneg,hno,_⟩|⟨_,hcreated,hcharged⟩
        · exact .inl ⟨hneg,hno⟩
        · exact .inr ⟨by omega,by omega,by omega,hcreated,hcharged⟩

/-- A created array is counted exactly when the sum is an int. -/
theorem SemAccountInv.charged_total {nsems : ℤ} (hi : SemAccountInv s) (hc : Charged s s' nsems nsems) (hpos : 0<nsems)
    (hmax : s.total+nsems ≤ intMax) : s'.total=s.total+nsems := by
  have h0 := hi.nonneg
  rw [hc.total]
  exact toInt_of_range (by omega) hmax

/-- An attempt of a get call keeps the account, whatever int the limit is. -/
theorem SemAccountInv.get (hi : SemAccountInv s) {lim : IpcLimits} (hlim : IsInt lim.scSemmns) {env : GetEnv}
    {caller : IpcCaller} (h : (ipcget .sem s lim params env caller).map Prod.snd=some s') : SemAccountInv s' := by
  refine sems_of_account (hi.account.get ?_ h)
  rcases newary_cases s lim params env.create caller with ⟨_,hno⟩|⟨hpos,_,hroom,hcreated,hcharged⟩
  · exact .inl hno
  · have hmax := hlim.2
    have htotal := hi.charged_total hcharged hpos (by omega)
    exact .inr fun hk => hi.account.created hk hcreated hcharged hpos (by rw [← hi.account.exact]; exact htotal)
      (htotal.trans_le (by omega))

/-- Removing an array keeps the account. -/
theorem SemAccountInv.rmid (hi : SemAccountInv s) {idx p : ℕ} (h : s.table.ids.ipcsIdr.find idx=some p) :
    SemAccountInv (removeObject .sem s p) :=
  sems_of_account (hi.account.rmid (fun _ h => by omega) h rfl rfl rfl rfl (fun _ => rfl))

/-- Every call on the arrays keeps the account. -/
theorem SemAccountInv.keyStep {e : KeyEvent} (hi : SemAccountInv s) (h : KeyNext .sem s e s')
    (hlim : ∀ lim params env caller, e=.get lim params env caller ∨ e=.retry lim params env caller →
      IsInt lim.scSemmns) : SemAccountInv s' := by
  have hk : KeyInv s'.table s'.nextPerm := hi.keys.step h
  rcases keyStep_cases h with rfl|⟨lim,params,env,caller,he,hs⟩|⟨idx,p,hf,rfl|⟨uid,gid,mode,rfl⟩|⟨hshm,_⟩⟩
  · exact hi
  · exact hi.get (hlim lim params env caller he) hs
  · exact hi.rmid hf
  · exact sems_of_account (hi.account.same hk rfl rfl rfl)
  · cases hshm

/-- The exit of the namespace keeps the account and leaves no array. -/
theorem SemAccountInv.exit (hi : SemAccountInv s) :
    ∃ s', freeIpcs .sem s=some s' ∧ SemAccountInv s' ∧ ∀ j, s'.table.ids.ipcsIdr.find j=none := by
  have hfree : ∀ s idx p, SemAccountInv s → s.table.ids.ipcsIdr.find idx=some p →
      SemAccountInv (removeObject .sem s p) ∧ ∀ j, (removeObject .sem s p).table.ids.ipcsIdr.find j=
        if j=idx then none else s.table.ids.ipcsIdr.find j := fun s idx p hi hp =>
    ⟨hi.rmid hp,fun _ => hi.keys.toIdInv.find_rmid hp⟩
  have hloop : freeIpcs .sem s=_ := freeIpcsLoop_eq (P := SemAccountInv) (t := s.table.ids.ipcsIdr)
    (fun s idx p hi hp => ⟨(hfree s idx p hi hp).1,fun j hj => ((hfree s idx p hi hp).2 j).trans (if_neg hj)⟩)
    _ 0 0 s hi (by rw [length_entriesFrom_zero,zero_add,hi.keys.count]) (fun _ _ => rfl) (by omega)
  obtain ⟨hend,hall⟩ := foldl_free hfree _ s hi (entriesFrom_increasing s.table.ids.ipcsIdr 0)
    (fun e he => (mem_entriesFrom.mp he).2)
  refine ⟨_,hloop,hend,fun j => ?_⟩
  rcases hall j with h | ⟨h,hne⟩
  · exact h
  · rw [h]
    cases hf : s.table.ids.ipcsIdr.find j with
    | none => rfl
    | some p => exact absurd rfl (hne (j,p) (mem_entriesFrom.mpr ⟨Nat.zero_le _,hf⟩))

theorem SemAccountInv.step {s s' : SemNs} {e : SemNsEvent} (hi : SemAccountInv s.space)
    (h : SemNsNext s e s') : SemAccountInv s'.space := by
  have hlim : IsInt s.limits.scSemmns := s.ctls.ints.2.1
  unfold SemNsNext semNsStep at h
  cases e with
  | sysctl ctls =>
    cases h
    exact hi
  | semget params env caller | retry params env caller | rmid id caller refused | set id caller refused uid gid mode =>
    obtain ⟨space,hs,rfl⟩ := Option.map_eq_some_iff.mp h
    exact hi.keyStep hs (by rintro _ _ _ _ (he|he) <;> cases he <;> exact hlim)
  | exit =>
    obtain ⟨space,hs,rfl⟩ := Option.map_eq_some_iff.mp h
    obtain ⟨space',hs',hi',_⟩ := hi.exit
    rw [hs'] at hs
    cases hs
    exact hi'

theorem semNsReachable_inv {s : SemNs} (h : SemNsReachable s) : SemAccountInv s.space := by
  refine Reachable.invariant (I := fun s => SemAccountInv s.space) ?_ ?_ h
  · intro s hs
    exact sems_of_account (.start hs.1 hs.2.1)
  · intro s e s' _ hi hs
    exact hi.step hs

/-- In every run used_sems is the number of semaphores in the arrays, is not
negative, and its difference from a limit that is not below it is an int. When
an array is created the new sum is an int and at most the limit in force. The
exit of the namespace returns and brings the count to zero. -/
theorem used_sems_exact {s : SemNs} (h : SemNsReachable s) : s.space.total=liveSems s.space ∧ 0 ≤ s.space.total ∧
    (s.space.total ≤ s.ctls.scSemmns → IsInt (s.ctls.scSemmns-s.space.total)) ∧
    (∀ params env caller, 0≤(newary s.space s.limits params env caller).1 →
      IsInt (s.space.total+params.size) ∧
      (newary s.space s.limits params env caller).2.total=s.space.total+params.size ∧
      liveSems (newary s.space s.limits params env caller).2=s.space.total+params.size ∧
      liveSems (newary s.space s.limits params env caller).2 ≤ s.ctls.scSemmns) ∧
    ∃ space, freeIpcs .sem s.space=some space ∧ space.total=0 := by
  have hi := semNsReachable_inv h
  have h0 := hi.nonneg
  have hmax := s.ctls.ints.2.1.2
  refine ⟨hi.exact,h0,fun hle => ⟨by omega,by omega⟩,fun params env caller hr => ?_,?_⟩
  · rcases newary_cases s.space s.limits params env caller with ⟨hneg,_⟩|⟨hpos,hle,hroom,hcreated,hcharged⟩
    · exact absurd hr (not_le.mpr hneg)
    · have hlim : s.limits.scSemmns=s.ctls.scSemmns := rfl
      rw [hlim] at hle hroom
      have hlive : liveSems (newary s.space s.limits params env caller).2=s.space.total+params.size := by
        rw [hi.exact]
        exact liveTotal_created hi.keys hcreated hcharged
      refine ⟨⟨by omega,by omega⟩,hi.charged_total hcharged hpos (by omega),hlive,?_⟩
      rw [hlive]
      omega
  · obtain ⟨space,hs,hi',hempty⟩ := hi.exit
    refine ⟨space,hs,?_⟩
    rw [hi'.exact]
    exact total_of_empty hempty

/-- A new namespace. -/
def newSemNs : SemNs := ⟨newSpace,semInitCtls,144,24⟩

/-- A limit below the number of semaphores in use. -/
def loweredCtls : SemCtls :=
  ⟨250,-5,32,128,⟨by decide,by decide⟩,⟨by decide,by decide⟩,⟨by decide,by decide⟩,⟨by decide,by decide⟩⟩

/-- An array of three semaphores is created, the limit becomes negative and the
next creation fails: three semaphores are counted, and the exit returns. -/
theorem used_sems_exact_lowered : ∃ s : SemNs, SemNsReachable s ∧ s.ctls.scSemmns= -5 ∧
    liveSems s.space=3 ∧ ∃ space, freeIpcs .sem s.space=some space ∧ space.total=0 := by
  obtain ⟨s,hr,hmns,htotal⟩ : ∃ s, SemNsReachable s ∧ s.ctls.scSemmns= -5 ∧ s.space.total=3 :=
    exists_run (fun _ _ _ => id) (s := newSemNs) ⟨⟨rfl,rfl⟩,rfl,rfl⟩ [.semget ⟨5,0o3600,3⟩ smoothEnv plainCaller,
      .sysctl loweredCtls,.semget ⟨6,0o3600,1⟩ smoothEnv plainCaller] (by decide)
  obtain ⟨hexact,_,_,_,hexit⟩ := used_sems_exact hr
  exact ⟨s,hr,hmns,hexact.symm.trans htotal,hexit⟩

end BlockIpc.SemAccounts
