import BlockIpc.TransitionRuns
import BlockIpc.IpcObjects

/-!
# Keys name at most one object

A table is used by any number of get calls, removals, permission changes, attaches and detaches;
each call or attempt is atomic under the lock of the table. The walk for a key ends when it has
met as many objects as are counted, so the count must be exact. A key is given to a new object
only after the walk has missed it, and a segment that waits for its last user gives its key up.
-/

namespace BlockIpc.IpcKeys

open KernelNumbers TransitionRuns SlotTable IpcIdentifiers IpcObjects

variable {t : IpcTable} {s s' : IpcSpace} {params : IpcParams} {env : CreateEnv} {n idx p : ℕ} {id : ℤ}
  {caller : IpcCaller} {kind : IpcKind} {r : ℕ×IpcSpace}

/-- The walk goes over all entries from its index on, if it has counted those before. -/
theorem findkeyLoop_eq (key : ℤ) (fuel : ℕ) (total : ℤ) (nextId : ℕ)
    (htotal : total+(t.ids.ipcsIdr.entriesFrom nextId).length=t.ids.inUse)
    (hfuel : t.ids.ipcsIdr.slots.length-nextId<fuel) : findkeyLoop t key fuel total nextId=
      some (((t.ids.ipcsIdr.entriesFrom nextId).find? (fun e => decide ((t.perms e.2).key=key))).map Prod.snd) := by
  induction fuel generalizing total nextId with
  | zero => omega
  | succ fuel ih =>
    unfold findkeyLoop
    by_cases hmore : total<t.ids.inUse
    · rw [if_pos hmore]
      have hlt := lt_length_of_more htotal hmore
      rw [entriesFrom_eq] at htotal ⊢
      cases hf : t.ids.ipcsIdr.find nextId with
      | none =>
        rw [hf] at htotal
        exact ih total (nextId+1) htotal (by omega)
      | some ipc =>
        rw [hf,Option.elim_some,List.length_cons] at htotal
        dsimp only [Option.elim_some]
        rw [List.find?_cons]
        by_cases hkey : (t.perms ipc).key=key
        · rw [if_neg (not_not_intro hkey),decide_eq_true hkey]
          rfl
        · rw [if_pos hkey,decide_eq_false hkey]
          exact ih (total+1) (nextId+1) (by push_cast at htotal; omega) (by omega)
    · rw [if_neg hmore,List.length_eq_zero_iff.mp (by omega : (t.ids.ipcsIdr.entriesFrom nextId).length=0)]
      rfl

/-- The search for a key ends with the first object that has it. -/
theorem ipcFindkey_eq (hi : IdInv t) (key : ℤ) : ipcFindkey t key=
    some (((t.ids.ipcsIdr.entriesFrom 0).find? (fun e => decide ((t.perms e.2).key=key))).map Prod.snd) := by
  refine findkeyLoop_eq key _ 0 0 ?_ (by omega)
  rw [length_entriesFrom_zero,zero_add,hi.count]

/-- The search for a key ends; it finds an object exactly if one has the key. -/
theorem ipcFindkey_spec (hi : IdInv t) (key : ℤ) :
    (∃ idx p, ipcFindkey t key=some (some p) ∧ t.ids.ipcsIdr.find idx=some p ∧ (t.perms p).key=key) ∨
    (ipcFindkey t key=some none ∧ ∀ idx p, t.ids.ipcsIdr.find idx=some p → (t.perms p).key≠key) := by
  rw [ipcFindkey_eq hi]
  cases hf : (t.ids.ipcsIdr.entriesFrom 0).find? (fun e => decide ((t.perms e.2).key=key)) with
  | none =>
    refine .inr ⟨rfl,fun idx p hp hkey => ?_⟩
    exact List.find?_eq_none.mp hf (idx,p) (mem_entriesFrom.mpr ⟨Nat.zero_le _,hp⟩) (decide_eq_true hkey)
  | some e =>
    have hkey := List.find?_some hf
    exact .inl ⟨e.1,e.2,rfl,(mem_entriesFrom.mp (List.mem_of_find?_eq_some hf)).2,of_decide_eq_true hkey⟩

/-- A creation failed: only an object that is not in the table changed. -/
structure NotCreated (s s' : IpcSpace) : Prop where
  /-- The set of identifiers is unchanged. -/
  ids : s'.table.ids=s.table.ids
  /-- Allocated objects are unchanged. -/
  perms : ∀ q<s.nextPerm, s'.table.perms q=s.table.perms q
  /-- An object may have been allocated. -/
  nextPerm : s.nextPerm ≤ s'.nextPerm
  extent : s'.extent=s.extent
  /-- Attaches are unchanged. -/
  shmNattch : s'.shmNattch=s.shmNattch
  total : s'.total=s.total
  destroys : s'.destroys=s.destroys

/-- The permission structure of a new object before it is added. -/
def newPerm (s : IpcSpace) (params : IpcParams) : KernIpcPerm :=
  {s.table.perms s.nextPerm with key := params.key, mode := params.flg&&&sIrwxugo}

structure Created (s s' : IpcSpace) (params : IpcParams) : Prop where
  added : Added (s.table.setUp s.nextPerm (newPerm s params)) s'.table s.nextPerm
  /-- One more object is allocated. -/
  nextPerm : s'.nextPerm=s.nextPerm+1
  shmNattch : s'.shmNattch=Function.update s.shmNattch s.nextPerm 0
  destroys : s'.destroys=s.destroys

theorem NotCreated.refl (s : IpcSpace) : NotCreated s s := ⟨rfl,fun _ _ => rfl,le_refl _,rfl,rfl,rfl,rfl⟩

/-- Some external code used by a creation fails with this value. -/
def HookFails (env : CreateEnv) (code : ℤ) : Prop :=
  ∃ err : Errno, (env.security=some err ∨ env.file=some err ∨ env.idrGetNew=some err) ∧ err.code=code

/-- What a call of a creator does: it fails with an error number, which is
EEXIST only when external code says so, or it creates an object. -/
def Creates (s : IpcSpace) (params : IpcParams) (env : CreateEnv) (r : ℤ×IpcSpace) : Prop :=
  (r.1<0 ∧ NotCreated s r.2 ∧ (r.1= -eexist → HookFails env (-eexist))) ∨
    (r.1=(r.2.table.perms s.nextPerm).id ∧ Created s r.2 params)

theorem creates_refused {code : ℤ} (h : code<0) (hne : code≠ -eexist) : Creates s params env (code,s) :=
  Or.inl ⟨h,NotCreated.refl s,fun he => absurd he hne⟩

/-- A created object is charged: its extent is stored and its amount is added to
the total. -/
structure Charged (s s' : IpcSpace) (extent amount : ℤ) : Prop where
  extent : s'.extent=Function.update s.extent s.nextPerm extent
  total : s'.total=toInt (s.total+amount)

/-- What the common part of the creators does: it fails, or it creates an object
and charges it. -/
theorem createObject_cases (s : IpcSpace) (params : IpcParams) (env : CreateEnv) (caller : IpcCaller)
    (limit extent amount : ℤ) : let r := createObject s params env caller limit extent amount
    (r.1<0 ∧ NotCreated s r.2 ∧ (r.1= -eexist → HookFails env (-eexist))) ∨
      (r.1=(r.2.table.perms s.nextPerm).id ∧ Created s r.2 params ∧ Charged s r.2 extent amount) := by
  have hsetUp : NotCreated s {s with
      table := s.table.setUp s.nextPerm (newPerm s params), nextPerm := s.nextPerm+1} :=
    ⟨rfl,fun q hq => (setUp_notAdded _ _ _).others q (ne_of_lt hq),Nat.le_succ _,rfl,rfl,rfl,rfl⟩
  unfold createObject
  by_cases halloc : env.alloc=false
  · rw [if_pos halloc]
    exact .inl ⟨show -enomem<0 by decide,NotCreated.refl s,
      fun he => absurd he (show -enomem≠ -eexist by decide)⟩
  · rw [if_neg halloc]
    dsimp only
    cases hsec : env.security with
    | some err => exact .inl ⟨err.neg,hsetUp,fun he => ⟨err,.inl hsec,he⟩⟩
    | none =>
      dsimp only
      cases hfile : env.file with
      | some err => exact .inl ⟨err.neg,hsetUp,fun he => ⟨err,.inr (.inl hfile),he⟩⟩
      | none =>
        dsimp only
        have hcases := ipcAddid_cases (s.table.setUp s.nextPerm (newPerm s params)) s.nextPerm limit
          env.idrGetNew caller.euid caller.egid
        split
        · next hneg =>
          rcases hcases with ⟨_,hno⟩|⟨hidx,_⟩
          · refine .inl ⟨hneg,⟨hno.ids,fun q hq => ?_,Nat.le_succ _,rfl,rfl,rfl,rfl⟩,fun he => ?_⟩
            · exact (hno.others q (ne_of_lt hq)).trans (hsetUp.perms q hq)
            · rcases ipcAddid_error hneg with hfull|⟨err,herr,hcode⟩
              · exact absurd (hfull.symm.trans he) (by decide)
              · exact ⟨err,.inr (.inr herr),hcode.symm.trans he⟩
          · exact absurd hneg (by unfold newPerm at hidx; rw [hidx]; exact not_lt.mpr (Int.natCast_nonneg _))
        · next hpos =>
          rcases hcases with ⟨hneg,_⟩|⟨_,hadd⟩
          · exact absurd hneg hpos
          · exact .inr ⟨rfl,⟨hadd,rfl,rfl,rfl⟩,rfl,rfl⟩

/-- The common part of the creators behaves like a creator. -/
theorem createObject_creates (s : IpcSpace) (params : IpcParams) (env : CreateEnv) (caller : IpcCaller)
    (limit extent amount : ℤ) : Creates s params env (createObject s params env caller limit extent amount) := by
  rcases createObject_cases s params env caller limit extent amount with hno|⟨hid,hcreated,_⟩
  · exact .inl hno
  · exact .inr ⟨hid,hcreated⟩

/-- The file of a segment is not used by the other creators. -/
theorem Creates.withoutFile {r : ℤ×IpcSpace} (h : Creates s params {env with file := none} r) :
    Creates s params env r := by
  rcases h with ⟨hneg,hno,hee⟩|hcreated
  · refine .inl ⟨hneg,hno,fun he => ?_⟩
    obtain ⟨err,hfrom,hcode⟩ := hee he
    refine ⟨err,?_,hcode⟩
    rcases hfrom with hs|hf|hg
    · exact .inl hs
    · cases hf
    · exact .inr (.inr hg)
  · exact .inr hcreated

theorem getnew_creates (kind : IpcKind) (s : IpcSpace) (lim : IpcLimits) (params : IpcParams)
    (env : CreateEnv) (caller : IpcCaller) : Creates s params env (getnew kind s lim params env caller) := by
  cases kind with
  | sem =>
    change Creates s params env (newary s lim params env caller)
    unfold newary
    dsimp only
    split_ifs
    iterate 3 exact creates_refused (by decide) (by decide)
    exact (createObject_creates s params _ caller _ _ _).withoutFile
  | msg => exact (createObject_creates s params _ caller _ _ _).withoutFile
  | shm =>
    change Creates s params env (newseg s lim params env caller)
    unfold newseg
    dsimp only
    split_ifs
    iterate 2 exact creates_refused (by decide) (by decide)
    exact createObject_creates s params env caller _ _ _

/-- What holds of a table whose objects are among the first n allocated. -/
structure KeyInv (t : IpcTable) (n : ℕ) : Prop extends IdInv t where
  /-- Objects in the table were allocated. -/
  allocated : ∀ idx p, t.ids.ipcsIdr.find idx=some p → p<n
  /-- A key names one object. -/
  unique : ∀ i j p q, t.ids.ipcsIdr.find i=some p → t.ids.ipcsIdr.find j=some q →
    (t.perms p).key=(t.perms q).key → (t.perms p).key≠ipcPrivate → p=q

theorem KeyInv.fresh (hi : KeyInv t n) (idx : ℕ) : t.ids.ipcsIdr.find idx≠some n :=
  fun h => lt_irrefl _ (hi.allocated idx n h)

/-- A failed creation keeps the keys. -/
theorem KeyInv.notCreated (hi : KeyInv s.table s.nextPerm) (h : NotCreated s s') : KeyInv s'.table s'.nextPerm := by
  have hids := h.ids
  have hperm : ∀ idx p, s.table.ids.ipcsIdr.find idx=some p → s'.table.perms p=s.table.perms p :=
    fun idx p hp => h.perms p (hi.allocated idx p hp)
  refine ⟨⟨?_,?_,?_,fun idx p hp => ?_⟩,fun idx p hp => ?_,fun i j p q hp hq => ?_⟩
  · rw [hids]
    exact hi.seqMax
  · rw [hids]
    exact hi.seq
  · rw [hids]
    exact hi.count
  · rw [hids] at hp
    rw [hperm idx p hp]
    exact hi.entry idx p hp
  · rw [hids] at hp
    exact lt_of_lt_of_le (hi.allocated idx p hp) h.nextPerm
  · rw [hids] at hp hq
    rw [hperm i p hp,hperm j q hq]
    exact hi.unique i j p q hp hq

/-- Creating an object with the private key, or with one that no object has,
keeps the keys unique. -/
theorem KeyInv.created (hi : KeyInv s.table s.nextPerm) (h : Created s s' params) (hkey : params.key=ipcPrivate ∨
      ∀ idx p, s.table.ids.ipcsIdr.find idx=some p → (s.table.perms p).key≠params.key) :
    KeyInv s'.table s'.nextPerm := by
  have hstart := hi.toIdInv.notAdded (setUp_notAdded s.table s.nextPerm (newPerm s params)) hi.fresh
  have hnew : (s'.table.perms s.nextPerm).key=params.key := by
    rw [h.added.newKey]
    simp [IpcTable.setUp,newPerm]
  have hold : ∀ idx p, s.table.ids.ipcsIdr.find idx=some p → s'.table.perms p=s.table.perms p := by
    intro idx p hp
    have hne := ne_of_lt (hi.allocated idx p hp)
    exact (h.added.others p hne).trans ((setUp_notAdded s.table _ _).others p hne)
  have hcases : ∀ idx p, s'.table.ids.ipcsIdr.find idx=some p →
      p=s.nextPerm ∨ s.table.ids.ipcsIdr.find idx=some p := by
    intro idx p hp
    rw [h.added.find] at hp
    split at hp
    · exact .inl (Option.some.inj hp).symm
    · exact .inr hp
  refine ⟨hstart.added h.added hi.fresh,fun idx p hp => ?_,fun i j p q hp hq he hprivate => ?_⟩
  · rw [h.nextPerm]
    rcases hcases idx p hp with hp|hp
    · rw [hp]
      exact Nat.lt_succ_self _
    · exact Nat.lt_succ_of_lt (hi.allocated idx p hp)
  · rcases hcases i p hp with hp|hp <;> rcases hcases j q hq with hq|hq
    · exact hp.trans hq.symm
    · rw [hp,hnew] at he hprivate
      rw [hold j q hq] at he
      exact absurd he.symm (hkey.resolve_left hprivate j q hq)
    · rw [hold i p hp] at he hprivate
      rw [hq,hnew] at he
      exact absurd he (hkey.resolve_left (fun hp => hprivate (he.trans hp)) i p hp)
    · rw [hold i p hp] at he hprivate
      rw [hold j q hq] at he
      exact hi.unique i j p q hp hq he hprivate

/-- The identifier of a created object is not an error number. -/
theorem KeyInv.created_id (hi : KeyInv s.table s.nextPerm) (h : Created s s' params) :
    0≤(s'.table.perms s.nextPerm).id := by
  have hstart := hi.toIdInv.notAdded (setUp_notAdded s.table s.nextPerm (newPerm s params)) hi.fresh
  rw [h.added.newId]
  exact (ipcBuildid_fields (Int.natCast_nonneg _) (h.added.index_lt hstart) hstart.seq.1
    hstart.seq.2).2.1

/-- A creator that returns an error number has changed nothing, and it returns
EEXIST only if external code does. -/
theorem KeyInv.creation_failed {r : ℤ×IpcSpace} (hi : KeyInv s.table s.nextPerm) (hc : Creates s params env r)
    (hneg : r.1<0) : NotCreated s r.2 ∧ (r.1= -eexist → HookFails env (-eexist)) := by
  rcases hc with ⟨_,hno⟩|⟨hid,hcreated⟩
  · exact hno
  · have hpos := hi.created_id hcreated
    omega

/-- Removing an object keeps the keys unique. -/
theorem KeyInv.rmid (hi : KeyInv t n) (h : t.ids.ipcsIdr.find idx=some p) : KeyInv (ipcRmid t p) n := by
  have hcases : ∀ j q, (ipcRmid t p).ids.ipcsIdr.find j=some q →
      t.ids.ipcsIdr.find j=some q ∧ (ipcRmid t p).perms q=t.perms q := by
    intro j q hq
    rw [hi.toIdInv.find_rmid h] at hq
    split at hq
    · cases hq
    · next hj =>
      refine ⟨hq,ipcRmid_perms (fun he => hj ?_)⟩
      rw [he] at hq
      exact hi.toIdInv.index_unique hq h
  refine ⟨hi.toIdInv.rmid h,fun j q hq => hi.allocated j q (hcases j q hq).1,
    fun i j q r hq hr => ?_⟩
  rw [(hcases i q hq).2,(hcases j r hr).2]
  exact hi.unique i j q r (hcases i q hq).1 (hcases j r hr).1

/-- A change that leaves the key or makes it private keeps the keys unique. -/
theorem KeyInv.setPerm (hi : KeyInv t n) {f : KernIpcPerm → KernIpcPerm}
    (hd : (f (t.perms p)).deleted=(t.perms p).deleted) (hid : (f (t.perms p)).id=(t.perms p).id)
    (hseq : (f (t.perms p)).seq=(t.perms p).seq)
    (hkey : (f (t.perms p)).key=(t.perms p).key ∨ (f (t.perms p)).key=ipcPrivate) : KeyInv (t.setPerm p f) n := by
  have hkeys : ∀ q, ((t.setPerm p f).perms q).key≠ipcPrivate →
      ((t.setPerm p f).perms q).key=(t.perms q).key := by
    intro q hq
    by_cases hqp : q=p
    · subst hqp
      rw [setPerm_self] at hq ⊢
      exact hkey.resolve_right hq
    · rw [setPerm_of_ne hqp]
  refine ⟨hi.toIdInv.setPerm hd hid hseq,hi.allocated,fun i j q r hq hr he hprivate => ?_⟩
  have hprivate' : ((t.setPerm p f).perms r).key≠ipcPrivate := he ▸ hprivate
  rw [hkeys q hprivate] at he hprivate
  rw [hkeys r hprivate'] at he
  exact hi.unique i j q r hq hr he hprivate

/-- Calls on a table. -/
inductive KeyEvent where
  /-- First attempt of a get call. -/
  | get (lim : IpcLimits) (params : IpcParams) (env : GetEnv) (caller : IpcCaller)
  /-- A further attempt of the common get code after -EAGAIN. -/
  | retry (lim : IpcLimits) (params : IpcParams) (env : GetEnv) (caller : IpcCaller)
  /-- IPC_RMID; a hook may refuse it. -/
  | rmid (id : ℤ) (caller : IpcCaller) (refused : Option Errno)
  /-- IPC_SET; a hook or a further check of the kind may refuse it. -/
  | set (id : ℤ) (caller : IpcCaller) (refused : Option Errno) (uid gid : ℕ) (mode : BitVec 32)
  /-- do_shmat counts itself. -/
  | shmatStart (shmid : ℤ) (addrOk : Bool) (shmflg : BitVec 32) (caller : IpcCaller)
      (permission security : Option Errno)
  /-- A mapping of a segment with attaches is opened. -/
  | shmOpen (id : ℤ)
  /-- A mapping is closed, or do_shmat ends; it was counted. -/
  | shmClose (id : ℤ)

/-- One call on a table of a kind, when it can be made. -/
def keyStep (kind : IpcKind) (s : IpcSpace) : KeyEvent → Option IpcSpace
  | .get lim params env caller => (getCall kind s lim params env caller).map Prod.snd
  | .retry lim params env caller => (ipcget kind s lim params env caller).map Prod.snd
  | .rmid id caller refused =>
    match ipcctlPreDown s.table id caller with
    | .error _ => some s
    | .ok ipcp => if refused.isSome=true then some s else some (removeObject kind s ipcp)
  | .set id caller refused uid gid mode =>
    match ipcctlPreDown s.table id caller with
    | .error _ => some s
    | .ok ipcp =>
      if refused.isSome=true then some s
      else some {s with table := s.table.setPerm ipcp (ipcUpdatePerm uid gid mode)}
  | .shmatStart shmid addrOk shmflg caller permission security =>
    if kind=.shm then
      match doShmatStart s shmid addrOk shmflg caller permission security with
      | .error _ => some s
      | .ok r => some r.2
    else none
  | .shmOpen id =>
    match shmOpen s id with
    | .error _ => none
    | .ok r => if kind=.shm ∧ 0<s.shmNattch r.1 then some r.2 else none
  | .shmClose id =>
    match shmClose s id with
    | .error _ => none
    | .ok r => if kind=.shm ∧ 0<s.shmNattch r.1 then some r.2 else none

/-- One call as a relation. -/
def KeyNext (kind : IpcKind) (s : IpcSpace) (e : KeyEvent) (s' : IpcSpace) : Prop := keyStep kind s e=some s'

/-- A table after its initialisation. -/
def KeyStart (s : IpcSpace) : Prop := s.table.ids=ipcInitIds ∧ s.nextPerm=0

/-- States of all runs on a table of a kind. -/
def KeyReachable (kind : IpcKind) (s : IpcSpace) : Prop := Reachable KeyStart (KeyNext kind) s

theorem keyStart_inv (h : KeyStart s) : KeyInv s.table s.nextPerm := by
  have hinit : IdInv s.table := by
    have hi := ipcInitIds_inv s.table.perms
    rw [← h.1] at hi
    exact hi
  have hnone : ∀ idx, s.table.ids.ipcsIdr.find idx=none := by
    intro idx
    rw [h.1]
    exact find_empty
  refine ⟨hinit,fun idx p hp => ?_,fun i j p q hp => ?_⟩
  · rw [hnone idx] at hp
    cases hp
  · rw [hnone i] at hp
    cases hp

/-- What an attempt of a get call with a key that is not private does. -/
theorem ipcgetPublic_spec (kind : IpcKind) (hi : IdInv s.table) (lim : IpcLimits) (params : IpcParams) (env : GetEnv)
    (caller : IpcCaller) : (∃ idx p r, s.table.ids.ipcsIdr.find idx=some p ∧ (s.table.perms p).key=params.key ∧
      ipcgetPublic kind s lim params env caller=some (r,s) ∧ (r<0 ∨ r=(s.table.perms p).id) ∧
      (params.flg&&&ipcCreat≠0 ∧ params.flg&&&ipcExcl≠0 → r= -eexist)) ∨
    ((∀ idx p, s.table.ids.ipcsIdr.find idx=some p → (s.table.perms p).key≠params.key) ∧
      ∃ r, ipcgetPublic kind s lim params env caller=some r ∧ Creates s params env.create r) := by
  unfold ipcgetPublic
  rcases ipcFindkey_spec hi params.key with ⟨idx,p,hf,hp,hkey⟩|⟨hf,hnone⟩
  · left
    rw [hf]
    dsimp only
    by_cases hflg : params.flg&&&ipcCreat≠0 ∧ params.flg&&&ipcExcl≠0
    · rw [if_pos hflg]
      exact ⟨idx,p,_,hp,hkey,rfl,.inl (by decide),fun _ => rfl⟩
    · rw [if_neg hflg]
      by_cases hmore : moreChecks kind s p params≠0
      · rw [if_pos hmore]
        refine ⟨idx,p,_,hp,hkey,rfl,.inl ?_,fun hf => absurd hf hflg⟩
        have hneg : moreChecks kind s p params=0 ∨ moreChecks kind s p params= -einval := by
          cases kind <;> unfold moreChecks <;> dsimp only
          · split <;> simp
          · simp
          · split <;> simp
        rw [hneg.resolve_left hmore]
        decide
      · rw [if_neg hmore]
        refine ⟨idx,p,_,hp,hkey,rfl,?_,fun hf => absurd hf hflg⟩
        unfold ipcCheckPerms
        split
        · exact .inl (by decide)
        · cases env.associate with
          | some err => exact .inl err.neg
          | none => exact .inr rfl
  · right
    rw [hf]
    refine ⟨hnone,?_⟩
    dsimp only
    split
    · exact ⟨_,rfl,creates_refused (by decide) (by decide)⟩
    · split
      · exact ⟨_,rfl,creates_refused (by decide) (by decide)⟩
      · exact ⟨_,rfl,getnew_creates kind s lim params env.create caller⟩

/-- An attempt of a get call creates an object, with the private key or one that
no object has, or it changes nothing that is in the table. -/
theorem ipcget_effect (kind : IpcKind) (hi : IdInv s.table) (lim : IpcLimits) (params : IpcParams) (env : GetEnv)
    (caller : IpcCaller) : ∃ r, ipcget kind s lim params env caller=some r ∧ (NotCreated s r.2 ∨
      (Created s r.2 params ∧ (params.key=ipcPrivate ∨
        ∀ idx p, s.table.ids.ipcsIdr.find idx=some p → (s.table.perms p).key≠params.key))) := by
  unfold ipcget
  split
  · next hprivate =>
    refine ⟨_,rfl,?_⟩
    unfold ipcgetNew
    split
    · exact .inl (NotCreated.refl s)
    · rcases getnew_creates kind s lim params env.create caller with ⟨_,hno,_⟩|⟨_,hcreated⟩
      · exact .inl hno
      · exact .inr ⟨hcreated,.inl hprivate⟩
  · rcases ipcgetPublic_spec kind hi lim params env caller with
      ⟨_,_,r,_,_,hr,_⟩|⟨hnone,r,hr,hc⟩
    · exact ⟨(r,s),hr,.inl (NotCreated.refl s)⟩
    · rcases hc with ⟨_,hno,_⟩|⟨_,hcreated⟩
      · exact ⟨r,hr,.inl hno⟩
      · exact ⟨r,hr,.inr ⟨hcreated,.inr hnone⟩⟩

/-- A get call keeps the keys unique. -/
theorem ipcget_keys (kind : IpcKind) (hi : KeyInv s.table s.nextPerm) (lim : IpcLimits) (params : IpcParams)
    (env : GetEnv) (caller : IpcCaller) :
    ∃ r, ipcget kind s lim params env caller=some r ∧ KeyInv r.2.table r.2.nextPerm := by
  obtain ⟨r,hr,heffect⟩ := ipcget_effect kind hi.toIdInv lim params env caller
  refine ⟨r,hr,?_⟩
  rcases heffect with hno|⟨hcreated,hkey⟩
  · exact hi.notCreated hno
  · exact hi.created hcreated hkey

/-- A control call works on an object in the table. -/
theorem ipcctlPreDown_ok (h : ipcctlPreDown t id caller=.ok p) : ∃ idx, t.ids.ipcsIdr.find idx=some p := by
  unfold ipcctlPreDown at h
  split at h
  · cases h
  · next q hq =>
    split at h
    · cases h
      obtain ⟨idx,_,hf,_⟩ := ipcLockCheck_ok hq
      exact ⟨idx,hf⟩
    · cases h

theorem removeObject_keys (kind : IpcKind) (hi : KeyInv s.table s.nextPerm) (h : s.table.ids.ipcsIdr.find idx=some p) :
    KeyInv (removeObject kind s p).table (removeObject kind s p).nextPerm := by
  cases kind with
  | sem | msg => exact hi.rmid h
  | shm =>
    change KeyInv (doShmRmid s p).table (doShmRmid s p).nextPerm
    unfold doShmRmid
    split
    · dsimp only
      refine KeyInv.setPerm hi ?_ ?_ ?_ (.inr ?_) <;> rfl
    · exact hi.rmid h

theorem detach_keys (hi : KeyInv s.table s.nextPerm) (h : s.table.ids.ipcsIdr.find idx=some p) :
    KeyInv (s.detach p).table (s.detach p).nextPerm := by
  unfold IpcSpace.detach
  dsimp only
  split
  · exact hi.rmid h
  · exact hi

/-- A started attach found the segment by its identifier. -/
theorem doShmatStart_ok {shmid : ℤ} {addrOk : Bool} {shmflg : BitVec 32} {permission security : Option Errno}
    (h : doShmatStart s shmid addrOk shmflg caller permission security=.ok r) :
    ipcLockCheck s.table shmid=.ok r.1 ∧ r.2=s.attach r.1 := by
  unfold doShmatStart at h
  split at h
  · cases h
  · split at h
    · cases h
    · next hl =>
      split at h
      · cases h
      · split at h
        · cases h
        · cases h
          exact ⟨hl,rfl⟩

/-- A new mapping is counted on the segment its identifier denotes. -/
theorem shmOpen_ok (h : shmOpen s id=.ok r) : ipcLock s.table id=.ok r.1 ∧ r.2=s.attach r.1 := by
  unfold shmOpen at h
  split at h
  · cases h
  · next hp =>
    cases h
    exact ⟨hp,rfl⟩

/-- A closed mapping leaves the segment its identifier denotes. -/
theorem shmClose_ok (h : shmClose s id=.ok r) : ipcLock s.table id=.ok r.1 ∧ r.2=s.detach r.1 := by
  unfold shmClose at h
  split at h
  · cases h
  · next hp =>
    cases h
    exact ⟨hp,rfl⟩

/-- What a call does: nothing, an attempt of the common get code, or a change of one object. -/
theorem keyStep_cases {e : KeyEvent} (h : KeyNext kind s e s') :
    s'=s ∨ (∃ lim params env caller, (e=.get lim params env caller ∨ e=.retry lim params env caller) ∧
      (ipcget kind s lim params env caller).map Prod.snd=some s') ∨
    ∃ idx p, s.table.ids.ipcsIdr.find idx=some p ∧ (s'=removeObject kind s p ∨
      (∃ uid gid mode, s'={s with table := s.table.setPerm p (ipcUpdatePerm uid gid mode)}) ∨
      kind=.shm ∧ (s'=s.attach p ∨ s'=s.detach p)) := by
  unfold KeyNext keyStep at h
  cases e with
  | get lim params env caller =>
    dsimp only [getCall] at h
    split at h
    · unfold semget at h
      split at h
      · exact .inl (Option.some.inj h).symm
      · exact .inr (.inl ⟨_,_,_,_,.inl rfl,h⟩)
    · exact .inr (.inl ⟨_,_,_,_,.inl rfl,h⟩)
    · exact .inr (.inl ⟨_,_,_,_,.inl rfl,h⟩)
  | retry lim params env caller => exact .inr (.inl ⟨_,_,_,_,.inr rfl,h⟩)
  | rmid id caller refused | set id caller refused uid gid mode =>
    dsimp only at h
    split at h
    · exact .inl (Option.some.inj h).symm
    · next p hp =>
      split at h
      · exact .inl (Option.some.inj h).symm
      · obtain ⟨idx,hf⟩ := ipcctlPreDown_ok hp
        cases h
        exact .inr (.inr ⟨idx,p,hf,by first | exact .inl rfl | exact .inr (.inl ⟨_,_,_,rfl⟩)⟩)
  | shmatStart shmid addrOk shmflg caller permission security =>
    obtain ⟨hk,h⟩ := Option.ite_none_right_eq_some.mp h
    split at h
    · exact .inl (Option.some.inj h).symm
    · next r hr =>
      cases h
      obtain ⟨hl,hs⟩ := doShmatStart_ok hr
      obtain ⟨idx,_,hf,_⟩ := ipcLockCheck_ok hl
      exact .inr (.inr ⟨idx,_,hf,.inr (.inr ⟨hk,.inl hs⟩)⟩)
  | shmOpen id =>
    dsimp only at h
    split at h
    · cases h
    · next r hr =>
      obtain ⟨⟨hk,_⟩,rfl⟩ := of_guard h
      obtain ⟨hl,hs⟩ := shmOpen_ok hr
      obtain ⟨idx,_,hf⟩ := ipcLock_ok hl
      exact .inr (.inr ⟨idx,_,hf,.inr (.inr ⟨hk,.inl hs⟩)⟩)
  | shmClose id =>
    dsimp only at h
    split at h
    · cases h
    · next r hr =>
      obtain ⟨⟨hk,_⟩,rfl⟩ := of_guard h
      obtain ⟨hl,hs⟩ := shmClose_ok hr
      obtain ⟨idx,_,hf⟩ := ipcLock_ok hl
      exact .inr (.inr ⟨idx,_,hf,.inr (.inr ⟨hk,.inr hs⟩)⟩)

/-- Every call keeps the keys unique. -/
theorem KeyInv.step {e : KeyEvent} (hi : KeyInv s.table s.nextPerm) (h : KeyNext kind s e s') :
    KeyInv s'.table s'.nextPerm := by
  rcases keyStep_cases h with rfl|⟨lim,params,env,caller,_,hs⟩|⟨idx,p,hf,rfl|⟨uid,gid,mode,rfl⟩|⟨_,rfl|rfl⟩⟩
  · exact hi
  · obtain ⟨r,hr,hk⟩ := ipcget_keys kind hi lim params env caller
    rw [hr] at hs
    cases hs
    exact hk
  · exact removeObject_keys kind hi hf
  · refine KeyInv.setPerm hi ?_ ?_ ?_ (.inl ?_) <;> rfl
  · exact hi
  · exact detach_keys hi hf

/-- Keys are unique in every run. -/
theorem keyReachable_inv (h : KeyReachable kind s) : KeyInv s.table s.nextPerm := by
  refine Reachable.invariant (I := fun s => KeyInv s.table s.nextPerm) ?_ ?_ h
  · intro s hs
    exact keyStart_inv hs
  · intro s e s' _ hi hs
    exact hi.step hs

/-- In every run on a table of any kind, a key other than the private one names
at most one object; every attempt of a get call returns; with a key that is in
use and without IPC_EXCL it returns the object's identifier or an error and
changes nothing; with IPC_CREAT and IPC_EXCL it fails with -EEXIST exactly if
the key is in use, as far as external code does not; and when it fails the
table and all of its objects are unchanged. -/
theorem keys_unique {kind : IpcKind} {s : IpcSpace} (h : KeyReachable kind s) :
    (∀ i j p q, s.table.ids.ipcsIdr.find i=some p → s.table.ids.ipcsIdr.find j=some q →
      (s.table.perms p).key=(s.table.perms q).key → (s.table.perms p).key≠ipcPrivate → p=q) ∧
    ∀ lim params env caller, ∃ r, ipcget kind s lim params env caller=some r ∧
      (∀ i p, s.table.ids.ipcsIdr.find i=some p → (s.table.perms p).key=params.key →
        params.key≠ipcPrivate → params.flg&&&ipcExcl=0 →
        (r.1=(s.table.perms p).id ∨ r.1<0) ∧ r.2=s) ∧
      (params.key≠ipcPrivate → params.flg&&&ipcCreat≠0 → params.flg&&&ipcExcl≠0 →
        ¬HookFails env.create (-eexist) →
        (r.1= -eexist ↔ ∃ i p, s.table.ids.ipcsIdr.find i=some p ∧ (s.table.perms p).key=params.key)) ∧
      (r.1<0 → NotCreated s r.2) := by
  have hi := keyReachable_inv h
  refine ⟨hi.unique,fun lim params env caller => ?_⟩
  by_cases hprivate : params.key=ipcPrivate
  · refine ⟨ipcgetNew kind s lim params env caller,by simp [ipcget,hprivate],
      fun _ _ _ _ hne => absurd hprivate hne,fun hne => absurd hprivate hne,fun hneg => ?_⟩
    unfold ipcgetNew at hneg ⊢
    split
    · exact NotCreated.refl s
    · next hpre =>
      rw [if_neg hpre] at hneg
      exact (hi.creation_failed (getnew_creates kind s lim params env.create caller) hneg).1
  · have hpublic : ipcget kind s lim params env caller=ipcgetPublic kind s lim params env caller :=
      if_neg hprivate
    rw [hpublic]
    rcases ipcgetPublic_spec kind hi.toIdInv lim params env caller with
      ⟨idx,p,r,hp,hkey,hr,hval,hexcl⟩|⟨hnone,r,hr,hc⟩
    · refine ⟨(r,s),hr,fun i q hq hqk _ _ => ?_,fun _ hcreat hex _ => ?_,fun _ => NotCreated.refl s⟩
      · have hqp : q=p := hi.unique i idx q p hq hp (hqk.trans hkey.symm) (hqk ▸ hprivate)
        rw [hqp]
        exact ⟨hval.symm,rfl⟩
      · exact ⟨fun _ => ⟨idx,p,hp,hkey⟩,fun _ => hexcl ⟨hcreat,hex⟩⟩
    · refine ⟨r,hr,fun i q hq hqk => absurd hqk (hnone i q hq),fun _ _ _ hhooks => ?_,
        fun hneg => (hi.creation_failed hc hneg).1⟩
      constructor
      · intro he
        have hneg : r.1<0 := by
          rw [he]
          decide
        exact absurd ((hi.creation_failed hc hneg).2 he) hhooks
      · intro hex
        obtain ⟨i,q,hq,hqk⟩ := hex
        exact absurd hqk (hnone i q hq)

/-- An empty table. -/
def newSpace : IpcSpace := ⟨⟨ipcInitIds,fun _ => ⟨false,0,0,0,0,0,0,0,0⟩⟩,0,fun _ => 0,fun _ => 0,0,fun _ => 0⟩

/-- A user without privileges. -/
def plainCaller : IpcCaller := ⟨1000,1000,fun _ => false,false⟩

/-- Limits of a new namespace. -/
def defaultLimits : IpcLimits := ⟨250,32000,128,16,33554432,2097152,4096,144,24⟩

/-- External code that never fails. -/
def smoothEnv : GetEnv := ⟨true,none,none,⟨true,none,none,none⟩⟩

/-- Create a page of shared memory with key 5, unless the key is in use. -/
def exclusivePage : IpcParams := ⟨5,0o3600,4096⟩

/-- A segment with an attach is removed and keeps its slot without its key; a
second one is created with the key, and a third exclusive creation fails. -/
theorem keys_unique_deferred : ∃ s : IpcSpace, KeyReachable .shm s ∧
    s.table.ids.ipcsIdr.find 0=some 0 ∧ s.table.ids.ipcsIdr.find 1=some 1 ∧
    (s.table.perms 0).key=ipcPrivate ∧ (s.table.perms 1).key=5 ∧
    ∃ r, ipcget .shm s defaultLimits exclusivePage smoothEnv plainCaller=some r ∧ r.1= -eexist ∧
      NotCreated s r.2 := by
  obtain ⟨s,hr,hf0,hf1,hk0,hk1⟩ : ∃ s, KeyReachable .shm s ∧ s.table.ids.ipcsIdr.find 0=some 0 ∧
      s.table.ids.ipcsIdr.find 1=some 1 ∧ (s.table.perms 0).key=ipcPrivate ∧ (s.table.perms 1).key=5 :=
    exists_run (fun _ _ _ => id) (s := newSpace) ⟨rfl,rfl⟩ [.get defaultLimits exclusivePage smoothEnv plainCaller,
      .shmatStart 0 true 0 plainCaller none none,.rmid 0 plainCaller none,
      .get defaultLimits exclusivePage smoothEnv plainCaller] (by decide)
  obtain ⟨_,hget⟩ := keys_unique hr
  obtain ⟨r,hcall,_,hexcl,hfailed⟩ := hget defaultLimits exclusivePage smoothEnv plainCaller
  have hhooks : ¬HookFails smoothEnv.create (-eexist) := by
    rintro ⟨err,hfrom,_⟩
    rcases hfrom with hf|hf|hf <;> cases hf
  have heexist := (hexcl (by decide) (by decide) (by decide) hhooks).mpr ⟨1,1,hf1,hk1⟩
  refine ⟨s,hr,hf0,hf1,hk0,hk1,r,hcall,heexist,hfailed ?_⟩
  rw [heexist]
  decide

end BlockIpc.IpcKeys
