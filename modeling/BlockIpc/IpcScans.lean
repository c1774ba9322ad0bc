import BlockIpc.IpcAccounts

/-!
# Walks over the indices of IPC objects

The walks over a table have no bound but the number of objects that the table counts.
Each one is compared with the list of the entries in the order of their indices.
-/

namespace BlockIpc.IpcScans

open List TransitionRuns SlotTable IpcIdentifiers IpcObjects IpcKeys IpcAccounts

/-- The walk of shm_get_stat; add is shm_add_rss_swap. -/
def shmGetStatLoop (add : ℕ×ℕ → ℕ → ℕ×ℕ) (t : IpcTable) : ℕ → ℤ → ℕ → ℕ×ℕ → Option (ℕ×ℕ)
  | 0,_,_,_ => none
  | fuel+1,total,nextId,acc =>
    if total<t.ids.inUse then
      match t.ids.ipcsIdr.find nextId with
      | none => shmGetStatLoop add t fuel total (nextId+1) acc
      | some ipc => shmGetStatLoop add t fuel (total+1) (nextId+1) (add acc ipc)
    else some acc

/-- The resident and swapped pages of all segments; none if the walk did not end. -/
def shmGetStat (add : ℕ×ℕ → ℕ → ℕ×ℕ) (t : IpcTable) : Option (ℕ×ℕ) :=
  shmGetStatLoop add t (t.ids.ipcsIdr.slots.length+1) 0 0 (0,0)

/-- The walk of ipc_get_maxid, with the number of indices that are left below IPCMNI. -/
def maxidLoop (t : IpcTable) : ℕ → ℕ → ℤ → ℤ → ℤ
  | 0,_,_,maxId => maxId
  | left+1,id,total,maxId =>
    if total<t.ids.inUse then
      match t.ids.ipcsIdr.find id with
      | none => maxidLoop t left (id+1) total maxId
      | some _ => maxidLoop t left (id+1) (total+1) id
    else maxId

/-- The largest index in use. -/
def ipcGetMaxid (t : IpcTable) : ℤ :=
  if t.ids.inUse=0 then -1
  else if t.ids.inUse=ipcmni then ipcmni-1
  else maxidLoop t ipcmni.toNat 0 0 (-1)

/-- The first walk of sysvipc_find_ipc: count the objects below a position. -/
def countLoop (t : IpcTable) : ℕ → ℕ → ℤ → ℤ
  | 0,_,total => total
  | left+1,id,total =>
    if total<t.ids.inUse then
      countLoop t left (id+1) (if (t.ids.ipcsIdr.find id).isSome=true then total+1 else total)
    else total

/-- The second walk of sysvipc_find_ipc: the next object and the position after it. -/
def findLoop (t : IpcTable) : ℕ → ℕ → Option (ℕ×ℕ)
  | 0,_ => none
  | left+1,pos =>
    match t.ids.ipcsIdr.find pos with
    | some ipc => some (ipc,pos+1)
    | none => findLoop t left (pos+1)

/-- The object at a position or after it, and the new position. -/
def sysvipcFindIpc (t : IpcTable) (pos : ℕ) : Option (ℕ×ℕ) :=
  if t.ids.inUse ≤ countLoop t pos 0 0 then none else findLoop t (ipcmni.toNat-pos) pos

/-- The element after a position: an object and its position. -/
def sysvipcProcNext (t : IpcTable) (pos : ℕ) : Option (Option ℕ×ℕ) :=
  (sysvipcFindIpc t pos).map (fun e => (some e.1,e.2))

/-- The element at a position; none is the start token. -/
def sysvipcProcStart (t : IpcTable) (pos : ℤ) : Option (Option ℕ×ℕ) :=
  if pos<0 then none
  else if pos=0 then some (none,0)
  else (sysvipcFindIpc t (pos-1).toNat).map (fun e => (some e.1,e.2))

/-- The elements after a reported position; the reader stops after some of them and starts again at the
next position. The outer none is a reader that does not end. -/
def procElements (t : IpcTable) (stopped : ℕ → Bool) : ℕ → ℕ → Option (List (Option ℕ×ℕ))
  | 0,_ => none
  | fuel+1,pos =>
    match if stopped pos=true then sysvipcProcStart t (pos+1) else sysvipcProcNext t pos with
    | none => some []
    | some e => (procElements t stopped fuel e.2).map (e::·)

/-- All elements that a reader from position 0 sees. -/
def procRead (t : IpcTable) (stopped : ℕ → Bool) : Option (List (Option ℕ×ℕ)) :=
  match sysvipcProcStart t 0 with
  | none => some []
  | some e => (procElements t stopped (ipcmni.toNat+1) e.2).map (e::·)

variable {t : IpcTable} {s : IpcSpace}

theorem entriesFrom_ipcmni (hi : IdInv t) {i : ℕ} (h : ipcmni.toNat ≤ i) : t.ids.ipcsIdr.entriesFrom i=[] := by
  refine eq_nil_iff_forall_not_mem.mpr (fun e he => ?_)
  obtain ⟨hle,hf⟩ := mem_entriesFrom.mp he
  have hlt := (hi.entry e.1 e.2 hf).1
  unfold ipcmni at h hlt
  omega

/-- shm_get_stat goes over all entries from its index on, if it has counted those before. -/
theorem shmGetStatLoop_eq (add : ℕ×ℕ → ℕ → ℕ×ℕ) (fuel : ℕ) (total : ℤ) (nextId : ℕ) (acc : ℕ×ℕ)
    (htotal : total+(t.ids.ipcsIdr.entriesFrom nextId).length=t.ids.inUse)
    (hfuel : t.ids.ipcsIdr.slots.length-nextId<fuel) : shmGetStatLoop add t fuel total nextId acc=
      some ((t.ids.ipcsIdr.entriesFrom nextId).foldl (fun acc e => add acc e.2) acc) := by
  induction fuel generalizing total nextId acc with
  | zero => omega
  | succ fuel ih =>
    unfold shmGetStatLoop
    by_cases hmore : total<t.ids.inUse
    · rw [if_pos hmore]
      have hlt := lt_length_of_more htotal hmore
      rw [entriesFrom_eq] at htotal ⊢
      cases hf : t.ids.ipcsIdr.find nextId with
      | none =>
        rw [hf] at htotal
        exact ih total (nextId+1) acc htotal (by omega)
      | some ipc =>
        rw [hf,Option.elim_some,length_cons] at htotal
        exact ih (total+1) (nextId+1) (add acc ipc) (by push_cast at htotal; omega) (by omega)
    · rw [if_neg hmore,length_eq_zero_iff.mp (by omega : (t.ids.ipcsIdr.entriesFrom nextId).length=0)]
      rfl

/-- The walk of ipc_get_maxid ends with the last entry from its index on, or with what it had. -/
theorem maxidLoop_eq (hi : IdInv t) (left id : ℕ) (total maxId : ℤ) (hleft : ipcmni.toNat ≤ id+left)
    (htotal : total+(t.ids.ipcsIdr.entriesFrom id).length=t.ids.inUse) : maxidLoop t left id total maxId=
      (t.ids.ipcsIdr.entriesFrom id).foldl (fun _ e => (e.1 : ℤ)) maxId := by
  induction left generalizing id total maxId with
  | zero => rw [entriesFrom_ipcmni hi (i := id) hleft]; rfl
  | succ left ih =>
    unfold maxidLoop
    by_cases hmore : total<t.ids.inUse
    · rw [if_pos hmore]
      rw [entriesFrom_eq] at htotal ⊢
      cases hf : t.ids.ipcsIdr.find id with
      | none =>
        rw [hf] at htotal
        exact ih (id+1) total maxId (by omega) htotal
      | some ipc =>
        rw [hf,Option.elim_some,length_cons] at htotal
        exact ih (id+1) (total+1) id (by omega) (by push_cast at htotal; omega)
    · rw [if_neg hmore,length_eq_zero_iff.mp (by omega : (t.ids.ipcsIdr.entriesFrom id).length=0)]
      rfl

/-- In a list of increasing indices the last one is the largest. -/
theorem foldl_last {l : List (ℕ×ℕ)} (hl : l.Pairwise (fun e f => e.1<f.1)) (m : ℤ) :
    (l=[] ∧ l.foldl (fun _ e => (e.1 : ℤ)) m=m) ∨ ∃ e∈l, l.foldl (fun _ e => (e.1 : ℤ)) m=e.1 ∧ ∀ f∈l, f.1≤e.1 := by
  rcases eq_nil_or_concat' l with rfl | ⟨front,e,rfl⟩
  · exact .inl ⟨rfl,rfl⟩
  · refine .inr ⟨e,by simp,by simp,fun f hf => ?_⟩
    rcases mem_append.mp hf with hf | hf
    · exact ((pairwise_append.mp hl).2.2 f hf e (by simp)).le
    · exact (congrArg Prod.fst (mem_singleton.mp hf)).le

theorem usedBelow_le_index (i : ℕ) : t.ids.ipcsIdr.usedBelow i ≤ i := (countP_le_length).trans (length_take_le _ _)

/-- A table has IPCMNI entries at most. -/
theorem entries_le_ipcmni (hi : IdInv t) : (t.ids.ipcsIdr.entriesFrom 0).length ≤ ipcmni.toNat := by
  have hall := usedBelow_add_entries (t := t.ids.ipcsIdr) (i := ipcmni.toNat)
  rw [entriesFrom_ipcmni hi le_rfl,length_nil,Nat.add_zero] at hall
  rw [length_entriesFrom_zero,← hall]
  exact usedBelow_le_index _

/-- A full table uses its last index. -/
theorem find_last_of_full (hi : IdInv t) (h : t.ids.inUse=ipcmni) : ∃ p, t.ids.ipcsIdr.find 32767=some p := by
  have hall := usedBelow_add_entries (t := t.ids.ipcsIdr) (i := 32768)
  rw [entriesFrom_ipcmni hi (by decide),length_nil,usedBelow_succ] at hall
  have hle := usedBelow_le_index (t := t) 32767
  have hcount := hi.count
  unfold ipcmni at h
  refine Option.isSome_iff_exists.mp ?_
  by_contra hnone
  rw [if_neg hnone] at hall
  omega

/-- ipc_get_maxid returns the largest index in use, or -1. -/
theorem ipcGetMaxid_spec (hi : IdInv t) : (ipcGetMaxid t=-1 ∧ ∀ idx, t.ids.ipcsIdr.find idx=none) ∨
    ∃ idx p, ipcGetMaxid t=(idx : ℕ) ∧ t.ids.ipcsIdr.find idx=some p ∧
      ∀ j q, t.ids.ipcsIdr.find j=some q → j ≤ idx := by
  have hlength : ((t.ids.ipcsIdr.entriesFrom 0).length : ℤ)=t.ids.inUse := by
    rw [length_entriesFrom_zero,hi.count]
  have hmem : ∀ {j q}, t.ids.ipcsIdr.find j=some q → (j,q)∈t.ids.ipcsIdr.entriesFrom 0 := fun h =>
    mem_entriesFrom.mpr ⟨Nat.zero_le _,h⟩
  have hnil : t.ids.ipcsIdr.entriesFrom 0=[] → ∀ idx, t.ids.ipcsIdr.find idx=none := fun h idx =>
    Option.eq_none_iff_forall_not_mem.mpr (fun p hp => absurd (h ▸ hmem hp) not_mem_nil)
  unfold ipcGetMaxid
  by_cases h0 : t.ids.inUse=0
  · rw [if_pos h0]
    exact .inl ⟨rfl,hnil (length_eq_zero_iff.mp (by omega))⟩
  · rw [if_neg h0]
    by_cases hfull : t.ids.inUse=ipcmni
    · rw [if_pos hfull]
      obtain ⟨p,hp⟩ := find_last_of_full hi hfull
      refine .inr ⟨32767,p,rfl,hp,fun j q hq => ?_⟩
      have hlt := (hi.entry j q hq).1
      unfold ipcmni at hlt
      omega
    · rw [if_neg hfull,maxidLoop_eq hi _ 0 0 (-1) (by omega) (by omega)]
      rcases foldl_last (entriesFrom_increasing t.ids.ipcsIdr 0) (-1) with ⟨he,hm⟩ | ⟨e,he,hm,hmax⟩
      · exact .inl ⟨hm,hnil he⟩
      · exact .inr ⟨e.1,e.2,hm,(mem_entriesFrom.mp he).2,fun j q hq => hmax (j,q) (hmem hq)⟩

/-- The first walk of sysvipc_find_ipc counts the objects below the position. -/
theorem countLoop_eq (hi : IdInv t) (left id : ℕ) :
    countLoop t left id (t.ids.ipcsIdr.usedBelow id)=t.ids.ipcsIdr.usedBelow (id+left) := by
  induction left generalizing id with
  | zero => rfl
  | succ left ih =>
    unfold countLoop
    by_cases hmore : (t.ids.ipcsIdr.usedBelow id : ℤ)<t.ids.inUse
    · have hnext : (if (t.ids.ipcsIdr.find id).isSome=true then (t.ids.ipcsIdr.usedBelow id : ℤ)+1
          else t.ids.ipcsIdr.usedBelow id)=t.ids.ipcsIdr.usedBelow (id+1) := by
        rw [usedBelow_succ]
        split <;> simp
      rw [if_pos hmore,hnext,ih,Nat.add_right_comm,Nat.add_assoc]
    · have h1 := usedBelow_le (t := t.ids.ipcsIdr) (i := id+(left+1))
      have h2 : t.ids.ipcsIdr.usedBelow id≤t.ids.ipcsIdr.usedBelow (id+(left+1)) :=
        (take_sublist_take_left (Nat.le_add_right _ _)).countP_le
      have hcount := hi.count
      rw [if_neg hmore]
      omega

/-- The second walk of sysvipc_find_ipc finds the first entry from the position on. -/
theorem findLoop_eq (hi : IdInv t) (left pos : ℕ) (hleft : ipcmni.toNat≤pos+left) :
    findLoop t left pos=(t.ids.ipcsIdr.entriesFrom pos).head?.map (fun e => (e.2,e.1+1)) := by
  induction left generalizing pos with
  | zero => rw [entriesFrom_ipcmni hi (i := pos) hleft]; rfl
  | succ left ih =>
    unfold findLoop
    rw [entriesFrom_eq]
    cases t.ids.ipcsIdr.find pos with
    | none => exact ih (pos+1) (by omega)
    | some ipc => rfl

/-- sysvipc_find_ipc finds the first entry from the position on. -/
theorem sysvipcFindIpc_eq (hi : IdInv t) (pos : ℕ) :
    sysvipcFindIpc t pos=(t.ids.ipcsIdr.entriesFrom pos).head?.map (fun e => (e.2,e.1+1)) := by
  have hcount := countLoop_eq hi pos 0
  rw [usedBelow_zero,Nat.zero_add] at hcount
  have hall := usedBelow_add_entries (t := t.ids.ipcsIdr) (i := pos)
  unfold sysvipcFindIpc
  rw [show countLoop t pos 0 0=_ from hcount,hi.count,findLoop_eq hi _ pos (by omega)]
  split
  · rw [length_eq_zero_iff.mp (by omega : (t.ids.ipcsIdr.entriesFrom pos).length=0)]
    rfl
  · rfl

/-- Starting at the position after a reported one is the same as going on. -/
theorem sysvipcProcStart_succ (pos : ℕ) : sysvipcProcStart t (pos+1)=sysvipcProcNext t pos := by
  rw [sysvipcProcStart,if_neg (by omega),if_neg (by omega),add_sub_cancel_right]
  rfl

/-- A reader sees all entries from its position on. -/
theorem procElements_eq (hi : IdInv t) (stopped : ℕ → Bool) (fuel pos : ℕ)
    (hfuel : (t.ids.ipcsIdr.entriesFrom pos).length<fuel) : procElements t stopped fuel pos=
      some ((t.ids.ipcsIdr.entriesFrom pos).map (fun e => (some e.2,e.1+1))) := by
  induction fuel generalizing pos with
  | zero => omega
  | succ fuel ih =>
    unfold procElements
    rw [sysvipcProcStart_succ,ite_self,sysvipcProcNext,sysvipcFindIpc_eq hi]
    cases he : t.ids.ipcsIdr.entriesFrom pos with
    | nil => rfl
    | cons e l =>
      have htail := entriesFrom_tail pos he
      rw [he,length_cons] at hfuel
      dsimp only [head?_cons,Option.map_some]
      rw [ih (e.1+1) (by rw [htail]; omega),htail]
      rfl

/-- Removing an object of any kind leaves the other indices. -/
theorem removeObject_find (kind : IpcKind) (hi : IdInv s.table) {idx p j : ℕ}
    (h : s.table.ids.ipcsIdr.find idx=some p) (hj : j≠idx) :
    (removeObject kind s p).table.ids.ipcsIdr.find j=s.table.ids.ipcsIdr.find j := by
  have hrmid := (hi.find_rmid (j := j) h).trans (if_neg hj)
  cases kind with
  | sem | msg => exact hrmid
  | shm =>
    change (doShmRmid s p).table.ids.ipcsIdr.find j=_
    unfold doShmRmid
    split
    · rfl
    · exact hrmid

/-- Every table that the calls reach counts its objects, all below IPCMNI, and every walk over it ends:
ipc_findkey, shm_get_stat and free_ipcs go over the entries in the order of the indices, each one once;
ipc_get_maxid returns the largest index; and a reader of the proc file sees the start token and
all entries in order, wherever it stops and starts again. -/
theorem ipc_scans_complete {kind : IpcKind} {s : IpcSpace} (h : KeyReachable kind s) :
    (s.table.ids.ipcsIdr.entriesFrom 0).Pairwise (fun e f => e.1<f.1) ∧
    (∀ idx p, (idx,p)∈s.table.ids.ipcsIdr.entriesFrom 0 ↔ s.table.ids.ipcsIdr.find idx=some p) ∧
    s.table.ids.inUse=(s.table.ids.ipcsIdr.entriesFrom 0).length ∧
    (∀ e∈s.table.ids.ipcsIdr.entriesFrom 0, (e.1 : ℤ) < ipcmni) ∧
    (∀ key, ipcFindkey s.table key=some (((s.table.ids.ipcsIdr.entriesFrom 0).find?
      (fun e => decide ((s.table.perms e.2).key=key))).map Prod.snd)) ∧
    (∀ add, shmGetStat add s.table=
      some ((s.table.ids.ipcsIdr.entriesFrom 0).foldl (fun acc e => add acc e.2) (0,0))) ∧
    (∀ (P : IpcSpace → Prop) (free : IpcSpace → ℕ → IpcSpace), P s →
      (∀ s idx p, P s → s.table.ids.ipcsIdr.find idx=some p → P (free s p) ∧
        ∀ j, j≠idx → (free s p).table.ids.ipcsIdr.find j=s.table.ids.ipcsIdr.find j) →
      freeIpcsLoop free s.table.ids.inUse (s.table.ids.ipcsIdr.slots.length+1) 0 0 s=
        some ((s.table.ids.ipcsIdr.entriesFrom 0).foldl (fun s e => free s e.2) s)) ∧
    freeIpcs kind s=some ((s.table.ids.ipcsIdr.entriesFrom 0).foldl (fun s e => removeObject kind s e.2) s) ∧
    ((ipcGetMaxid s.table=-1 ∧ ∀ idx, s.table.ids.ipcsIdr.find idx=none) ∨
      ∃ idx p, ipcGetMaxid s.table=(idx : ℕ) ∧ s.table.ids.ipcsIdr.find idx=some p ∧
        ∀ j q, s.table.ids.ipcsIdr.find j=some q → j ≤ idx) ∧
    ∀ stopped, procRead s.table stopped=
      some ((none,0)::(s.table.ids.ipcsIdr.entriesFrom 0).map (fun e => (some e.2,e.1+1))) := by
  have hkeys := keyReachable_inv h
  have hi := hkeys.toIdInv
  have hlength := length_entriesFrom_zero (t := s.table.ids.ipcsIdr)
  have htotal : 0+((s.table.ids.ipcsIdr.entriesFrom 0).length : ℤ)=s.table.ids.inUse := by
    rw [hlength,zero_add,hi.count]
  have hbelow : ∀ e∈s.table.ids.ipcsIdr.entriesFrom 0, (e.1 : ℤ) < ipcmni := fun e he =>
    (hi.entry e.1 e.2 (mem_entriesFrom.mp he).2).1
  refine ⟨entriesFrom_increasing _ 0,fun _ _ => mem_entriesFrom.trans (and_iff_right (Nat.zero_le _)),
    by rw [hlength,hi.count],hbelow,ipcFindkey_eq hi,
    fun add => shmGetStatLoop_eq add _ 0 0 (0,0) htotal (by omega),
    fun P free hP hfree => freeIpcsLoop_eq hfree _ 0 0 s hP htotal (fun _ _ => rfl) (by omega),?_,
    ipcGetMaxid_spec hi,fun stopped => ?_⟩
  · refine freeIpcsLoop_eq (P := fun s => KeyInv s.table s.nextPerm) (fun s idx p hk hp => ?_) _ 0 0 s hkeys htotal
      (fun _ _ => rfl) (by omega)
    exact ⟨removeObject_keys kind hk hp,fun j hj => removeObject_find kind hk.toIdInv hp hj⟩
  · have hshort : (s.table.ids.ipcsIdr.entriesFrom 0).length < ipcmni.toNat+1 := by
      have hle := entries_le_ipcmni hi
      omega
    rw [procRead,show sysvipcProcStart s.table 0=some (none,0) from rfl]
    dsimp only
    rw [procElements_eq hi stopped _ 0 hshort]
    rfl

/-- A table whose first segment was removed: the reader sees the second one after the start token. -/
theorem ipc_scans_complete_gap : ∃ s : IpcSpace, KeyReachable .shm s ∧
    procRead s.table (fun pos => decide (pos=2))=some [(none,0),(some 1,2)] ∧
    ((ipcGetMaxid s.table=-1 ∧ ∀ idx, s.table.ids.ipcsIdr.find idx=none) ∨
      ∃ idx p, ipcGetMaxid s.table=(idx : ℕ) ∧ s.table.ids.ipcsIdr.find idx=some p ∧
        ∀ j q, s.table.ids.ipcsIdr.find j=some q → j ≤ idx) := by
  obtain ⟨s,hr,he⟩ : ∃ s, KeyReachable .shm s ∧ s.table.ids.ipcsIdr.entriesFrom 0=[(1,1)] :=
    exists_run (fun _ _ _ => id) (s := newSpace) ⟨rfl,rfl⟩ [.get defaultLimits exclusivePage smoothEnv plainCaller,
      .get defaultLimits {exclusivePage with key := 6} smoothEnv plainCaller,.rmid 0 plainCaller none] (by decide)
  obtain ⟨-,-,-,-,-,-,-,-,hmax,hread⟩ := ipc_scans_complete hr
  refine ⟨s,hr,?_,hmax⟩
  rw [hread,he]
  rfl

end BlockIpc.IpcScans
