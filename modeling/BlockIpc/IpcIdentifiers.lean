import BlockIpc.KernelNumbers
import BlockIpc.SlotTable

/-!
# Identifiers of IPC objects

Every kind of IPC object has a table of identifiers. An object gets the
smallest free index and the next sequence number, and its identifier is built
from both. Looking an identifier up finds the object at its index and compares
the sequence numbers. The permission structures live on a heap that the table
points into, so that an object outlives its removal.
-/

namespace BlockIpc.IpcIdentifiers

open Function KernelNumbers SlotTable

/-- IPCMNI, the number of identifiers a table can hold. -/
def ipcmni : ℤ := 32768

def seqMultiplier : ℤ := ipcmni

def ushrtMax : ℤ := 65535

/-- The permission structure that every IPC object starts with. -/
structure KernIpcPerm where
  /-- The object has been removed from its table. -/
  deleted : Bool
  id : ℤ
  /-- Key given by the creator. -/
  key : ℤ
  uid : ℕ
  /-- Group of the owner. -/
  gid : ℕ
  cuid : ℕ
  /-- Group of the creator. -/
  cgid : ℕ
  /-- Permission bits and flags of the object. -/
  mode : BitVec 32
  /-- Sequence number. -/
  seq : ℤ

/-- A set of identifiers, struct ipc_ids. -/
structure IpcIds where
  /-- Number of objects. -/
  inUse : ℤ
  /-- Next sequence number, an unsigned short. -/
  seq : ℤ
  /-- Largest sequence number, an unsigned short. -/
  seqMax : ℤ
  /-- Objects by index. -/
  ipcsIdr : Table ℕ

/-- A set of identifiers with the permission structures it points to. -/
structure IpcTable where
  ids : IpcIds
  /-- Permission structures in memory. -/
  perms : ℕ → KernIpcPerm

/-- Initialise a set of identifiers. -/
def ipcInitIds : IpcIds :=
  let seqLimit := intMax/seqMultiplier
  ⟨0,0,if ushrtMax<seqLimit then ushrtMax else seqLimit,Table.empty⟩

/-- Identifier of an index and a sequence number. -/
def ipcBuildid (id seq : ℤ) : ℤ := toInt (seqMultiplier*seq+id)

/-- Index in an identifier. -/
def ipcidToIdx (id : ℤ) : ℤ := id.tmod seqMultiplier

/-- Whether an identifier has another sequence number than an object. The
quotient is converted to the unsigned long that the object stores. -/
def ipcCheckid (ipcp : KernIpcPerm) (uid : ℤ) : Bool :=
  decide (uid.tdiv seqMultiplier%18446744073709551616≠ipcp.seq)

/-- The object with an index; no object has a negative one. -/
def idrFind (idr : Table ℕ) (lid : ℤ) : Option ℕ := if lid<0 then none else idr.find lid.toNat

def IpcTable.setPerm (s : IpcTable) (p : ℕ) (f : KernIpcPerm → KernIpcPerm) : IpcTable :=
  {s with perms := update s.perms p (f (s.perms p))}

/-- A creator fills in the permission structure of an object. -/
def IpcTable.setUp (s : IpcTable) (new : ℕ) (perm : KernIpcPerm) : IpcTable :=
  {s with perms := update s.perms new perm}

/-- Add an object. Returns its index, or an error number when the table is
full or the index could not be allocated. -/
def ipcAddid (s : IpcTable) (new : ℕ) (size : ℤ) (idrGetNew : Option Errno) (euid egid : ℕ) : ℤ×IpcTable :=
  let size := if ipcmni<size then ipcmni else size
  if size ≤ s.ids.inUse then (-enospc,s)
  else
    let s := s.setPerm new (fun ipcp => {ipcp with deleted := false})
    match idrGetNew with
    | some err => (err.code,s)
    | none =>
      let id : ℤ := s.ids.ipcsIdr.firstFree
      let seq := s.ids.seq
      let next := (seq+1)%65536
      let s := s.setPerm new (fun ipcp => {ipcp with
        cuid := euid, uid := euid, gid := egid, cgid := egid, seq := seq, id := ipcBuildid id seq})
      (id,{s with ids := {s.ids with
        inUse := s.ids.inUse+1
        seq := if s.ids.seqMax<next then 0 else next
        ipcsIdr := s.ids.ipcsIdr.insert new}})

/-- Remove an object from its table. -/
def ipcRmid (s : IpcTable) (ipcp : ℕ) : IpcTable :=
  let lid := ipcidToIdx (s.perms ipcp).id
  let s := s.setPerm ipcp (fun ipcp => {ipcp with deleted := true})
  {s with ids := {s.ids with
    inUse := s.ids.inUse-1
    ipcsIdr := s.ids.ipcsIdr.erase lid.toNat}}

/-- Check and lock an object found by a lookup. -/
def ipcLockFound (s : IpcTable) : Option ℕ → Except ℤ ℕ
  | none => .error (-einval)
  | some out => if (s.perms out).deleted=true then .error (-einval) else .ok out

/-- Lock the object with the index of an identifier. -/
def ipcLock (s : IpcTable) (id : ℤ) : Except ℤ ℕ := ipcLockFound s (idrFind s.ids.ipcsIdr (ipcidToIdx id))

/-- Lock the object with an identifier. -/
def ipcLockCheck (s : IpcTable) (id : ℤ) : Except ℤ ℕ :=
  match ipcLock s id with
  | .error err => .error err
  | .ok out => if ipcCheckid (s.perms out) id=true then .error (-eidrm) else .ok out

/-- An identifier fits an int, and its index and sequence number are
recovered from it. -/
theorem ipcBuildid_fields {idx seq : ℤ} (hi : 0 ≤ idx) (hi' : idx < ipcmni) (hs : 0 ≤ seq) (hs' : seq≤ushrtMax) :
    ipcBuildid idx seq=seqMultiplier*seq+idx ∧ 0 ≤ ipcBuildid idx seq ∧ ipcBuildid idx seq ≤ intMax ∧
      ipcidToIdx (ipcBuildid idx seq)=idx ∧ (ipcBuildid idx seq).tdiv seqMultiplier=seq := by
  unfold ipcmni at hi'
  unfold ushrtMax at hs'
  have he : ipcBuildid idx seq=32768*seq+idx := by
    unfold ipcBuildid seqMultiplier ipcmni
    exact toInt_of_range (by omega) (by unfold intMax; omega)
  unfold ipcidToIdx seqMultiplier ipcmni
  rw [he]
  refine ⟨rfl,by omega,by unfold intMax; omega,?_,?_⟩
  · rw [Int.tmod_eq_emod_of_nonneg (by omega)]
    omega
  · rw [Int.tdiv_eq_ediv_of_nonneg (by omega)]
    omega

/-- What holds of a set of identifiers at all times. -/
structure IdInv (s : IpcTable) : Prop where
  /-- The largest sequence number is the largest unsigned short. -/
  seqMax : s.ids.seqMax=ushrtMax
  /-- The next sequence number is an unsigned short. -/
  seq : 0 ≤ s.ids.seq ∧ s.ids.seq≤ushrtMax
  /-- The number of objects is counted. -/
  count : s.ids.inUse=s.ids.ipcsIdr.used
  /-- Objects in the table are not removed; their identifiers are built from
  their index and sequence number. -/
  entry : ∀ idx p, s.ids.ipcsIdr.find idx=some p → idx < ipcmni ∧ (s.perms p).deleted=false ∧
    (0≤(s.perms p).seq ∧ (s.perms p).seq≤ushrtMax) ∧ (s.perms p).id=ipcBuildid idx (s.perms p).seq

/-- A fresh set of identifiers. -/
theorem ipcInitIds_inv (perms : ℕ → KernIpcPerm) : IdInv ⟨ipcInitIds,perms⟩ := by
  have hmax : ipcInitIds.seqMax=ushrtMax := by decide
  have hseq : 0 ≤ ipcInitIds.seq ∧ ipcInitIds.seq≤ushrtMax := by decide
  refine ⟨hmax,hseq,rfl,fun idx p h => ?_⟩
  rw [show ipcInitIds.ipcsIdr.find idx=none from find_empty] at h
  cases h

variable {s s' : IpcTable} {idx p j new q : ℕ} {id : ℤ} {f : KernIpcPerm → KernIpcPerm}

/-- Index and sequence number of an object in the table are recovered from its
identifier. -/
theorem IdInv.fields (hi : IdInv s) (h : s.ids.ipcsIdr.find idx=some p) :
    0≤(s.perms p).id ∧ (s.perms p).id ≤ intMax ∧ ipcidToIdx (s.perms p).id=idx ∧
      (s.perms p).id.tdiv seqMultiplier=(s.perms p).seq := by
  obtain ⟨hlt,_,hs,hid⟩ := hi.entry idx p h
  rw [hid]
  exact (ipcBuildid_fields (Int.natCast_nonneg idx) hlt hs.1 hs.2).2

theorem IdInv.index_unique (hi : IdInv s) {i : ℕ} (h : s.ids.ipcsIdr.find i=some p) (h' : s.ids.ipcsIdr.find j=some p) :
    i=j := by
  have hij := (hi.fields h).2.2.1.symm.trans (hi.fields h').2.2.1
  exact Int.natCast_inj.mp hij

theorem idrFind_natCast {idr : Table ℕ} : idrFind idr idx=idr.find idx := by
  simp [idrFind]

/-- An identifier with the index of an object in the table locks it. -/
theorem IdInv.lock (hi : IdInv s) (h : s.ids.ipcsIdr.find idx=some p) (hidx : ipcidToIdx id=idx) :
    ipcLock s id=.ok p := by
  unfold ipcLock
  rw [hidx,idrFind_natCast,h]
  simp [ipcLockFound,(hi.entry idx p h).2.1]

/-- What a successful lock says. -/
theorem ipcLock_ok (h : ipcLock s id=.ok p) : ∃ idx : ℕ, ipcidToIdx id=idx ∧ s.ids.ipcsIdr.find idx=some p := by
  unfold ipcLock idrFind at h
  split at h
  · cases h
  · next hneg =>
    refine ⟨(ipcidToIdx id).toNat,by omega,?_⟩
    cases hf : s.ids.ipcsIdr.find (ipcidToIdx id).toNat with
    | none => simp [hf,ipcLockFound] at h
    | some q =>
      simp only [hf,ipcLockFound] at h
      split at h
      · cases h
      · cases h
        rfl

/-- The quotient of an object's own identifier is its sequence number. -/
theorem IdInv.checkid (hi : IdInv s) (h : s.ids.ipcsIdr.find idx=some p) :
    ipcCheckid (s.perms p) (s.perms p).id=false := by
  obtain ⟨_,_,hs,_⟩ := hi.entry idx p h
  unfold ushrtMax at hs
  unfold ipcCheckid
  rw [(hi.fields h).2.2.2]
  simp
  omega

/-- The identifier of an object in the table finds it. -/
theorem IdInv.lockCheck (hi : IdInv s) (h : s.ids.ipcsIdr.find idx=some p) : ipcLockCheck s (s.perms p).id=.ok p := by
  unfold ipcLockCheck
  rw [hi.lock h (hi.fields h).2.2.1]
  simp [hi.checkid h]

/-- What a successful checked lock says. -/
theorem ipcLockCheck_ok (h : ipcLockCheck s id=.ok p) : ∃ idx : ℕ, ipcidToIdx id=idx ∧ s.ids.ipcsIdr.find idx=some p ∧
      id.tdiv seqMultiplier%18446744073709551616=(s.perms p).seq := by
  unfold ipcLockCheck at h
  cases hl : ipcLock s id with
  | error err => simp [hl] at h
  | ok out =>
    simp only [hl] at h
    split at h
    · cases h
    · next hc =>
      cases h
      obtain ⟨idx,hidx,hf⟩ := ipcLock_ok hl
      exact ⟨idx,hidx,hf,by simpa [ipcCheckid] using hc⟩

/-- An object was not added: the set and all other objects are unchanged. -/
structure NotAdded (s s' : IpcTable) (new : ℕ) : Prop where
  /-- The set is unchanged. -/
  ids : s'.ids=s.ids
  /-- Other objects are unchanged. -/
  others : ∀ q, q≠new → s'.perms q=s.perms q

/-- An object was added at the smallest free index. -/
structure Added (s s' : IpcTable) (new : ℕ) : Prop where
  /-- The table was not full. -/
  room : s.ids.inUse < ipcmni
  /-- One more object is counted. -/
  inUse : s'.ids.inUse=s.ids.inUse+1
  /-- The next sequence number. -/
  seq : s'.ids.seq=if s.ids.seqMax<(s.ids.seq+1)%65536 then 0 else (s.ids.seq+1)%65536
  /-- The largest sequence number is unchanged. -/
  seqMax : s'.ids.seqMax=s.ids.seqMax
  /-- The object occupies the smallest free index. -/
  idr : s'.ids.ipcsIdr=s.ids.ipcsIdr.insert new
  /-- Other objects are unchanged. -/
  others : ∀ q, q≠new → s'.perms q=s.perms q
  /-- The object is not removed. -/
  deleted : (s'.perms new).deleted=false
  /-- The object has the sequence number that was next. -/
  newSeq : (s'.perms new).seq=s.ids.seq
  newId : (s'.perms new).id=ipcBuildid s.ids.ipcsIdr.firstFree s.ids.seq
  newKey : (s'.perms new).key=(s.perms new).key
  newMode : (s'.perms new).mode=(s.perms new).mode

/-- Adding an object either fails with an error number or adds it. -/
theorem ipcAddid_cases (s : IpcTable) (new : ℕ) (size : ℤ) (idrGetNew : Option Errno) (euid egid : ℕ) :
    ((ipcAddid s new size idrGetNew euid egid).1<0 ∧
      NotAdded s (ipcAddid s new size idrGetNew euid egid).2 new) ∨
    ((ipcAddid s new size idrGetNew euid egid).1=s.ids.ipcsIdr.firstFree ∧
      Added s (ipcAddid s new size idrGetNew euid egid).2 new) := by
  unfold ipcAddid IpcTable.setPerm
  dsimp only
  by_cases hroom : (if ipcmni<size then ipcmni else size) ≤ s.ids.inUse
  · rw [if_pos hroom]
    exact .inl ⟨show -enospc<0 by decide,rfl,fun q _ => rfl⟩
  · rw [if_neg hroom]
    cases idrGetNew with
    | some err => exact .inl ⟨err.neg,rfl,fun q hq => update_of_ne hq _ _⟩
    | none =>
      refine .inr ⟨rfl,?_,rfl,rfl,rfl,rfl,fun q hq => ?_,?_,?_,?_,?_,?_⟩
      · split at hroom <;> omega
      · simp [hq]
      · simp
      · simp
      · simp
      · simp
      · simp

/-- A failed addition reports a full table or the error of the allocation. -/
theorem ipcAddid_error {size : ℤ} {idrGetNew : Option Errno} {euid egid : ℕ}
    (h : (ipcAddid s new size idrGetNew euid egid).1<0) : (ipcAddid s new size idrGetNew euid egid).1= -enospc ∨
      ∃ err, idrGetNew=some err ∧ (ipcAddid s new size idrGetNew euid egid).1=err.code := by
  unfold ipcAddid at h ⊢
  dsimp only at h ⊢
  by_cases hroom : (if ipcmni<size then ipcmni else size) ≤ s.ids.inUse
  · rw [if_pos hroom]
    exact .inl rfl
  · rw [if_neg hroom] at h ⊢
    cases idrGetNew with
    | some err => exact .inr ⟨err,rfl,rfl⟩
    | none => exact absurd h (by simp)

/-- A failed addition keeps the invariant, when the object is new. -/
theorem IdInv.notAdded (hi : IdInv s) (h : NotAdded s s' new) (hnew : ∀ idx, s.ids.ipcsIdr.find idx≠some new) :
    IdInv s' := by
  have hids := h.ids
  refine ⟨by rw [hids]; exact hi.seqMax,by rw [hids]; exact hi.seq,by rw [hids]; exact hi.count,
    fun idx p hp => ?_⟩
  rw [hids] at hp
  rw [h.others p (fun he => hnew idx (he ▸ hp))]
  exact hi.entry idx p hp

theorem setUp_notAdded (s : IpcTable) (new : ℕ) (perm : KernIpcPerm) : NotAdded s (s.setUp new perm) new :=
  ⟨rfl,fun _ hq => update_of_ne hq _ _⟩

/-- The next sequence number is again an unsigned short. -/
theorem Added.nextSeq (h : Added s s' new) (hi : IdInv s) : s'.ids.seq=(s.ids.seq+1)%65536 := by
  have hmax := hi.seqMax
  unfold ushrtMax at hmax
  rw [h.seq,hmax]
  split <;> omega

/-- The table after an addition. -/
theorem Added.find (h : Added s s' new) :
    s'.ids.ipcsIdr.find idx=if idx=s.ids.ipcsIdr.firstFree then some new else s.ids.ipcsIdr.find idx := by
  rw [h.idr]
  exact find_insert

/-- The index of an added object is below the bound. -/
theorem Added.index_lt (h : Added s s' new) (hi : IdInv s) : (s.ids.ipcsIdr.firstFree : ℤ) < ipcmni := by
  have hroom := h.room
  have hcount := hi.count
  have hfree := firstFree_le_used (t := s.ids.ipcsIdr)
  omega

theorem IdInv.added (hi : IdInv s) (h : Added s s' new) (hnew : ∀ idx, s.ids.ipcsIdr.find idx≠some new) : IdInv s' := by
  refine ⟨h.seqMax.trans hi.seqMax,?_,?_,fun idx p hp => ?_⟩
  · rw [h.nextSeq hi]
    unfold ushrtMax
    omega
  · rw [h.inUse,h.idr,used_insert,hi.count]
    push_cast
    rfl
  · rw [h.find] at hp
    split at hp
    · next hidx =>
      cases hp
      rw [h.newSeq,h.newId,hidx]
      exact ⟨h.index_lt hi,h.deleted,hi.seq,rfl⟩
    · rw [h.others p (fun he => hnew idx (he ▸ hp))]
      exact hi.entry idx p hp

/-- The table after a removal. -/
theorem IdInv.find_rmid (hi : IdInv s) (h : s.ids.ipcsIdr.find idx=some p) :
    (ipcRmid s p).ids.ipcsIdr.find j=if j=idx then none else s.ids.ipcsIdr.find j := by
  have hidx := (hi.fields h).2.2.1
  unfold ipcRmid
  dsimp only
  rw [hidx,Int.toNat_natCast]
  exact find_erase

theorem ipcRmid_perms (h : q≠p) : (ipcRmid s p).perms q=s.perms q := update_of_ne h _ _

theorem ipcRmid_self (s : IpcTable) (p : ℕ) : (ipcRmid s p).perms p={s.perms p with deleted := true} :=
  update_self ..

/-- Removing an object in the table keeps the invariant. -/
theorem IdInv.rmid (hi : IdInv s) (h : s.ids.ipcsIdr.find idx=some p) : IdInv (ipcRmid s p) := by
  refine ⟨hi.seqMax,hi.seq,?_,fun j q hq => ?_⟩
  · have hidx := (hi.fields h).2.2.1
    have hused := used_erase h
    have hcount := hi.count
    unfold ipcRmid
    dsimp only
    rw [hidx,Int.toNat_natCast]
    change s.ids.inUse-1=((s.ids.ipcsIdr.erase idx).used : ℤ)
    omega
  · rw [hi.find_rmid h] at hq
    split at hq
    · cases hq
    · next hj =>
      have hne : q≠p := by
        intro he
        subst he
        exact hj (hi.index_unique hq h)
      rw [ipcRmid_perms hne]
      exact hi.entry j q hq

theorem setPerm_self (s : IpcTable) (p : ℕ) (f : KernIpcPerm → KernIpcPerm) :
    (s.setPerm p f).perms p=f (s.perms p) := update_self ..

theorem setPerm_of_ne (h : q≠p) : (s.setPerm p f).perms q=s.perms q := update_of_ne h _ _

/-- A change of other fields keeps the invariant. -/
theorem IdInv.setPerm (hi : IdInv s) (hd : (f (s.perms p)).deleted=(s.perms p).deleted)
    (hid : (f (s.perms p)).id=(s.perms p).id) (hseq : (f (s.perms p)).seq=(s.perms p).seq) : IdInv (s.setPerm p f) := by
  refine ⟨hi.seqMax,hi.seq,hi.count,fun idx q hq => ?_⟩
  have he := hi.entry idx q hq
  by_cases hqp : q=p
  · subst hqp
    rw [setPerm_self,hd,hid,hseq]
    exact he
  · rw [setPerm_of_ne hqp]
    exact he

end BlockIpc.IpcIdentifiers
