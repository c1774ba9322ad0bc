import BlockIpc.IpcIdentifiers

/-!
# Creating, finding and removing IPC objects

Semaphore arrays, message queues and segments are created by the common get code: a key that is
in use names an existing object, and another key or the private one may create an object. The
three creators check their own limits and share the allocation, the security hooks and the
addition to the table. Removal is immediate, except that a segment with attaches only loses its
key and is marked. External hooks and allocators are arguments of each call.
-/

namespace BlockIpc.IpcObjects

open Function KernelNumbers IpcIdentifiers

def ipcPrivate : ℤ := 0
def ipcCreat : BitVec 32 := 0o1000
def ipcExcl : BitVec 32 := 0o2000
def sIrwxugo : BitVec 32 := 0o777
def shmDest : BitVec 32 := 0o1000
def shmmin : ℤ := 1
def pageSize : ℤ := 4096
def shmRdonly : BitVec 32 := 0o10000
def shmExec : BitVec 32 := 0o100000
/-- Number of values of a size_t. -/
def sizeRange : ℤ := 18446744073709551616

/-- Kinds of IPC objects, each with its own table. -/
inductive IpcKind where
  /-- Semaphore arrays. -/
  | sem
  /-- Message queues. -/
  | msg
  /-- Shared memory segments. -/
  | shm
  deriving DecidableEq

/-- One table of objects and the parts of the objects that the common code and
the lifetime of segments depend on. -/
structure IpcSpace where
  /-- Identifiers and permission structures. -/
  table : IpcTable
  /-- Number of objects allocated so far. -/
  nextPerm : ℕ
  /-- Number of semaphores of an array, or size of a segment. -/
  extent : ℕ → ℤ
  /-- Number of attaches of a segment. -/
  shmNattch : ℕ → ℕ
  /-- Number of semaphores, or of pages, in all objects of the namespace. -/
  total : ℤ
  /-- How often each segment was destroyed. -/
  destroys : ℕ → ℕ

/-- Parameters of a get call, struct ipc_params. -/
structure IpcParams where
  key : ℤ
  flg : BitVec 32
  /-- Number of semaphores, or size of the segment. -/
  size : ℤ

/-- Limits of the namespace and sizes of the array structures. -/
structure IpcLimits where
  /-- Largest number of semaphores in an array. -/
  scSemmsl : ℤ
  /-- Largest number of semaphores. -/
  scSemmns : ℤ
  /-- Largest number of arrays. -/
  scSemmni : ℤ
  /-- Largest number of queues. -/
  msgCtlmni : ℤ
  /-- Largest size of a segment. -/
  shmCtlmax : ℤ
  /-- Largest number of pages in segments. -/
  shmCtlall : ℤ
  /-- Largest number of segments. -/
  shmCtlmni : ℤ
  semArraySize : ℤ
  semSize : ℤ

/-- Answers of external code during a creation. -/
structure CreateEnv where
  /-- The allocation succeeds. -/
  alloc : Bool
  /-- Error of the security hook. -/
  security : Option Errno
  /-- Error of the setup of the file behind a segment. -/
  file : Option Errno
  idrGetNew : Option Errno

/-- A caller with its credentials. -/
structure IpcCaller where
  /-- Effective user. -/
  euid : ℕ
  /-- Effective group. -/
  egid : ℕ
  inGroup : ℕ → Bool
  /-- The caller has the capability that the check asks for. -/
  capable : Bool

/-- Answers of external code during a get call. -/
structure GetEnv where
  idrPreGet : Bool
  /-- Error of security_ipc_permission. -/
  permission : Option Errno
  /-- Error of the associate hook. -/
  associate : Option Errno
  /-- Answers during a creation. -/
  create : CreateEnv

/-- Allocate an object, fill in its key and mode and add it to the table. -/
def createObject (s : IpcSpace) (params : IpcParams) (env : CreateEnv) (caller : IpcCaller)
    (limit extent amount : ℤ) : ℤ×IpcSpace :=
  if env.alloc=false then (-enomem,s)
  else
    let new := s.nextPerm
    let perm := {s.table.perms new with key := params.key, mode := params.flg&&&sIrwxugo}
    let s := {s with table := s.table.setUp new perm, nextPerm := new+1}
    match env.security with
    | some err => (err.code,s)
    | none =>
      match env.file with
      | some err => (err.code,s)
      | none =>
        let r := ipcAddid s.table new limit env.idrGetNew caller.euid caller.egid
        let s := {s with table := r.2}
        if r.1<0 then (r.1,s)
        else ((s.table.perms new).id,{s with
          extent := update s.extent new extent
          shmNattch := update s.shmNattch new 0
          total := toInt (s.total+amount)})

/-- Create a semaphore array. -/
def newary (s : IpcSpace) (lim : IpcLimits) (params : IpcParams) (env : CreateEnv)
    (caller : IpcCaller) : ℤ×IpcSpace :=
  let nsems := params.size
  if nsems≤0 then (-einval,s)
  else if lim.scSemmns<s.total ∨ lim.scSemmns-s.total<nsems then (-enospc,s)
  else if sizeRange≤lim.semArraySize+nsems*lim.semSize then (-eoverflow,s)
  else createObject s params {env with file := none} caller lim.scSemmni nsems nsems

/-- Create a message queue. -/
def newque (s : IpcSpace) (lim : IpcLimits) (params : IpcParams) (env : CreateEnv)
    (caller : IpcCaller) : ℤ×IpcSpace := createObject s params {env with file := none} caller lim.msgCtlmni 0 0

/-- Number of pages of a segment. -/
def numpages (size : ℤ) : ℤ := toInt ((size+pageSize-1)%sizeRange/pageSize)

/-- Create a shared memory segment. -/
def newseg (s : IpcSpace) (lim : IpcLimits) (params : IpcParams) (env : CreateEnv)
    (caller : IpcCaller) : ℤ×IpcSpace :=
  let size := params.size
  if size<shmmin ∨ lim.shmCtlmax<size then (-einval,s)
  else if lim.shmCtlall<toInt (s.total+numpages size)%sizeRange then (-enospc,s)
  else createObject s params env caller lim.shmCtlmni size (numpages size)

/-- The creator of each kind. -/
def getnew : IpcKind → IpcSpace → IpcLimits → IpcParams → CreateEnv → IpcCaller → ℤ×IpcSpace
  | .sem => newary
  | .msg => newque
  | .shm => newseg

/-- Further checks of the kind on an existing object. -/
def moreChecks (kind : IpcKind) (s : IpcSpace) (ipcp : ℕ) (params : IpcParams) : ℤ :=
  match kind with
  | .sem => if s.extent ipcp<params.size then -einval else 0
  | .msg => 0
  | .shm => if s.extent ipcp<params.size then -einval else 0

/-- Walk the indices until as many objects have been met as are counted. -/
def findkeyLoop (t : IpcTable) (key : ℤ) : ℕ → ℤ → ℕ → Option (Option ℕ)
  | 0,_,_ => none
  | fuel+1,total,nextId =>
    if total<t.ids.inUse then
      match t.ids.ipcsIdr.find nextId with
      | none => findkeyLoop t key fuel total (nextId+1)
      | some ipc =>
        if (t.perms ipc).key≠key then findkeyLoop t key fuel (total+1) (nextId+1)
        else some (some ipc)
    else some none

/-- Find the object with a key. The walk would not end if more objects were
counted than the table holds; this is the outer none. -/
def ipcFindkey (t : IpcTable) (key : ℤ) : Option (Option ℕ) := findkeyLoop t key (t.ids.ipcsIdr.slots.length+1) 0 0

/-- Whether the permissions of an object refuse a request. -/
def ipcperms (ipcp : KernIpcPerm) (flg : BitVec 32) (caller : IpcCaller) (permission : Option Errno) : Bool :=
  let flag := (flg.setWidth 16).signExtend 32
  let requested := flag.sshiftRight 6|||flag.sshiftRight 3|||flag
  let granted :=
    if caller.euid=ipcp.cuid ∨ caller.euid=ipcp.uid then ipcp.mode.sshiftRight 6
    else if caller.inGroup ipcp.cgid=true ∨ caller.inGroup ipcp.gid=true then ipcp.mode.sshiftRight 3
    else ipcp.mode
  if requested&&&~~~granted&&&7≠0 ∧ caller.capable=false then true else permission.isSome

/-- Check the permissions of an existing object and return its identifier. -/
def ipcCheckPerms (ipcp : KernIpcPerm) (params : IpcParams) (caller : IpcCaller) (env : GetEnv) : ℤ :=
  if ipcperms ipcp params.flg caller env.permission=true then -eacces
  else match env.associate with
    | some err => err.code
    | none => ipcp.id

/-- One attempt of a get call with the private key. -/
def ipcgetNew (kind : IpcKind) (s : IpcSpace) (lim : IpcLimits) (params : IpcParams) (env : GetEnv)
    (caller : IpcCaller) : ℤ×IpcSpace :=
  if env.idrPreGet=false then (-enomem,s) else getnew kind s lim params env.create caller

/-- One attempt of a get call with another key. -/
def ipcgetPublic (kind : IpcKind) (s : IpcSpace) (lim : IpcLimits) (params : IpcParams) (env : GetEnv)
    (caller : IpcCaller) : Option (ℤ×IpcSpace) :=
  match ipcFindkey s.table params.key with
  | none => none
  | some none =>
    if params.flg&&&ipcCreat=0 then some (-enoent,s)
    else if env.idrPreGet=false then some (-enomem,s)
    else some (getnew kind s lim params env.create caller)
  | some (some ipcp) =>
    if params.flg&&&ipcCreat≠0 ∧ params.flg&&&ipcExcl≠0 then some (-eexist,s)
    else if moreChecks kind s ipcp params≠0 then some (moreChecks kind s ipcp params,s)
    else some (ipcCheckPerms (s.table.perms ipcp) params caller env,s)

/-- One attempt of the common get code. It is repeated while its result is
-EAGAIN; other calls may happen before the next attempt. -/
def ipcget (kind : IpcKind) (s : IpcSpace) (lim : IpcLimits) (params : IpcParams) (env : GetEnv)
    (caller : IpcCaller) : Option (ℤ×IpcSpace) :=
  if params.key=ipcPrivate then some (ipcgetNew kind s lim params env caller)
  else ipcgetPublic kind s lim params env caller

/-- First attempt of semget. The other get calls start with the common code. -/
def semget (s : IpcSpace) (lim : IpcLimits) (params : IpcParams) (env : GetEnv) (caller : IpcCaller) :
    Option (ℤ×IpcSpace) :=
  if params.size<0 ∨ lim.scSemmsl<params.size then some (-einval,s)
  else ipcget .sem s lim params env caller

/-- First attempt of a get call. -/
def getCall (kind : IpcKind) (s : IpcSpace) (lim : IpcLimits) (params : IpcParams) (env : GetEnv)
    (caller : IpcCaller) : Option (ℤ×IpcSpace) :=
  match kind with
  | .sem => semget s lim params env caller
  | .msg => ipcget .msg s lim params env caller
  | .shm => ipcget .shm s lim params env caller

/-- Find an object by its identifier and check that the caller may control it. -/
def ipcctlPreDown (t : IpcTable) (id : ℤ) (caller : IpcCaller) : Except ℤ ℕ :=
  match ipcLockCheck t id with
  | .error err => .error err
  | .ok ipcp =>
    if caller.euid=(t.perms ipcp).cuid ∨ caller.euid=(t.perms ipcp).uid ∨ caller.capable=true then
      .ok ipcp
    else .error (-eperm)

/-- Update owner and permission bits. -/
def ipcUpdatePerm (uid gid : ℕ) (mode : BitVec 32) (out : KernIpcPerm) : KernIpcPerm :=
  {out with
    uid := uid
    gid := gid
    mode := out.mode&&&~~~sIrwxugo|||mode&&&sIrwxugo}

/-- Destroy a segment. -/
def shmDestroy (s : IpcSpace) (shp : ℕ) : IpcSpace :=
  {s with
    total := toInt (s.total-(s.extent shp+pageSize-1)%sizeRange/pageSize)
    table := ipcRmid s.table shp
    destroys := update s.destroys shp (s.destroys shp+1)}

/-- Remove a segment, or leave the removal to its last user. -/
def doShmRmid (s : IpcSpace) (shp : ℕ) : IpcSpace :=
  if s.shmNattch shp≠0 then
    {s with table := s.table.setPerm shp (fun perm =>
      {perm with mode := perm.mode|||shmDest, key := ipcPrivate})}
  else shmDestroy s shp

def removeObject (kind : IpcKind) (s : IpcSpace) (ipcp : ℕ) : IpcSpace :=
  match kind with
  | .sem => {s with table := ipcRmid s.table ipcp, total := toInt (s.total-s.extent ipcp)}
  | .msg => {s with table := ipcRmid s.table ipcp}
  | .shm => doShmRmid s ipcp

/-- Count one more attach of a segment. -/
def IpcSpace.attach (s : IpcSpace) (shp : ℕ) : IpcSpace :=
  {s with shmNattch := update s.shmNattch shp (s.shmNattch shp+1)}

/-- Count one attach less; the last user of a marked segment destroys it. -/
def IpcSpace.detach (s : IpcSpace) (shp : ℕ) : IpcSpace :=
  let s := {s with shmNattch := update s.shmNattch shp (s.shmNattch shp-1)}
  if s.shmNattch shp=0 ∧ (s.table.perms shp).mode&&&shmDest≠0 then shmDestroy s shp else s

/-- Access that an attach asks for. -/
def accMode (shmflg : BitVec 32) : BitVec 32 :=
  let mode : BitVec 32 := if shmflg&&&shmRdonly≠0 then 0o444 else 0o666
  if shmflg&&&shmExec≠0 then mode|||0o111 else mode

/-- do_shmat up to the point where it has counted itself as an attach. The
address may be refused before the segment is looked up. -/
def doShmatStart (s : IpcSpace) (shmid : ℤ) (addrOk : Bool) (shmflg : BitVec 32) (caller : IpcCaller)
    (permission security : Option Errno) : Except ℤ (ℕ×IpcSpace) :=
  if shmid<0 ∨ addrOk=false then .error (-einval)
  else match ipcLockCheck s.table shmid with
    | .error err => .error err
    | .ok shp =>
      if ipcperms (s.table.perms shp) (accMode shmflg) caller permission=true then .error (-eacces)
      else match security with
        | some err => .error err.code
        | none => .ok (shp,s.attach shp)

/-- A new mapping of a segment is opened. The lock must be found: otherwise
the kernel stops at a BUG_ON. -/
def shmOpen (s : IpcSpace) (id : ℤ) : Except ℤ (ℕ×IpcSpace) :=
  match ipcLock s.table id with
  | .error err => .error err
  | .ok shp => .ok (shp,s.attach shp)

/-- A mapping of a segment is closed, with the same BUG_ON. -/
def shmClose (s : IpcSpace) (id : ℤ) : Except ℤ (ℕ×IpcSpace) :=
  match ipcLock s.table id with
  | .error err => .error err
  | .ok shp => .ok (shp,s.detach shp)

/-- The cleanup of do_shmat, with the same BUG_ON. -/
def doShmatEnd (s : IpcSpace) (shmid : ℤ) : Except ℤ (ℕ×IpcSpace) := shmClose s shmid

/-- The walk of free_ipcs: release objects until as many have been met as were
counted at its start. -/
def freeIpcsLoop (free : IpcSpace → ℕ → IpcSpace) (inUse : ℤ) : ℕ → ℤ → ℕ → IpcSpace → Option IpcSpace
  | 0,_,_,_ => none
  | fuel+1,total,nextId,s =>
    if total < inUse then
      match s.table.ids.ipcsIdr.find nextId with
      | none => freeIpcsLoop free inUse fuel total (nextId+1) s
      | some perm => freeIpcsLoop free inUse fuel (total+1) (nextId+1) (free s perm)
    else some s

/-- Release all objects of a kind when the namespace exits. The walk would not
end if more objects were counted than the table holds. -/
def freeIpcs (kind : IpcKind) (s : IpcSpace) : Option IpcSpace :=
  freeIpcsLoop (removeObject kind) s.table.ids.inUse (s.table.ids.ipcsIdr.slots.length+1) 0 0 s

end BlockIpc.IpcObjects
