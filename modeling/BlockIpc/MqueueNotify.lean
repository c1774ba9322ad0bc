import BlockIpc.KernelNumbers
import BlockIpc.TransitionRuns
import BlockIpc.OwnedResources

/-!
# Registration for notification of ipc/mqueue.c

mq_notify takes a buffer and a reference to a netlink socket for a notification by thread. Both
pass to the queue when the process is registered and go back when the notification is sent or
removed. The results of fget and of the netlink functions are arbitrary, calls interleave, and
messages arrive and descriptors are closed at any time.

The variable sock keeps its value when netlink_attachskb asks for a retry, although the reference
is gone. Everything is released once as long as the file of the socket is found again; if it is
not, the label out releases the socket a second time.
-/

namespace BlockIpc.MqueueNotify

open Function KernelNumbers TransitionRuns OwnedResources

def sigevSignal : ℤ := 0
def sigevNone : ℤ := 1
def sigevThread : ℤ := 2

structure Sigevent where
  notify : ℤ
  /-- sigev_signo; for a notification by thread the descriptor of the socket. -/
  signo : ℤ
  value : ℕ
  deriving DecidableEq

/-- valid_signal of an int, which is converted to an unsigned long. -/
def validSignal (sig : ℤ) : Prop := 0 ≤ sig ∧ sig≤64

instance (sig : ℤ) : Decidable (validSignal sig) := inferInstanceAs (Decidable (_ ∧ _))

/-- The fields of mqueue_inode_info that belong to the notification. -/
structure NotifyInfo where
  /-- notify_owner, by its number; NULL is none. -/
  notifyOwner : Option ℕ
  notify : Sigevent
  notifySock : Option ℕ
  notifyCookie : Option ℕ
  deriving DecidableEq

/-- Where a call of mq_notify stands; the argument is none for a NULL pointer. -/
inductive NotifyPc
  | idle
  /-- At the label retry, with the value of sock. -/
  | retry (p : ℕ) (n : Sigevent) (sock : Option ℕ) (nc : ℕ)
  /-- Before netlink_attachskb. -/
  | attach (p : ℕ) (n : Sigevent) (sock nc : ℕ)
  | lookup (p : ℕ) (u : Option Sigevent) (sock nc : Option ℕ)
  | out (sock nc : Option ℕ) (ret : ℤ)
  | done (ret : ℤ)
  deriving DecidableEq

/-- A queue, the sockets and buffers taken for it and the calls. -/
structure NotifyState where
  /-- The fields of the queue. -/
  info : NotifyInfo
  /-- The references to sockets. -/
  socks : Pool
  skbs : Pool
  /-- The signals sent, with the process, the number and the value. -/
  signals : List (ℕ×ℤ×ℕ)
  /-- Where each call stands. -/
  pc : ℕ → NotifyPc

/-- What fget of the descriptor and netlink_getsockbyfilp result in. -/
inductive GetSock
  /-- fget finds no file. -/
  | noFile
  /-- The file is no socket of netlink. -/
  | failed (e : Errno)
  /-- A socket with a new reference. -/
  | found

/-- What netlink_attachskb results in. -/
inductive AttachSkb
  /-- 0: both are kept. -/
  | kept
  /-- 1: the reference is dropped and the buffer kept. -/
  | again
  /-- Both are released. -/
  | failed (e : Errno)

namespace NotifyState

/-- Move a call. -/
def go (s : NotifyState) (c : ℕ) (pc : NotifyPc) : NotifyState := {s with pc := update s.pc c pc}

def setInfo (s : NotifyState) (info : NotifyInfo) : NotifyState := {s with info := info}

/-- netlink_sendskb and netlink_detachskb: both take the reference and the buffer. -/
def giveBack (s : NotifyState) (sock nc : Option ℕ) : NotifyState :=
  {s with socks := s.socks.release sock, skbs := s.skbs.release nc}

def netlinkSendskb (s : NotifyState) (sock nc : Option ℕ) : NotifyState := s.giveBack sock nc

def netlinkDetachskb (s : NotifyState) (sock nc : Option ℕ) : NotifyState := s.giveBack sock nc

def devKfreeSkb (s : NotifyState) (nc : Option ℕ) : NotifyState := {s with skbs := s.skbs.release nc}

/-- set_cookie, which writes the buffer. -/
def setCookie (s : NotifyState) (nc : Option ℕ) : NotifyState := {s with skbs := s.skbs.use nc}

/-- alloc_skb and the copy of the cookie into the buffer. -/
def allocSkb (s : NotifyState) : NotifyState := {s with skbs := s.skbs.acquire.use (some s.skbs.fresh)}

/-- put_pid and the reset of notify_owner. -/
def clearOwner (s : NotifyState) : NotifyState := s.setInfo {s.info with notifyOwner := none}

/-- The notification by thread. -/
def sendCookie (s : NotifyState) : NotifyState :=
  (s.setCookie s.info.notifyCookie).netlinkSendskb s.info.notifySock s.info.notifyCookie

def removeNotification (s : NotifyState) : NotifyState :=
  if s.info.notifyOwner.isSome ∧ s.info.notify.notify=sigevThread then s.sendCookie.clearOwner
  else s.clearOwner

/-- __do_notify after the arrival of a message, with mq_curmsgs. -/
def doNotify (s : NotifyState) (curmsgs : ℤ) : NotifyState :=
  match s.info.notifyOwner with
  | none => s
  | some p =>
    if curmsgs=1 then
      if s.info.notify.notify=sigevSignal then
        {s with signals := s.signals++[(p,s.info.notify.signo,s.info.notify.value)]}.clearOwner
      else if s.info.notify.notify=sigevThread then s.sendCookie.clearOwner
      else s.clearOwner
    else s

/-- mqueue_flush_file by a process. -/
def mqueueFlushFile (s : NotifyState) (p : ℕ) : NotifyState :=
  if s.info.notifyOwner=some p then s.removeNotification else s

/-- The start of mq_notify, up to the label retry or to the lookup of the queue. -/
def mqNotify (s : NotifyState) (c p : ℕ) (u : Option Sigevent) (copied allocated cookie : Bool) : NotifyState :=
  match u with
  | none => s.go c (.lookup p none none none)
  | some n =>
    if copied=false then s.go c (.done (-efault))
    else if n.notify≠sigevNone ∧ n.notify≠sigevSignal ∧ n.notify≠sigevThread then s.go c (.done (-einval))
    else if n.notify=sigevSignal ∧ ¬validSignal n.signo then s.go c (.done (-einval))
    else if n.notify=sigevThread then
      if allocated=false then s.go c (.out none none (-enomem))
      else if cookie=false then s.allocSkb.go c (.out none (some s.skbs.fresh) (-efault))
      else s.allocSkb.go c (.retry p n none s.skbs.fresh)
    else s.go c (.lookup p (some n) none none)

/-- The lookup of the socket. When fget fails, sock has the value it had. -/
def getsock (s : NotifyState) (c p : ℕ) (n : Sigevent) (sock : Option ℕ) (nc : ℕ) : GetSock → NotifyState
  | .noFile => s.go c (.out sock (some nc) (-ebadf))
  | .failed e => s.go c (.out none (some nc) e.code)
  | .found => {s with socks := s.socks.acquire}.go c (.attach p n s.socks.fresh nc)

/-- The call of netlink_attachskb and the branches on its result. -/
def attachskb (s : NotifyState) (c p : ℕ) (n : Sigevent) (sock nc : ℕ) : AttachSkb → NotifyState
  | .kept => {s with socks := s.socks.use (some sock), skbs := s.skbs.use (some nc)}.go c
      (.lookup p (some n) (some sock) (some nc))
  | .again => {s with socks := s.socks.release (some sock), skbs := s.skbs.use (some nc)}.go c
      (.retry p n (some sock) nc)
  | .failed e => (s.giveBack (some sock) (some nc)).go c (.out none none e.code)

/-- The registration of the process on a queue without an owner. -/
def register (s : NotifyState) (c p : ℕ) (n : Sigevent) (sock nc : Option ℕ) : NotifyState :=
  if n.notify=sigevNone then
    (s.setInfo {s.info with notifyOwner := some p, notify.notify := sigevNone}).go c (.out sock nc 0)
  else if n.notify=sigevThread then
    (s.setInfo ⟨some p,{s.info.notify with notify := sigevThread},sock,nc⟩).go c (.out none none 0)
  else if n.notify=sigevSignal then
    (s.setInfo {s.info with notifyOwner := some p, notify := n}).go c (.out sock nc 0)
  else (s.setInfo {s.info with notifyOwner := some p}).go c (.out sock nc 0)

/-- The lookup of the queue and the critical section. -/
def lookup (s : NotifyState) (c p : ℕ) (u : Option Sigevent) (sock nc : Option ℕ) (found : Bool) : NotifyState :=
  if found=false then s.go c (.out sock nc (-ebadf))
  else
    match u with
    | none =>
      (if s.info.notifyOwner=some p then s.removeNotification else s).go c (.out sock nc 0)
    | some n =>
      if s.info.notifyOwner.isSome then s.go c (.out sock nc (-ebusy))
      else s.register c p n sock nc

/-- The label out. -/
def out (s : NotifyState) (c : ℕ) (sock nc : Option ℕ) (ret : ℤ) : NotifyState :=
  if sock.isSome then (s.netlinkDetachskb sock nc).go c (.done ret)
  else if nc.isSome then (s.devKfreeSkb nc).go c (.done ret)
  else s.go c (.done ret)

end NotifyState

/-- The atomic steps of calls, and the other events on the queue. -/
inductive NotifyEvent
  /-- A process calls mq_notify; the flags tell whether the copy of the argument, the
  allocation of the buffer and the copy of the cookie succeed. -/
  | mqNotify (c p : ℕ) (u : Option Sigevent) (copied allocated cookie : Bool)
  /-- The lookup of the socket. -/
  | getsock (c : ℕ) (r : GetSock)
  | attachskb (c : ℕ) (r : AttachSkb)
  /-- The lookup of the queue, which may fail, and the critical section. -/
  | lookup (c : ℕ) (found : Bool)
  | out (c : ℕ)
  /-- A message was inserted, and mq_curmsgs has the given value. -/
  | arrived (curmsgs : ℤ)
  /-- A process closes a descriptor of the queue. -/
  | flush (p : ℕ)

/-- One step; a call only takes the step at which it stands. -/
def notifyStep (s : NotifyState) : NotifyEvent → Option NotifyState
  | .mqNotify c p u copied allocated cookie =>
    match s.pc c with
    | .idle => some (s.mqNotify c p u copied allocated cookie)
    | _ => none
  | .getsock c r =>
    match s.pc c with
    | .retry p n sock nc => some (s.getsock c p n sock nc r)
    | _ => none
  | .attachskb c r =>
    match s.pc c with
    | .attach p n sock nc => some (s.attachskb c p n sock nc r)
    | _ => none
  | .lookup c found =>
    match s.pc c with
    | .lookup p u sock nc => some (s.lookup c p u sock nc found)
    | _ => none
  | .out c =>
    match s.pc c with
    | .out sock nc ret => some (s.out c sock nc ret)
    | _ => none
  | .arrived curmsgs => some (s.doNotify curmsgs)
  | .flush p => some (s.mqueueFlushFile p)

/-- No process is registered, no call is running and nothing was acquired. -/
structure NotifyStart (s : NotifyState) : Prop where
  free : s.info.notifyOwner=none
  /-- No socket was acquired. -/
  socks : s.socks=Pool.empty
  /-- No buffer was acquired. -/
  skbs : s.skbs=Pool.empty
  /-- No call is running. -/
  idle : ∀ c, s.pc c=.idle

/-- A step as a relation. -/
def NotifyNext (s : NotifyState) (e : NotifyEvent) (s' : NotifyState) : Prop := notifyStep s e=some s'

/-- The states of all interleavings. -/
def NotifyReachable (s : NotifyState) : Prop := Reachable NotifyStart NotifyNext s

/-- The file of the socket is found whenever it is looked up after a retry. -/
def FoundAgain (s : NotifyState) (e : NotifyEvent) : Prop :=
  ∀ c p n r nc, e=.getsock c .noFile → s.pc c≠.retry p n (some r) nc

/-- A step in which the file of the socket is found again. -/
def FoundNext (s : NotifyState) (e : NotifyEvent) (s' : NotifyState) : Prop := FoundAgain s e ∧ NotifyNext s e s'

/-- The states of the interleavings in which it is always found again. -/
def FoundReachable (s : NotifyState) : Prop := Reachable NotifyStart FoundNext s

variable {s s' : NotifyState} {i : NotifyInfo} {pc : NotifyPc} {c p nc : ℕ} {x sock : Option ℕ} {u : Option Sigevent}
  {n : Sigevent} {e : NotifyEvent}

theorem notifyReachable_of_found (hr : FoundReachable s) : NotifyReachable s :=
  Reachable.project id (fun _ h => h) (fun _ e _ h => ⟨e,h.2⟩) hr

/-- The reference a call has to release. At the label retry it has none, whatever sock is. -/
def NotifyPc.ownSock : NotifyPc → Option ℕ
  | .attach _ _ sock _ => some sock
  | .lookup _ _ sock _ => sock
  | .out sock _ _ => sock
  | _ => none

/-- The buffer a call has to release. -/
def NotifyPc.ownSkb : NotifyPc → Option ℕ
  | .retry _ _ _ nc => some nc
  | .attach _ _ _ nc => some nc
  | .lookup _ _ _ nc => nc
  | .out _ nc _ => nc
  | _ => none

/-- A process is registered for a notification by thread. -/
def NotifyInfo.Threaded (i : NotifyInfo) : Prop := i.notifyOwner.isSome ∧ i.notify.notify=sigevThread

instance (i : NotifyInfo) : Decidable i.Threaded := inferInstanceAs (Decidable (_ ∧ _))

/-- A field of the queue, if it belongs to such a registration. -/
def NotifyInfo.registered (i : NotifyInfo) (x : Option ℕ) : Option ℕ := if i.Threaded then x else none

/-- Who holds which reference: the queue, or a call. -/
def holdSock (s : NotifyState) : Option ℕ → Option ℕ :=
  holders (s.info.registered s.info.notifySock) (NotifyPc.ownSock ∘ s.pc)

/-- Who holds which buffer. -/
def holdSkb (s : NotifyState) : Option ℕ → Option ℕ :=
  holders (s.info.registered s.info.notifyCookie) (NotifyPc.ownSkb ∘ s.pc)

/-- A registration by thread has a reference and a buffer. -/
def NotifyInfo.Paired (i : NotifyInfo) : Prop := i.Threaded → i.notifySock.isSome ∧ i.notifyCookie.isSome

/-- What the variables of a call are. -/
def PcOk (socks : Pool) : NotifyPc → Prop
  | .retry _ n sock _ => n.notify=sigevThread ∧ ∀ r, sock=some r → socks.released r≠0
  | .attach _ n _ _ => n.notify=sigevThread
  | .lookup _ u sock nc => (sock.isSome → nc.isSome) ∧ ∀ n, u=some n →
      (n.notify=sigevNone ∨ n.notify=sigevSignal ∨ n.notify=sigevThread) ∧
      (n.notify=sigevThread → sock.isSome ∧ nc.isSome)
  | .out sock nc _ => sock.isSome → nc.isSome
  | _ => True

/-- The invariant of the runs in which the file is found again. -/
structure NotifyInv (s : NotifyState) : Prop where
  /-- Every reference is held by one holder or was released once. -/
  socks : Owned s.socks (holdSock s)
  skbs : Owned s.skbs (holdSkb s)
  /-- The queue has both or none. -/
  info : s.info.Paired
  /-- The variables of the calls are right. -/
  ok : ∀ c, PcOk s.socks (s.pc c)

theorem not_threaded (h : i.notifyOwner=none) : ¬i.Threaded := by
  intro ht
  have howner := ht.1
  rw [h] at howner
  cases howner

theorem notifyInv_start (h : NotifyStart s) : NotifyInv s := by
  have hplain : ¬s.info.Threaded := not_threaded h.free
  refine ⟨?_,?_,fun ho => absurd ho hplain,fun c => ?_⟩
  · rw [h.socks]
    refine owned_empty (fun k => ?_)
    cases k with
    | none => exact if_neg hplain
    | some c =>
      show (s.pc c).ownSock=none
      rw [h.idle c]
      rfl
  · rw [h.skbs]
    refine owned_empty (fun k => ?_)
    cases k with
    | none => exact if_neg hplain
    | some c =>
      show (s.pc c).ownSkb=none
      rw [h.idle c]
      rfl
  · rw [h.idle c]
    exact trivial

/-- What the variables of a call are does not change when references are released. -/
theorem PcOk.mono {a b : Pool} (hab : ∀ r, a.released r≤b.released r) (h : PcOk a pc) : PcOk b pc := by
  cases pc with
  | retry p n sock nc =>
    refine ⟨h.1,fun r hr => ?_⟩
    have hne := h.2 r hr
    have hle := hab r
    omega
  | idle | attach p n sock nc | lookup p u sock nc | out sock nc ret | done ret => exact h

/-- One call gets right variables, and the others keep theirs. -/
theorem pcOk_update (hi : NotifyInv s) {socks : Pool} (hmono : ∀ r, s.socks.released r ≤ socks.released r)
    (hok : PcOk socks pc) (d : ℕ) : PcOk socks (update s.pc c pc d) := by
  by_cases hd : d=c
  · rw [hd,update_self]
    exact hok
  · rw [update_of_ne hd]
    exact (hi.ok d).mono hmono

/-- A call moves, and with it what it holds. -/
theorem NotifyInv.change (hi : NotifyInv s) (hpc : s'.pc=update s.pc c pc) (hinfo : s'.info=s.info)
    (hsocks : Owned s'.socks (update (holdSock s) (some c) pc.ownSock))
    (hskbs : Owned s'.skbs (update (holdSkb s) (some c) pc.ownSkb))
    (hmono : ∀ r, s.socks.released r ≤ s'.socks.released r) (hok : PcOk s'.socks pc) : NotifyInv s' := by
  refine ⟨?_,?_,?_,fun d => ?_⟩
  · rw [holdSock,hinfo,hpc,Function.comp_update,holders_party]
    exact hsocks
  · rw [holdSkb,hinfo,hpc,Function.comp_update,holders_party]
    exact hskbs
  · rw [hinfo]
    exact hi.info
  · rw [hpc]
    exact pcOk_update hi hmono hok d

/-- A call that moves keeps the reference it holds. -/
theorem sameSock (hi : NotifyInv s) (hx : x=(s.pc c).ownSock) : Owned s.socks (update (holdSock s) (some c) x) := by
  rw [hx,show (s.pc c).ownSock=holdSock s (some c) from rfl,update_eq_self]
  exact hi.socks

/-- A call that moves keeps the buffer it holds. -/
theorem sameSkb (hi : NotifyInv s) (hx : x=(s.pc c).ownSkb) : Owned s.skbs (update (holdSkb s) (some c) x) := by
  rw [hx,show (s.pc c).ownSkb=holdSkb s (some c) from rfl,update_eq_self]
  exact hi.skbs

/-- A call moves and holds what it held. -/
theorem NotifyInv.go (hi : NotifyInv s) (hsock : pc.ownSock=(s.pc c).ownSock) (hskb : pc.ownSkb=(s.pc c).ownSkb)
    (hok : PcOk s.socks pc) : NotifyInv (s.go c pc) :=
  hi.change rfl rfl (sameSock hi hsock) (sameSkb hi hskb) (fun _ => le_rfl) hok

/-- A call allocates a buffer. -/
theorem NotifyInv.allocSkb (hi : NotifyInv s) (hsock : pc.ownSock=(s.pc c).ownSock) (hnone : (s.pc c).ownSkb=none)
    (hskb : pc.ownSkb=some s.skbs.fresh) (hok : PcOk s.socks pc) : NotifyInv (s.allocSkb.go c pc) := by
  have ho := hi.skbs.acquire (h:=some c) hnone
  have huse : s.skbs.acquire.use (some s.skbs.fresh)=s.skbs.acquire :=
    ho.use_eq (h:=some c) (update_self _ _ _)
  refine hi.change rfl rfl (sameSock hi hsock) ?_ (fun _ => le_rfl) hok
  rw [hskb]
  show Owned (s.skbs.acquire.use (some s.skbs.fresh)) _
  rw [huse]
  exact ho

theorem NotifyInv.mqNotify (hi : NotifyInv s) {copied allocated cookie : Bool} (hc : s.pc c=.idle) :
    NotifyInv (s.mqNotify c p u copied allocated cookie) := by
  have hsock : (s.pc c).ownSock=none := by rw [hc]; rfl
  have hskb : (s.pc c).ownSkb=none := by rw [hc]; rfl
  unfold NotifyState.mqNotify
  cases u with
  | none => exact hi.go hsock.symm hskb.symm ⟨nofun,nofun⟩
  | some n =>
    dsimp only
    split_ifs with h1 h2 h3 h4 h5 h6
    · exact hi.go hsock.symm hskb.symm trivial
    · exact hi.go hsock.symm hskb.symm trivial
    · exact hi.go hsock.symm hskb.symm trivial
    · exact hi.go hsock.symm hskb.symm nofun
    · exact hi.allocSkb hsock.symm hskb rfl nofun
    · exact hi.allocSkb hsock.symm hskb rfl ⟨h4,nofun⟩
    · refine hi.go hsock.symm hskb.symm ⟨nofun,fun m hm => ?_⟩
      cases hm
      exact ⟨by tauto,fun h => absurd h h4⟩

/-- The lookup of the socket, which is found again on a retry. -/
theorem NotifyInv.getsock (hi : NotifyInv s) {r : GetSock} (hc : s.pc c=.retry p n sock nc)
    (hfound : r=.noFile → sock=none) : NotifyInv (s.getsock c p n sock nc r) := by
  have hsock : (s.pc c).ownSock=none := by rw [hc]; rfl
  have hskb : (s.pc c).ownSkb=some nc := by rw [hc]; rfl
  have hok := hi.ok c
  rw [hc] at hok
  cases r with
  | noFile => exact hi.go ((hfound rfl).trans hsock.symm) hskb.symm (fun _ => rfl)
  | failed e => exact hi.go hsock.symm hskb.symm nofun
  | found =>
    exact hi.change rfl rfl (hi.socks.acquire (h:=some c) hsock) (sameSkb hi hskb.symm) (fun _ => le_rfl) hok.1

/-- A call releases its reference and its buffer. -/
theorem NotifyInv.giveBack (hi : NotifyInv s) {a b : ℕ} (ha : (s.pc c).ownSock=some a) (hb : (s.pc c).ownSkb=some b)
    (hsock : pc.ownSock=none) (hskb : pc.ownSkb=none) (hok : PcOk (s.socks.release (some a)) pc) :
    NotifyInv ((s.giveBack (some a) (some b)).go c pc) := by
  refine hi.change rfl rfl ?_ ?_ (s.socks.le_release (some a)) hok
  · rw [hsock]
    exact hi.socks.release (h:=some c) ha
  · rw [hskb]
    exact hi.skbs.release (h:=some c) hb

/-- The call of netlink_attachskb. -/
theorem NotifyInv.attachskb (hi : NotifyInv s) {sock : ℕ} {r : AttachSkb} (hc : s.pc c=.attach p n sock nc) :
    NotifyInv (s.attachskb c p n sock nc r) := by
  have hsock : (s.pc c).ownSock=some sock := by rw [hc]; rfl
  have hskb : (s.pc c).ownSkb=some nc := by rw [hc]; rfl
  have hkind : n.notify=sigevThread := by
    have hok := hi.ok c
    rw [hc] at hok
    exact hok
  have husock := hi.socks.use_eq (h:=some c) hsock
  have huskb := hi.skbs.use_eq (h:=some c) hskb
  cases r with
  | kept =>
    unfold NotifyState.attachskb
    dsimp only
    rw [husock,huskb]
    refine hi.go hsock.symm hskb.symm ⟨fun _ => rfl,fun m hm => ?_⟩
    cases hm
    exact ⟨.inr (.inr hkind),fun _ => ⟨rfl,rfl⟩⟩
  | again =>
    unfold NotifyState.attachskb
    dsimp only
    rw [huskb]
    refine hi.change rfl rfl (hi.socks.release (h:=some c) hsock) (sameSkb hi hskb.symm)
      (s.socks.le_release (some sock)) ⟨hkind,fun r hr => ?_⟩
    cases hr
    show update s.socks.released sock (s.socks.released sock+1) sock≠0
    rw [update_self]
    exact Nat.succ_ne_zero _
  | failed e => exact hi.giveBack hsock hskb rfl rfl nofun

theorem NotifyInv.out (hi : NotifyInv s) {nc : Option ℕ} {ret : ℤ} (hc : s.pc c=.out sock nc ret) :
    NotifyInv (s.out c sock nc ret) := by
  have hsock : (s.pc c).ownSock=sock := by rw [hc]; rfl
  have hskb : (s.pc c).ownSkb=nc := by rw [hc]; rfl
  have hok := hi.ok c
  rw [hc] at hok
  cases sock with
  | some a =>
    obtain ⟨b,rfl⟩ := Option.isSome_iff_exists.mp (hok rfl)
    exact hi.giveBack hsock hskb rfl rfl trivial
  | none =>
    cases nc with
    | some b =>
      exact hi.change rfl rfl (sameSock hi hsock.symm) (hi.skbs.release (h:=some c) hskb) (fun _ => le_rfl) trivial
    | none => exact hi.go hsock.symm hskb.symm trivial

/-- The queue changes, and no call moves. -/
theorem NotifyInv.changeInfo (hi : NotifyInv s) (hpc : s'.pc=s.pc)
    (hsocks : Owned s'.socks (update (holdSock s) none (s'.info.registered s'.info.notifySock)))
    (hskbs : Owned s'.skbs (update (holdSkb s) none (s'.info.registered s'.info.notifyCookie)))
    (hmono : ∀ r, s.socks.released r ≤ s'.socks.released r) (hinfo : s'.info.Paired) : NotifyInv s' := by
  refine ⟨?_,?_,hinfo,fun d => ?_⟩
  · rw [holdSock,hpc,holders_place (s.info.registered s.info.notifySock)]
    exact hsocks
  · rw [holdSkb,hpc,holders_place (s.info.registered s.info.notifyCookie)]
    exact hskbs
  · rw [hpc]
    exact (hi.ok d).mono hmono

/-- The queue has no registration by thread and gets none. -/
theorem NotifyInv.setInfo (hi : NotifyInv s) (hold : ¬s.info.Threaded) (hnew : ¬i.Threaded) :
    NotifyInv (s.setInfo i) := by
  refine hi.changeInfo rfl ?_ ?_ (fun _ => le_rfl) (fun h => absurd h hnew)
  · have hself : i.registered i.notifySock=holdSock s none := (if_neg hnew).trans (if_neg hold).symm
    show Owned s.socks (update (holdSock s) none (i.registered i.notifySock))
    rw [hself,update_eq_self]
    exact hi.socks
  · have hself : i.registered i.notifyCookie=holdSkb s none := (if_neg hnew).trans (if_neg hold).symm
    show Owned s.skbs (update (holdSkb s) none (i.registered i.notifyCookie))
    rw [hself,update_eq_self]
    exact hi.skbs

theorem NotifyInv.clearOwner (hi : NotifyInv s) (hold : ¬s.info.Threaded) : NotifyInv s.clearOwner :=
  hi.setInfo hold (not_threaded rfl)

/-- The queue gives back what belongs to a registration by thread. -/
theorem NotifyInv.sendCookie (hi : NotifyInv s) (hold : s.info.Threaded) : NotifyInv s.sendCookie.clearOwner := by
  obtain ⟨hsock,hcookie⟩ := hi.info hold
  obtain ⟨a,ha⟩ := Option.isSome_iff_exists.mp hsock
  obtain ⟨b,hb⟩ := Option.isSome_iff_exists.mp hcookie
  have hholda : holdSock s none=some a := (if_pos hold).trans ha
  have hholdb : holdSkb s none=some b := (if_pos hold).trans hb
  have hsent : s.sendCookie=s.giveBack (some a) (some b) := by
    unfold NotifyState.sendCookie NotifyState.netlinkSendskb NotifyState.setCookie
    rw [ha,hb,hi.skbs.use_eq hholdb]
  have hnone : ∀ x, s.sendCookie.clearOwner.info.registered x=none := fun x => if_neg (not_threaded rfl)
  rw [hsent] at hnone ⊢
  refine hi.changeInfo rfl ?_ ?_ (s.socks.le_release (some a)) (fun h => absurd h (not_threaded rfl))
  · rw [hnone]
    exact hi.socks.release hholda
  · rw [hnone]
    exact hi.skbs.release hholdb

theorem NotifyInv.removeNotification (hi : NotifyInv s) : NotifyInv s.removeNotification := by
  unfold NotifyState.removeNotification
  split_ifs with h
  · exact hi.sendCookie h
  · exact hi.clearOwner h

theorem NotifyInv.mqueueFlushFile (hi : NotifyInv s) (p : ℕ) : NotifyInv (s.mqueueFlushFile p) := by
  unfold NotifyState.mqueueFlushFile
  split_ifs with h
  · exact hi.removeNotification
  · exact hi

/-- The arrival of a message. -/
theorem NotifyInv.doNotify (hi : NotifyInv s) (curmsgs : ℤ) : NotifyInv (s.doNotify curmsgs) := by
  unfold NotifyState.doNotify
  cases ho : s.info.notifyOwner with
  | none => exact hi
  | some p =>
    dsimp only
    split_ifs with h1 hsignal hthread
    · have hkept : NotifyInv {s with signals := s.signals++[(p,s.info.notify.signo,s.info.notify.value)]} :=
        {hi with}
      refine hkept.clearOwner (fun h => ?_)
      have hother : sigevSignal=sigevThread := hsignal.symm.trans h.2
      cases hother
    · exact hi.sendCookie ⟨by rw [ho]; rfl,hthread⟩
    · exact hi.clearOwner (fun h => hthread h.2)
    · exact hi

/-- A call passes its reference and its buffer to the queue. -/
theorem NotifyInv.handOver (hi : NotifyInv s) (hold : ¬s.info.Threaded) (hnew : i.Threaded)
    (hsock : i.notifySock=(s.pc c).ownSock) (hskb : i.notifyCookie=(s.pc c).ownSkb) (hpaired : i.Paired)
    (hnosock : pc.ownSock=none) (hnoskb : pc.ownSkb=none) (hok : PcOk s.socks pc) :
    NotifyInv ((s.setInfo i).go c pc) := by
  have hsocks := hi.socks.pass (h:=some c) (k:=none) (if_neg hold)
  have hskbs := hi.skbs.pass (h:=some c) (k:=none) (if_neg hold)
  refine ⟨?_,?_,hpaired,pcOk_update hi (fun _ => le_rfl) hok⟩
  · show Owned s.socks (holders (i.registered i.notifySock) (NotifyPc.ownSock ∘ update s.pc c pc))
    rw [NotifyInfo.registered,if_pos hnew,hsock,Function.comp_update,hnosock,
      holders_place (s.info.registered s.info.notifySock),holders_party]
    exact hsocks
  · show Owned s.skbs (holders (i.registered i.notifyCookie) (NotifyPc.ownSkb ∘ update s.pc c pc))
    rw [NotifyInfo.registered,if_pos hnew,hskb,Function.comp_update,hnoskb,
      holders_place (s.info.registered s.info.notifyCookie),holders_party]
    exact hskbs

/-- The registration of a process. -/
theorem NotifyInv.register (hi : NotifyInv s) {nc : Option ℕ} (hc : s.pc c=.lookup p (some n) sock nc)
    (hfree : s.info.notifyOwner=none) : NotifyInv (s.register c p n sock nc) := by
  have hsock : (s.pc c).ownSock=sock := by rw [hc]; rfl
  have hskb : (s.pc c).ownSkb=nc := by rw [hc]; rfl
  have hplain := not_threaded hfree
  have hok := hi.ok c
  rw [hc] at hok
  obtain ⟨hpair,hkind⟩ := hok
  obtain ⟨hknown,hboth⟩ := hkind n rfl
  unfold NotifyState.register
  split_ifs with hnone hthread hsignal
  · refine (hi.setInfo hplain (fun h => ?_)).go hsock.symm hskb.symm hpair
    have hother : sigevNone=sigevThread := h.2
    cases hother
  · exact hi.handOver hplain ⟨rfl,rfl⟩ hsock.symm hskb.symm (fun _ => hboth hthread) rfl rfl nofun
  · exact (hi.setInfo hplain (fun h => hthread h.2)).go hsock.symm hskb.symm hpair
  · exact absurd hknown (by tauto)

/-- The lookup of the queue and the critical section. -/
theorem NotifyInv.lookup (hi : NotifyInv s) {nc : Option ℕ} {found : Bool} (hc : s.pc c=.lookup p u sock nc) :
    NotifyInv (s.lookup c p u sock nc found) := by
  have hsock : (s.pc c).ownSock=sock := by rw [hc]; rfl
  have hskb : (s.pc c).ownSkb=nc := by rw [hc]; rfl
  have hpair : sock.isSome → nc.isSome := by
    have hok := hi.ok c
    rw [hc] at hok
    exact hok.1
  unfold NotifyState.lookup
  split
  · exact hi.go hsock.symm hskb.symm hpair
  · cases u with
    | none =>
      have hflush := hi.mqueueFlushFile p
      have hpc : (s.mqueueFlushFile p).pc=s.pc := by
        unfold NotifyState.mqueueFlushFile NotifyState.removeNotification
        split_ifs <;> rfl
      refine hflush.go ?_ ?_ hpair
      · rw [hpc]
        exact hsock.symm
      · rw [hpc]
        exact hskb.symm
    | some n =>
      dsimp only
      split_ifs with howner
      · exact hi.go hsock.symm hskb.symm hpair
      · exact hi.register hc (by simpa using howner)

/-- Every step in which the file is found again preserves the invariant. -/
theorem NotifyInv.step (hi : NotifyInv s) (h : FoundNext s e s') : NotifyInv s' := by
  obtain ⟨hfound,h⟩ := h
  unfold NotifyNext notifyStep at h
  cases e with
  | mqNotify c p u copied allocated cookie =>
    dsimp only at h
    split at h
    · next hc => exact Option.some.inj h ▸ hi.mqNotify hc
    · cases h
  | getsock c r =>
    dsimp only at h
    split at h
    · next p n sock nc hc =>
      refine Option.some.inj h ▸ hi.getsock hc (fun hr => ?_)
      cases sock with
      | none => rfl
      | some a => exact absurd hc (hfound c p n a nc (by rw [hr]))
    · cases h
  | attachskb c r =>
    dsimp only at h
    split at h
    · next hc => exact Option.some.inj h ▸ hi.attachskb hc
    · cases h
  | lookup c found =>
    dsimp only at h
    split at h
    · next hc => exact Option.some.inj h ▸ hi.lookup hc
    · cases h
  | out c =>
    dsimp only at h
    split at h
    · next hc => exact Option.some.inj h ▸ hi.out hc
    · cases h
  | arrived curmsgs => exact Option.some.inj h ▸ hi.doNotify curmsgs
  | flush p => exact Option.some.inj h ▸ hi.mqueueFlushFile p

/-- The invariant holds in all these runs. -/
theorem notifyInv_of_found (hr : FoundReachable s) : NotifyInv s :=
  Reachable.invariant (I := NotifyInv) (fun _ h => notifyInv_start h) (fun _ _ _ _ hi h => hi.step h) hr

/-- A call is not running. -/
def NotifyPc.AtRest (pc : NotifyPc) : Prop := pc=.idle ∨ ∃ ret, pc=.done ret

theorem NotifyPc.AtRest.ownSock (h : pc.AtRest) : pc.ownSock=none := by
  obtain rfl|⟨ret,rfl⟩ := h <;> rfl

theorem NotifyPc.AtRest.ownSkb (h : pc.AtRest) : pc.ownSkb=none := by
  obtain rfl|⟨ret,rfl⟩ := h <;> rfl

/-- If the file of the socket is found again whenever it is looked up after a retry,
every reference and every buffer is either held by the queue or by one call and not
released, or was released once and is held by none. Nothing is used after its
release. When no call is running and no process is registered, all are released. -/
theorem mq_notify_releases_once_of_found {s : NotifyState} (hr : FoundReachable s) :
    (∀ r, r<s.socks.fresh → (s.socks.released r=1 ∧ ∀ h, holdSock s h≠some r) ∨
      (s.socks.released r=0 ∧ ∃! h, holdSock s h=some r)) ∧
    (∀ b, b<s.skbs.fresh → (s.skbs.released b=1 ∧ ∀ h, holdSkb s h≠some b) ∨
      (s.skbs.released b=0 ∧ ∃! h, holdSkb s h=some b)) ∧
    s.socks.misuse=false ∧ s.skbs.misuse=false ∧
    ((∀ c, (s.pc c).AtRest) → s.info.notifyOwner=none →
      (∀ r, r<s.socks.fresh → s.socks.released r=1) ∧ ∀ b, b<s.skbs.fresh → s.skbs.released b=1) := by
  have hi := notifyInv_of_found hr
  refine ⟨fun r h => hi.socks.once h,fun b h => hi.skbs.once h,hi.socks.tame,hi.skbs.tame,
    fun hrest hfree => ⟨fun r h => hi.socks.gone r h (fun k hk => ?_),
      fun b h => hi.skbs.gone b h (fun k hk => ?_)⟩⟩
  · cases k with
    | none => exact absurd ((if_neg (not_threaded hfree)).symm.trans hk) nofun
    | some c => exact absurd ((hrest c).ownSock.symm.trans hk) nofun
  · cases k with
    | none => exact absurd ((if_neg (not_threaded hfree)).symm.trans hk) nofun
    | some c => exact absurd ((hrest c).ownSkb.symm.trans hk) nofun

/-- A new queue. -/
def newNotify : NotifyState := ⟨⟨none,⟨1,0,0⟩,none,none⟩,Pool.empty,Pool.empty,[],fun _ => .idle⟩

theorem newNotify_start : NotifyStart newNotify := ⟨rfl,rfl,rfl,fun _ => rfl⟩

/-- Whether the file of the socket is found in a step, if it is looked up after a retry. -/
def foundAgain (s : NotifyState) : NotifyEvent → Bool
  | .getsock c .noFile =>
    match s.pc c with
    | .retry _ _ (some _) _ => false
    | _ => true
  | _ => true

def foundStep (s : NotifyState) (e : NotifyEvent) : Option NotifyState :=
  if foundAgain s e then notifyStep s e else none

theorem foundStep_next (h : foundStep s e=some s') : FoundNext s e s' := by
  unfold foundStep at h
  split at h
  · next hfound =>
    refine ⟨fun c p n r nc he hp => ?_,h⟩
    subst he
    simp [foundAgain,hp] at hfound
  · cases h

/-- A process registers for a notification by thread, after one retry, and another is
refused. A message arrives, and the first reference was released by the retry only. -/
theorem mq_notify_releases_once_of_found_retry : ∃ s, FoundReachable s ∧ s.socks.fresh=3 ∧ s.skbs.fresh=2 ∧
    s.socks.released 0=1 ∧ s.socks.misuse=false ∧ s.skbs.misuse=false ∧
    ((s.skbs.released 1=1 ∧ ∀ h, holdSkb s h≠some 1) ∨ (s.skbs.released 1=0 ∧ ∃! h, holdSkb s h=some 1)) := by
  obtain ⟨s,hr,hsf,hkf,hrel⟩ : ∃ s, FoundReachable s ∧ s.socks.fresh=3 ∧ s.skbs.fresh=2 ∧ s.socks.released 0=1 :=
    exists_run (fun _ _ _ => foundStep_next) newNotify_start [.mqNotify 0 7 (some ⟨2,5,9⟩) true true true,
      .getsock 0 .found,.attachskb 0 .again,.getsock 0 .found,.attachskb 0 .kept,.lookup 0 true,.out 0,
      .mqNotify 1 8 (some ⟨2,6,9⟩) true true true,.getsock 1 .found,.attachskb 1 .kept,.lookup 1 true,
      .out 1,.arrived 1] (by decide)
  obtain ⟨_,hskbs,hsock,hskb,_⟩ := mq_notify_releases_once_of_found hr
  exact ⟨s,hr,hsf,hkf,hrel,hsock,hskb,hskbs 1 (by rw [hkf]; decide)⟩

/-- The descriptor of the socket is closed while netlink_attachskb waits for room: the
lookup on the retry fails, and the reference that netlink_attachskb dropped is
released again. -/
theorem mq_notify_releases_twice : ∃ s, NotifyReachable s ∧ s.socks.released 0=2 ∧ s.socks.misuse=true :=
  exists_run (fun _ _ _ => id) newNotify_start [.mqNotify 0 7 (some ⟨2,5,9⟩) true true true,.getsock 0 .found,
    .attachskb 0 .again,.getsock 0 .noFile,.out 0] (by decide)

/-- From every state in which a call retries, a failed lookup leads to a state in which
the reference was released again and used after its release. -/
theorem misuse_of_not_found (hr : FoundReachable s) {r : ℕ} (hc : s.pc c=.retry p n (some r) nc) :
    ∃ s', NotifyReachable s' ∧ s'.socks.misuse=true ∧ 1<s'.socks.released r := by
  have hok := (notifyInv_of_found hr).ok c
  rw [hc] at hok
  have hreleased : s.socks.released r≠0 := hok.2 r rfl
  have hstep : NotifyNext s (.getsock c .noFile) (s.go c (.out (some r) (some nc) (-ebadf))) := by
    unfold NotifyNext
    simp [notifyStep,hc,NotifyState.getsock]
  have hout : NotifyNext (s.go c (.out (some r) (some nc) (-ebadf))) (.out c)
      ((s.go c (.out (some r) (some nc) (-ebadf))).out c (some r) (some nc) (-ebadf)) := by
    unfold NotifyNext
    simp [notifyStep,NotifyState.go]
  refine ⟨_,Reachable.next (Reachable.next (notifyReachable_of_found hr) hstep) hout,?_,?_⟩
  · show (s.socks.misuse || decide (s.socks.released r≠0))=true
    rw [decide_eq_true hreleased,Bool.or_true]
  · show 1<update s.socks.released r (s.socks.released r+1) r
    rw [update_self]
    omega

end BlockIpc.MqueueNotify
