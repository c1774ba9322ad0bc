import BlockIpc.MsgDelivery

/-!
# Accounts of System V messages

A queue counts its messages and their bytes, and a namespace counts those of all its
queues in two atomic ints. Sending, receiving and removing update these counters on
separate paths, and a message that is handed over directly touches none of them.
While msg_ctlmax is not negative the counters of every queue are exact and those of
the namespace are exact modulo the width of an int.
-/

namespace BlockIpc.MsgAccounting

open Function (update update_self update_of_ne)
open List
open KernelNumbers TransitionRuns MsgQueues MsgProtocol MsgDelivery

/-- The message and the size with which a sender is on its way. -/
def load : MsgPc → Option (MsgMsg×ℕ)
  | .sndReady m msgsz _ => some (m,msgsz)
  | .sndAsleep m msgsz _ => some (m,msgsz)
  | .sndScan m msgsz _ => some (m,msgsz)
  | .sndWrite m msgsz _ _ => some (m,msgsz)
  | _ => none

/-- The size for which a sender has found room. -/
def admitted : MsgPc → Option ℕ
  | .sndScan _ msgsz _ => some msgsz
  | .sndWrite _ msgsz _ _ => some msgsz
  | _ => none

/-- The bytes of the messages on a queue. -/
def messageBytes (l : List MsgMsg) : ℤ := (l.map MsgMsg.mTs).sum

structure AccountInv (q : MsgQueue) : Prop where
  /-- The size of a message is the one that its sender adds. -/
  sized : ∀ c m msgsz, load (q.pc c)=some (m,msgsz) → m.mTs=msgsz
  /-- A sender that searches the receivers has found room. -/
  room : ∀ c msgsz, admitted (q.pc c)=some msgsz → q.hasRoom msgsz=true
  /-- Sizes are not negative. -/
  nonneg : ∀ m∈q.qMessages, 0 ≤ m.mTs
  /-- Both counters are unsigned longs. -/
  words : q.qQnum<2^64 ∧ q.qCbytes<2^64
  num : q.deleted=false → (q.qQnum : ℤ)=q.qMessages.length
  bytes : q.deleted=false → (q.qCbytes : ℤ)=messageBytes q.qMessages
  /-- A call that frees the messages has removed the queue and is not done. -/
  freeing : ∀ c, q.pc c=.freeing → q.deleted=true ∧ q.freed=false
  /-- Only one call frees the messages. -/
  single : ∀ c d, q.pc c=.freeing → q.pc d=.freeing → c=d
  freed : q.freed=true → q.deleted=true ∧ q.qMessages=[]

variable {n n' : MsgNs} {q q' : MsgQueue} {c msgsz i : ℕ} {pc : MsgPc} {m : MsgMsg} {x y : ℤ} {l : List MsgMsg}
  {args : RcvArgs} {deny : MsgMsg → ℤ → Bool} {e : MsgEvent} {s s' : MsgSpace}

/-- The counters of a new queue. -/
theorem accountInv_start (h : QueueStart n q) : AccountInv q := by
  refine ⟨fun c m k hc => ?_,fun c k hc => ?_,?_,?_,fun _ => ?_,fun _ => ?_,fun c hc => ?_,
    fun c d hc => ?_,fun hf => ?_⟩
  · rw [h.idle] at hc
    cases hc
  · rw [h.idle] at hc
    cases hc
  · rw [h.messages]
    exact nofun
  · rw [h.qnum,h.cbytes]
    decide
  · rw [h.qnum,h.messages]
    rfl
  · rw [h.cbytes,h.messages]
    rfl
  · rw [h.idle] at hc
    cases hc
  · rw [h.idle] at hc
    cases hc
  · rw [h.kept] at hf
    cases hf

/-- A queue that is not removed is not freed. -/
theorem AccountInv.not_freed (hi : AccountInv q) (hlive : q.deleted=false) : q.freed=false := by
  by_contra hf
  cases hlive.symm.trans (hi.freed (by simpa using hf)).1

/-- The sizes after the advance of a call. -/
theorem AccountInv.sized_update (hi : AccountInv q) (hpc : q'.pc=update q.pc c pc)
    (h : ∀ m k, load pc=some (m,k) → m.mTs=k) (d : ℕ) (m : MsgMsg) (k : ℕ) (hd : load (q'.pc d)=some (m,k)) :
    m.mTs=k := by
  rw [hpc] at hd
  by_cases hdc : d=c
  · rw [hdc,update_self] at hd
    exact h m k hd
  · rw [update_of_ne hdc] at hd
    exact hi.sized d m k hd

/-- The room of the senders after the advance of a call. -/
theorem AccountInv.room_update (hi : AccountInv q) (hpc : q'.pc=update q.pc c pc)
    (h : ∀ k, admitted pc=some k → q.hasRoom k=true) (d k : ℕ) (hd : admitted (q'.pc d)=some k) : q.hasRoom k=true := by
  rw [hpc] at hd
  by_cases hdc : d=c
  · rw [hdc,update_self] at hd
    exact h k hd
  · rw [update_of_ne hdc] at hd
    exact hi.room d k hd

/-- The advance of a call that neither removes the queue nor frees its messages. -/
theorem AccountInv.advance (hi : AccountInv q) (hpc : q'.pc=update q.pc c pc) (hdeleted : q'.deleted=q.deleted)
    (hfreed : q'.freed=q.freed) (hsized : ∀ m k, load pc=some (m,k) → m.mTs=k) (hfreeing : pc≠.freeing)
    (hroom : ∀ d k, admitted (q'.pc d)=some k → q'.hasRoom k=true) (hnonneg : ∀ m∈q'.qMessages, 0 ≤ m.mTs)
    (hwords : q'.qQnum<2^64 ∧ q'.qCbytes<2^64) (hnum : q.deleted=false → (q'.qQnum : ℤ)=q'.qMessages.length)
    (hbytes : q.deleted=false → (q'.qCbytes : ℤ)=messageBytes q'.qMessages) (hempty : q.freed=true → q'.qMessages=[]) :
    AccountInv q' := by
  have hold : ∀ d, q'.pc d=.freeing → q.pc d=.freeing := by
    intro d hd
    rw [hpc] at hd
    by_cases hdc : d=c
    · rw [hdc,update_self] at hd
      exact absurd hd hfreeing
    · rw [update_of_ne hdc] at hd
      exact hd
  refine ⟨hi.sized_update hpc hsized,hroom,hnonneg,hwords,?_,?_,fun d hd => ?_,fun d x hd hx => ?_,fun hf => ?_⟩
  · rw [hdeleted]
    exact hnum
  · rw [hdeleted]
    exact hbytes
  · rw [hdeleted,hfreed]
    exact hi.freeing d (hold d hd)
  · exact hi.single d x (hold d hd) (hold x hx)
  · rw [hfreed] at hf
    rw [hdeleted]
    exact ⟨(hi.freed hf).1,hempty hf⟩

/-- The advance of a call that leaves the messages and the counters. -/
theorem AccountInv.change (hi : AccountInv q) (hpc : q'.pc=update q.pc c pc)
    (hmessages : q'.qMessages=q.qMessages) (hnum : q'.qQnum=q.qQnum) (hbytes : q'.qCbytes=q.qCbytes)
    (hdeleted : q'.deleted=q.deleted) (hfreed : q'.freed=q.freed)
    (hroom : ∀ d k, admitted (q'.pc d)=some k → q'.hasRoom k=true) (hsized : ∀ m k, load pc=some (m,k) → m.mTs=k)
    (hfreeing : pc≠.freeing) : AccountInv q' := by
  refine hi.advance hpc hdeleted hfreed hsized hfreeing hroom ?_ ?_ ?_ ?_ ?_
  · rw [hmessages]
    exact hi.nonneg
  · rw [hnum,hbytes]
    exact hi.words
  · rw [hnum,hmessages]
    exact hi.num
  · rw [hbytes,hmessages]
    exact hi.bytes
  · rw [hmessages]
    exact fun hf => (hi.freed hf).2

/-- The advance of a call that leaves the messages, the counters and the limit. -/
theorem AccountInv.same (hi : AccountInv q) (hpc : q'.pc=update q.pc c pc)
    (hmessages : q'.qMessages=q.qMessages) (hnum : q'.qQnum=q.qQnum) (hbytes : q'.qCbytes=q.qCbytes)
    (hqbytes : q'.qQbytes=q.qQbytes) (hdeleted : q'.deleted=q.deleted) (hfreed : q'.freed=q.freed)
    (hroom : ∀ k, admitted pc=some k → q.hasRoom k=true) (hsized : ∀ m k, load pc=some (m,k) → m.mTs=k)
    (hfreeing : pc≠.freeing) : AccountInv q' := by
  refine hi.change hpc hmessages hnum hbytes hdeleted hfreed (fun d k hd => ?_) hsized hfreeing
  unfold MsgQueue.hasRoom
  rw [hnum,hbytes,hqbytes]
  exact hi.room_update hpc hroom d k hd

/-- A call that sends nothing advances. -/
theorem AccountInv.go (hi : AccountInv q) (hload : load pc=none) (hadmitted : admitted pc=none)
    (hfreeing : pc≠.freeing) : AccountInv (q.go c pc) := by
  refine hi.same rfl rfl rfl rfl rfl rfl rfl (fun k h => ?_) (fun m k h => ?_) hfreeing
  · rw [hadmitted] at h
    cases h
  · rw [hload] at h
    cases h

/-- A call that has found room holds the lock. -/
theorem holding_of_admitted {k : ℕ} (h : admitted pc=some k) : holding pc=true := by
  cases pc with
  | sndScan m k rest | sndWrite m k r rest => rfl
  | _ => cases h

/-- The loop of do_msgsnd keeps the counters. -/
theorem AccountInv.sndOutcome (hi : AccountInv q) (hm : m.mTs=msgsz) (ho : SndOutcome q c m msgsz q') :
    AccountInv q' := by
  cases ho with
  | failed h => exact hi.go rfl rfl nofun
  | began h =>
    refine hi.same rfl rfl rfl rfl rfl rfl rfl (fun k hk => ?_) (fun m' k hk => ?_) nofun
    · cases hk
      exact h
    · cases hk
      exact hm
  | slept h =>
    refine hi.same rfl rfl rfl rfl rfl rfl rfl nofun (fun m' k hk => ?_) nofun
    cases hk
    exact hm

theorem word_of_range (h0 : 0≤x) (h : x<2^64) : (word x : ℤ)=x := by
  unfold word
  omega

theorem word_lt (x : ℤ) : word x<2^64 := by
  unfold word
  omega

theorem messageBytes_append (l : List MsgMsg) (m : MsgMsg) : messageBytes (l++[m])=messageBytes l+m.mTs := by
  simp [messageBytes]

theorem messageBytes_erase (h : m∈l) : messageBytes l=m.mTs+messageBytes (l.erase m) :=
  ((perm_cons_erase h).map MsgMsg.mTs).sum_eq

/-- Messages of sizes that are not negative. -/
theorem messageBytes_nonneg (h : ∀ m∈l, 0 ≤ m.mTs) : 0 ≤ messageBytes l := by
  refine sum_nonneg (fun x hx => ?_)
  obtain ⟨m,hm,rfl⟩ := mem_map.mp hx
  exact h m hm

theorem le_messageBytes (h : ∀ x∈l, 0≤x.mTs) (hm : m∈l) : m.mTs ≤ messageBytes l := by
  rw [messageBytes_erase hm]
  exact le_add_of_nonneg_right (messageBytes_nonneg (fun x hx => h x (mem_of_mem_erase hx)))

/-- The memory of the messages on a queue, with the header of each, fits in the
address space. -/
def Fits (q : MsgQueue) : Prop := 48*(q.qMessages.length : ℤ)+messageBytes q.qMessages<2^64

/-- Two counters of a queue whose messages fit in memory are words. -/
theorem Fits.bounds (h : Fits q) (hn : ∀ m∈q.qMessages, 0 ≤ m.mTs) :
    (q.qMessages.length : ℤ)<2^64 ∧ messageBytes q.qMessages<2^64 := by
  have h0 := messageBytes_nonneg hn
  unfold Fits at h
  omega

/-- A call ends or goes on while nobody else has found room. -/
theorem admitted_update (hpc : q'.pc=update q.pc c pc) (hadmitted : admitted pc=none)
    (hothers : ∀ d, d≠c → holding (q.pc d)=false) (d k : ℕ) : admitted (q'.pc d)≠some k := by
  intro hd
  rw [hpc] at hd
  by_cases hdc : d=c
  · rw [hdc,update_self,hadmitted] at hd
    cases hd
  · rw [update_of_ne hdc] at hd
    have h := holding_of_admitted hd
    rw [hothers d hdc] at h
    cases h

/-- A message is put on the queue. -/
theorem AccountInv.enqueued (hp : ProtoInv q) (hi : AccountInv q) (hpc : q.pc c=.sndScan m msgsz [])
    (hfits : Fits ({q.enqueue m msgsz with lock := none}.go c (.sndDone (some m) 0))) :
    AccountInv ({q.enqueue m msgsz with lock := none}.go c (.sndDone (some m) 0)) := by
  have hhold : holding (q.pc c)=true := by rw [hpc]; rfl
  have hlive := hp.live_of_holding hhold
  have hsize : m.mTs=msgsz := hi.sized c m msgsz (by rw [hpc]; rfl)
  have hnonneg : ∀ x∈q.qMessages++[m], 0≤x.mTs := by
    intro x hx
    rcases mem_append.mp hx with hx|hx
    · exact hi.nonneg x hx
    · rw [mem_singleton.mp hx,hsize]
      exact Int.natCast_nonneg _
  have hothers : ∀ d, d≠c → holding (q.pc d)=false := fun d => hp.others_idle (.inr ((hp.holder c).mp hhold))
  have hnum := hi.num hlive
  have hsum := hi.bytes hlive
  have hlength : ((q.qMessages++[m]).length : ℤ)<2^64 := (hfits.bounds hnonneg).1
  have hbytes : messageBytes (q.qMessages++[m])<2^64 := (hfits.bounds hnonneg).2
  rw [length_append,length_singleton,Nat.cast_add,←hnum] at hlength
  rw [messageBytes_append,←hsum,hsize] at hbytes
  refine hi.advance rfl rfl rfl nofun nofun ?_ hnonneg ?_ (fun _ => ?_) (fun _ => ?_)
    (fun hf => nomatch hf.symm.trans (hi.not_freed hlive))
  · exact fun d k hd => absurd hd (admitted_update rfl rfl hothers d k)
  · show word (q.qQnum+1)<2^64 ∧ word (q.qCbytes+msgsz)<2^64
    exact ⟨word_lt _,word_lt _⟩
  · show (word (q.qQnum+1) : ℤ)=(q.qMessages++[m]).length
    rw [length_append,Nat.cast_add,←hnum]
    exact word_of_range (by omega) hlength
  · show (word (q.qCbytes+msgsz) : ℤ)=messageBytes (q.qMessages++[m])
    rw [messageBytes_append,←hsum,hsize]
    exact word_of_range (by omega) hbytes

/-- A message is taken from the queue. -/
theorem AccountInv.dequeued (hp : ProtoInv q) (hi : AccountInv q) (hlock : q.lock=none) (hlive : q.deleted=false)
    (hm : m∈q.qMessages) : AccountInv ((q.dequeue m).go c (.rcvGot args m)) := by
  have hnum := hi.num hlive
  have hsum := hi.bytes hlive
  have hone := length_erase_of_mem hm
  have hpos := length_pos_of_mem hm
  have hrest := messageBytes_erase hm
  have hnonneg : ∀ x∈q.qMessages.erase m, 0≤x.mTs := fun x hx => hi.nonneg x (mem_of_mem_erase hx)
  have hrest0 := messageBytes_nonneg hnonneg
  have hm0 := hi.nonneg m hm
  obtain ⟨hword,hword'⟩ := hi.words
  have hothers : ∀ d, d≠c → holding (q.pc d)=false := fun d _ => hp.not_holding hlock d
  refine hi.advance rfl rfl rfl nofun nofun ?_ hnonneg ?_ (fun _ => ?_) (fun _ => ?_)
    (fun hf => nomatch hf.symm.trans (hi.not_freed hlive))
  · exact fun d k hd => absurd hd (admitted_update rfl rfl hothers d k)
  · exact ⟨word_lt _,word_lt _⟩
  · show (word (q.qQnum-1) : ℤ)=(q.qMessages.erase m).length
    rw [word_of_range (by omega) (by omega)]
    omega
  · show (word (q.qCbytes-m.mTs) : ℤ)=messageBytes (q.qMessages.erase m)
    rw [word_of_range (by omega) (by omega)]
    omega

/-- IPC_RMID removes the queue. -/
theorem AccountInv.removed (hp : ProtoInv q) (hi : AccountInv q) (hpc : q.pc c=.ctlExpunge .rmid []) :
    AccountInv ({q.rmid with lock := none}.go c .freeing) := by
  have hhold : holding (q.pc c)=true := by rw [hpc]; rfl
  have hlive := hp.live_of_holding hhold
  have hfreed := hi.not_freed hlive
  have hfreeing : ∀ d, d≠c → ({q.rmid with lock := none}.go c .freeing).pc d≠.freeing := by
    intro d hdc hd
    rw [go_of_ne _ _ hdc] at hd
    cases hlive.symm.trans (hi.freeing d hd).1
  have hothers : ∀ d, d≠c → holding (q.pc d)=false := fun d => hp.others_idle (.inr ((hp.holder c).mp hhold))
  refine ⟨hi.sized_update rfl nofun,?_,hi.nonneg,hi.words,nofun,nofun,fun d _ => ⟨rfl,hfreed⟩,fun d x hd hx => ?_,
    fun hf => ?_⟩
  · exact fun d k hd => absurd hd (admitted_update rfl rfl hothers d k)
  · rw [not_imp_not.mp (hfreeing d) hd,not_imp_not.mp (hfreeing x) hx]
  · have hf' : q.freed=true := hf
    rw [hfreed] at hf'
    cases hf'

/-- freeque frees a message. -/
theorem AccountInv.freedMsg (hi : AccountInv q) {rest : List MsgMsg} (hpc : q.pc c=.freeing)
    (hm : q.qMessages=m::rest) : AccountInv {q with qMessages := rest, discarded := m::q.discarded} := by
  obtain ⟨hdeleted,hfreed⟩ := hi.freeing c hpc
  have hlive : q.deleted≠false := by
    rw [hdeleted]
    exact nofun
  have hkept : q.freed≠true := by
    rw [hfreed]
    exact nofun
  refine ⟨hi.sized,hi.room,fun x hx => hi.nonneg x ?_,hi.words,fun h => absurd h hlive,
    fun h => absurd h hlive,hi.freeing,hi.single,fun h => absurd h hkept⟩
  rw [hm]
  exact mem_cons_of_mem m hx

/-- freeque ends. -/
theorem AccountInv.freedAll (hi : AccountInv q) (hpc : q.pc c=.freeing) (hm : q.qMessages=[]) :
    AccountInv ({q with freed := true}.go c (.ctlDone 0)) := by
  have hdeleted := (hi.freeing c hpc).1
  have hnone : ∀ d, ({q with freed := true}.go c (.ctlDone 0) : MsgQueue).pc d≠.freeing := by
    intro d hd
    by_cases hdc : d=c
    · rw [hdc,go_self] at hd
      cases hd
    · rw [go_of_ne _ _ hdc] at hd
      exact hdc (hi.single d c hd hpc)
  exact ⟨hi.sized_update rfl nofun,hi.room_update rfl nofun,hi.nonneg,hi.words,hi.num,hi.bytes,
    fun d hd => absurd hd (hnone d),fun d x hd => absurd hd (hnone d),fun _ => ⟨hdeleted,hm⟩⟩

/-- The loop of do_msgrcv keeps the counters. -/
theorem AccountInv.rcvOutcome (hp : ProtoInv q) (hi : AccountInv q) (hlock : q.lock=none) (hlive : q.deleted=false)
    (ho : RcvOutcome n q c args deny n' q') : AccountInv q' := by
  cases ho with
  | failed => exact hi.go rfl rfl nofun
  | took hm ht hs => exact hi.dequeued hp hlock hlive hm
  | linked hnone => exact hi.same rfl rfl rfl rfl rfl rfl rfl nofun nofun nofun

/-- msgsnd accepts a size that an int holds without change while msg_ctlmax is not
negative. -/
theorem toInt_of_le_ctlmax (h0 : 0≤x) (h1 : x ≤ intMax) (h : msgsz≤word x) : toInt msgsz=msgsz := by
  have hx : (word x : ℤ)=x := by
    unfold intMax at h1
    exact word_of_range h0 (by omega)
  exact toInt_of_range (Int.natCast_nonneg _) (by omega)

theorem AccountInv.step (hp : ProtoInv q) (hi : AccountInv q) (h0 : 0≤n.msgCtlmax) (h1 : n.msgCtlmax ≤ intMax)
    (hfits : Fits q') (h : MsgCase n q e n' q') : AccountInv q' := by
  cases h with
  | sysctl => exact hi
  | sndRefused | sndLost | sndRemoved | rcvRefused | rcvCalled | rcvLost | rcvSawAgain | rcvSawErr | rcvSawMsg
  | rcvNull | rcvErr | rcvMsg | rcvStored | ctlRefused => exact hi.go rfl rfl nofun
  | @sndLoaded c msgsz mtype _ _ hpc hmax hlong hlen =>
    have hsize : toInt msgsz=msgsz := toInt_of_le_ctlmax h0 h1 hmax
    refine hi.same rfl rfl rfl rfl rfl rfl rfl nofun (fun m k hk => ?_) nofun
    obtain ⟨rfl,rfl⟩ := Prod.mk.inj (Option.some.inj hk)
    rw [hsize]
  | @sndLocked c msgsz m nowait _ _ _ hpc hlock hlive ho =>
    exact hi.sndOutcome (hi.sized c m msgsz (by rw [hpc]; rfl)) ho
  | sndEnqueued hpc => exact hi.enqueued hp hpc hfits
  | @sndMatched c msgsz r m rest _ hpc ht | @sndSkipped c msgsz r m rest _ hpc ht
  | @sndTooBig c msgsz r m rest hpc hbig =>
    refine hi.same rfl rfl rfl rfl rfl rfl rfl (fun k hk => ?_) (fun x k hk => ?_) nofun
    · exact hi.room c k (by rw [hpc]; exact hk)
    · exact hi.sized c x k (by rw [hpc]; exact hk)
  | sndHanded | sndSignalled | rcvSignalled | rmidBegan | expunged | expungeWrote | setEnded =>
    exact hi.same rfl rfl rfl rfl rfl rfl rfl nofun nofun nofun
  | @sndRetried c msgsz m nowait _ _ _ hpc hlock hlive ho =>
    have hsize : m.mTs=msgsz := hi.sized c m msgsz (by rw [hpc]; rfl)
    have hready : AccountInv ((q.ssDel c).go c (.sndReady m msgsz nowait)) := by
      refine hi.same rfl rfl rfl rfl rfl rfl rfl nofun (fun x k hk => ?_) nofun
      cases hk
      exact hsize
    exact hready.sndOutcome hsize ho
  | rcvLocked hpc hlock hlive ho => exact hi.rcvOutcome hp hlock hlive ho
  | rcvSpun => exact hi
  | @rcvRetried c args _ _ _ _ _ hpc hlock hm ho =>
    have hlive := hp.live_of_again (waits_of_relock hpc) hm
    have hready : AccountInv ((q.unlink c).go c (.rcvReady args)) :=
      hi.same rfl rfl rfl rfl rfl rfl rfl nofun nofun nofun
    have hproto : ProtoInv ((q.unlink c).go c (.rcvReady args)) := hp.unlink hlock hpc hm rfl rfl nofun
    exact hready.rcvOutcome hproto hlock hlive ho
  | @setBegan c qbytes _ _ hpc hlock hlive hword =>
    refine hi.change rfl rfl rfl rfl rfl rfl (fun d k hd => ?_) nofun nofun
    exact absurd hd (admitted_update rfl rfl (fun x _ => hp.not_holding hlock x) d k)
  | rmidEnded hpc => exact hi.removed hp hpc
  | freedMsg hpc hm => exact hi.freedMsg hpc hm
  | freedAll hpc hm => exact hi.freedAll hpc hm

/-- The messages of a queue that msg_hdrs counts. -/
def hdrsLeft (q : MsgQueue) : ℕ := if q.deleted=true then q.qMessages.length else q.qQnum

/-- The bytes of a queue that msg_bytes counts. -/
def bytesLeft (q : MsgQueue) : ℕ := if q.freed=true then 0 else q.qCbytes

/-- The atomic ints of a namespace hold two numbers modulo their width. -/
structure Counted (n : MsgNs) (hdrs bytes : ℤ) : Prop where
  hdrs : n.msgHdrs=toInt hdrs
  bytes : n.msgBytes=toInt bytes

theorem Counted.congr {x' y' : ℤ} (h : Counted n x y) (hx : x=x') (hy : y=y') : Counted n x' y' := hx ▸ hy ▸ h

/-- What the namespace counts of a live queue. -/
theorem AccountInv.left_live (hi : AccountInv q) (hlive : q.deleted=false) :
    (hdrsLeft q : ℤ)=q.qMessages.length ∧ (bytesLeft q : ℤ)=messageBytes q.qMessages := by
  unfold hdrsLeft bytesLeft
  rw [if_neg (by rw [hlive]; exact nofun),if_neg (by rw [hi.not_freed hlive]; exact nofun)]
  exact ⟨hi.num hlive,hi.bytes hlive⟩

/-- A receiver takes a message and the namespace follows. -/
theorem Counted.rcvOutcome (hi : AccountInv q) (hi' : AccountInv q') (hlive : q.deleted=false)
    (ho : RcvOutcome n q c args deny n' q') (hc : Counted n (x+hdrsLeft q) (y+bytesLeft q)) :
    Counted n' (x+hdrsLeft q') (y+bytesLeft q') := by
  cases ho with
  | failed => exact hc
  | @took m hm ht hs =>
    obtain ⟨hhdrs,hbytes⟩ := hi.left_live hlive
    obtain ⟨hhdrs',hbytes'⟩ := hi'.left_live hlive
    have hone : (q.qMessages.erase m).length=q.qMessages.length-1 := length_erase_of_mem hm
    have hpos := length_pos_of_mem hm
    have hrest := messageBytes_erase hm
    rw [hhdrs',hbytes']
    rw [hhdrs,hbytes] at hc
    change Counted (n.sub m.mTs) (x+(q.qMessages.erase m).length) (y+messageBytes (q.qMessages.erase m))
    constructor
    · show toInt (n.msgHdrs-1)=_
      rw [hc.hdrs,toInt_toInt_sub]
      congr 1
      omega
    · show toInt (n.msgBytes-m.mTs)=_
      rw [hc.bytes,toInt_toInt_sub]
      congr 1
      omega
  | linked hnone => exact hc

/-- The namespace follows every step of a queue, whatever the other queues add to
its counters. -/
theorem Counted.step (hp : ProtoInv q) (hi : AccountInv q) (hi' : AccountInv q') (h : MsgCase n q e n' q')
    (hc : Counted n (x+hdrsLeft q) (y+bytesLeft q)) : Counted n' (x+hdrsLeft q') (y+bytesLeft q') := by
  cases h with
  | sysctl => exact ⟨hc.hdrs,hc.bytes⟩
  | sndLocked hpc hlock hlive ho | sndRetried hpc hlock hlive ho => cases ho <;> exact hc
  | @sndEnqueued c msgsz m _ hpc =>
    have hlive : q.deleted=false := hp.live_of_holding (c:=c) (by rw [hpc]; rfl)
    have hsize : m.mTs=msgsz := hi.sized c m msgsz (by rw [hpc]; rfl)
    obtain ⟨hhdrs,hbytes⟩ := hi.left_live hlive
    obtain ⟨hhdrs',hbytes'⟩ := hi'.left_live hlive
    have hone : (q.qMessages++[m]).length=q.qMessages.length+1 := length_append
    have hmore := messageBytes_append q.qMessages m
    rw [hhdrs',hbytes']
    rw [hhdrs,hbytes] at hc
    change Counted (n.add msgsz) (x+(q.qMessages++[m]).length) (y+messageBytes (q.qMessages++[m]))
    constructor
    · show toInt (n.msgHdrs+1)=_
      rw [hc.hdrs,toInt_toInt_add]
      congr 1
      omega
    · show toInt (n.msgBytes+msgsz)=_
      rw [hc.bytes,toInt_toInt_add]
      congr 1
      omega
  | rcvLocked hpc hlock hlive ho => exact hc.rcvOutcome hi hi' hlive ho
  | @rcvRetried c args _ _ _ _ _ hpc hlock hm ho =>
    have hlive := hp.live_of_again (waits_of_relock hpc) hm
    have hready : AccountInv ((q.unlink c).go c (.rcvReady args)) :=
      hi.same rfl rfl rfl rfl rfl rfl rfl nofun nofun nofun
    exact Counted.rcvOutcome hready hi' hlive ho hc
  | @rmidEnded c hpc =>
    have hlive : q.deleted=false := hp.live_of_holding (c:=c) (by rw [hpc]; rfl)
    refine hc.congr ?_ rfl
    rw [(hi.left_live hlive).1]
    rfl
  | @freedMsg c m rest hpc hm =>
    have hdeleted := (hi.freeing c hpc).1
    have hhdrs : hdrsLeft q=rest.length+1 := by
      unfold hdrsLeft
      rw [if_pos hdeleted,hm,length_cons]
    have hhdrs' : hdrsLeft {q with qMessages := rest, discarded := m::q.discarded}=rest.length :=
      if_pos hdeleted
    refine ⟨?_,hc.bytes⟩
    show toInt (n.msgHdrs-1)=_
    rw [hc.hdrs,toInt_toInt_sub,hhdrs,hhdrs']
    congr 1
    omega
  | @freedAll c hpc hm =>
    have hbytes : bytesLeft q=q.qCbytes := if_neg (by rw [(hi.freeing c hpc).2]; exact nofun)
    have hbytes' : bytesLeft ({q with freed := true}.go c (.ctlDone 0))=0 := rfl
    refine ⟨hc.hdrs,?_⟩
    show toInt (n.msgBytes-q.qCbytes)=_
    rw [hc.bytes,toInt_toInt_sub,hbytes,hbytes']
    congr 1
    omega
  | _ => exact hc

/-- A namespace with all the queues that were ever created in it. -/
structure MsgSpace where
  /-- The counters and limits. -/
  ns : MsgNs
  queues : List MsgQueue

/-- What happens in a namespace. -/
inductive SpaceEvent where
  /-- A queue is created. -/
  | newque
  /-- Something happens to one of the queues. -/
  | on (i : ℕ) (e : MsgEvent)

/-- One step of a namespace. -/
def msgSpaceStep (s : MsgSpace) : SpaceEvent → Option MsgSpace
  | .newque => some {s with queues := s.queues++[newque s.ns]}
  | .on i e =>
    match s.queues[i]? with
    | some q => (msgStep s.ns q e).map (fun p => ⟨p.1,s.queues.set i p.2⟩)
    | none => none

/-- A namespace before its first queue. -/
structure SpaceStart (s : MsgSpace) : Prop where
  queues : s.queues=[]
  hdrs : s.ns.msgHdrs=0
  bytes : s.ns.msgBytes=0
  ctlmax : 0 ≤ s.ns.msgCtlmax ∧ s.ns.msgCtlmax ≤ intMax

/-- One step as a relation. It leaves msg_ctlmax an int that is not negative and
the messages of every queue in memory. -/
structure SpaceNext (s : MsgSpace) (e : SpaceEvent) (s' : MsgSpace) : Prop where
  step : msgSpaceStep s e=some s'
  ctlmax : 0 ≤ s'.ns.msgCtlmax ∧ s'.ns.msgCtlmax ≤ intMax
  /-- The memory of the messages was allocated. -/
  fits : ∀ q∈s'.queues, Fits q

/-- Namespaces of all runs. -/
def SpaceReachable (s : MsgSpace) : Prop := Reachable SpaceStart SpaceNext s

/-- The step of one queue inside of the namespace. -/
theorem msgSpaceStep_on (h : msgSpaceStep s (.on i e)=some s') :
    ∃ q q', s.queues[i]?=some q ∧ MsgCase s.ns q e s'.ns q' ∧ s'.queues=s.queues.set i q' := by
  unfold msgSpaceStep at h
  dsimp only at h
  split at h
  · next q hq =>
    obtain ⟨p,hp,rfl⟩ := Option.map_eq_some_iff.mp h
    exact ⟨q,p.2,hq,msgStep_cases hp,rfl⟩
  · cases h

structure SpaceInv (s : MsgSpace) : Prop where
  ctlmax : 0 ≤ s.ns.msgCtlmax ∧ s.ns.msgCtlmax ≤ intMax
  proto : ∀ q∈s.queues, ProtoInv q
  account : ∀ q∈s.queues, AccountInv q
  /-- The counters of the namespace. -/
  counted : Counted s.ns ((s.queues.map hdrsLeft).sum : ℕ) ((s.queues.map bytesLeft).sum : ℕ)

theorem sum_map_set {l : List MsgQueue} (f : MsgQueue → ℕ) (h : l[i]?=some q) (q' : MsgQueue) :
    ∃ x : ℤ, ((l.map f).sum : ℕ)=x+f q ∧ (((l.set i q').map f).sum : ℕ)=x+f q' := by
  induction l generalizing i with
  | nil => cases h
  | cons a l ih =>
    cases i with
    | zero =>
      obtain rfl := Option.some.inj h
      refine ⟨((l.map f).sum : ℕ),?_,?_⟩
      · rw [map_cons,sum_cons,Nat.cast_add,add_comm]
      · rw [set_cons_zero,map_cons,sum_cons,Nat.cast_add,add_comm]
    | succ i =>
      obtain ⟨x,hx,hx'⟩ := ih h
      refine ⟨f a+x,?_,?_⟩
      · rw [map_cons,sum_cons,Nat.cast_add,hx,add_assoc]
      · rw [set_cons_succ,map_cons,sum_cons,Nat.cast_add,hx',add_assoc]

/-- Every step of a namespace keeps its counters. -/
theorem SpaceInv.step {e : SpaceEvent} (hi : SpaceInv s) (h : SpaceNext s e s') : SpaceInv s' := by
  cases e with
  | newque =>
    obtain rfl := Option.some.inj h.step
    have hstart := newque_start s.ns
    refine ⟨h.ctlmax,?_,?_,?_⟩
    · exact forall_mem_append.mpr ⟨hi.proto,forall_mem_singleton.mpr (protoInv_start hstart)⟩
    · exact forall_mem_append.mpr ⟨hi.account,forall_mem_singleton.mpr (accountInv_start hstart)⟩
    · refine hi.counted.congr ?_ ?_ <;> rw [map_append,sum_append] <;> rfl
  | on i e =>
    obtain ⟨q,q',hq,hcase,hqueues⟩ := msgSpaceStep_on h.step
    have hmem := mem_of_getElem? hq
    have hfits : Fits q' := by
      refine h.fits q' ?_
      rw [hqueues]
      exact mem_set (List.getElem?_eq_some_iff.mp hq).1 q'
    have hproto' : ProtoInv q' := (hi.proto q hmem).step hcase
    have haccount' : AccountInv q' :=
      (hi.account q hmem).step (hi.proto q hmem) hi.ctlmax.1 hi.ctlmax.2 hfits hcase
    obtain ⟨x,hx,hx'⟩ := sum_map_set hdrsLeft hq q'
    obtain ⟨y,hy,hy'⟩ := sum_map_set bytesLeft hq q'
    refine ⟨h.ctlmax,fun p hp => ?_,fun p hp => ?_,?_⟩
    · rw [hqueues] at hp
      rcases mem_or_eq_of_mem_set hp with hp|rfl
      · exact hi.proto p hp
      · exact hproto'
    · rw [hqueues] at hp
      rcases mem_or_eq_of_mem_set hp with hp|rfl
      · exact hi.account p hp
      · exact haccount'
    · rw [hqueues,hx',hy']
      exact (hi.counted.congr hx hy).step (hi.proto q hmem) (hi.account q hmem) haccount' hcase

theorem spaceInv_of_reachable (hr : SpaceReachable s) : SpaceInv s := by
  refine Reachable.invariant (I := SpaceInv) (fun s h => ?_) (fun s e s' _ hi h => hi.step h) hr
  refine ⟨h.ctlmax,?_,?_,?_⟩
  · rw [h.queues]
    exact nofun
  · rw [h.queues]
    exact nofun
  · rw [h.queues]
    exact ⟨h.hdrs,h.bytes⟩

/-- The queues that are not removed. -/
def MsgSpace.live (s : MsgSpace) : List MsgQueue := s.queues.filter (fun q => !q.deleted)

/-- The queues whose removal frees their messages. -/
def MsgSpace.dying (s : MsgSpace) : List MsgQueue := s.queues.filter (fun q => q.deleted && !q.freed)

/-- What the namespace counts is on live queues and on queues that are being freed. -/
theorem sum_left_eq {l : List MsgQueue} (h : ∀ q∈l, AccountInv q) :
    (l.map hdrsLeft).sum=((l.filter (fun q => !q.deleted)).map MsgQueue.qQnum).sum+
        ((l.filter (fun q => q.deleted && !q.freed)).map (fun q => q.qMessages.length)).sum ∧
      (l.map bytesLeft).sum=((l.filter (fun q => !q.deleted)).map MsgQueue.qCbytes).sum+
        ((l.filter (fun q => q.deleted && !q.freed)).map MsgQueue.qCbytes).sum := by
  induction l with
  | nil => exact ⟨rfl,rfl⟩
  | cons q l ih =>
    obtain ⟨ihh,ihb⟩ := ih (fun p hp => h p (mem_cons_of_mem q hp))
    have hq := h q mem_cons_self
    simp only [map_cons,sum_cons,ihh,ihb,hdrsLeft,bytesLeft]
    cases hdeleted : q.deleted with
    | false =>
      have hfreed := hq.not_freed hdeleted
      simp [hdeleted,hfreed,add_assoc]
    | true =>
      cases hfreed : q.freed with
      | false => simp [hdeleted,hfreed,add_left_comm]
      | true => simp [hdeleted,hfreed,(hq.freed hfreed).2]

/-- In every run the counters of live queues are exact and no subtraction from them
underflows. The counters of the namespace are the sums over the live queues and what
a removal has not freed yet, modulo the width of an int. After a message is put on
a queue both counters are within the limit. -/
theorem msg_accounts_exact {s : MsgSpace} (hr : SpaceReachable s) :
    (∀ q∈s.live, q.qQnum=q.qMessages.length ∧ (q.qCbytes : ℤ)=(q.qMessages.map MsgMsg.mTs).sum ∧
      ∀ m∈q.qMessages, 1≤q.qQnum ∧ 0 ≤ m.mTs ∧ m.mTs≤q.qCbytes) ∧
    s.ns.msgHdrs=toInt ((s.live.map MsgQueue.qQnum).sum+
      (s.dying.map (fun q => q.qMessages.length)).sum : ℕ) ∧
    s.ns.msgBytes=toInt ((s.live.map MsgQueue.qCbytes).sum+(s.dying.map MsgQueue.qCbytes).sum : ℕ) ∧
    (s.dying=[] → s.ns.msgHdrs=toInt (s.live.map MsgQueue.qQnum).sum ∧
      s.ns.msgBytes=toInt (s.live.map MsgQueue.qCbytes).sum) ∧
    ∀ i c m msgsz deny q s', s.queues[i]?=some q → q.pc c=.sndScan m msgsz [] →
      SpaceNext s (.on i (.sndScan c deny)) s' → ∃ q', s'.queues[i]?=some q' ∧
        q'.qMessages=q.qMessages++[m] ∧ q'.qCbytes≤q'.qQbytes ∧ q'.qQnum≤q'.qQbytes := by
  have hi := spaceInv_of_reachable hr
  obtain ⟨hhdrs,hbytes⟩ := sum_left_eq hi.account
  have hcounted := hi.counted
  rw [hhdrs,hbytes] at hcounted
  refine ⟨fun q hq => ?_,hcounted.hdrs,hcounted.bytes,fun hnone => ?_,?_⟩
  · obtain ⟨hmem,hlive⟩ := mem_filter.mp hq
    have hlive : q.deleted=false := by simpa using hlive
    have ha := hi.account q hmem
    have hnum : q.qQnum=q.qMessages.length := Int.ofNat_inj.mp (ha.num hlive)
    refine ⟨hnum,ha.bytes hlive,fun m hm => ⟨?_,ha.nonneg m hm,?_⟩⟩
    · rw [hnum]
      exact length_pos_of_mem hm
    · rw [ha.bytes hlive]
      exact le_messageBytes ha.nonneg hm
  · have hdying : s.queues.filter (fun q => q.deleted && !q.freed)=[] := hnone
    rw [hdying] at hcounted
    exact ⟨hcounted.hdrs,hcounted.bytes⟩
  · intro i c m msgsz deny q s' hq hpc h
    have hs : msgSpaceStep s (.on i (.sndScan c deny))=some ⟨s.ns.add msgsz,
        s.queues.set i ({q.enqueue m msgsz with lock := none}.go c (.sndDone (some m) 0))⟩ := by
      simp only [msgSpaceStep,hq,msgStep,hpc,sndScan,Option.map_some]
    obtain rfl := Option.some.inj (hs.symm.trans h.step)
    have hroom := (hi.account q (mem_of_getElem? hq)).room c msgsz (by rw [hpc]; rfl)
    unfold MsgQueue.hasRoom at hroom
    obtain ⟨hbytes,hnum⟩ := of_decide_eq_true hroom
    refine ⟨_,getElem?_set_self (List.getElem?_eq_some_iff.mp hq).1,rfl,?_,?_⟩
    · show word (q.qCbytes+msgsz)≤q.qQbytes
      rw [add_comm]
      exact hbytes
    · show word (q.qQnum+1)≤q.qQbytes
      rw [add_comm]
      exact hnum

/-- A step whose result is checked. -/
def spaceCheck (s : MsgSpace) (e : SpaceEvent) : Option MsgSpace :=
  (msgSpaceStep s e).filter (fun s' => decide ((0 ≤ s'.ns.msgCtlmax ∧ s'.ns.msgCtlmax ≤ intMax) ∧
    ∀ q∈s'.queues, 48*(q.qMessages.length : ℤ)+messageBytes q.qMessages<2^64))

theorem spaceNext_of_check (s : MsgSpace) (e : SpaceEvent) (s' : MsgSpace) (h : spaceCheck s e=some s') :
    SpaceNext s e s' := by
  obtain ⟨hs,hc⟩ := Option.filter_eq_some_iff.mp h
  obtain ⟨hctlmax,hfits⟩ := of_decide_eq_true hc
  exact ⟨hs,hctlmax,hfits⟩

/-- While the removal of one queue frees its message, another queue is live; the
namespace still counts both. -/
theorem msg_accounts_exact_removed : ∃ s : MsgSpace, SpaceReachable s ∧ s.ns.msgHdrs=2 ∧ s.ns.msgBytes=30 ∧
    (∀ q∈s.live, q.qQnum=q.qMessages.length) ∧ s.ns.msgHdrs=toInt ((s.live.map MsgQueue.qQnum).sum+
      (s.dying.map (fun q => q.qMessages.length)).sum : ℕ) := by
  obtain ⟨s,hr,hhdrs,hbytes⟩ : ∃ s, SpaceReachable s ∧ s.ns.msgHdrs=2 ∧ s.ns.msgBytes=30 :=
    exists_run spaceNext_of_check (s := ⟨newMsgNs,[]⟩) ⟨rfl,rfl,rfl,by decide⟩ [.newque,.newque,
      .on 0 (.msgsnd 1 3 10 false none),
      .on 0 (.sndLock 1 none none),.on 0 (.sndScan 1 false),.on 1 (.msgsnd 2 4 20 false none),
      .on 1 (.sndLock 2 none none),.on 1 (.sndScan 2 false),.on 0 (.ipcRmid 3 none),
      .on 0 (.expunge 3)] (by decide)
  have hmain := msg_accounts_exact hr
  exact ⟨s,hr,hhdrs,hbytes,fun q hq => (hmain.1 q hq).1,hmain.2.1⟩

end BlockIpc.MsgAccounting
