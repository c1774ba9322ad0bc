import BlockIpc.MqueueInodes
import BlockIpc.MsgQueues
import BlockIpc.MsgSegments

/-!
# Lengths of accepted messages

A length is passed to do_msgsnd and mq_timedsend as a size_t, compared with a
limit that is an int or a long, and passed on to load_msg and stored in m_ts as an
int. A length up to INT_MAX is kept.
-/

namespace BlockIpc.MsgLengths

open KernelNumbers MsgQueues MsgSegments MqueueInodes

variable {β : Type}

/-- A message before it is handed over: its chain and m_ts. -/
structure Message (β : Type) where
  chain : List (Chunk β)
  mTs : ℤ

/-- A message holds the whole text and its length. -/
def Message.Holds (m : Message β) (text : List β) : Prop := payload m.chain=text ∧ m.mTs=text.length

/-- What load_msg returns for an int, with the int in m_ts. -/
def loaded (lay : Layout) (ans : Answers) (text : List β) (len : ℤ) : Option (Message β) :=
  match loadMsg lay ans text len with
  | .msg chain => some ⟨chain,len⟩
  | .error _ _ _ => none

/-- The message of do_msgsnd for a text of msgsz bytes, before the queue is looked up. A call that
returns zero has come here. -/
def doMsgsnd (lay : Layout) (ans : Answers) (n : MsgNs) (msqid mtype : ℤ) (text : List β) : Option (Message β) :=
  if word n.msgCtlmax<text.length ∨ 2^63≤text.length ∨ msqid<0 then none
  else if mtype<1 then none
  else loaded lay ans text (toInt text.length)

/-- A machine with 64 bits. -/
def lp64 : Platform := ⟨8,.inr rfl⟩

/-- The message of mq_timedsend for a text of msg_len bytes, before the queue is locked. A call that
returns zero has come here. -/
def mqTimedsend (lay : Layout) (ans : Answers) (attr : MqAttr lp64) (text : List β) : Option (Message β) :=
  if lp64.toSize attr.msgsize<text.length then none else loaded lay ans text (toInt text.length)

variable {lay : Layout} {ans : Answers} {text : List β} {m : Message β}

/-- A load takes as many bytes as the int says, and it succeeds with good answers. -/
theorem loaded_take (lay : Layout) (ans : Answers) (text : List β) {len : ℕ} (hlen : len≤text.length) :
    (∀ m, loaded lay ans text len=some m → payload m.chain=text.take len ∧ m.mTs=len) ∧
      ((∀ k, ans.alloc k=true ∧ ans.copy k=true) → ans.security=none → (loaded lay ans text len).isSome=true) := by
  unfold loaded
  rcases loadMsg_spec lay ans hlen with ⟨head,segs,hload,hhead,hcut⟩|⟨code,allocated,freed,herr,-,-,hbad⟩
  · rw [hload]
    refine ⟨fun m h => ?_,fun _ _ => rfl⟩
    obtain rfl := Option.some.inj h
    refine ⟨?_,rfl⟩
    change head.payload++payload segs=_
    rw [hcut.payload_eq,hhead,List.take_append_drop]
  · rw [herr]
    exact ⟨nofun,fun hg hs => absurd ⟨hg,hs⟩ hbad⟩

theorem loaded_mTs {len : ℤ} (h : loaded lay ans text len=some m) : m.mTs=len := by
  unfold loaded at h
  split at h
  · obtain rfl := Option.some.inj h
    rfl
  · cases h

/-- A length is kept if and only if it is at most INT_MAX. -/
theorem loaded_holds_iff (h : loaded lay ans text (toInt text.length)=some m) :
    m.Holds text ↔ (text.length : ℤ) ≤ intMax := by
  constructor
  · rintro ⟨-,hts⟩
    rw [← hts,loaded_mTs h]
    exact (toInt_isInt _).2
  · intro hlen
    rw [toInt_of_range (Int.natCast_nonneg _) hlen] at h
    obtain ⟨hpay,hts⟩ := (loaded_take lay ans text le_rfl).1 m h
    rw [List.take_length] at hpay
    exact ⟨hpay,hts⟩

/-- A message that is accepted holds its text and length if and only if the length is at most
INT_MAX. It is if msg_ctlmax is not negative, and if mq_msgsize is at most INT_MAX. -/
theorem accepted_lengths_honoured (lay : Layout) (ans : Answers) (text : List β) :
    (∀ (n : MsgNs) msqid mtype m, doMsgsnd lay ans n msqid mtype text=some m →
      (m.Holds text ↔ (text.length : ℤ) ≤ intMax) ∧
      (IsInt n.msgCtlmax → 0≤n.msgCtlmax → (text.length : ℤ) ≤ intMax)) ∧
    (∀ (lim : MqLimits lp64) capable (attr : MqAttr lp64) m, mqAttrOk lim capable attr=true →
      mqTimedsend lay ans attr text=some m →
      (m.Holds text ↔ (text.length : ℤ) ≤ intMax) ∧ (attr.msgsize ≤ intMax → (text.length : ℤ) ≤ intMax)) := by
  refine ⟨fun n msqid mtype m h => ?_,fun lim capable attr m hok h => ?_⟩
  · unfold doMsgsnd at h
    split at h
    · cases h
    next hargs =>
    split at h
    · cases h
    refine ⟨loaded_holds_iff h,fun hint hpos => ?_⟩
    have hword : (word n.msgCtlmax : ℤ)=n.msgCtlmax := by
      have := hint.2
      unfold intMax at this
      unfold word
      rw [Int.emod_eq_of_lt hpos (by omega),Int.toNat_of_nonneg hpos]
    have hle := not_lt.mp (not_or.mp hargs).1
    have := hint.2
    omega
  · have hpos : 0<attr.msgsize := by
      unfold mqAttrOk at hok
      split at hok
      · cases hok
      · next hc => omega
    unfold mqTimedsend at h
    split at h
    · cases h
    · next hle =>
      have hsize := toSize_of_pos hpos attr.longs.2
      exact ⟨loaded_holds_iff h,fun hmax => by omega⟩

/-- Two bytes are sent with default limits. -/
theorem accepted_lengths_honoured_two : ∃ m : Message ℕ,
    doMsgsnd ⟨4096,48,8,64,by decide⟩ ⟨fun _ => true,fun _ => true,none⟩ ⟨8192,16384,0,0⟩ 0 1 [7,8]=some m ∧
      m.Holds [7,8] := by
  have hint : toInt ([7,8] : List ℕ).length=(2 : ℕ) := by decide
  obtain ⟨m,hm⟩ := Option.isSome_iff_exists.mp ((loaded_take ⟨4096,48,8,64,by decide⟩
    ⟨fun _ => true,fun _ => true,none⟩ [7,8] (by decide : 2≤_)).2 (fun _ => ⟨rfl,rfl⟩) rfl)
  have hsnd : doMsgsnd ⟨4096,48,8,64,by decide⟩ ⟨fun _ => true,fun _ => true,none⟩
      ⟨8192,16384,0,0⟩ 0 1 [7,8]=some m := by
    unfold doMsgsnd
    rw [if_neg (by decide),if_neg (by decide),hint]
    exact hm
  exact ⟨m,hsnd,((accepted_lengths_honoured _ _ [7,8]).1 _ 0 1 m hsnd).1.mpr (by decide)⟩

/-- With msg_ctlmax and msg_ctlmnb at -1 msgsnd accepts a text of 2^32+5 bytes for a new queue and
keeps five of them. So does mq_timedsend for a queue whose creator set mq_msgsize to 2^32+8. -/
theorem long_text_truncated : ∃ text : List ℕ, text.length=2^32+5 ∧
    (∃ m, doMsgsnd ⟨4096,48,8,64,by decide⟩ ⟨fun _ => true,fun _ => true,none⟩ ⟨-1,-1,0,0⟩ 0 1 text=some m ∧
      (newque ⟨-1,-1,0,0⟩).hasRoom text.length=true ∧ payload m.chain=text.take 5 ∧ m.mTs=5) ∧
    (∃ (attr : MqAttr lp64) (m : Message ℕ), mqAttrOk (mqInitLimits lp64) true attr=true ∧
      mqTimedsend ⟨4096,48,8,64,by decide⟩ ⟨fun _ => true,fun _ => true,none⟩ attr text=some m ∧
      payload m.chain=text.take 5 ∧ m.mTs=5) := by
  obtain ⟨text,hlen⟩ : ∃ text : List ℕ, text.length=2^32+5 := ⟨List.replicate _ 0,List.length_replicate⟩
  have hint : toInt text.length=(5 : ℕ) := by
    rw [hlen]
    decide
  obtain ⟨htake,hsome⟩ := loaded_take ⟨4096,48,8,64,by decide⟩ ⟨fun _ => true,fun _ => true,none⟩ text
    (by omega : 5≤text.length)
  obtain ⟨m,hm⟩ := Option.isSome_iff_exists.mp (hsome (fun _ => ⟨rfl,rfl⟩) rfl)
  refine ⟨text,hlen,⟨m,?_,?_,htake m hm⟩,⟨1,2^32+8,⟨⟨by decide,by decide⟩,by decide,by decide⟩⟩,m,by decide,?_,
    htake m hm⟩
  · unfold doMsgsnd
    rw [hint,hlen,if_neg (by decide),if_neg (by decide)]
    exact hm
  · rw [hlen]
    decide
  · unfold mqTimedsend
    rw [hint,hlen,if_neg (by decide)]
    exact hm

end BlockIpc.MsgLengths
