import BlockIpc.MqueueInodes
import BlockIpc.ReferenceCounts

/-!
# Accounts of POSIX message queues

A user is charged the bytes of the queues they created, and a namespace counts
its queues. The charge and the refund are calculated at different times from
the attributes of the queue, and a failed creation is rolled back in two places.
Both accounts are exact in every interleaving, whatever fails.
-/

namespace BlockIpc.MqueueQuota

open Function List KernelNumbers TransitionRuns CheckedMath ReferenceCounts MqueueInodes

variable {pf : Platform}

/-- The exact size of a user's live queues. -/
def userBytes (s : MqState pf) (u : ℕ) : ℤ :=
  (s.queues.map (fun o => if (s.objs o).user=some u then queueBytes (s.objs o).attr else 0)).sum

/-- The number of live queues of a namespace. -/
def nsQueues (s : MqState pf) (n : ℕ) : ℕ := s.queues.countP (fun o => decide ((s.objs o).sb=n))

/-- The namespace in which a call has counted a queue that is not live yet. -/
def creatingIn : CreatePc pf → Option ℕ
  | .counted n _ _ => some n
  | .sized n _ _ _ => some n
  | .tabled n _ _ _ => some n
  | .outInode n _ => some n
  | .failed n => some n
  | _ => none

/-- The calculated sizes are the exact ones. -/
theorem MqAttr.Sized.bytes {attr : MqAttr pf} (h : attr.Sized) :
    (refundBytes attr : ℤ)=queueBytes attr ∧ 0<refundBytes attr ∧ refundBytes attr<2^pf.width := by
  obtain ⟨⟨tableBytes,bytes⟩,hc⟩ := Option.isSome_iff_exists.mp h.some
  obtain ⟨hlt,_,hexact⟩ := (mqCalculateSizes_eq_some h.maxmsg h.msgsize).mp hc
  have hpos : 0<queueBytes attr := mul_pos h.maxmsg (by have := h.msgsize; omega)
  have hrefund : refundBytes attr=bytes := by
    unfold refundBytes
    rw [hc]
  rw [hrefund]
  refine ⟨hexact,by omega,?_⟩
  rw [← hexact] at hlt
  exact_mod_cast hlt

structure QuotaInv (s : MqState pf) : Prop where
  /-- Every user is charged the exact size of their live queues. -/
  bytes : ∀ u, (s.mqBytes u : ℤ)=userBytes s u
  word : ∀ u, s.mqBytes u<2^pf.width
  /-- An inode that is being built is in the namespace where it is counted. -/
  sb : ∀ c o n, (s.pc c).inode=some o → creatingIn (s.pc c)=some n → (s.objs o).sb=n
  /-- A namespace counts its live queues and those that are being created. -/
  count : ∃ creating : ℕ → ℕ, Counts creating (fun c => creatingIn (s.pc c)) ∧
    ∀ n, (s.ns n).sbinfo=true → (s.ns n).queuesCount=nsQueues s n+creating n

variable {s s' : MqState pf} {o u c n : ℕ} {pc : CreatePc pf} {attr : Option (MqAttr pf)}

/-- The accounts are exact initially. -/
theorem quotaInv_start (h : MqStart s) : QuotaInv s := by
  refine ⟨fun u => ?_,fun u => ?_,fun c o n hc => ?_,fun _ => 0,?_,fun n _ => ?_⟩
  · simp [h.bytes,userBytes,h.queues]
  · rw [h.bytes]
    exact Nat.two_pow_pos _
  · rw [h.idle] at hc
    cases hc
  · have he : (fun c => creatingIn (s.pc c))=fun _ => none := by
      funext c
      rw [h.idle]
      rfl
    rw [he]
    exact counts_none
  · simp [h.count,nsQueues,h.queues]

/-- The account of a user depends on the live queues only. -/
theorem userBytes_congr (s s' : MqState pf) (hq : s'.queues=s.queues)
    (hobjs : ∀ o∈s.queues, s'.objs o=s.objs o) (u : ℕ) : userBytes s' u=userBytes s u := by
  unfold userBytes
  rw [hq]
  exact congrArg List.sum (map_congr_left (fun o ho => by rw [hobjs o ho]))

/-- The number of live queues depends on the live queues only. -/
theorem nsQueues_congr (s s' : MqState pf) (hq : s'.queues=s.queues)
    (hobjs : ∀ o∈s.queues, s'.objs o=s.objs o) (n : ℕ) : nsQueues s' n=nsQueues s n := by
  unfold nsQueues
  rw [hq]
  exact countP_congr (fun o ho => by rw [hobjs o ho])

/-- The account of a user is not negative. -/
theorem userBytes_nonneg (l : List ℕ) (hs : ∀ o∈l, (s.objs o).attr.Sized) (u : ℕ) :
    0≤(l.map (fun o => if (s.objs o).user=some u then queueBytes (s.objs o).attr else 0)).sum := by
  refine sum_nonneg (fun x hx => ?_)
  obtain ⟨o,ho,he⟩ := mem_map.mp hx
  subst he
  split
  · rw [← (MqAttr.Sized.bytes (hs o ho)).1]
    exact Int.natCast_nonneg _
  · exact le_refl 0

/-- A live queue is part of the account of its user. -/
theorem userBytes_erase (ho : o∈s.queues) (u : ℕ) :
    userBytes s u=(if (s.objs o).user=some u then queueBytes (s.objs o).attr else 0)+
      userBytes {s with queues := s.queues.erase o} u := (sum_map_erase _ ho).symm

/-- What a user is charged for a live queue has not been taken back before. -/
theorem QuotaInv.refund_le (hq : QuotaInv s) (hi : InodeInv s) (ho : o∈s.queues) (hu : (s.objs o).user=some u) :
    refundBytes (s.objs o).attr ≤ s.mqBytes u := by
  have hb := hq.bytes u
  rw [userBytes_erase ho,if_pos hu,← (MqAttr.Sized.bytes (hi.sized o ho)).1] at hb
  have hnonneg : 0≤userBytes {s with queues := s.queues.erase o} u :=
    userBytes_nonneg (s := s) (s.queues.erase o) (fun x hx => hi.sized x (mem_of_mem_erase hx)) u
  omega

/-- The call that advances is the only one whose namespace may change. -/
theorem creatingIn_go (s : MqState pf) (c : ℕ) (pc : CreatePc pf) :
    (fun d => creatingIn ((s.go c pc).pc d))=update (fun d => creatingIn (s.pc d)) c (creatingIn pc) := by
  funext d
  by_cases hd : d=c
  · subst hd
    simp [MqState.go]
  · simp [MqState.go,update_of_ne hd]

/-- Where the inode of a building call belongs, after one call advances. -/
theorem sb_go (hs : s'.pc=s.pc) (hself : ∀ o n, pc.inode=some o → creatingIn pc=some n → (s'.objs o).sb=n)
    (hothers : ∀ d o n, d≠c → (s.pc d).inode=some o → creatingIn (s.pc d)=some n → (s'.objs o).sb=n) (d o n : ℕ)
    (hd : ((s'.go c pc).pc d).inode=some o) (hn : creatingIn ((s'.go c pc).pc d)=some n) :
    ((s'.go c pc).objs o).sb=n := by
  have hboth : (((s'.go c pc).pc d).inode,creatingIn ((s'.go c pc).pc d))=(some o,some n) := Prod.ext hd hn
  rcases go_cases (fun pc => (pc.inode,creatingIn pc)) hboth with ⟨_,h⟩|⟨hdc,h⟩
  · exact hself o n (congrArg Prod.fst h) (congrArg Prod.snd h)
  · rw [hs] at h
    exact hothers d o n hdc (congrArg Prod.fst h) (congrArg Prod.snd h)

/-- A call advances and neither account changes. -/
theorem QuotaInv.go (hq : QuotaInv s) (hsame : creatingIn pc=creatingIn (s.pc c))
    (hinode : ∀ o, pc.inode=some o → (s.pc c).inode=some o) : QuotaInv (s.go c pc) := by
  refine ⟨hq.bytes,hq.word,sb_go rfl (fun o n h hn => ?_) (fun d o n _ => hq.sb d o n),?_⟩
  · rw [hsame] at hn
    exact hq.sb c o n (hinode o h) hn
  · obtain ⟨creating,hc,hn⟩ := hq.count
    refine ⟨creating,?_,hn⟩
    rw [creatingIn_go,hsame,update_eq_self]
    exact hc

/-- A change that leaves the live queues, the calls and the accounts. -/
theorem QuotaInv.frame (hq : QuotaInv s) (hbytes : s'.mqBytes=s.mqBytes) (hqueues : s'.queues=s.queues)
    (hpc : s'.pc=s.pc) (hobjs : ∀ o∈s.queues, s'.objs o=s.objs o) (hsb : ∀ o, (s'.objs o).sb=(s.objs o).sb)
    (hns : ∀ n, (s'.ns n).sbinfo=true → (s.ns n).sbinfo=true ∧ (s'.ns n).queuesCount=(s.ns n).queuesCount) :
    QuotaInv s' := by
  refine ⟨fun u => ?_,fun u => ?_,fun c o n hc hn => ?_,?_⟩
  · rw [hbytes,userBytes_congr s s' hqueues hobjs]
    exact hq.bytes u
  · rw [hbytes]
    exact hq.word u
  · rw [hpc] at hc hn
    rw [hsb]
    exact hq.sb c o n hc hn
  · obtain ⟨creating,hc,hn⟩ := hq.count
    refine ⟨creating,by rw [hpc]; exact hc,fun n h => ?_⟩
    obtain ⟨hold,he⟩ := hns n h
    rw [he,nsQueues_congr s s' hqueues hobjs]
    exact hn n hold

/-- A call advances, and a namespace is counted as far as the calls that create in it. -/
theorem QuotaInv.recounted (hq : QuotaInv s) {x : ℤ} (hpc : pc.inode=none)
    (hc : ∀ creating, Counts creating (fun d => creatingIn (s.pc d)) →
      ∃ k : ℕ, k=creating n+x ∧
        Counts (update creating n k) (update (fun d => creatingIn (s.pc d)) c (creatingIn pc))) :
    QuotaInv ((s.addCount n x).go c pc) := by
  refine ⟨hq.bytes,hq.word,sb_go rfl (by simp [hpc]) (fun d o m _ => hq.sb d o m),?_⟩
  obtain ⟨creating,hcreating,hn⟩ := hq.count
  obtain ⟨k,hk,hc⟩ := hc creating hcreating
  refine ⟨update creating n k,?_,fun m h => ?_⟩
  · rw [creatingIn_go]
    exact hc
  · by_cases hm : m=n
    · subst hm
      have hold := hn m (by simpa [MqState.go,MqState.addCount,MqState.setNs] using h)
      simp only [MqState.go,MqState.addCount,MqState.setNs,update_self]
      rw [hold,hk]
      exact add_assoc _ _ _
    · simp only [MqState.go,MqState.addCount,MqState.setNs,update_of_ne hm] at h ⊢
      exact hn m h

/-- A queue is counted before it is live. -/
theorem QuotaInv.counted (hq : QuotaInv s) (hp : s.pc c=.opened n u attr) :
    QuotaInv ((s.addCount n 1).go c (.counted n u attr)) :=
  hq.recounted rfl (fun creating hc => ⟨creating n+1,by push_cast; rfl,hc.acquire (congrArg creatingIn hp)⟩)

/-- A failed creation is not counted any more. -/
theorem QuotaInv.rolledBack (hq : QuotaInv s) (hp : s.pc c=.failed n) :
    QuotaInv ((s.addCount n (-1)).go c (.done (-enomem))) := by
  refine hq.recounted rfl (fun creating hc => ?_)
  have hown : (fun d => creatingIn (s.pc d)) c=some n := congrArg creatingIn hp
  have hpos := hc.pos hown
  exact ⟨creating n-1,by omega,hc.release hown⟩

/-- An object becomes an inode of the namespace where it is counted. -/
theorem QuotaInv.init (hq : QuotaInv s) (hi : InodeInv s) (hp : s.pc c=.counted n u attr) (hfree : s.allocated o=false)
    (hsame : creatingIn pc=some n) (hpc : pc.inode=some o) : QuotaInv ((s.initInode o n attr).go c pc) := by
  have hnot : o∉s.queues := by
    intro ho
    have h := hi.live o ho
    rw [hfree] at h
    cases h
  have hobjs : ∀ x, x≠o → ((s.initInode o n attr).go c pc).objs x=s.objs x :=
    fun x hx => update_of_ne hx _ _
  have hlive : ∀ x∈s.queues, ((s.initInode o n attr).go c pc).objs x=s.objs x :=
    fun x hx => hobjs x (fun he => hnot (he ▸ hx))
  refine ⟨fun w => ?_,hq.word,sb_go rfl (fun x m hx hm => ?_) (fun d x m _ hd hm => ?_),?_⟩
  · rw [userBytes_congr s ((s.initInode o n attr).go c pc) rfl hlive]
    exact hq.bytes w
  · rw [hpc] at hx
    rw [hsame] at hm
    cases hx
    cases hm
    simp [MqState.initInode,MqState.setInfo]
  · have hx : x≠o := by
      intro he
      subst he
      have ha := (hi.building d x hd).1
      rw [hfree] at ha
      cases ha
    exact (congrArg MqInfo.sb (hobjs x hx)).trans (hq.sb d x m hd hm)
  · obtain ⟨creating,hc,hn⟩ := hq.count
    refine ⟨creating,?_,fun m h => ?_⟩
    · have hold : creatingIn pc=(fun d => creatingIn (s.pc d)) c := by
        show creatingIn pc=creatingIn (s.pc c)
        rw [hp]
        exact hsame
      rw [creatingIn_go]
      show Counts creating (update (fun d => creatingIn (s.pc d)) c (creatingIn pc))
      rw [hold,update_eq_self]
      exact hc
    · rw [nsQueues_congr s ((s.initInode o n attr).go c pc) rfl hlive]
      exact hn m h

/-- A charged queue becomes live. -/
theorem QuotaInv.charged (hq : QuotaInv s) (hi : InodeInv s) {bytes total : ℕ} (hp : s.pc c=.tabled n u o bytes)
    (htotal : l30SizeAddOverflow pf.width (s.mqBytes u) bytes=some total) :
    QuotaInv ((s.charged u o total).go c (.done 0)) := by
  have hown : (s.pc c).inode=some o := by rw [hp]; rfl
  obtain ⟨_,hnot,_⟩ := hi.building c o hown
  obtain ⟨hsized,hbytes⟩ := hi.bills c o bytes (by rw [hp]; rfl)
  obtain ⟨hexact,_,hlt⟩ := MqAttr.Sized.bytes hsized
  rw [← hbytes] at hexact hlt
  obtain ⟨hword,he⟩ := (l30SizeAddOverflow_eq_some hlt).mp htotal
  have hsb := hq.sb c o n hown (by rw [hp]; rfl)
  have hobjs : ∀ x, x≠o → ((s.charged u o total).go c (.done 0)).objs x=s.objs x :=
    fun x hx => update_of_ne hx _ _
  have hself : ((s.charged u o total).go c (.done 0)).objs o={s.objs o with user := some u} :=
    update_self _ _ _
  have hlive : ∀ x∈s.queues, ((s.charged u o total).go c (.done 0)).objs x=s.objs x :=
    fun x hx => hobjs x (fun hxo => hnot (hxo ▸ hx))
  refine ⟨fun w => ?_,(forall_update_iff s.mqBytes (fun _ b => b<2^pf.width)).mpr ⟨he ▸ hword,fun w _ => hq.word w⟩,
    sb_go rfl nofun (fun d x m hdc hd hm => ?_),?_⟩
  · have hsum : userBytes ((s.charged u o total).go c (.done 0)) w=
        (if some u=some w then queueBytes (s.objs o).attr else 0)+userBytes s w := by
      rw [← userBytes_congr s {(s.charged u o total).go c (.done 0) with queues := s.queues}
        rfl hlive w]
      unfold userBytes
      show ((o::s.queues).map _).sum=_
      rw [map_cons,sum_cons,hself]
    rw [hsum]
    show ((update s.mqBytes u total w : ℕ) : ℤ)=_
    by_cases hw : w=u
    · subst hw
      rw [update_self,if_pos rfl,he,← hq.bytes]
      push_cast
      omega
    · rw [update_of_ne hw,if_neg (fun h => hw (Option.some.inj h).symm),hq.bytes]
      omega
  · have hx : x≠o := fun hx => hdc (hi.distinct d c x hd (hx ▸ hown))
    exact (congrArg MqInfo.sb (hobjs x hx)).trans (hq.sb d x m hd hm)
  · obtain ⟨creating,hc,hn⟩ := hq.count
    have hcreating : (fun d => creatingIn (s.pc d)) c=some n := congrArg creatingIn hp
    refine ⟨update creating n (creating n-1),?_,fun m h => ?_⟩
    · rw [creatingIn_go]
      exact hc.release hcreating
    · have hlist : nsQueues ((s.charged u o total).go c (.done 0)) m=nsQueues s m+if n=m then 1 else 0 := by
        rw [← nsQueues_congr s {(s.charged u o total).go c (.done 0) with queues := s.queues}
          rfl hlive m]
        unfold nsQueues
        show (o::s.queues).countP _=_
        rw [countP_cons,hself]
        simp [hsb]
      have hold := hn m h
      rw [hlist]
      show (s.ns m).queuesCount=_
      rw [hold]
      by_cases hm : m=n
      · subst hm
        have hpos := hc.pos hcreating
        rw [update_self,if_pos rfl]
        omega
      · rw [update_of_ne hm,if_neg (Ne.symm hm)]
        omega

/-- The eviction of an inode that is not charged changes no account. -/
theorem evict_uncharged (hu : (s.objs o).user=none) :
    (mqueueEvictInode s o).ns=s.ns ∧ (mqueueEvictInode s o).mqBytes=s.mqBytes := by
  obtain ⟨tables,badFree,hk⟩ := kfreeMessages_frame s o
  unfold mqueueEvictInode MqState.refund
  rw [hk]
  dsimp only
  rw [hu]
  exact ⟨rfl,rfl⟩

/-- The eviction of a charged inode takes the charge back and counts one queue less. -/
theorem evict_charged (hu : (s.objs o).user=some u) : (mqueueEvictInode s o).mqBytes=update s.mqBytes u
        ((s.mqBytes u+2^pf.width-refundBytes (s.objs o).attr)%2^pf.width) ∧
      ∀ n, ((mqueueEvictInode s o).ns n).sbinfo=(s.ns n).sbinfo ∧
        ((s.ns n).sbinfo=true → ((mqueueEvictInode s o).ns n).queuesCount=
          (s.ns n).queuesCount-if (s.objs o).sb=n then 1 else 0) := by
  obtain ⟨tables,badFree,hk⟩ := kfreeMessages_frame s o
  unfold mqueueEvictInode MqState.refund
  rw [hk]
  dsimp only
  rw [hu]
  dsimp only
  split
  · next hsb =>
    refine ⟨rfl,fun n => ?_⟩
    by_cases hn : n=(s.objs o).sb
    · subst hn
      simp [MqState.addCount,MqState.setNs]
      intro _
      rfl
    · simp [MqState.addCount,MqState.setNs,update_of_ne hn,Ne.symm hn]
  · next hsb =>
    refine ⟨rfl,fun n => ⟨rfl,fun h => ?_⟩⟩
    have hn : (s.objs o).sb≠n := fun he => hsb (he ▸ h)
    simp [hn]

/-- A failed creation evicts its inode and changes no account. -/
theorem QuotaInv.dropped (hq : QuotaInv s) (hi : InodeInv s) (hp : s.pc c=.outInode n o) :
    QuotaInv ((mqueueEvictInode s o).go c (.failed n)) := by
  obtain ⟨hobjs,hpc,hqueues⟩ := evict_frame s o
  have hown : (s.pc c).inode=some o := by rw [hp]; rfl
  obtain ⟨hns,hbytes⟩ := evict_uncharged (hi.building c o hown).2.2
  have hevicted : QuotaInv (mqueueEvictInode s o) :=
    hq.frame hbytes hqueues hpc (fun x _ => by rw [hobjs]) (fun x => by rw [hobjs])
      (fun m h => by rw [hns] at h ⊢; exact ⟨h,rfl⟩)
  refine hevicted.go ?_ (fun x h => by cases h)
  rw [hpc,hp]
  rfl

/-- The eviction of a live queue. -/
theorem QuotaInv.evicted (hq : QuotaInv s) (hi : InodeInv s) (ho : o∈s.queues) :
    QuotaInv {mqueueEvictInode s o with queues := s.queues.erase o} := by
  obtain ⟨hobjs,hpc,_⟩ := evict_frame s o
  obtain ⟨u,hu⟩ := Option.isSome_iff_exists.mp (hi.user o ho)
  obtain ⟨hbytes,hns⟩ := evict_charged hu
  obtain ⟨hexact,_,hlt⟩ := MqAttr.Sized.bytes (hi.sized o ho)
  have hle := hq.refund_le hi ho hu
  have hleft : (s.mqBytes u+2^pf.width-refundBytes (s.objs o).attr)%2^pf.width=
      s.mqBytes u-refundBytes (s.objs o).attr := by
    have hword := hq.word u
    rw [show s.mqBytes u+2^pf.width-refundBytes (s.objs o).attr=
      s.mqBytes u-refundBytes (s.objs o).attr+2^pf.width by omega,Nat.add_mod_right]
    exact Nat.mod_eq_of_lt (by omega)
  refine ⟨fun w => ?_,fun w => ?_,fun d x m hd hm => ?_,?_⟩
  · have hrest : userBytes {mqueueEvictInode s o with queues := s.queues.erase o} w=
        userBytes {s with queues := s.queues.erase o} w :=
      userBytes_congr {s with queues := s.queues.erase o}
        {mqueueEvictInode s o with queues := s.queues.erase o} rfl (fun x _ => congrFun hobjs x) w
    rw [hrest]
    have hsum := userBytes_erase ho w
    have hb := hq.bytes w
    show (((mqueueEvictInode s o).mqBytes w : ℕ) : ℤ)=_
    rw [hbytes]
    by_cases hw : w=u
    · subst hw
      rw [update_self,hleft]
      rw [if_pos hu] at hsum
      omega
    · rw [update_of_ne hw]
      rw [if_neg (fun h => hw (Option.some.inj (h.symm.trans hu)))] at hsum
      omega
  · show (mqueueEvictInode s o).mqBytes w<2^pf.width
    rw [hbytes]
    exact (forall_update_iff s.mqBytes (fun _ b => b<2^pf.width)).mpr
      ⟨Nat.mod_lt _ (Nat.two_pow_pos _),fun w _ => hq.word w⟩ w
  · simp only [hpc] at hd hm
    simp only [hobjs]
    exact hq.sb d x m hd hm
  · obtain ⟨creating,hc,hn⟩ := hq.count
    refine ⟨creating,by simp only [hpc]; exact hc,fun m h => ?_⟩
    obtain ⟨hsbinfo,hcount⟩ := hns m
    have hm : (s.ns m).sbinfo=true := by
      rw [← hsbinfo]
      exact h
    have hlist : nsQueues {mqueueEvictInode s o with queues := s.queues.erase o} m+
        (if (s.objs o).sb=m then 1 else 0)=nsQueues s m := by
      have hrest : nsQueues {mqueueEvictInode s o with queues := s.queues.erase o} m=
          (s.queues.erase o).countP (fun x => decide ((s.objs x).sb=m)) := by
        unfold nsQueues
        simp only [hobjs]
      have hperm := (perm_cons_erase ho).countP_eq (fun x => decide ((s.objs x).sb=m))
      rw [countP_cons] at hperm
      rw [hrest]
      unfold nsQueues
      rw [hperm]
      simp
    have hold := hn m hm
    show ((mqueueEvictInode s o).ns m).queuesCount=_
    rw [hcount hm,hold,← hlist]
    push_cast
    split <;> omega

/-- The table pointer of an inode that is being built concerns no account. -/
theorem QuotaInv.assign (hq : QuotaInv s) (hi : InodeInv s) (hown : (s.pc c).inode=some o) (messages : Option ℕ) :
    QuotaInv (s.setInfo o {s.objs o with messages := messages, assigned := true}) := by
  have hnot := (hi.building c o hown).2.1
  refine hq.frame rfl rfl rfl (fun x hx => ?_) (objs_setInfo MqInfo.sb rfl) (fun _ h => ⟨h,rfl⟩)
  exact update_of_ne (show x≠o from fun he => hnot (he ▸ hx)) _ _

/-- Every step keeps the accounts exact. -/
theorem QuotaInv.step {e : MqEvent pf} (hq : QuotaInv s) (hi : InodeInv s) (h : MqNext s e s') : QuotaInv s' := by
  have hown : ∀ {c n u o bytes}, s.pc c=.sized n u o bytes → (s.pc c).inode=some o := by
    intro c n u o bytes hp
    rw [hp]
    rfl
  cases mqStep_cases h with
  | @limits n write =>
    refine hq.frame rfl rfl rfl (fun _ _ => rfl) (fun _ => rfl) (fun m h => ?_)
    by_cases hm : m=n
    · subst hm
      simp only [MqState.setNs,update_self] at h ⊢
      exact ⟨h,trivial⟩
    · simp only [MqState.setNs,update_of_ne hm] at h ⊢
      exact ⟨h,trivial⟩
  | @cleared n =>
    refine hq.frame rfl rfl rfl (fun _ _ => rfl) (fun _ => rfl) (fun m h => ?_)
    by_cases hm : m=n
    · subst hm
      simp only [MqState.setNs,update_self] at h
      cases h
    · simp only [MqState.setNs,update_of_ne hm] at h ⊢
      exact ⟨h,trivial⟩
  | opened hp | refused hp | rejected hp | noInode hp => exact hq.go (by rw [hp]; rfl) (fun o h => by cases h)
  | counted hp => exact hq.counted hp
  | oversize hp hfree hsize | sized hp hfree hsize => exact hq.init hi hp hfree rfl rfl
  | @noTable c n u o bytes hp =>
    refine (hq.assign hi (hown hp) none).go ?_ (fun x h => ?_)
    · show creatingIn (.outInode n o)=creatingIn (s.pc c)
      rw [hp]
      rfl
    · show (s.pc c).inode=some x
      rw [hp]
      exact h
  | @tabled c n u o bytes t hp hfree =>
    have hframe : QuotaInv {s.setInfo o {s.objs o with messages := some t, assigned := true} with
        tables := update s.tables t (some o)} :=
      (hq.assign hi (hown hp) (some t)).frame rfl rfl rfl (fun _ _ => rfl) (fun _ => rfl) (fun _ h => ⟨h,rfl⟩)
    refine hframe.go ?_ (fun x h => ?_)
    · show creatingIn (.tabled n u o bytes)=creatingIn (s.pc c)
      rw [hp]
      rfl
    · show (s.pc c).inode=some x
      rw [hp]
      exact h
  | overQuota hp => exact hq.go (by rw [hp]; rfl) (fun o h => by rw [hp]; exact h)
  | charged hp htotal hlimit => exact hq.charged hi hp htotal
  | dropped hp => exact hq.dropped hi hp
  | rolledBack hp => exact hq.rolledBack hp
  | evicted ho => exact hq.evicted hi ho

/-- The accounts are exact in all runs. -/
theorem quotaInv_of_reachable (hr : MqReachable s) : QuotaInv s :=
  Reachable.invariant (I := QuotaInv) (fun _ h => quotaInv_start h)
    (fun _ _ _ hr hq h => hq.step (inodeInv_of_reachable hr) h) hr

/-- Whoever is charged more after a step was charged by a creation within its limit. -/
theorem charge_within_rlimit {rlimit : ℕ} (h : MqNext s (.charge c rlimit) s') (hmore : s.mqBytes u<s'.mqBytes u) :
    s'.mqBytes u ≤ rlimit := by
  cases mqStep_cases h with
  | overQuota hp => exact absurd hmore (lt_irrefl _)
  | @charged _ _ n w o bytes total hp htotal hlimit =>
    by_cases hu : u=w
    · subst hu
      show update s.mqBytes u total u ≤ rlimit
      rw [update_self]
      exact hlimit
    · have hsame : update s.mqBytes w total u=s.mqBytes u := update_of_ne hu _ _
      exact absurd hmore (not_lt.mpr (le_of_eq hsame))

/-- POSIX queue accounts are exact in every reachable state: each user is charged
the exact size of their live queues, which is a word; the refund of a live queue
never exceeds the charge; a creation that charges a user leaves at most the limit
in force; and a namespace that its superblock points at counts its live queues
and those in creation, so exactly the live ones when none is in creation. -/
theorem mq_accounts_exact {s : MqState pf} (hr : MqReachable s) :
    (∀ u, (s.mqBytes u : ℤ)=userBytes s u ∧ userBytes s u<2^pf.width) ∧ (∀ o∈s.queues, ∃ u, (s.objs o).user=some u ∧
      (refundBytes (s.objs o).attr : ℤ)=queueBytes (s.objs o).attr ∧
      refundBytes (s.objs o).attr ≤ s.mqBytes u) ∧
    (∀ c rlimit s', MqNext s (.charge c rlimit) s' → ∀ u, s.mqBytes u<s'.mqBytes u →
      s'.mqBytes u ≤ rlimit) ∧
    (∀ n, (s.ns n).sbinfo=true → ∃ creating : Finset ℕ,
      (∀ c, c∈creating ↔ creatingIn (s.pc c)=some n) ∧
      (s.ns n).queuesCount=nsQueues s n+creating.card) ∧
    (∀ n, (s.ns n).sbinfo=true → (∀ c, creatingIn (s.pc c)≠some n) →
      (s.ns n).queuesCount=nsQueues s n) := by
  have hi := inodeInv_of_reachable hr
  have hq := quotaInv_of_reachable hr
  obtain ⟨creating,hc,hn⟩ := hq.count
  refine ⟨fun u => ⟨hq.bytes u,?_⟩,fun o ho => ?_,fun c rlimit s' h u => charge_within_rlimit h,
    fun n h => ?_,fun n h hnone => ?_⟩
  · have hw := hq.word u
    rw [← hq.bytes u]
    exact_mod_cast hw
  · obtain ⟨u,hu⟩ := Option.isSome_iff_exists.mp (hi.user o ho)
    exact ⟨u,hu,(MqAttr.Sized.bytes (hi.sized o ho)).1,hq.refund_le hi ho hu⟩
  · obtain ⟨T,hT,hmem⟩ := hc n
    refine ⟨T,fun c => (hmem c).symm,?_⟩
    rw [hT]
    exact hn n h
  · rw [hn n h,hc.eq_zero hnone]
    simp

/-- One of two creations of the same user exceeds the limit and is rolled back: one
queue with the default attributes is charged and counted. -/
theorem mq_accounts_exact_oneQueue : ∃ s : MqState ⟨8,.inr rfl⟩, MqReachable s ∧ s.queues=[3] ∧
    userBytes s 7=82000 ∧ s.mqBytes 7=82000 ∧ (s.ns 0).queuesCount=1 := by
  obtain ⟨s,hr,hq,hb,hc⟩ : ∃ s : MqState ⟨8,.inr rfl⟩, MqReachable s ∧ s.queues=[3] ∧ s.mqBytes 7=82000 ∧
      (s.ns 0).queuesCount=1 :=
    exists_run (fun _ _ _ => id) (newMq_start _) [.doCreate 0 0 7 false none,.create 0 false,
      .doCreate 1 0 7 false none,.create 1 false,.newInode 0 (some 3),.newInode 1 (some 4),
      .kmalloc 0 (some 5),.kmalloc 1 (some 6),.charge 0 100000,.charge 1 100000,.dropInode 1,
      .rollback 1] (by decide)
  have hbytes := ((mq_accounts_exact hr).1 7).1
  rw [hb] at hbytes
  exact ⟨s,hr,hq,hbytes.symm,hb,hc⟩

end BlockIpc.MqueueQuota
