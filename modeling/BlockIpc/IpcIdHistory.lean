import BlockIpc.TransitionRuns
import BlockIpc.IpcIdentifiers

/-!
# When a removed identifier can denote another object

The history of a set of identifiers records for every object its index, its sequence number and
how many identifiers had been assigned by then. Objects that share an index are told apart by
sequence numbers, which come back after 65536 assignments. Until then the identifier of a removed
object is refused. Lookups that found an object before its removal are refused by its mark.
-/

namespace BlockIpc.IpcIdHistory

open Function KernelNumbers TransitionRuns SlotTable IpcIdentifiers

/-- What an object was assigned. -/
structure Assignment where
  /-- Index in the table. -/
  idx : ℕ
  /-- Sequence number. -/
  seq : ℤ
  /-- Number of identifiers assigned so far, with this one. -/
  adds : ℕ

/-- A set of identifiers with its history. -/
structure IdHistory where
  /-- The set and the permission structures. -/
  table : IpcTable
  /-- Number of permission structures allocated so far. -/
  nextPerm : ℕ
  /-- Number of calls of ipc_addid that assigned an identifier. -/
  adds : ℕ
  assigned : ℕ → Option Assignment

/-- Calls that change the set. -/
inductive IdEvent where
  /-- A new object, set up by its creator, is added. -/
  | addid (new : KernIpcPerm) (size : ℤ) (idrGetNew : Option Errno) (euid egid : ℕ)
  /-- The object with an index is removed. -/
  | rmid (idx : ℕ)

/-- One call, when it can be made. -/
def idStep (s : IdHistory) : IdEvent → Option IdHistory
  | .addid new size idrGetNew euid egid =>
    let r := ipcAddid (s.table.setUp s.nextPerm new) s.nextPerm size idrGetNew euid egid
    if r.1<0 then some {s with table := r.2, nextPerm := s.nextPerm+1}
    else some
      { table := r.2
        nextPerm := s.nextPerm+1
        adds := s.adds+1
        assigned := update s.assigned s.nextPerm
          (some ⟨r.1.toNat,(r.2.perms s.nextPerm).seq,s.adds+1⟩) }
  | .rmid idx =>
    match s.table.ids.ipcsIdr.find idx with
    | none => none
    | some p => some {s with table := ipcRmid s.table p}

/-- One call as a relation. -/
def IdNext (s : IdHistory) (e : IdEvent) (s' : IdHistory) : Prop := idStep s e=some s'

/-- A set of identifiers after its initialisation. -/
def IdStart (s : IdHistory) : Prop := s.table.ids=ipcInitIds ∧ s.nextPerm=0 ∧ s.adds=0 ∧ s.assigned=fun _ => none

/-- States of all runs of ipc_addid and ipc_rmid. -/
def IdReachable (s : IdHistory) : Prop := Reachable IdStart IdNext s

/-- What the history says about the set. -/
structure HistoryInv (s : IdHistory) : Prop extends IdInv s.table where
  /-- The next sequence number counts assignments. -/
  counter : s.table.ids.seq=s.adds%65536
  /-- What an object was assigned is what its identifier is built from. -/
  known : ∀ p g, s.assigned p=some g → p<s.nextPerm ∧ g.idx < ipcmni ∧ g.adds ≤ s.adds ∧ 1≤g.adds ∧
    g.seq=(g.adds-1)%65536 ∧ (s.table.perms p).seq=g.seq ∧ (s.table.perms p).id=ipcBuildid g.idx g.seq
  /-- Objects in the table were assigned their index. -/
  listed : ∀ idx p, s.table.ids.ipcsIdr.find idx=some p → ∃ g, s.assigned p=some g ∧ g.idx=idx
  /-- Objects without a removal mark are in the table. -/
  live : ∀ p g, s.assigned p=some g → (s.table.perms p).deleted=false →
    s.table.ids.ipcsIdr.find g.idx=some p
  /-- Identifiers are assigned one at a time. -/
  once : ∀ p q g k, s.assigned p=some g → s.assigned q=some k → g.adds=k.adds → p=q
  /-- The object in a slot is the last one that was assigned the index. -/
  latest : ∀ q k, s.assigned q=some k → s.table.ids.ipcsIdr.find k.idx=some q →
    ∀ p g, s.assigned p=some g → g.idx=k.idx → g.adds≤k.adds

variable {s s' : IdHistory} {t : IpcTable} {idx p : ℕ} {e : IdEvent} {g : Assignment}

/-- A new object is not in the table. -/
theorem HistoryInv.fresh (hi : HistoryInv s) (idx : ℕ) : s.table.ids.ipcsIdr.find idx≠some s.nextPerm := by
  intro h
  obtain ⟨g,hg,_⟩ := hi.listed idx _ h
  exact lt_irrefl _ (hi.known _ g hg).1

/-- The initial set satisfies the invariant. -/
theorem idStart_inv (h : IdStart s) : HistoryInv s := by
  obtain ⟨hids,hnext,hadds,hassigned⟩ := h
  have htable : IdInv s.table := by
    have hinit := ipcInitIds_inv s.table.perms
    rw [← hids] at hinit
    exact hinit
  have hfind : ∀ idx, s.table.ids.ipcsIdr.find idx=none := by
    intro idx
    rw [hids]
    exact find_empty
  refine ⟨htable,?_,fun p g hg => ?_,fun idx p hp => ?_,fun p g hg => ?_,fun p q g k hg => ?_,
    fun q k hk => ?_⟩
  · rw [hids,hadds]
    rfl
  · simp [hassigned] at hg
  · simp [hfind] at hp
  · simp [hassigned] at hg
  · simp [hassigned] at hg
  · simp [hassigned] at hk

/-- Setting a new object up and a failed call keep the history. -/
theorem HistoryInv.notAdded (hi : HistoryInv s) {n : ℕ} (h : NotAdded s.table t s.nextPerm) (hn : s.nextPerm≤n) :
    HistoryInv {s with table := t, nextPerm := n} := by
  have hids := h.ids
  have hold : ∀ p g, s.assigned p=some g → t.perms p=s.table.perms p :=
    fun p g hg => h.others p (ne_of_lt (hi.known p g hg).1)
  refine ⟨hi.toIdInv.notAdded h hi.fresh,?_,fun p g hg => ?_,fun idx p hp => ?_,fun p g hg hd => ?_,
    hi.once,fun q k hk hf => ?_⟩
  · change t.ids.seq=_
    rw [hids]
    exact hi.counter
  · obtain ⟨h1,h2⟩ := hi.known p g hg
    change p<n ∧ _ ∧ _ ∧ _ ∧ _ ∧ (t.perms p).seq=g.seq ∧ (t.perms p).id=_
    rw [hold p g hg]
    exact ⟨lt_of_lt_of_le h1 hn,h2⟩
  · change t.ids.ipcsIdr.find idx=some p at hp
    rw [hids] at hp
    exact hi.listed idx p hp
  · change t.ids.ipcsIdr.find g.idx=some p
    change (t.perms p).deleted=false at hd
    rw [hold p g hg] at hd
    rw [hids]
    exact hi.live p g hg hd
  · change t.ids.ipcsIdr.find k.idx=some q at hf
    rw [hids] at hf
    exact hi.latest q k hk hf

/-- A successful call extends the history. -/
theorem HistoryInv.added (hi : HistoryInv s) (h : Added s.table t s.nextPerm) :
    HistoryInv ⟨t,s.nextPerm+1,s.adds+1,update s.assigned s.nextPerm
      (some ⟨s.table.ids.ipcsIdr.firstFree,s.table.ids.seq,s.adds+1⟩)⟩ := by
  have hnone : s.assigned s.nextPerm=none := by
    cases hg : s.assigned s.nextPerm with
    | none => rfl
    | some g => exact absurd (hi.known _ g hg).1 (lt_irrefl _)
  have hcases : ∀ p g, update s.assigned s.nextPerm
      (some ⟨s.table.ids.ipcsIdr.firstFree,s.table.ids.seq,s.adds+1⟩) p=some g →
      (p=s.nextPerm ∧ g=⟨s.table.ids.ipcsIdr.firstFree,s.table.ids.seq,s.adds+1⟩) ∨
        (p≠s.nextPerm ∧ s.assigned p=some g) := by
    intro p g hg
    by_cases hp : p=s.nextPerm
    · subst hp
      rw [update_self] at hg
      exact .inl ⟨rfl,(Option.some.inj hg).symm⟩
    · rw [update_of_ne hp] at hg
      exact .inr ⟨hp,hg⟩
  refine ⟨hi.toIdInv.added h hi.fresh,?_,fun p g hg => ?_,fun idx p hp => ?_,fun p g hg hd => ?_,
    fun p q g k hg hk he => ?_,fun q k hk hf p g hg hgk => ?_⟩
  · change t.ids.seq=((s.adds+1 : ℕ) : ℤ)%65536
    rw [h.nextSeq hi.toIdInv,hi.counter]
    push_cast
    omega
  · dsimp only at hg ⊢
    rcases hcases p g hg with ⟨hp,hgn⟩|⟨hne,hg⟩
    · subst hp hgn
      refine ⟨Nat.lt_succ_self _,h.index_lt hi.toIdInv,le_refl _,Nat.le_add_left _ _,?_,h.newSeq,h.newId⟩
      rw [hi.counter]
      push_cast
      omega
    · obtain ⟨h1,h2,h3,h4⟩ := hi.known p g hg
      rw [h.others p hne]
      exact ⟨Nat.lt_succ_of_lt h1,h2,Nat.le_succ_of_le h3,h4⟩
  · dsimp only at hp ⊢
    rw [h.find] at hp
    split at hp
    · next hidx =>
      cases hp
      exact ⟨_,update_self ..,hidx.symm⟩
    · obtain ⟨g,hg,hgi⟩ := hi.listed idx p hp
      exact ⟨g,by rw [update_of_ne (ne_of_lt (hi.known p g hg).1)]; exact hg,hgi⟩
  · dsimp only at hg hd ⊢
    rw [h.find]
    rcases hcases p g hg with ⟨hp,hgn⟩|⟨hne,hg⟩
    · subst hp hgn
      exact if_pos rfl
    · rw [h.others p hne] at hd
      have hf := hi.live p g hg hd
      rw [if_neg (ne_firstFree hf)]
      exact hf
  · rcases hcases p g hg with ⟨hp,hgn⟩|⟨_,hg⟩ <;> rcases hcases q k hk with ⟨hq,hkn⟩|⟨_,hk⟩
    · exact hp.trans hq.symm
    · have hle := (hi.known q k hk).2.2.1
      rw [hgn] at he
      dsimp only at he
      omega
    · have hle := (hi.known p g hg).2.2.1
      rw [hkn] at he
      dsimp only at he
      omega
    · exact hi.once p q g k hg hk he
  · dsimp only at hf
    rcases hcases q k hk with ⟨_,hkn⟩|⟨_,hk⟩
    · rw [hkn]
      rcases hcases p g hg with ⟨_,hgn⟩|⟨_,hg⟩
      · rw [hgn]
      · exact Nat.le_succ_of_le (hi.known p g hg).2.2.1
    · rw [h.find] at hf
      split at hf
      · next hidx =>
        have hq := Option.some.inj hf
        rw [← hq,hnone] at hk
        cases hk
      · next hidx =>
        rcases hcases p g hg with ⟨_,hgn⟩|⟨_,hg⟩
        · rw [hgn] at hgk
          exact absurd hgk.symm hidx
        · exact hi.latest q k hk hf p g hg hgk

theorem HistoryInv.rmid (hi : HistoryInv s) (h : s.table.ids.ipcsIdr.find idx=some p) :
    HistoryInv {s with table := ipcRmid s.table p} := by
  refine ⟨hi.toIdInv.rmid h,hi.counter,fun q g hg => ?_,fun j q hq => ?_,fun q g hg hd => ?_,hi.once,
    fun q k hk hf => ?_⟩
  · have hk := hi.known q g hg
    by_cases hq : q=p
    · subst hq
      rw [ipcRmid_self]
      exact hk
    · rw [ipcRmid_perms hq]
      exact hk
  · rw [hi.toIdInv.find_rmid h] at hq
    split at hq
    · cases hq
    · exact hi.listed j q hq
  · dsimp only at hd ⊢
    have hne : q≠p := by
      intro he
      rw [he,ipcRmid_self] at hd
      cases hd
    rw [ipcRmid_perms hne] at hd
    have hf := hi.live q g hg hd
    rw [hi.toIdInv.find_rmid h,if_neg]
    · exact hf
    · intro he
      rw [he,h] at hf
      exact hne (Option.some.inj hf).symm
  · dsimp only at hf
    rw [hi.toIdInv.find_rmid h] at hf
    split at hf
    · cases hf
    · exact hi.latest q k hk hf

theorem HistoryInv.step (hi : HistoryInv s) (h : IdNext s e s') : HistoryInv s' := by
  unfold IdNext idStep at h
  cases e with
  | addid new size idrGetNew euid egid =>
    dsimp only at h
    have hstart := hi.notAdded (setUp_notAdded s.table s.nextPerm new) (le_refl _)
    rcases ipcAddid_cases (s.table.setUp s.nextPerm new) s.nextPerm size idrGetNew euid egid with
      ⟨hneg,hno⟩|⟨hidx,hadd⟩
    · rw [if_pos hneg] at h
      cases h
      exact hstart.notAdded hno (Nat.le_succ _)
    · rw [if_neg (by omega),hadd.newSeq,hidx] at h
      cases h
      exact hstart.added hadd
  | rmid idx =>
    dsimp only at h
    split at h
    · cases h
    · next p hp =>
      cases h
      exact hi.rmid hp

/-- The history holds along every run. -/
theorem idReachable_inv (h : IdReachable s) : HistoryInv s := by
  refine Reachable.invariant ?_ ?_ h
  · intro s hs
    exact idStart_inv hs
  · intro s e s' _ hi hs
    exact hi.step hs

/-- Index and sequence number are recovered from every assigned identifier. -/
theorem HistoryInv.assigned_fields (hi : HistoryInv s) (h : s.assigned p=some g) :
    0≤(s.table.perms p).id ∧ (s.table.perms p).id ≤ intMax ∧
      ipcidToIdx (s.table.perms p).id=g.idx ∧ (s.table.perms p).id.tdiv seqMultiplier=g.seq := by
  obtain ⟨_,hlt,_,_,hseq,_,hid⟩ := hi.known p g h
  have hrange : 0≤g.seq ∧ g.seq≤ushrtMax := by
    unfold ushrtMax
    omega
  rw [hid]
  exact (ipcBuildid_fields (Int.natCast_nonneg _) hlt hrange.1 hrange.2).2

/-- An object found by the identifier of a removed one was added much later. -/
theorem HistoryInv.reassigned (hi : HistoryInv s) {q : ℕ} (hg : s.assigned p=some g)
    (hd : (s.table.perms p).deleted=true) (h : ipcLockCheck s.table (s.table.perms p).id=.ok q) :
    g.adds+65536 ≤ s.adds := by
  obtain ⟨idx,hidx,hf,hquot⟩ := ipcLockCheck_ok h
  obtain ⟨k,hk,hki⟩ := hi.listed idx q hf
  obtain ⟨_,_,hpi,hps⟩ := hi.assigned_fields hg
  have hsame : g.idx=k.idx := by
    rw [hki]
    exact Int.natCast_inj.mp (hpi.symm.trans hidx)
  have hlive := (hi.entry idx q hf).2.1
  have hne : p≠q := by
    intro he
    rw [he,hlive] at hd
    cases hd
  subst hki
  have hle := hi.latest q k hk hf p g hg hsame
  have hadds : g.adds≠k.adds := fun he => hne (hi.once p q g k hg hk he)
  obtain ⟨_,_,hgle,hg1,hgseq,_,_⟩ := hi.known p g hg
  obtain ⟨_,_,hkle,hk1,hkseq,hqseq,_⟩ := hi.known q k hk
  rw [hps] at hquot
  omega

/-- In every run an assigned identifier is a non-negative int built from an
index and a sequence number that are recovered from it, live objects have
different identifiers that find them, and the identifier of a removed object
is refused until 65536 more identifiers have been assigned. -/
theorem ids_resolve_exactly {s : IdHistory} (h : IdReachable s) :
    (∀ p g, s.assigned p=some g → (s.table.perms p).id=ipcBuildid g.idx g.seq ∧
      0≤(s.table.perms p).id ∧ (s.table.perms p).id ≤ intMax ∧
      ipcidToIdx (s.table.perms p).id=g.idx ∧ (s.table.perms p).id.tdiv seqMultiplier=g.seq) ∧
    (∀ i j p q, s.table.ids.ipcsIdr.find i=some p → s.table.ids.ipcsIdr.find j=some q →
      (s.table.perms p).id=(s.table.perms q).id → p=q) ∧
    (∀ i p, s.table.ids.ipcsIdr.find i=some p → ipcLockCheck s.table (s.table.perms p).id=.ok p) ∧
    (∀ p g, s.assigned p=some g → (s.table.perms p).deleted=true → s.adds<g.adds+65536 →
      ∃ err, ipcLockCheck s.table (s.table.perms p).id=.error err) := by
  have hi := idReachable_inv h
  refine ⟨fun p g hg => ⟨(hi.known p g hg).2.2.2.2.2.2,hi.assigned_fields hg⟩,
    fun i j p q hp hq he => ?_,fun i p hp => hi.lockCheck hp,fun p g hg hd hlt => ?_⟩
  · have hfound := hi.lockCheck hp
    rw [he,hi.lockCheck hq] at hfound
    exact (Except.ok.inj hfound).symm
  · cases hl : ipcLockCheck s.table (s.table.perms p).id with
    | error err => exact ⟨err,rfl⟩
    | ok q => exact absurd (hi.reassigned hg hd hl) (by omega)

/-- An empty set of identifiers. -/
def newIds : IdHistory := ⟨⟨ipcInitIds,fun _ => ⟨false,0,0,0,0,0,0,0,0⟩⟩,0,0,fun _ => none⟩

/-- Two objects are added, the first is removed and a third gets its index: the
identifier of the first is refused, that of the third finds it. -/
theorem ids_resolve_exactly_reused : ∃ s : IdHistory, IdReachable s ∧
    s.table.ids.ipcsIdr.find 0=some 2 ∧ (s.table.perms 0).id=0 ∧ (s.table.perms 2).id=65536 ∧
    ipcLockCheck s.table (s.table.perms 2).id=.ok 2 ∧
    ∃ err, ipcLockCheck s.table (s.table.perms 0).id=.error err := by
  obtain ⟨s,hr,hfind,h0,h2,hdel,hassigned,hn⟩ : ∃ s, IdReachable s ∧ s.table.ids.ipcsIdr.find 0=some 2 ∧
      (s.table.perms 0).id=0 ∧ (s.table.perms 2).id=65536 ∧ (s.table.perms 0).deleted=true ∧
      (s.assigned 0).map Assignment.adds=some 1 ∧ s.adds=3 :=
    exists_run (fun _ _ _ => id) (s := newIds) ⟨rfl,rfl,rfl,rfl⟩ [.addid ⟨false,0,5,0,0,0,0,0,0⟩ 32000 none 1000 1000,
      .addid ⟨false,0,6,0,0,0,0,0,0⟩ 32000 none 1000 1000,.rmid 0,
      .addid ⟨false,0,7,0,0,0,0,0,0⟩ 32000 none 1000 1000] (by decide)
  obtain ⟨_,_,hlive,hgone⟩ := ids_resolve_exactly hr
  obtain ⟨g,hg,hadds⟩ := Option.map_eq_some_iff.mp hassigned
  exact ⟨s,hr,hfind,h0,h2,hlive 0 2 hfind,hgone 0 g hg hdel (by rw [hn,hadds]; decide)⟩

/-- What an object was assigned is not changed later. -/
theorem IdNext.assigned_kept (hi : HistoryInv s) (h : IdNext s e s') (hg : s.assigned p=some g) :
    s'.assigned p=some g := by
  have hne : p≠s.nextPerm := ne_of_lt (hi.known p g hg).1
  unfold IdNext idStep at h
  cases e with
  | addid new size idrGetNew euid egid =>
    dsimp only at h
    split at h
    · cases h
      exact hg
    · cases h
      exact (update_of_ne hne _ _).trans hg
  | rmid idx =>
    dsimp only at h
    split at h
    · cases h
    · cases h
      exact hg

/-- A lookup that found an object and gets its lock only after other calls
acts like a lookup at that later time, or is refused because the object was
removed in between. -/
theorem find_then_lock (hi : HistoryInv s) (hr : Reachable (fun x => x=s) IdNext s')
    (hf : s.table.ids.ipcsIdr.find idx=some p) :
    ipcLockFound s'.table (some p)=ipcLockFound s'.table (s'.table.ids.ipcsIdr.find idx) ∨
      ipcLockFound s'.table (some p)=.error (-einval) := by
  obtain ⟨g,hg,hidx⟩ := hi.listed idx p hf
  have hlater : HistoryInv s' ∧ s'.assigned p=some g := by
    refine Reachable.invariant (I := fun x => HistoryInv x ∧ x.assigned p=some g) ?_ ?_ hr
    · intro x hx
      rw [hx]
      exact ⟨hi,hg⟩
    · intro x e y _ hx hn
      exact ⟨hx.1.step hn,hn.assigned_kept hx.1 hx.2⟩
  cases hd : (s'.table.perms p).deleted with
  | true => exact .inr (by simp [ipcLockFound,hd])
  | false =>
    have hnow := hlater.1.live p g hlater.2 hd
    rw [hidx] at hnow
    rw [hnow]
    exact .inl rfl

theorem find_then_lock_removed : ∃ s s', IdReachable s ∧ IdNext s (.rmid 0) s' ∧
    (ipcLockFound s'.table (some 0)=ipcLockFound s'.table (s'.table.ids.ipcsIdr.find 0) ∨
      ipcLockFound s'.table (some 0)=.error (-einval)) := by
  obtain ⟨s,hr,hf⟩ : ∃ s, IdReachable s ∧ s.table.ids.ipcsIdr.find 0=some 0 :=
    exists_run (fun _ _ _ => id) (s := newIds) ⟨rfl,rfl,rfl,rfl⟩ [.addid ⟨false,0,5,0,0,0,0,0,0⟩ 9 none 0 0] (by decide)
  have hn : IdNext s (.rmid 0) {s with table := ipcRmid s.table 0} := by simp [IdNext,idStep,hf]
  exact ⟨s,_,hr,hn,find_then_lock (idReachable_inv hr) (Reachable.next (Reachable.start rfl) hn) hf⟩

end BlockIpc.IpcIdHistory
