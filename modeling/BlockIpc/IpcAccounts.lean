import BlockIpc.IpcKeys

/-!
# Accounts of a namespace

A namespace keeps one total for all objects of a kind: the number of semaphores
in its arrays, or of pages in its segments. The exact value of such an account
is the sum of a measure of the extents of the objects in the table. The end of
a namespace removes all objects in one walk over the indices, which ends
although the table shrinks under it.
-/

namespace BlockIpc.IpcAccounts

open Function KernelNumbers SlotTable IpcIdentifiers IpcObjects IpcKeys

/-- Exact sum of a measure over the objects in the table. -/
def liveTotal (f : ℤ → ℤ) (s : IpcSpace) : ℤ := s.table.ids.ipcsIdr.total (fun p => f (s.extent p))

variable {s s' : IpcSpace} {f : ℤ → ℤ}

theorem liveTotal_start (h : KeyStart s) : liveTotal f s=0 := by
  unfold liveTotal
  rw [h.1]
  exact total_empty

/-- A creation adds the new object. -/
theorem liveTotal_created {params : IpcParams} {extent amount : ℤ} (hi : KeyInv s.table s.nextPerm)
    (h : Created s s' params) (hc : Charged s s' extent amount) : liveTotal f s'=liveTotal f s+f extent := by
  have hold : s.table.ids.ipcsIdr.total (fun p => f (s'.extent p))=liveTotal f s := by
    refine total_congr (fun idx p hp => ?_)
    rw [hc.extent,update_of_ne (ne_of_lt (hi.allocated idx p hp))]
  have hidr : s'.table.ids.ipcsIdr=s.table.ids.ipcsIdr.insert s.nextPerm := h.added.idr
  have hnew : s'.extent s.nextPerm=extent := by
    rw [hc.extent,update_self]
  unfold liveTotal at hold ⊢
  rw [hidr,total_insert,hold,hnew]

/-- A removal takes the object away. -/
theorem liveTotal_rmid (hi : IdInv s.table) {idx p : ℕ} (h : s.table.ids.ipcsIdr.find idx=some p)
    (ht : s'.table=ipcRmid s.table p) (he : s'.extent=s.extent) : liveTotal f s'=liveTotal f s-f (s.extent p) := by
  have hidx := (hi.fields h).2.2.1
  have hidr : s'.table.ids.ipcsIdr=s.table.ids.ipcsIdr.erase idx := by
    rw [ht]
    unfold ipcRmid
    dsimp only
    rw [hidx,Int.toNat_natCast]
    rfl
  unfold liveTotal
  rw [hidr,he,total_erase h]

/-- An attempt of a get call returns; it leaves the table or it is a call of the
creator. -/
theorem ipcget_getnew (kind : IpcKind) (hi : IdInv s.table) (lim : IpcLimits) (params : IpcParams)
    (env : GetEnv) (caller : IpcCaller) : ∃ r, ipcget kind s lim params env caller=some r ∧
      (r.2=s ∨ r=getnew kind s lim params env.create caller) := by
  unfold ipcget
  split
  · refine ⟨_,rfl,?_⟩
    unfold ipcgetNew
    split
    · exact .inl rfl
    · exact .inr rfl
  · unfold ipcgetPublic
    rcases ipcFindkey_spec hi params.key with ⟨_,p,hf,_,_⟩|⟨hf,_⟩
    · rw [hf]
      dsimp only
      split
      · exact ⟨_,rfl,.inl rfl⟩
      · split
        · exact ⟨_,rfl,.inl rfl⟩
        · exact ⟨_,rfl,.inl rfl⟩
    · rw [hf]
      dsimp only
      split
      · exact ⟨_,rfl,.inl rfl⟩
      · split
        · exact ⟨_,rfl,.inl rfl⟩
        · exact ⟨_,rfl,.inr rfl⟩

/-- What holds of a table whose total is exact and whose objects have at least some extent. -/
structure AccountInv (f : ℤ → ℤ) (least : ℤ) (s : IpcSpace) : Prop where
  keys : KeyInv s.table s.nextPerm
  exact : s.total=liveTotal f s
  /-- No object is smaller. -/
  least : ∀ idx p, s.table.ids.ipcsIdr.find idx=some p → least ≤ s.extent p
  /-- The total is at most the largest int. -/
  bounded : s.total ≤ intMax

namespace AccountInv

variable {least : ℤ} {idx p : ℕ} {lim : IpcLimits} {params : IpcParams} {env : GetEnv} {caller : IpcCaller}

theorem start (h : KeyStart s) (h0 : s.total=0) : AccountInv f least s := by
  refine ⟨keyStart_inv h,h0.trans (liveTotal_start h).symm,fun idx p hp => ?_,by rw [h0]; decide⟩
  rw [h.1,show ipcInitIds.ipcsIdr.find idx=none from find_empty] at hp
  cases hp

theorem nonneg (hi : AccountInv f least s) (hf : ∀ n, least≤n → 0≤f n) : 0 ≤ s.total := by
  rw [hi.exact]
  exact total_nonneg (fun idx p hp => hf _ (hi.least idx p hp))

/-- A change of permissions, attaches and marks keeps the account. -/
theorem same (hi : AccountInv f least s) (hk : KeyInv s'.table s'.nextPerm) (hids : s'.table.ids=s.table.ids)
    (he : s'.extent=s.extent) (ht : s'.total=s.total) : AccountInv f least s' := by
  refine ⟨hk,?_,?_,ht ▸ hi.bounded⟩
  · rw [ht,hi.exact]
    unfold liveTotal
    rw [hids,he]
  · rw [hids,he]
    exact hi.least

/-- Creating an object that is counted exactly keeps the account. -/
theorem created {extent amount : ℤ} (hi : AccountInv f least s) (hk : KeyInv s'.table s'.nextPerm)
    (h : Created s s' params) (hc : Charged s s' extent amount) (hl : least≤extent)
    (htotal : s'.total=liveTotal f s+f extent) (hmax : s'.total ≤ intMax) : AccountInv f least s' := by
  refine ⟨hk,htotal.trans (liveTotal_created hi.keys h hc).symm,fun idx p hp => ?_,hmax⟩
  rw [h.added.find] at hp
  rw [hc.extent]
  split at hp
  · cases hp
    rw [update_self]
    exact hl
  · rw [update_of_ne (ne_of_lt (hi.keys.allocated idx p hp))]
    exact hi.least idx p hp

/-- An attempt of a get call keeps the account if the creator does. -/
theorem get {kind : IpcKind} (hi : AccountInv f least s)
    (hnew : NotCreated s (getnew kind s lim params env.create caller).2 ∨
      (KeyInv (getnew kind s lim params env.create caller).2.table
          (getnew kind s lim params env.create caller).2.nextPerm →
        AccountInv f least (getnew kind s lim params env.create caller).2))
    (h : (ipcget kind s lim params env caller).map Prod.snd=some s') : AccountInv f least s' := by
  obtain ⟨r,hr,hk⟩ := ipcget_keys kind hi.keys lim params env caller
  obtain ⟨r',hr',hcase⟩ := ipcget_getnew kind hi.keys.toIdInv lim params env caller
  rw [hr] at h hr'
  cases hr'
  cases h
  rcases hcase with hsame|rfl
  · rw [hsame]
    exact hi
  · rcases hnew with hno|hnew
    · exact hi.same hk hno.ids hno.extent hno.total
    · exact hnew hk

/-- Removing an object keeps the account, when what is taken off is exact for an int. -/
theorem rmid {amount : ℤ} (hi : AccountInv f least s) (hf : ∀ n, least≤n → 0≤f n)
    (h : s.table.ids.ipcsIdr.find idx=some p) (ht : s'.table=ipcRmid s.table p) (hn : s'.nextPerm=s.nextPerm)
    (he : s'.extent=s.extent) (htotal : s'.total=toInt (s.total-amount))
    (ha : f (s.extent p) ≤ intMax → amount=f (s.extent p)) : AccountInv f least s' := by
  have hleast : ∀ j q, s'.table.ids.ipcsIdr.find j=some q → least ≤ s'.extent q := by
    intro j q hq
    rw [ht,hi.keys.toIdInv.find_rmid h] at hq
    rw [he]
    split at hq
    · cases hq
    · exact hi.least j q hq
  have hlive : liveTotal f s'=liveTotal f s-f (s.extent p) := liveTotal_rmid hi.keys.toIdInv h ht he
  have hnonneg : 0≤liveTotal f s' := total_nonneg (fun j q hq => hf _ (hleast j q hq))
  have hp := hf _ (hi.least idx p h)
  have hmax := hi.bounded
  have hexact := hi.exact
  rw [ha (by omega),toInt_of_range (by omega) (by omega)] at htotal
  refine ⟨?_,by omega,hleast,by omega⟩
  rw [ht,hn]
  exact hi.keys.rmid h

end AccountInv

/-- The walk of free_ipcs ends and releases every object once, when releasing an object leaves the
other indices. It is at an index from which on the table is still the initial one, and it has
counted the objects before. -/
theorem freeIpcsLoop_eq {P : IpcSpace → Prop} {free : IpcSpace → ℕ → IpcSpace}
    (hfree : ∀ s idx p, P s → s.table.ids.ipcsIdr.find idx=some p → P (free s p) ∧
      ∀ j, j≠idx → (free s p).table.ids.ipcsIdr.find j=s.table.ids.ipcsIdr.find j)
    {t : Table ℕ} {inUse : ℤ} (fuel : ℕ) (total : ℤ) (nextId : ℕ) (s : IpcSpace) (hP : P s)
    (htotal : total+(t.entriesFrom nextId).length=inUse)
    (hafter : ∀ j, nextId≤j → s.table.ids.ipcsIdr.find j=t.find j) (hfuel : t.slots.length-nextId<fuel) :
    freeIpcsLoop free inUse fuel total nextId s=
      some ((t.entriesFrom nextId).foldl (fun s e => free s e.2) s) := by
  induction fuel generalizing total nextId s with
  | zero => omega
  | succ fuel ih =>
    unfold freeIpcsLoop
    by_cases hmore : total < inUse
    · rw [if_pos hmore]
      have hlt := lt_length_of_more htotal hmore
      have hhere := hafter nextId le_rfl
      rw [entriesFrom_eq] at htotal ⊢
      cases hf : t.find nextId with
      | none =>
        rw [hf] at htotal hhere
        rw [hhere]
        exact ih total (nextId+1) s hP htotal (fun j hj => hafter j (by omega)) (by omega)
      | some perm =>
        rw [hf] at htotal hhere
        obtain ⟨hP',hfind⟩ := hfree s nextId perm hP hhere
        rw [hhere]
        rw [Option.elim_some,List.length_cons] at htotal
        refine ih (total+1) (nextId+1) (free s perm) hP' (by push_cast at htotal; omega) (fun j hj => ?_) (by omega)
        rw [hfind j (by omega)]
        exact hafter j (by omega)
    · rw [if_neg hmore,List.length_eq_zero_iff.mp (by omega : (t.entriesFrom nextId).length=0)]
      rfl

/-- Releasing objects one after the other empties their indices. -/
theorem foldl_free {P : IpcSpace → Prop} {free : IpcSpace → ℕ → IpcSpace}
    (hfree : ∀ s idx p, P s → s.table.ids.ipcsIdr.find idx=some p → P (free s p) ∧
      ∀ j, (free s p).table.ids.ipcsIdr.find j=if j=idx then none else s.table.ids.ipcsIdr.find j)
    (l : List (ℕ×ℕ)) (s : IpcSpace) (hP : P s) (hl : l.Pairwise (fun e f => e.1<f.1))
    (hf : ∀ e∈l, s.table.ids.ipcsIdr.find e.1=some e.2) :
    P (l.foldl (fun s e => free s e.2) s) ∧ ∀ j,
      (l.foldl (fun s e => free s e.2) s).table.ids.ipcsIdr.find j=none ∨
      (l.foldl (fun s e => free s e.2) s).table.ids.ipcsIdr.find j=s.table.ids.ipcsIdr.find j ∧
        ∀ e∈l, e.1≠j := by
  induction l generalizing s with
  | nil => exact ⟨hP,fun j => .inr ⟨rfl,nofun⟩⟩
  | cons e l ih =>
    obtain ⟨he,hl⟩ := List.pairwise_cons.mp hl
    obtain ⟨hfe,hf⟩ := List.forall_mem_cons.mp hf
    obtain ⟨hP',hfind⟩ := hfree s e.1 e.2 hP hfe
    obtain ⟨hend,hall⟩ := ih (free s e.2) hP' hl (fun g hg => by
      rw [hfind,if_neg (he g hg).ne']
      exact hf g hg)
    refine ⟨hend,fun j => ?_⟩
    rw [List.foldl_cons]
    rcases hall j with h | ⟨h,hne⟩
    · exact .inl h
    · rw [h,hfind]
      by_cases hj : j=e.1
      · exact .inl (if_pos hj)
      · rw [if_neg hj]
        exact .inr ⟨rfl,List.forall_mem_cons.mpr ⟨fun h => hj h.symm,hne⟩⟩

end BlockIpc.IpcAccounts
