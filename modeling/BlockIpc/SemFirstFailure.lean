import BlockIpc.SemAtomicOps

/-!
# The first operation that cannot proceed

The result of an operation vector read off its prefixes. The value that an
operation meets is the original value plus the operations before it on the
same semaphore; the undo range is tested against the adjustment recorded
before the vector. The first operation that can not proceed decides the code:
one that must wait does so also when its undo adjustment would not fit.
-/

namespace BlockIpc.SemFirstFailure

open KernelNumbers SemAtomicOps

/-- The value of a semaphore after the first operations of a vector. -/
def prefixValue (v : SemValues) (sops : List Sembuf) (k i : ℕ) : ℤ := (v.semBase i).semval+opTotal i (sops.take k)

/-- The operation waits: for zero on another value, or for a larger value. -/
def Blocked (v : SemValues) (sops : List Sembuf) (k : ℕ) (sop : Sembuf) : Prop :=
  (sop.semOp=0 ∧ prefixValue v sops k sop.semNum≠0) ∨ prefixValue v sops k sop.semNum+sop.semOp<0

/-- The operation would exceed SEMVMX or the undo range. -/
def OutOfRange (un : Option ℕ) (v : SemValues) (sops : List Sembuf) (k : ℕ) (sop : Sembuf) : Prop :=
  semvmx<prefixValue v sops k sop.semNum+sop.semOp ∨
    (sop.undoFlag=true ∧ (v.semadjOf un sop.semNum-sop.semOp< -semaem-1 ∨ semaem<v.semadjOf un sop.semNum-sop.semOp))

/-- The operation at a position cannot proceed. -/
def Stuck (un : Option ℕ) (v : SemValues) (sops : List Sembuf) (k : ℕ) (sop : Sembuf) : Prop :=
  Blocked v sops k sop ∨ OutOfRange un v sops k sop

/-- The first operation of a vector that cannot proceed, and its position. -/
def FirstStuck (un : Option ℕ) (v : SemValues) (sops : List Sembuf) (k : ℕ) (sop : Sembuf) : Prop :=
  sops[k]?=some sop ∧ Stuck un v sops k sop ∧ ∀ j, j<k → ∀ x, sops[j]?=some x → ¬Stuck un v sops j x

/-- The values after one operation. -/
def applySop (v : SemValues) (sop : Sembuf) : SemValues :=
  v.setSemval sop.semNum ((v.semBase sop.semNum).semval+sop.semOp)

theorem prefixValue_zero (v : SemValues) (sops : List Sembuf) (i : ℕ) :
    prefixValue v sops 0 i=(v.semBase i).semval := by
  simp [prefixValue,opTotal]

/-- A later operation meets the value that the rest of the vector meets after
the first one. -/
theorem prefixValue_succ (v : SemValues) (sop : Sembuf) (sops : List Sembuf) (k i : ℕ) :
    prefixValue v (sop::sops) (k+1) i=prefixValue (applySop v sop) sops k i := by
  unfold prefixValue applySop
  rw [List.take_succ_cons,opTotal_cons,setSemval_semval]
  by_cases hi : i=sop.semNum
  · subst hi
    simp [add_assoc]
  · simp [hi,Ne.symm hi]

/-- The same for operations that cannot proceed. -/
theorem stuck_succ (un : Option ℕ) (v : SemValues) (sop : Sembuf) (sops : List Sembuf) (k : ℕ) (x : Sembuf) :
    Stuck un v (sop::sops) (k+1) x ↔ Stuck un (applySop v sop) sops k x := by
  unfold Stuck Blocked OutOfRange
  rw [prefixValue_succ]
  rfl

/-- The same for operations that wait. -/
theorem blocked_succ (v : SemValues) (sop : Sembuf) (sops : List Sembuf) (k : ℕ) (x : Sembuf) :
    Blocked v (sop::sops) (k+1) x ↔ Blocked (applySop v sop) sops k x := by
  unfold Blocked
  rw [prefixValue_succ]

/-- The check of the forward loop: waiting comes before the ranges. -/
theorem sopCheck_first (un : Option ℕ) (v : SemValues) (sop : Sembuf) (sops : List Sembuf) :
    (Blocked v (sop::sops) 0 sop → sopCheck un v sop=some (wouldBlock sop)) ∧
      (¬Blocked v (sop::sops) 0 sop → OutOfRange un v (sop::sops) 0 sop → sopCheck un v sop=some (-erange)) ∧
      (¬Stuck un v (sop::sops) 0 sop → sopCheck un v sop=none) := by
  unfold Stuck Blocked OutOfRange sopCheck
  rw [prefixValue_zero]
  dsimp only
  refine ⟨fun h => ?_,fun h h' => ?_,fun h => ?_⟩
  · rcases h with h|h
    · rw [if_pos h]
    · split_ifs
      · rfl
      · rfl
  · rw [if_neg (fun hc => h (.inl hc)),if_neg (fun hc => h (.inr hc))]
    rcases h' with h'|h'
    · rw [if_pos h']
    · split_ifs
      · rfl
      · rfl
  · rw [if_neg (fun hc => h (.inl (.inl hc))),if_neg (fun hc => h (.inl (.inr hc))),
      if_neg (fun hc => h (.inr (.inl hc))),if_neg (fun hc => h (.inr (.inr hc)))]

/-- The code that an operation which cannot proceed gives the vector. -/
def stuckCode (v : SemValues) (sops : List Sembuf) (k : ℕ) (sop : Sembuf) (code : ℤ) : Prop :=
  (Blocked v sops k sop ∧ code=wouldBlock sop) ∨ (¬Blocked v sops k sop ∧ code= -erange)

/-- Whether the first operation is the first one that cannot proceed. -/
theorem firstStuck_cons (un : Option ℕ) (v : SemValues) (sop : Sembuf) (sops : List Sembuf) :
    (Stuck un v (sop::sops) 0 sop → ∀ k x, FirstStuck un v (sop::sops) k x ↔ k=0 ∧ x=sop) ∧
      (¬Stuck un v (sop::sops) 0 sop → ∀ k x, FirstStuck un v (sop::sops) k x ↔
        ∃ j, k=j+1 ∧ FirstStuck un (applySop v sop) sops j x) := by
  refine ⟨fun hs k x => ⟨fun h => ?_,fun h => ?_⟩,fun hs k x => ⟨fun h => ?_,fun h => ?_⟩⟩
  · cases k with
    | zero => exact ⟨rfl,(Option.some.inj h.1).symm⟩
    | succ k => exact absurd hs (h.2.2 0 (Nat.succ_pos k) sop rfl)
  · obtain ⟨rfl,rfl⟩ := h
    exact ⟨rfl,hs,fun j hj => absurd hj (Nat.not_lt_zero j)⟩
  · cases k with
    | zero =>
      have hx : sop=x := Option.some.inj h.1
      exact absurd (hx ▸ h.2.1) hs
    | succ k =>
      refine ⟨k,rfl,h.1,(stuck_succ un v sop sops k x).mp h.2.1,fun j hj y hy => ?_⟩
      rw [← stuck_succ]
      exact h.2.2 (j+1) (Nat.succ_lt_succ hj) y hy
  · obtain ⟨j,rfl,hx,hst,hno⟩ := h
    refine ⟨hx,(stuck_succ un v sop sops j x).mpr hst,fun i hi y hy => ?_⟩
    cases i with
    | zero =>
      have hy' : sop=y := Option.some.inj hy
      rw [← hy']
      exact hs
    | succ i =>
      rw [stuck_succ]
      exact hno i (Nat.lt_of_succ_lt_succ hi) y hy

/-- The forward loop stops at the first operation that cannot proceed. -/
theorem semopForward_stop_iff (un : Option ℕ) (v : SemValues) (applied sops : List Sembuf) (code : ℤ) :
    (semopForward un v applied sops).stop=some code ↔
      ∃ k sop, FirstStuck un v sops k sop ∧ stuckCode v sops k sop code := by
  induction sops generalizing v applied with
  | nil =>
    refine iff_of_false nofun ?_
    rintro ⟨k,sop,⟨hk,_⟩,_⟩
    simp at hk
  | cons sop sops ih =>
    obtain ⟨hblocked,hrange,hpass⟩ := sopCheck_first un v sop sops
    obtain ⟨hstuck,hnext⟩ := firstStuck_cons un v sop sops
    rw [semopForward]
    by_cases hs : Stuck un v (sop::sops) 0 sop
    · have hcode : ∀ c, sopCheck un v sop=some c ↔ stuckCode v (sop::sops) 0 sop c := by
        intro c
        unfold stuckCode
        by_cases hb : Blocked v (sop::sops) 0 sop
        · rw [hblocked hb]
          exact ⟨fun h => .inl ⟨hb,(Option.some.inj h).symm⟩,fun h => by
            rcases h with h|h
            · rw [h.2]
            · exact absurd hb h.1⟩
        · rw [hrange hb (hs.resolve_left hb)]
          exact ⟨fun h => .inr ⟨hb,(Option.some.inj h).symm⟩,fun h => by
            rcases h with h|h
            · exact absurd h.1 hb
            · rw [h.2]⟩
      cases hc : sopCheck un v sop with
      | none =>
        exfalso
        by_cases hb : Blocked v (sop::sops) 0 sop
        · rw [hblocked hb] at hc
          cases hc
        · rw [hrange hb (hs.resolve_left hb)] at hc
          cases hc
      | some c =>
        refine ⟨fun h => ?_,?_⟩
        · have he : c=code := Option.some.inj h
          exact ⟨0,sop,(hstuck hs 0 sop).mpr ⟨rfl,rfl⟩,(hcode code).mp (hc.trans (congrArg some he))⟩
        · rintro ⟨k,x,hfirst,hx⟩
          obtain ⟨rfl,rfl⟩ := (hstuck hs k x).mp hfirst
          have := (hcode code).mpr hx
          exact congrArg some (Option.some.inj (hc.symm.trans this))
    · rw [hpass hs]
      refine (ih (applySop v sop) (sop::applied)).trans ⟨?_,?_⟩
      · rintro ⟨k,x,hfirst,hx⟩
        refine ⟨k+1,x,(hnext hs (k+1) x).mpr ⟨k,rfl,hfirst⟩,?_⟩
        unfold stuckCode at hx ⊢
        rwa [blocked_succ]
      · rintro ⟨k,x,hfirst,hx⟩
        obtain ⟨j,rfl,hj⟩ := (hnext hs k x).mp hfirst
        refine ⟨j,x,hj,?_⟩
        unfold stuckCode at hx ⊢
        rwa [blocked_succ] at hx

variable {un : Option ℕ} {v : SemValues} {sops : List Sembuf} {k : ℕ} {sop : Sembuf}

/-- A complete vector: every operation could proceed. -/
theorem semopForward_none {applied : List Sembuf} (h : (semopForward un v applied sops).stop=none)
    (hk : sops[k]?=some sop) : ¬Stuck un v sops k sop := by
  induction sops generalizing v applied k with
  | nil => simp at hk
  | cons x sops ih =>
    obtain ⟨hblocked,hrange,_⟩ := sopCheck_first un v x sops
    rw [semopForward] at h
    cases hc : sopCheck un v x with
    | some code =>
      rw [hc] at h
      cases h
    | none =>
      rw [hc] at h
      cases k with
      | zero =>
        have hx : x=sop := Option.some.inj hk
        subst hx
        intro hs
        by_cases hb : Blocked v (x::sops) 0 x
        · rw [hblocked hb] at hc
          cases hc
        · rw [hrange hb (hs.resolve_left hb)] at hc
          cases hc
      | succ k =>
        rw [stuck_succ]
        exact ih h hk

/-- When every operation could proceed, every prefix kept the values in range. -/
theorem prefixValue_bounds (hv : ∀ i, 0≤(v.semBase i).semval ∧ (v.semBase i).semval ≤ semvmx)
    (h : ∀ k sop, sops[k]?=some sop → ¬Stuck un v sops k sop) (k i : ℕ) :
    0≤prefixValue v sops k i ∧ prefixValue v sops k i ≤ semvmx := by
  induction sops generalizing v k with
  | nil =>
    have hk : prefixValue v [] k i=(v.semBase i).semval := by simp [prefixValue,opTotal]
    rw [hk]
    exact hv i
  | cons x sops ih =>
    cases k with
    | zero =>
      rw [prefixValue_zero]
      exact hv i
    | succ k =>
      have hx := h 0 x rfl
      unfold Stuck Blocked OutOfRange at hx
      rw [prefixValue_zero] at hx
      rw [prefixValue_succ]
      refine ih (fun j => ?_) (fun m y hy => ?_) k
      · unfold applySop
        rw [setSemval_semval]
        split
        · refine ⟨not_lt.mp (fun hc => hx (.inl (.inr hc))),not_lt.mp (fun hc => hx (.inr (.inl hc)))⟩
        · exact hv j
      · rw [← stuck_succ]
        exact h (m+1) y hy

/-- The code of an attempt other than zero is the code of the first operation
that cannot proceed. -/
theorem tryAtomicSemop_error_iff {pid code : ℤ} (hc : code≠0) : (tryAtomicSemop v sops un pid).error=code ↔
      ∃ k sop, FirstStuck un v sops k sop ∧ stuckCode v sops k sop code := by
  rw [← semopForward_stop_iff un v []]
  cases hs : (semopForward un v [] sops).stop with
  | none =>
    rw [tryAtomicSemop_of_complete pid hs]
    exact iff_of_false (fun h => hc h.symm) nofun
  | some c =>
    rw [tryAtomicSemop_of_stop pid hs]
    exact ⟨fun h => congrArg some h,fun h => Option.some.inj h⟩

theorem stuckCode_wait : (stuckCode v sops k sop 1 ↔ Blocked v sops k sop ∧ sop.nowaitFlag=false) ∧
      (stuckCode v sops k sop (-eagain) ↔ Blocked v sops k sop ∧ sop.nowaitFlag=true) ∧
      (stuckCode v sops k sop (-erange) ↔ ¬Blocked v sops k sop) := by
  unfold stuckCode wouldBlock eagain erange
  cases sop.nowaitFlag
  · refine ⟨⟨fun h => ?_,fun h => .inl ⟨h.1,rfl⟩⟩,⟨fun h => ?_,fun h => absurd h.2 nofun⟩,
      ⟨fun h => ?_,fun h => .inr ⟨h,rfl⟩⟩⟩
    · exact ⟨(h.resolve_right (fun hc => absurd hc.2 (by decide))).1,rfl⟩
    · rcases h with h|h
      · exact absurd h.2 (by decide)
      · exact absurd h.2 (by decide)
    · exact (h.resolve_left (fun hc => absurd hc.2 (by decide))).1
  · refine ⟨⟨fun h => ?_,fun h => absurd h.2 nofun⟩,⟨fun h => ?_,fun h => .inl ⟨h.1,rfl⟩⟩,
      ⟨fun h => ?_,fun h => .inr ⟨h,rfl⟩⟩⟩
    · rcases h with h|h
      · exact absurd h.2 (by decide)
      · exact absurd h.2 (by decide)
    · exact ⟨(h.resolve_right (fun hc => absurd hc.2 (by decide))).1,rfl⟩
    · exact (h.resolve_left (fun hc => absurd hc.2 (by decide))).1

/-- A vector is applied as a whole or not at all. On success every semaphore
moved by the sum of its operations, every prefix was in range and every wait
for zero saw zero. Otherwise the first operation that cannot proceed decides:
one that waits by its IPC_NOWAIT flag, and -ERANGE for one that does not wait
and would exceed SEMVMX or the undo range. -/
theorem try_atomic_semop_all_or_nothing (v : SemValues) (sops : List Sembuf) (un : Option ℕ) (pid : ℤ)
    (hv : ∀ i, 0≤(v.semBase i).semval ∧ (v.semBase i).semval ≤ semvmx) :
    ((tryAtomicSemop v sops un pid).error≠0 → (tryAtomicSemop v sops un pid).values=v) ∧
      ((tryAtomicSemop v sops un pid).error=0 →
        (∀ i, ((tryAtomicSemop v sops un pid).values.semBase i).semval=(v.semBase i).semval+opTotal i sops) ∧
        (∀ k i, 0≤prefixValue v sops k i ∧ prefixValue v sops k i ≤ semvmx) ∧
        (∀ (k : ℕ) (sop : Sembuf), sops[k]?=some sop → sop.semOp=0 → prefixValue v sops k sop.semNum=0) ∧
        (∀ i, ((tryAtomicSemop v sops un pid).values.semBase i).sempid≠(v.semBase i).sempid →
          i∈sops.map Sembuf.semNum)) ∧
      ((tryAtomicSemop v sops un pid).error=1 ↔
        ∃ k sop, FirstStuck un v sops k sop ∧ Blocked v sops k sop ∧ sop.nowaitFlag=false) ∧
      ((tryAtomicSemop v sops un pid).error= -eagain ↔
        ∃ k sop, FirstStuck un v sops k sop ∧ Blocked v sops k sop ∧ sop.nowaitFlag=true) ∧
      ((tryAtomicSemop v sops un pid).error= -erange ↔
        ∃ k sop, FirstStuck un v sops k sop ∧ ¬Blocked v sops k sop ∧ OutOfRange un v sops k sop) ∧
      ((tryAtomicSemop v sops un pid).error=0 ∨ (tryAtomicSemop v sops un pid).error=1 ∨
        (tryAtomicSemop v sops un pid).error= -eagain ∨ (tryAtomicSemop v sops un pid).error= -erange) := by
  refine ⟨tryAtomicSemop_values_of_error,fun h => ⟨fun i => (tryAtomicSemop_success_base h i).1,?_,?_,?_⟩,?_,?_,?_,
    tryAtomicSemop_codes v sops un pid⟩
  · exact prefixValue_bounds hv (fun k sop hk => semopForward_none (tryAtomicSemop_error_zero.mp h) hk)
  · intro k sop hk hz
    by_contra hne
    exact semopForward_none (tryAtomicSemop_error_zero.mp h) hk (.inl (.inl ⟨hz,hne⟩))
  · intro i hi
    by_contra hno
    exact hi ((tryAtomicSemop_success_base h i).2.trans (if_neg hno))
  · refine (tryAtomicSemop_error_iff (by decide)).trans (exists_congr (fun k => exists_congr (fun sop => ?_)))
    rw [stuckCode_wait.1]
  · refine (tryAtomicSemop_error_iff (by decide)).trans (exists_congr (fun k => exists_congr (fun sop => ?_)))
    rw [stuckCode_wait.2.1]
  · refine (tryAtomicSemop_error_iff (by decide)).trans (exists_congr (fun k => exists_congr (fun sop => ?_)))
    rw [stuckCode_wait.2.2]
    exact ⟨fun h => ⟨h.1,h.2,h.1.2.1.resolve_left h.2⟩,fun h => ⟨h.1,h.2.1⟩⟩

/-- An array of semaphores with value zero and a record whose adjustments are
all at their largest value. -/
def fullRecord : SemValues := ⟨fun _ => ⟨0,0⟩,fun _ _ => 32767⟩

/-- Its values are admissible. -/
theorem fullRecord_range (i : ℕ) : 0≤(fullRecord.semBase i).semval ∧ (fullRecord.semBase i).semval ≤ semvmx := by
  change (0 : ℤ)≤0 ∧ (0 : ℤ) ≤ semvmx
  decide

def undoneDecrement : Sembuf := ⟨0,-1,semUndo,by decide⟩

/-- The theorem at a vector that increments a semaphore and then waits for it
to be zero. -/
theorem try_atomic_semop_blocked : (∀ i, 0≤(fullRecord.semBase i).semval ∧ (fullRecord.semBase i).semval ≤ semvmx) ∧
      ((tryAtomicSemop fullRecord [⟨0,1,0,by decide⟩,⟨0,0,0,by decide⟩] none 7).error=1 ↔
        ∃ k sop, FirstStuck none fullRecord [⟨0,1,0,by decide⟩,⟨0,0,0,by decide⟩] k sop ∧
          Blocked fullRecord [⟨0,1,0,by decide⟩,⟨0,0,0,by decide⟩] k sop ∧ sop.nowaitFlag=false) :=
  ⟨fullRecord_range,(try_atomic_semop_all_or_nothing fullRecord _ none 7 fullRecord_range).2.2.1⟩

/-- An operation that waits and whose undo adjustment would not fit makes the
vector wait: -ERANGE is not returned whenever the first operation that cannot
proceed would exceed the undo range. -/
theorem blocked_before_undo_range : ¬∀ (v : SemValues) (sops : List Sembuf) (un : Option ℕ) (pid : ℤ),
      (∀ i, 0≤(v.semBase i).semval ∧ (v.semBase i).semval ≤ semvmx) →
      (∀ sop∈sops, sop.undoFlag=true → un≠none) →
      ((tryAtomicSemop v sops un pid).error= -erange ↔
        ∃ k sop, FirstStuck un v sops k sop ∧ OutOfRange un v sops k sop) := by
  intro h
  have hiff := h fullRecord [undoneDecrement] (some 0) 7 fullRecord_range (fun _ _ _ => nofun)
  have hout : OutOfRange (some 0) fullRecord [undoneDecrement] 0 undoneDecrement := by
    refine .inr ⟨by decide,.inr ?_⟩
    change semaem<(32767 : ℤ)-(-1)
    decide
  have herr : (tryAtomicSemop fullRecord [undoneDecrement] (some 0) 7).error=1 := by decide
  have hrange := hiff.mpr ⟨0,undoneDecrement,⟨rfl,.inr hout,fun j hj => absurd hj (Nat.not_lt_zero j)⟩,hout⟩
  rw [herr] at hrange
  exact absurd hrange (by decide)

end BlockIpc.SemFirstFailure
