import Mathlib

/-!
# Reference counts of shared objects

Every holder refers to at most one object, and the count of an object is the
number of its holders. Acquiring and releasing one reference keep the counts
true. Holders and objects are arbitrary types; only finitely many holders
refer to one object, but there may be infinitely many of either.
-/

namespace BlockIpc.ReferenceCounts

variable {ι τ : Type*} {refcnt : ι → ℕ} {owner : τ → Option ι}
  {t : τ} {u : ι}

/-- The count of each object is the number of holders that refer to it. -/
def Counts (refcnt : ι → ℕ) (owner : τ → Option ι) : Prop :=
  ∀ u, ∃ T : Finset τ, T.card=refcnt u ∧ ∀ t, owner t=some u ↔ t∈T

theorem counts_none : Counts (fun _ : ι => 0) (fun _ : τ => none) := fun _ => ⟨∅,rfl,fun _ => by simp⟩

/-- An object whose count is zero has no holder. -/
theorem Counts.not_owner (h : Counts refcnt owner) (h0 : refcnt u=0) (t : τ) : owner t≠some u := by
  intro ht
  obtain ⟨T,hT,hmem⟩ := h u
  rw [h0,Finset.card_eq_zero] at hT
  simpa [hT] using (hmem t).mp ht

/-- An object without a holder has count zero. -/
theorem Counts.eq_zero (h : Counts refcnt owner) (hn : ∀ t, owner t≠some u) : refcnt u=0 := by
  obtain ⟨T,hT,hmem⟩ := h u
  rw [← hT,Finset.card_eq_zero]
  exact Finset.eq_empty_of_forall_notMem (fun t ht => hn t ((hmem t).mpr ht))

theorem Counts.pos (h : Counts refcnt owner) (ht : owner t=some u) : 0<refcnt u :=
  Nat.pos_of_ne_zero (fun h0 => h.not_owner h0 t ht)

variable [DecidableEq ι] [DecidableEq τ]

/-- A holder without a reference acquires one. -/
theorem Counts.acquire (h : Counts refcnt owner) (ht : owner t=none) :
    Counts (Function.update refcnt u (refcnt u+1)) (Function.update owner t (some u)) := by
  intro x
  obtain ⟨T,hT,hmem⟩ := h x
  have hnot : t∉T := fun hm => by simpa [ht] using (hmem t).mpr hm
  by_cases hx : x=u
  · subst hx
    refine ⟨insert t T,by simp [hnot,hT],fun y => ?_⟩
    by_cases hy : y=t
    · simp [hy]
    · simp [hy,hmem y]
  · refine ⟨T,by simp [hx,hT],fun y => ?_⟩
    by_cases hy : y=t
    · subst hy
      simp [hnot,Ne.symm hx]
    · simp [hy,hmem y]

/-- A holder releases its reference. -/
theorem Counts.release (h : Counts refcnt owner) (ht : owner t=some u) :
    Counts (Function.update refcnt u (refcnt u-1)) (Function.update owner t none) := by
  intro x
  obtain ⟨T,hT,hmem⟩ := h x
  by_cases hx : x=u
  · subst hx
    have hin : t∈T := (hmem t).mp ht
    refine ⟨T.erase t,by simp [Finset.card_erase_of_mem hin,hT],fun y => ?_⟩
    by_cases hy : y=t
    · simp [hy]
    · simp [hy,hmem y]
  · refine ⟨T,by simp [hx,hT],fun y => ?_⟩
    by_cases hy : y=t
    · subst hy
      have hn : y∉T := fun hm => hx (Option.some.inj (((hmem y).mpr hm).symm.trans ht))
      simp [hn]
    · simp [hy,hmem y]

end BlockIpc.ReferenceCounts
