import Mathlib

/-!
# Resources with one owner

Resources are numbered in the order in which they are acquired. Each one is held by
one holder until it is released, once. A use of a resource that was released, or of
none, is recorded. Holders are an arbitrary type.
-/

namespace BlockIpc.OwnedResources

open Function

/-- The resources of one kind. -/
structure Pool where
  /-- How many were acquired. -/
  fresh : ℕ
  /-- How often each one was released. -/
  released : ℕ → ℕ
  /-- Whether one was used after its release. -/
  misuse : Bool

/-- A pool from which nothing was acquired. -/
def Pool.empty : Pool := ⟨0,fun _ => 0,false⟩

/-- Acquire a resource; its number is that of the resources before it. -/
def Pool.acquire (p : Pool) : Pool := {p with fresh := p.fresh+1}

/-- Use a resource. -/
def Pool.use (p : Pool) : Option ℕ → Pool
  | none => {p with misuse := true}
  | some r => {p with misuse := p.misuse || decide (p.released r≠0)}

/-- Use a resource and release it. -/
def Pool.release (p : Pool) : Option ℕ → Pool
  | none => p.use none
  | some r => {p.use (some r) with released := update p.released r (p.released r+1)}

theorem Pool.le_release (p : Pool) (x : Option ℕ) (r : ℕ) : p.released r≤(p.release x).released r := by
  cases x with
  | none => exact le_rfl
  | some x =>
    show p.released r≤update p.released x (p.released x+1) r
    by_cases hr : r=x
    · rw [hr,update_self]
      exact Nat.le_succ _
    · rw [update_of_ne hr]

variable {ρ : Type*}

/-- A shared place and numbered parties as holders: none stands for the place. -/
def holders (x : Option ℕ) (own : ℕ → Option ℕ) : Option ℕ → Option ℕ
  | none => x
  | some c => own c

theorem holders_party (x y : Option ℕ) (own : ℕ → Option ℕ) (c : ℕ) :
    holders x (update own c y)=update (holders x own) (some c) y := by
  funext k
  cases k with
  | none => rw [update_of_ne (by simp),holders,holders]
  | some d =>
    by_cases hd : d=c
    · rw [hd,update_self,holders,update_self]
    · rw [update_of_ne (by simpa using hd),holders,holders,update_of_ne hd]

theorem holders_place (x y : Option ℕ) (own : ℕ → Option ℕ) : holders y own=update (holders x own) none y := by
  funext k
  cases k with
  | none => rw [update_self,holders]
  | some d => rw [update_of_ne (by simp),holders,holders]

/-- Every resource that is not released is held, and by one holder only. -/
structure Owned (p : Pool) (holds : ρ → Option ℕ) : Prop where
  /-- Nothing was used after its release. -/
  tame : p.misuse=false
  /-- What is held was acquired. -/
  bound : ∀ h r, holds h=some r → r<p.fresh
  /-- It is held by one holder only. -/
  unique : ∀ h k r, holds h=some r → holds k=some r → h=k
  kept : ∀ h r, holds h=some r → p.released r=0
  /-- What is not held was released once. -/
  gone : ∀ r, r<p.fresh → (∀ h, holds h≠some r) → p.released r=1
  later : ∀ r, p.fresh ≤ r → p.released r=0

variable {p : Pool} {holds : ρ → Option ℕ} {h k : ρ} {r : ℕ}

/-- Nothing is held of an empty pool. -/
theorem owned_empty (hn : ∀ h, holds h=none) : Owned Pool.empty holds :=
  ⟨rfl,fun h r he => absurd he (by rw [hn]; exact nofun),fun h k r he => absurd he (by rw [hn]; exact nofun),
    fun _ _ _ => rfl,nofun,fun _ _ => rfl⟩

/-- A resource is held by one holder, or it was released once. -/
theorem Owned.once (ho : Owned p holds) (hr : r<p.fresh) :
    (p.released r=1 ∧ ∀ h, holds h≠some r) ∨ (p.released r=0 ∧ ∃! h, holds h=some r) := by
  by_cases hh : ∃ h, holds h=some r
  · obtain ⟨h,hh⟩ := hh
    exact .inr ⟨ho.kept h r hh,h,hh,fun k hk => ho.unique k h r hk hh⟩
  · have hn : ∀ h, holds h≠some r := fun h he => hh ⟨h,he⟩
    exact .inl ⟨ho.gone r hr hn,hn⟩

theorem Owned.use_eq (ho : Owned p holds) (hh : holds h=some r) : p.use (some r)=p := by
  show {p with misuse := p.misuse || decide (p.released r≠0)}=p
  rw [ho.kept h r hh]
  simp

variable [DecidableEq ρ]

/-- A holder that holds nothing acquires a resource. -/
theorem Owned.acquire (ho : Owned p holds) (hh : holds h=none) :
    Owned p.acquire (update holds h (some p.fresh)) := by
  have hcases : ∀ k r, update holds h (some p.fresh) k=some r →
      (k=h ∧ r=p.fresh) ∨ (k≠h ∧ holds k=some r) := by
    intro k r hk
    by_cases hkh : k=h
    · rw [hkh,update_self] at hk
      exact .inl ⟨hkh,(Option.some.inj hk).symm⟩
    · rw [update_of_ne hkh] at hk
      exact .inr ⟨hkh,hk⟩
  refine ⟨ho.tame,fun k r hk => ?_,fun k l r hk hl => ?_,fun k r hk => ?_,fun r hr hn => ?_,fun r hr => ?_⟩
  · rcases hcases k r hk with ⟨_,rfl⟩|⟨_,hk⟩
    · exact Nat.lt_succ_self _
    · exact Nat.lt_succ_of_lt (ho.bound k r hk)
  · rcases hcases k r hk with ⟨hkh,hr⟩|⟨_,hk⟩
    · rcases hcases l r hl with ⟨hlh,_⟩|⟨_,hl⟩
      · rw [hkh,hlh]
      · exact absurd (ho.bound l r hl) (by omega)
    · rcases hcases l r hl with ⟨_,hr⟩|⟨_,hl⟩
      · exact absurd (ho.bound k r hk) (by omega)
      · exact ho.unique k l r hk hl
  · rcases hcases k r hk with ⟨_,rfl⟩|⟨_,hk⟩
    · exact ho.later _ le_rfl
    · exact ho.kept k r hk
  · have hne : r≠p.fresh := by
      intro he
      exact hn h (by rw [update_self,he])
    refine ho.gone r ?_ (fun k hk => hn k ?_)
    · have hlt : r<p.fresh+1 := hr
      omega
    · have hkh : k≠h := by
        intro he
        rw [he,hh] at hk
        cases hk
      rw [update_of_ne hkh]
      exact hk
  · exact ho.later r (le_trans (Nat.le_succ _) hr)

theorem Owned.release (ho : Owned p holds) (hh : holds h=some r) :
    Owned (p.release (some r)) (update holds h none) := by
  have hcases : ∀ k x, update holds h none k=some x → k≠h ∧ holds k=some x ∧ x≠r := by
    intro k x hk
    by_cases hkh : k=h
    · rw [hkh,update_self] at hk
      cases hk
    · rw [update_of_ne hkh] at hk
      refine ⟨hkh,hk,fun he => hkh (ho.unique k h r ?_ hh)⟩
      rw [← he]
      exact hk
  have hself : (p.release (some r)).released r=1 := by
    show update p.released r (p.released r+1) r=1
    rw [update_self,ho.kept h r hh]
  have hother : ∀ x, x≠r → (p.release (some r)).released x=p.released x :=
    fun x hx => update_of_ne hx _ _
  refine ⟨?_,fun k x hk => ho.bound k x (hcases k x hk).2.1,
    fun k l x hk hl => ho.unique k l x (hcases k x hk).2.1 (hcases l x hl).2.1,fun k x hk => ?_,
    fun x hx hn => ?_,fun x hx => ?_⟩
  · show (p.use (some r)).misuse=false
    rw [ho.use_eq hh]
    exact ho.tame
  · rw [hother x (hcases k x hk).2.2]
    exact ho.kept k x (hcases k x hk).2.1
  · by_cases hxr : x=r
    · rw [hxr]
      exact hself
    · rw [hother x hxr]
      refine ho.gone x hx (fun k hk => hn k ?_)
      have hkh : k≠h := by
        intro he
        rw [he,hh] at hk
        exact hxr (Option.some.inj hk).symm
      rw [update_of_ne hkh]
      exact hk
  · have hxr : x≠r := by
      have hlt := ho.bound h r hh
      have hle : p.fresh≤x := hx
      omega
    rw [hother x hxr]
    exact ho.later x hx

/-- A holder passes what it holds to one that holds nothing. -/
theorem Owned.pass (ho : Owned p holds) (hk : holds k=none) :
    Owned p (update (update holds h none) k (holds h)) := by
  by_cases hkh : k=h
  · rw [hkh,update_idem,update_eq_self]
    exact ho
  · have hcases : ∀ x r, update (update holds h none) k (holds h) x=some r →
        (x=k ∧ holds h=some r) ∨ (x≠h ∧ holds x=some r) := by
      intro x r hx
      by_cases hxk : x=k
      · rw [hxk,update_self] at hx
        exact .inl ⟨hxk,hx⟩
      · rw [update_of_ne hxk] at hx
        by_cases hxh : x=h
        · rw [hxh,update_self] at hx
          cases hx
        · rw [update_of_ne hxh] at hx
          exact .inr ⟨hxh,hx⟩
    refine ⟨ho.tame,fun x r hx => ?_,fun x y r hx hy => ?_,fun x r hx => ?_,fun r hr hn => ?_,ho.later⟩
    · rcases hcases x r hx with ⟨_,hx⟩|⟨_,hx⟩
      · exact ho.bound h r hx
      · exact ho.bound x r hx
    · rcases hcases x r hx with ⟨hxk,hx⟩|⟨hxh,hx⟩
      · rcases hcases y r hy with ⟨hyk,_⟩|⟨hyh,hy⟩
        · rw [hxk,hyk]
        · exact absurd (ho.unique y h r hy hx) hyh
      · rcases hcases y r hy with ⟨_,hy⟩|⟨_,hy⟩
        · exact absurd (ho.unique x h r hx hy) hxh
        · exact ho.unique x y r hx hy
    · rcases hcases x r hx with ⟨_,hx⟩|⟨_,hx⟩
      · exact ho.kept h r hx
      · exact ho.kept x r hx
    · refine ho.gone r hr (fun x hx => ?_)
      by_cases hxh : x=h
      · refine hn k ?_
        rw [update_self,← hxh]
        exact hx
      · have hxk : x≠k := by
          intro he
          rw [he,hk] at hx
          cases hx
        refine hn x ?_
        rw [update_of_ne hxk,update_of_ne hxh]
        exact hx

end BlockIpc.OwnedResources
