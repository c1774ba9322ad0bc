import Mathlib

/-!
# Intrusive lists

Lists with a head each, over entries that carry their own links. An entry is moved
without naming the list it is on, and a walk follows links, so it sees every move made
while it is under way. Heads and entries are arbitrary types.
-/

namespace BlockIpc.IntrusiveLists

open Function List

inductive Link (ι α : Type*) where
  | entry (a : α)
  | head (i : ι)
  deriving DecidableEq

variable {ι α : Type*}

section

variable [DecidableEq α]

/-- Take an entry off the list it is on. -/
def unlink (ls : ι → List α) (a : α) : ι → List α := fun i => (ls i).erase a

/-- Take an entry off the list it is on and add it at the end of a list. -/
def moveTail [DecidableEq ι] (ls : ι → List α) (a : α) (i : ι) : ι → List α :=
  update (unlink ls a) i ((ls i).erase a++[a])

/-- Add an entry at the front of a list. -/
def addHead [DecidableEq ι] (ls : ι → List α) (a : α) (i : ι) : ι → List α := update ls i (a::ls i)

/-- Put an entry behind another one of the list that it is taken from. -/
def moveBehind (a b : α) (l : List α) : List α := (l.erase a).flatMap (fun x => if x=b then [x,a] else [x])

/-- The list still has the same entries. -/
theorem moveBehind_perm {a b : α} {l : List α} (ha : a∈l) (hb : b∈l.erase a) (hl : (l.erase a).Nodup) :
    (moveBehind a b l).Perm l := by
  have hput : ∀ m : List α, m.Nodup → b∈m → (m.flatMap (fun x => if x=b then [x,a] else [x])).Perm (a::m) := by
    intro m hm hin
    induction m with
    | nil => cases hin
    | cons c m ih =>
      obtain ⟨hc,hm⟩ := nodup_cons.mp hm
      rw [flatMap_cons]
      by_cases hcb : c=b
      · have hrest : m.flatMap (fun x => if x=b then [x,a] else [x])=m := by
          have heach : ∀ x∈m, (if x=b then [x,a] else [x])=[x] := by
            intro x hx
            refine if_neg (fun he => hc ?_)
            rw [hcb,← he]
            exact hx
          rw [flatMap_congr heach]
          exact flatMap_singleton' m
        rw [if_pos hcb,hrest]
        exact List.Perm.swap a c m
      · have hin' : b∈m := (mem_cons.mp hin).resolve_left (Ne.symm hcb)
        rw [if_neg hcb]
        exact ((ih hm hin').cons c).trans (List.Perm.swap a c m)
  exact (hput _ hl hb).trans (perm_cons_erase ha).symm

/-- What comes first of the rest of a list. -/
def first (i : ι) : List α → Link ι α
  | [] => .head i
  | b::_ => .entry b

/-- The link of an entry in one list. -/
def follow (i : ι) : List α → α → Option (Link ι α)
  | [],_ => none
  | b::bs,a => if b=a then some (first i bs) else follow i bs a

/-- Follow a link. An entry that is on no list points to itself. -/
def next (heads : List ι) (ls : ι → List α) : Link ι α → Link ι α
  | .head i => first i (ls i)
  | .entry a => (heads.findSome? (fun i => follow i (ls i) a)).getD (.entry a)

end

/-- No entry is on two lists, or twice on one. -/
structure Separate (ls : ι → List α) : Prop where
  /-- An entry is once on a list. -/
  nodup : ∀ i, (ls i).Nodup
  unique : ∀ i j a, a∈ls i → a∈ls j → i=j

variable {ls : ι → List α} {a b : α} {i j : ι}

/-- The added entry is on its list, the others stay where they are. -/
theorem mem_addHead [DecidableEq ι] : b∈addHead ls a i j ↔ (b=a ∧ j=i) ∨ b∈ls j := by
  by_cases hj : j=i
  · rw [hj,addHead,update_self,mem_cons]
    tauto
  · rw [addHead,update_of_ne hj]
    tauto

/-- Adding an entry that is on no list keeps the lists apart. -/
theorem Separate.addHead [DecidableEq ι] (hs : Separate ls) (ha : ∀ j, a∉ls j) (i : ι) :
    Separate (addHead ls a i) := by
  refine ⟨fun j => ?_,fun j k b hj hk => ?_⟩
  · by_cases hj : j=i
    · rw [hj,IntrusiveLists.addHead,update_self]
      exact nodup_cons.mpr ⟨ha i,hs.nodup i⟩
    · rw [IntrusiveLists.addHead,update_of_ne hj]
      exact hs.nodup j
  · rcases mem_addHead.mp hj with ⟨hb,hji⟩|hj
    · rcases mem_addHead.mp hk with ⟨_,hki⟩|hk
      · rw [hji,hki]
      · exact absurd (hb ▸ hk) (ha k)
    · rcases mem_addHead.mp hk with ⟨hb,_⟩|hk
      · exact absurd (hb ▸ hj) (ha j)
      · exact hs.unique j k b hj hk

variable [DecidableEq α]

theorem Separate.mem_unlink (hs : Separate ls) : b∈unlink ls a i ↔ b≠a ∧ b∈ls i := (hs.nodup i).mem_erase_iff

/-- Unlinking keeps the lists apart. -/
theorem Separate.unlink (hs : Separate ls) (a : α) : Separate (unlink ls a) :=
  ⟨fun i => (hs.nodup i).erase a,fun i j b hi hj =>
    hs.unique i j b (hs.mem_unlink.mp hi).2 (hs.mem_unlink.mp hj).2⟩

theorem moveTail_self [DecidableEq ι] (ls : ι → List α) (a : α) (i : ι) :
    moveTail ls a i i=(ls i).erase a++[a] := update_self ..

theorem moveTail_of_ne [DecidableEq ι] (ls : ι → List α) (a : α) (hj : j≠i) :
    moveTail ls a i j=(ls j).erase a := update_of_ne hj ..

/-- The moved entry is on its new list only, the others stay where they are. -/
theorem Separate.mem_moveTail [DecidableEq ι] (hs : Separate ls) :
    b∈moveTail ls a i j ↔ (b=a ∧ j=i) ∨ (b≠a ∧ b∈ls j) := by
  by_cases hj : j=i
  · rw [hj,moveTail,update_self,mem_append,mem_singleton,(hs.nodup i).mem_erase_iff]
    tauto
  · rw [moveTail,update_of_ne hj,hs.mem_unlink]
    tauto

/-- Moving keeps the lists apart. -/
theorem Separate.moveTail [DecidableEq ι] (hs : Separate ls) (a : α) (i : ι) : Separate (moveTail ls a i) := by
  refine ⟨fun j => ?_,fun j k b hj hk => ?_⟩
  · by_cases hj : j=i
    · rw [hj,IntrusiveLists.moveTail,update_self]
      refine ((hs.nodup i).erase a).append (nodup_singleton a) ?_
      rw [disjoint_singleton]
      exact (hs.nodup i).not_mem_erase
    · rw [IntrusiveLists.moveTail,update_of_ne hj]
      exact (hs.nodup j).erase a
  · rcases hs.mem_moveTail.mp hj with ⟨_,rfl⟩|⟨hba,hj⟩
    · rcases hs.mem_moveTail.mp hk with ⟨_,rfl⟩|⟨hba,_⟩
      · rfl
      · contradiction
    · rcases hs.mem_moveTail.mp hk with ⟨hba',_⟩|⟨_,hk⟩
      · contradiction
      · exact hs.unique j k b hj hk

/-- An entry that is not on a list is not met there. -/
theorem follow_eq_none {bs : List α} (ha : a∉bs) : follow i bs a=none := by
  induction bs with
  | nil => rfl
  | cons b bs ih =>
    rw [mem_cons,not_or] at ha
    rw [follow,if_neg (Ne.symm ha.1),ih ha.2]

/-- The link of the first entry of a list leads to the first of the others. -/
theorem Separate.next_of_cons (hs : Separate ls) {heads : List ι} (hh : i∈heads) {rest : List α}
    (hl : ls i=a::rest) : next heads ls (.entry a)=first i rest := by
  have hi : follow i (ls i) a=some (first i rest) := by
    rw [hl,follow,if_pos rfl]
  have ho : ∀ j, j≠i → follow j (ls j) a=none := fun j hj =>
    follow_eq_none (fun ha => hj (hs.unique j i a ha (by rw [hl]; exact mem_cons_self)))
  have hf : heads.findSome? (fun j => follow j (ls j) a)=some (first i rest) := by
    induction heads with
    | nil => cases hh
    | cons j js ih =>
      rw [findSome?_cons]
      by_cases hj : j=i
      · rw [hj,hi]
      · rw [ho j hj]
        exact ih ((mem_cons.mp hh).resolve_left (Ne.symm hj))
  rw [next,hf,Option.getD_some]

end BlockIpc.IntrusiveLists
