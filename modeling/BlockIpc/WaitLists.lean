import Mathlib

/-!
# Waiting lists by priority

A waiter is linked before the first entry whose priority value is not larger than
its own, and the waiter at the end of the list is served first. The list then stays
ordered: the last entry has the least value and, among entries of that value, it was
linked first. Waiters are of an arbitrary type and the values of a linear order.
-/

namespace BlockIpc.WaitLists

open List

variable {ι α : Type*} [LinearOrder α]

/-- Link a waiter before the first entry whose value is not larger. -/
def insertWaiter (prio : ι → α) (c : ι) : List ι → List ι
  | [] => [c]
  | walk::rest => if prio walk≤prio c then c::walk::rest else walk::insertWaiter prio c rest

/-- A waiter is served before another one: its value is less, or it is equal and
the waiter was linked earlier. -/
def Served (prio : ι → α) (since : ι → ℕ) (a b : ι) : Prop := prio a<prio b ∨ (prio a=prio b ∧ since a<since b)

/-- Every waiter of a list is served before those in front of it. -/
def Ordered (prio : ι → α) (since : ι → ℕ) (l : List ι) : Prop := l.Pairwise (fun a b => Served prio since b a)

variable {prio : ι → α} {since since' : ι → ℕ} {c : ι} {l : List ι}

/-- The new waiter is linked and the others stay. -/
theorem insertWaiter_perm (prio : ι → α) (c : ι) (l : List ι) : (insertWaiter prio c l).Perm (c::l) := by
  induction l with
  | nil => exact List.Perm.refl _
  | cons walk rest ih =>
    unfold insertWaiter
    split
    · exact List.Perm.refl _
    · exact (ih.cons walk).trans (List.Perm.swap c walk rest)

theorem served_irrefl (a : ι) : ¬Served prio since a a := by
  rintro (h|⟨_,h⟩)
  · exact lt_irrefl _ h
  · exact lt_irrefl _ h

theorem Ordered.nodup (h : Ordered prio since l) : l.Nodup := by
  refine List.Pairwise.imp (fun {a b} hab he => ?_) h
  rw [he] at hab
  exact served_irrefl b hab

theorem ordered_nil : Ordered prio since [] := List.Pairwise.nil

theorem Ordered.sublist {l' : List ι} (h : Ordered prio since l) (hs : l'.Sublist l) :
    Ordered prio since l' := List.Pairwise.sublist hs h

/-- The order depends only on the waiters of the list. -/
theorem Ordered.congr (h : Ordered prio since l) (hsince : ∀ a∈l, since' a=since a) : Ordered prio since' l := by
  refine List.Pairwise.imp_of_mem (fun {a b} ha hb hab => ?_) h
  unfold Served
  rw [hsince a ha,hsince b hb]
  exact hab

/-- A waiter that comes later than all the others is linked in order. -/
theorem Ordered.insert (h : Ordered prio since l) (hlast : ∀ a∈l, since a<since c) :
    Ordered prio since (insertWaiter prio c l) := by
  induction l with
  | nil => exact pairwise_singleton _ _
  | cons walk rest ih =>
    obtain ⟨hwalk,hrest⟩ := pairwise_cons.mp h
    unfold insertWaiter
    split
    · next hle =>
      refine pairwise_cons.mpr ⟨fun b hb => ?_,h⟩
      have hb' : prio b≤prio walk := by
        rcases mem_cons.mp hb with rfl|hb
        · exact le_rfl
        · rcases hwalk b hb with hlt|⟨he,_⟩
          · exact le_of_lt hlt
          · exact le_of_eq he
      rcases lt_or_eq_of_le (le_trans hb' hle) with hlt|he
      · exact .inl hlt
      · exact .inr ⟨he,hlast b hb⟩
    · next hgt =>
      refine pairwise_cons.mpr ⟨fun b hb => ?_,ih hrest (fun a ha => hlast a (mem_cons_of_mem _ ha))⟩
      rcases mem_cons.mp ((insertWaiter_perm prio c rest).mem_iff.mp hb) with rfl|hb
      · exact .inl (not_le.mp hgt)
      · exact hwalk b hb

/-- The last waiter of an ordered list is served before all the others. -/
theorem Ordered.last (h : Ordered prio since l) (hc : l.getLast?=some c) {a : ι} (ha : a∈l) :
    a=c ∨ Served prio since c a := by
  obtain ⟨front,rfl⟩ := getLast?_eq_some_iff.mp hc
  rcases mem_append.mp ha with ha|ha
  · exact .inr ((pairwise_append.mp h).2.2 a ha c (mem_singleton.mpr rfl))
  · exact .inl (mem_singleton.mp ha)

end BlockIpc.WaitLists
