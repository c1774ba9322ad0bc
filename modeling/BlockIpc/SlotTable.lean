import Mathlib

/-!
# Tables that reuse the smallest free index

A table maps indices to objects. Inserting an object uses the smallest free
index, whether it was never used or was erased. The number of used indices
bounds the next free index, and a walk over the indices that has met as many
objects as the table holds has met all of them. Objects are an arbitrary type.
-/

namespace BlockIpc.SlotTable

open List

/-- Slots in index order; indices beyond the end are free. -/
structure Table (α : Type*) where
  slots : List (Option α)

variable {α : Type*} {t : Table α} {a b : α} {i j : ℕ}

/-- The table without objects. -/
def Table.empty : Table α := ⟨[]⟩

/-- The object with this index. -/
def Table.find (t : Table α) (i : ℕ) : Option α := (t.slots[i]?).join

/-- The smallest free index. -/
def Table.firstFree (t : Table α) : ℕ := t.slots.findIdx Option.isNone

/-- Put an object into the slot with the smallest free index. -/
def Table.insert (t : Table α) (a : α) : Table α :=
  if t.firstFree<t.slots.length then ⟨t.slots.set t.firstFree (some a)⟩ else ⟨t.slots++[some a]⟩

/-- Free a slot. -/
def Table.erase (t : Table α) (i : ℕ) : Table α := ⟨t.slots.set i none⟩

/-- Number of used indices below a bound. -/
def Table.usedBelow (t : Table α) (n : ℕ) : ℕ := (t.slots.take n).countP Option.isSome

/-- Number of used indices. -/
def Table.used (t : Table α) : ℕ := t.slots.countP Option.isSome

/-- Sum of a measure over the objects in the table. -/
def Table.total (t : Table α) (f : α → ℤ) : ℤ := (t.slots.map (fun o => o.elim 0 f)).sum

/-- The used indices from one on, in increasing order, with their objects. -/
def Table.entriesFrom (t : Table α) (i : ℕ) : List (ℕ×α) :=
  ((t.slots.drop i).zipIdx i).filterMap (fun e => e.1.map (fun a => (e.2,a)))

theorem find_empty : (Table.empty : Table α).find i=none := by
  simp [Table.find,Table.empty]

/-- The smallest free index is free. -/
theorem find_firstFree : t.find t.firstFree=none := by
  unfold Table.find Table.firstFree
  by_cases h : t.slots.findIdx Option.isNone<t.slots.length
  · have hn := findIdx_getElem (w := h)
    rw [getElem?_eq_getElem h]
    simpa using hn
  · rw [getElem?_eq_none (not_lt.mp h)]
    rfl

theorem ne_firstFree (h : t.find i=some a) : i≠t.firstFree := by
  intro he
  rw [he,find_firstFree] at h
  cases h

theorem firstFree_le_length : t.firstFree≤t.slots.length := findIdx_le_length

/-- Contents after an insertion. -/
theorem find_insert : (t.insert a).find i=if i=t.firstFree then some a else t.find i := by
  unfold Table.insert
  split
  · next h =>
    unfold Table.find
    rw [getElem?_set]
    by_cases hi : i=t.firstFree
    · simp [hi,h]
    · simp [hi,Ne.symm hi]
  · next h =>
    have he : t.firstFree=t.slots.length := le_antisymm firstFree_le_length (not_lt.mp h)
    unfold Table.find
    rw [getElem?_append]
    split
    · next hi => simp [he,ne_of_lt hi]
    · next hi =>
      by_cases hie : i=t.slots.length
      · simp [he,hie]
      · have hlt : t.slots.length < i := lt_of_le_of_ne (not_lt.mp hi) (Ne.symm hie)
        simp [he,hie,getElem?_eq_none (le_of_lt hlt),getElem?_eq_none
          (show [some a].length ≤ i-t.slots.length by simp; omega)]

/-- Contents after an erasure. -/
theorem find_erase : (t.erase i).find j=if j=i then none else t.find j := by
  unfold Table.erase Table.find
  rw [getElem?_set]
  by_cases hj : j=i
  · subst hj
    by_cases hl : j<t.slots.length
    · simp [hl]
    · simp [hl]
  · simp [hj,Ne.symm hj]

/-- An insertion uses one more index. -/
theorem used_insert : (t.insert a).used=t.used+1 := by
  unfold Table.insert Table.used
  split
  · next h =>
    have hn : t.slots[t.firstFree].isSome=false := by
      have hf := find_firstFree (t := t)
      unfold Table.find at hf
      rw [getElem?_eq_getElem h] at hf
      simpa using hf
    rw [countP_set h,hn]
    simp
  · simp

/-- A used index is a slot of the table. -/
theorem slot_of_find (h : t.find i=some a) : ∃ hlt : i<t.slots.length, t.slots[i]=some a := by
  unfold Table.find at h
  have hlt : i<t.slots.length := by
    by_contra hge
    rw [getElem?_eq_none (not_lt.mp hge)] at h
    cases h
  rw [getElem?_eq_getElem hlt] at h
  exact ⟨hlt,by simpa using h⟩

/-- Erasing a used index uses one less. -/
theorem used_erase (h : t.find i=some a) : (t.erase i).used+1=t.used := by
  obtain ⟨hlt,hslot⟩ := slot_of_find h
  have hs : t.slots[i].isSome=true := by
    rw [hslot]
    rfl
  have hpos : 0<t.slots.countP Option.isSome :=
    countP_pos_iff.mpr ⟨t.slots[i],getElem_mem hlt,hs⟩
  unfold Table.erase Table.used
  dsimp only
  rw [countP_set hlt,hs]
  simp
  omega

/-- A table with few used indices has a small free one. -/
theorem firstFree_le_used : t.firstFree≤t.used := by
  have hall : ∀ x∈t.slots.take t.firstFree, x.isSome=true := by
    intro x hx
    obtain ⟨i,hi,he⟩ := mem_take_iff_getElem.mp hx
    have hlt : i<t.firstFree := lt_of_lt_of_le hi (min_le_left _ _)
    have hn := not_of_lt_findIdx hlt
    rw [← he]
    simpa using hn
  have hc := countP_eq_length.mpr hall
  rw [length_take,min_eq_left firstFree_le_length] at hc
  calc t.firstFree=(t.slots.take t.firstFree).countP Option.isSome := hc.symm
    _≤t.used := (take_sublist _ _).countP_le

theorem usedBelow_zero : t.usedBelow 0=0 := by
  simp [Table.usedBelow]

/-- A walk that passes a used index has met one more object. -/
theorem usedBelow_succ : t.usedBelow (i+1)=t.usedBelow i+(if (t.find i).isSome then 1 else 0) := by
  unfold Table.usedBelow Table.find
  by_cases hl : i<t.slots.length
  · rw [take_succ_eq_append_getElem hl,countP_append,getElem?_eq_getElem hl]
    cases hs : t.slots[i] with
    | none | some a => simp
  · rw [getElem?_eq_none (not_lt.mp hl),take_of_length_le (not_lt.mp hl),
      take_of_length_le (le_trans (not_lt.mp hl) (Nat.le_succ i))]
    simp

theorem usedBelow_le : t.usedBelow i≤t.used := (take_sublist _ _).countP_le

/-- A walk goes past one index. -/
theorem entriesFrom_eq : t.entriesFrom i=
    (t.find i).elim (t.entriesFrom (i+1)) (fun a => (i,a)::t.entriesFrom (i+1)) := by
  unfold Table.entriesFrom Table.find
  by_cases hl : i<t.slots.length
  · rw [drop_eq_getElem_cons hl,zipIdx_cons,filterMap_cons,getElem?_eq_getElem hl]
    cases t.slots[i] with
    | none | some a => rfl
  · rw [getElem?_eq_none (not_lt.mp hl),drop_of_length_le (not_lt.mp hl),
      drop_of_length_le (le_trans (not_lt.mp hl) (Nat.le_succ i))]
    rfl

/-- The entries from an index on are those of the table. -/
theorem mem_entriesFrom : (j,a)∈t.entriesFrom i ↔ i≤j ∧ t.find j=some a := by
  unfold Table.entriesFrom Table.find
  simp only [mem_filterMap,Prod.exists,mk_mem_zipIdx_iff_le_and_getElem?_sub,getElem?_drop,
    Option.map_eq_some_iff,Prod.mk.injEq,Option.join_eq_some_iff]
  constructor
  · rintro ⟨o,k,⟨hk,ho⟩,b,rfl,rfl,rfl⟩
    exact ⟨hk,by rwa [Nat.add_sub_cancel' hk] at ho⟩
  · rintro ⟨hj,h⟩
    exact ⟨some a,j,⟨hj,by rwa [Nat.add_sub_cancel' hj]⟩,a,rfl,rfl,rfl⟩

theorem entriesFrom_beyond (h : t.slots.length ≤ i) : t.entriesFrom i=[] := by
  rw [Table.entriesFrom,drop_of_length_le h]
  rfl

/-- A walk that has not met all entries is not at the end. -/
theorem lt_length_of_more {total n : ℤ} (htotal : total+(t.entriesFrom i).length=n) (h : total<n) :
    i<t.slots.length := by
  by_contra hge
  rw [entriesFrom_beyond (not_lt.mp hge),length_nil] at htotal
  omega

theorem entriesFrom_increasing (t : Table α) (i : ℕ) : (t.entriesFrom i).Pairwise (fun e f => e.1<f.1) := by
  by_cases hl : i<t.slots.length
  · have ih := entriesFrom_increasing t (i+1)
    rw [entriesFrom_eq]
    cases t.find i with
    | none => exact ih
    | some a => exact pairwise_cons.mpr ⟨fun e he => (mem_entriesFrom.mp he).1,ih⟩
  · rw [entriesFrom_beyond (not_lt.mp hl)]
    exact List.Pairwise.nil
termination_by t.slots.length-i

/-- After the first entry come those from the next index on. -/
theorem entriesFrom_tail {l : List (ℕ×α)} (i : ℕ) (h : t.entriesFrom i=(j,a)::l) : t.entriesFrom (j+1)=l := by
  by_cases hl : i<t.slots.length
  · rw [entriesFrom_eq] at h
    cases hf : t.find i with
    | none =>
      rw [hf] at h
      exact entriesFrom_tail (i+1) h
    | some b =>
      rw [hf] at h
      cases h
      rfl
  · rw [entriesFrom_beyond (not_lt.mp hl)] at h
    cases h
termination_by t.slots.length-i

/-- The entries from the first index on are all objects. -/
theorem length_entriesFrom_zero : (t.entriesFrom 0).length=t.used := by
  rw [Table.entriesFrom,Table.used,drop_zero]
  generalize 0=n
  induction t.slots generalizing n with
  | nil => rfl
  | cons o l ih => cases o <;> simp [zipIdx_cons,ih]

/-- What a walk has met and what is before it are all objects. -/
theorem usedBelow_add_entries : t.usedBelow i+(t.entriesFrom i).length=t.used := by
  induction i with
  | zero => rw [usedBelow_zero,Nat.zero_add,length_entriesFrom_zero]
  | succ i ih =>
    rw [← ih,usedBelow_succ,entriesFrom_eq (i := i)]
    cases t.find i with
    | none => rfl
    | some a =>
      rw [Option.elim_some,length_cons,Option.isSome_some,if_pos rfl]
      omega

variable {f g : α → ℤ}

theorem total_empty : (Table.empty : Table α).total f=0 := rfl

/-- An inserted object is added to the sum. -/
theorem total_insert : (t.insert a).total f=t.total f+f a := by
  unfold Table.insert Table.total
  split
  · next h =>
    have hn : t.slots[t.firstFree]=none := by
      have hf := find_firstFree (t := t)
      unfold Table.find at hf
      rw [getElem?_eq_getElem h] at hf
      simpa using hf
    dsimp only
    rw [map_set,sum_set']
    simp [h,hn]
  · simp

/-- An erased object is taken from the sum. -/
theorem total_erase (h : t.find i=some a) : (t.erase i).total f=t.total f-f a := by
  obtain ⟨hlt,hs⟩ := slot_of_find h
  unfold Table.erase Table.total
  dsimp only
  rw [map_set,sum_set']
  simp [hlt,hs]
  ring

/-- An object in a slot is found at the index of the slot. -/
theorem exists_find (h : some a∈t.slots) : ∃ i, t.find i=some a := by
  obtain ⟨i,hi,he⟩ := mem_iff_getElem.mp h
  refine ⟨i,?_⟩
  unfold Table.find
  rw [getElem?_eq_getElem hi,he]
  rfl

/-- Measures that agree on the objects in the table have the same sum. -/
theorem total_congr (h : ∀ i a, t.find i=some a → f a=g a) : t.total f=t.total g := by
  unfold Table.total
  refine congrArg List.sum (map_congr_left (fun o ho => ?_))
  cases o with
  | none => rfl
  | some a =>
    obtain ⟨i,hi⟩ := exists_find ho
    exact h i a hi

/-- The sum over a table whose indices are all free. -/
theorem total_of_empty (h : ∀ i, t.find i=none) : t.total f=0 := by
  refine sum_eq_zero (fun x hx => ?_)
  obtain ⟨o,ho,he⟩ := mem_map.mp hx
  subst he
  cases o with
  | none => rfl
  | some a =>
    obtain ⟨i,hi⟩ := exists_find ho
    rw [h i] at hi
    cases hi

/-- The sum of a measure that is not negative on the objects in the table. -/
theorem total_nonneg (h : ∀ i a, t.find i=some a → 0≤f a) : 0≤t.total f := by
  refine sum_nonneg (fun x hx => ?_)
  obtain ⟨o,ho,he⟩ := mem_map.mp hx
  subst he
  cases o with
  | none => exact le_refl 0
  | some a =>
    obtain ⟨i,hi⟩ := exists_find ho
    exact h i a hi

end BlockIpc.SlotTable
