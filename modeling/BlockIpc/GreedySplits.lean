import Mathlib

/-!
# Greedy splits of a list

A list is cut into blocks; neighbours within a block have to fit together, and the weight of a
block of more than one element is bounded. A greedy pass that opens a new block only when the
next element does not fit needs no more blocks than any other way to cut the list. Elements are
arbitrary.
-/

namespace BlockIpc.GreedySplits

open List

variable {α : Type*} (fit : α → α → Bool) (weight : α → ℕ) (m : ℕ)

/-- The next element goes into a block that ends with p and has a size. -/
def joins (p : α) (size : ℕ) (v : α) : Bool := decide (size+weight v ≤ m) && fit p v

/-- The blocks that a greedy pass opens after one that ends with p and has a size. -/
def more (p : α) (size : ℕ) : List α → ℕ
  | [] => 0
  | v::l => if joins fit weight m p size v then more v (size+weight v) l else more v (weight v) l+1

/-- The blocks that a greedy pass opens. -/
def blocks : List α → ℕ
  | [] => 0
  | v::l => more fit weight m v (weight v) l+1

/-- A larger block leads to more new ones, by one at most. -/
theorem more_mono (p : α) {size size' : ℕ} (l : List α) (h : size ≤ size') :
    more fit weight m p size l ≤ more fit weight m p size' l ∧
      more fit weight m p size' l ≤ more fit weight m p size l+1 := by
  induction l generalizing p size size' with
  | nil => exact ⟨le_refl _,Nat.zero_le _⟩
  | cons v l ih =>
    have hzero := ih v (Nat.le_add_left (weight v) size)
    have hgrow := ih v (Nat.add_le_add_right h (weight v))
    unfold more
    by_cases hs : joins fit weight m p size v=true
    · rw [if_pos hs]
      split
      case isTrue => exact hgrow
      case isFalse => omega
    · have hs' : ¬joins fit weight m p size' v=true := by
        intro hj
        refine hs ?_
        unfold joins at hj ⊢
        simp only [Bool.and_eq_true,decide_eq_true_eq] at hj ⊢
        exact ⟨by omega,hj.2⟩
      rw [if_neg hs,if_neg hs']
      omega

/-- Going on with a block is not worse than opening a new one. -/
theorem more_le_blocks (p : α) (size : ℕ) (l : List α) : more fit weight m p size l≤blocks fit weight m l := by
  cases l with
  | nil => exact le_refl _
  | cons v l =>
    have hmono := (more_mono fit weight m v l (Nat.le_add_left (weight v) size)).2
    unfold more blocks
    split
    case isTrue => exact hmono
    case isFalse => exact le_refl _

variable {fit weight m}

/-- A list without its first element needs no more blocks. -/
theorem blocks_tail (v : α) (l : List α) : blocks fit weight m l≤blocks fit weight m (v::l) := by
  cases l with
  | nil => exact Nat.zero_le _
  | cons x l =>
    have hmono := (more_mono fit weight m x l (Nat.le_add_left (weight x) (weight v))).1
    change more fit weight m x (weight x) l+1≤(if joins fit weight m v (weight v) x then
      more fit weight m x (weight v+weight x) l else more fit weight m x (weight x) l+1)+1
    split
    case isTrue => omega
    case isFalse => omega

/-- A lighter first element that fits the same neighbours needs no more blocks. -/
theorem blocks_lighter {v v' : α} (l : List α) (hfit : ∀ x, fit v x=true → fit v' x=true) (hw : weight v'≤weight v) :
    blocks fit weight m (v'::l)≤blocks fit weight m (v::l) := by
  change more fit weight m v' (weight v') l+1 ≤ more fit weight m v (weight v) l+1
  cases l with
  | nil => exact le_refl _
  | cons x l =>
    have hmono := (more_mono fit weight m x l (Nat.add_le_add_right hw (weight x))).1
    have hzero := (more_mono fit weight m x l (Nat.le_add_left (weight x) (weight v'))).2
    unfold more
    by_cases hv : joins fit weight m v (weight v) x=true
    · have hv' : joins fit weight m v' (weight v') x=true := by
        unfold joins at hv ⊢
        simp only [Bool.and_eq_true,decide_eq_true_eq] at hv ⊢
        exact ⟨by omega,hfit x hv.2⟩
      rw [if_pos hv,if_pos hv']
      omega
    · rw [if_neg hv]
      split
      case isTrue => omega
      case isFalse => exact le_refl _

variable (fit weight m)

/-- The weight of a block. -/
def total (b : List α) : ℕ := (b.map weight).sum

/-- A block that may stay in one piece. -/
structure Block (b : List α) : Prop where
  some : b≠[]
  /-- Neighbours fit together. -/
  chain : b.IsChain (fun x y => fit x y=true)
  /-- It has one element or is not too heavy. -/
  light : b.length=1 ∨ total weight b ≤ m

/-- A list is cut into blocks. -/
structure Split (P : List (List α)) (l : List α) : Prop where
  /-- Together the blocks are the list. -/
  flat : P.flatten=l
  /-- Every one may stay in one piece. -/
  block : ∀ b∈P, Block fit weight m b

variable {fit weight m}

theorem total_append (b c : List α) : total weight (b++c)=total weight b+total weight c := by
  simp [total]

theorem Block.single (v : α) : Block fit weight m [v] := ⟨cons_ne_nil _ _,isChain_singleton _,.inl rfl⟩

variable {c l k : List α} {P Q : List (List α)} {f f' b b' n n' : ℕ}

/-- Two blocks that fit together. -/
theorem Block.append {b : List α} (hb : Block fit weight m b) (hc : Block fit weight m c)
    (hfit : ∀ x∈b.getLast?, ∀ y∈c.head?, fit x y=true) (hw : total weight b+total weight c ≤ m) :
    Block fit weight m (b++c) := by
  refine ⟨append_ne_nil_of_left_ne_nil hb.some c,?_,.inr ?_⟩
  · exact isChain_append.mpr ⟨hb.chain,hc.chain,hfit⟩
  · rw [total_append]
    exact hw

/-- One list after the other. -/
theorem Split.append (hP : Split fit weight m P l) (hQ : Split fit weight m Q k) :
    Split fit weight m (P++Q) (l++k) := by
  refine ⟨?_,fun b hb => ?_⟩
  · rw [flatten_append,hP.flat,hQ.flat]
  · rcases mem_append.mp hb with hb|hb
    · exact hP.block b hb
    · exact hQ.block b hb

/-- One list after the other, with the last block of the first one joined to the first block of
the second one. -/
theorem Split.join {b : List α} (hP : Split fit weight m (P++[b]) l) (hQ : Split fit weight m (c::Q) k)
    (hfit : ∀ x∈l.getLast?, ∀ y∈k.head?, fit x y=true) (hw : total weight b+total weight c ≤ m) :
    Split fit weight m (P++(b++c)::Q) (l++k) := by
  have hb := hP.block b (mem_append_right P (mem_singleton_self b))
  have hc := hQ.block c mem_cons_self
  have hlast : b.getLast?=l.getLast? := by
    rw [← hP.flat,flatten_append,getLast?_append]
    cases hl : b.getLast? with
    | none => exact absurd (getLast?_eq_none_iff.mp hl) hb.some
    | some x => simp [hl]
  have hhead : c.head?=k.head? := by
    rw [← hQ.flat,flatten_cons,head?_append]
    cases hk : c.head? with
    | none => exact absurd (head?_eq_none_iff.mp hk) hc.some
    | some x => rfl
  have hbc := hb.append hc (by rw [hlast,hhead]; exact hfit) hw
  refine ⟨?_,fun d hd => ?_⟩
  · have hl := hP.flat
    have hk := hQ.flat
    rw [flatten_append,flatten_singleton] at hl
    rw [flatten_cons] at hk
    rw [flatten_append,flatten_cons,← hl,← hk]
    simp only [append_assoc]
  · rcases mem_append.mp hd with hd|hd
    · exact hP.block d (mem_append_left _ hd)
    · rcases mem_cons.mp hd with hd|hd
      · rw [hd]
        exact hbc
      · exact hQ.block d (mem_cons_of_mem c hd)

/-- A greedy pass stays in a block that fits. -/
theorem more_block (p : α) (size : ℕ) (b l : List α) (hc : (p::b).IsChain (fun x y => fit x y=true))
    (hw : b=[] ∨ size+total weight b ≤ m) : ∃ x n, more fit weight m p size (b++l)=more fit weight m x n l := by
  induction b generalizing p size with
  | nil => exact ⟨p,size,rfl⟩
  | cons v b ih =>
    obtain ⟨hpv,hvb⟩ := isChain_cons_cons.mp hc
    have hle : size+(weight v+total weight b) ≤ m := by
      rcases hw with hw|hw
      · cases hw
      · exact hw
    have hjoin : joins fit weight m p size v=true := by
      unfold joins
      rw [hpv,Bool.and_true,decide_eq_true_eq]
      omega
    obtain ⟨x,n,hx⟩ := ih v (size+weight v) hvb (.inr (by omega))
    refine ⟨x,n,?_⟩
    rw [← hx,cons_append]
    change (if joins fit weight m p size v then _ else _)=_
    rw [if_pos hjoin]

/-- A greedy pass opens no more blocks than any split has. -/
theorem Split.blocks_le (h : Split fit weight m P l) : blocks fit weight m l≤P.length := by
  induction P generalizing l with
  | nil =>
    rw [← h.flat]
    exact le_refl _
  | cons b P ih =>
    have hb := h.block b mem_cons_self
    have hrest := ih (l := P.flatten) ⟨rfl,fun c hc => h.block c (mem_cons_of_mem b hc)⟩
    rw [← h.flat,flatten_cons]
    cases b with
    | nil => exact absurd rfl hb.some
    | cons v b =>
      have hlight : b=[] ∨ weight v+total weight b ≤ m := by
        rcases hb.light with hone|hle
        · exact .inl (length_eq_zero_iff.mp (Nat.succ.inj hone))
        · exact .inr hle
      obtain ⟨x,n,hx⟩ := more_block v (weight v) b P.flatten hb.chain hlight
      have hle := more_le_blocks fit weight m x n P.flatten
      change more fit weight m v (weight v) (b++P.flatten)+1≤P.length+1
      omega

variable (fit weight m)

/-- A split into a number of blocks whose first and last one have bounded weights. -/
def Cover (front back n : ℕ) (l : List α) : Prop :=
  ∃ P, Split fit weight m P l ∧ P.length=n ∧ (∀ c∈P.head?, total weight c≤front) ∧
    ∀ d∈P.getLast?, total weight d≤back

variable {fit weight m}

/-- Larger bounds. -/
theorem Cover.mono (h : Cover fit weight m f b n l) (hf : f≤f') (hb : b≤b') : Cover fit weight m f' b' n l := by
  obtain ⟨P,hP,hn,hhead,hlast⟩ := h
  exact ⟨P,hP,hn,fun c hc => (hhead c hc).trans hf,fun d hd => (hlast d hd).trans hb⟩

theorem Cover.blocks_le (h : Cover fit weight m f b n l) : blocks fit weight m l≤n := by
  obtain ⟨P,hP,hn,_⟩ := h
  rw [← hn]
  exact hP.blocks_le

theorem Split.ne_nil (h : Split fit weight m P l) (hl : l≠[]) : P≠[] := by
  intro hP
  refine hl ?_
  rw [← h.flat,hP]
  rfl

/-- One list after the other. -/
theorem Cover.append (h : Cover fit weight m f b n l) (h' : Cover fit weight m f' b' n' k) (hl : l≠[]) (hk : k≠[]) :
    Cover fit weight m f b' (n+n') (l++k) := by
  obtain ⟨P,hP,hn,hhead,_⟩ := h
  obtain ⟨Q,hQ,hn',_,hlast⟩ := h'
  refine ⟨P++Q,hP.append hQ,?_,fun c hc => hhead c ?_,fun d hd => hlast d ?_⟩
  · rw [length_append,hn,hn']
  · rwa [head?_append_of_ne_nil P (hP.ne_nil hl)] at hc
  · rwa [getLast?_append_of_ne_nil P (hQ.ne_nil hk)] at hd

/-- The only block is the first and the last one. -/
theorem Cover.one (h : Cover fit weight m f b 1 l) : Cover fit weight m (min f b) (min f b) 1 l := by
  obtain ⟨P,hP,hn,hhead,hlast⟩ := h
  obtain ⟨c,rfl⟩ := length_eq_one_iff.mp hn
  have hc : total weight c ≤ min f b := le_min (hhead c rfl) (hlast c rfl)
  exact ⟨[c],hP,rfl,fun d hd => Option.some.inj hd ▸ hc,fun d hd => Option.some.inj hd ▸ hc⟩

/-- One list after the other, with two blocks joined. -/
theorem Cover.join (h : Cover fit weight m f b n l) (h' : Cover fit weight m f' b' n' k) (hl : l≠[]) (hk : k≠[])
    (hfit : ∀ x∈l.getLast?, ∀ y∈k.head?, fit x y=true) (hw : b+f' ≤ m) :
    Cover fit weight m (if n=1 then b+f' else f) (if n'=1 then b+f' else b') (n+n'-1) (l++k) := by
  obtain ⟨P,hP,hn,hhead,hlast⟩ := h
  obtain ⟨Q,hQ,hn',hhead',hlast'⟩ := h'
  obtain ⟨P',x,rfl⟩ : ∃ P' x, P=P'++[x] :=
    ⟨P.dropLast,P.getLast (hP.ne_nil hl),(dropLast_append_getLast _).symm⟩
  obtain ⟨y,Q',rfl⟩ := exists_cons_of_ne_nil (hQ.ne_nil hk)
  have hx := hlast x getLast?_concat
  have hy := hhead' y rfl
  refine ⟨P'++(x++y)::Q',hP.join hQ hfit (by omega),?_,fun c hc => ?_,fun d hd => ?_⟩
  · rw [length_append] at hn ⊢
    rw [length_cons] at hn' ⊢
    rw [length_singleton] at hn
    omega
  · cases P' with
    | nil =>
      have hone : n=1 := hn.symm
      cases hc
      rw [if_pos hone,total_append]
      omega
    | cons z P' =>
      have hne : n≠1 := by
        rw [← hn]
        simp
      rw [if_neg hne]
      exact hhead c hc
  · cases Q' with
    | nil =>
      rw [getLast?_concat] at hd
      have hone : n'=1 := hn'.symm
      cases hd
      rw [if_pos hone,total_append]
      omega
    | cons z Q' =>
      have hne : n'≠1 := by
        rw [← hn']
        simp
      rw [if_neg hne]
      refine hlast' d ?_
      rw [getLast?_append_of_ne_nil _ (cons_ne_nil _ _),getLast?_cons_cons] at hd
      rw [getLast?_cons_cons]
      exact hd

end BlockIpc.GreedySplits
