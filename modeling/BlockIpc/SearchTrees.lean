import Mathlib

/-!
# Search trees

Binary trees that are searched and extended by a comparison and read in order. What a
rebalancing may do to a tree is given by what it does to the entries in order, so that the
results hold for every kind of balanced tree. Entries are arbitrary.
-/

namespace BlockIpc.SearchTrees

open List

variable {α β : Type*}

/-- The entries of a tree in order. -/
def inorder : BinaryTree α → List α
  | .nil => []
  | .node a l r => inorder l++a::inorder r

/-- Search a tree: side says on which side of an entry to go on. -/
def search (side : α → Ordering) : BinaryTree α → Option α
  | .nil => none
  | .node a l r =>
    match side a with
    | .lt => search side l
    | .gt => search side r
    | .eq => some a

/-- Link a new entry where a search ends; entries that the search stops at are passed on the
right. -/
def link (side : α → Ordering) (x : α) : BinaryTree α → BinaryTree α
  | .nil => .node x .nil .nil
  | .node a l r =>
    match side a with
    | .lt => .node a (link side x l) r
    | _ => .node a l (link side x r)

/-- The entry that a search finds. -/
theorem search_mem {side : α → Ordering} {t : BinaryTree α} {a : α} (h : search side t=some a) :
    a∈inorder t ∧ side a=.eq := by
  induction t with
  | nil => cases h
  | node b l r ihl ihr =>
    unfold search at h
    unfold inorder
    split at h
    · exact ⟨mem_append_left _ (ihl h).1,(ihl h).2⟩
    · exact ⟨mem_append_right _ (mem_cons_of_mem b (ihr h).1),(ihr h).2⟩
    · rename_i hb
      cases h
      exact ⟨mem_append_right _ mem_cons_self,hb⟩

/-- A new entry splits the others in order; the search passed the entry before it on the right
and the entry after it on the left. -/
theorem link_inorder (side : α → Ordering) (x : α) (t : BinaryTree α) :
    ∃ l m, inorder t=l++m ∧ inorder (link side x t)=l++x::m ∧ (∀ a∈l.getLast?, side a≠.lt) ∧
      ∀ a∈m.head?, side a=.lt := by
  induction t with
  | nil => exact ⟨[],[],rfl,rfl,nofun,nofun⟩
  | node b u v ihu ihv =>
    unfold link
    split
    case h_1 hb =>
      obtain ⟨l,m,hold,hnew,hl,hm⟩ := ihu
      refine ⟨l,m++b::inorder v,?_,?_,hl,fun a ha => ?_⟩
      · simp only [inorder,hold,append_assoc]
      · simp only [inorder,hnew,append_assoc,cons_append]
      · cases m with
        | nil =>
          cases ha
          exact hb
        | cons c m => exact hm a ha
    case h_2 hb =>
      obtain ⟨l,m,hold,hnew,hl,hm⟩ := ihv
      refine ⟨inorder u++b::l,m,?_,?_,fun a ha => ?_,hm⟩
      · simp only [inorder,hold,append_assoc,cons_append]
      · simp only [inorder,hnew,append_assoc,cons_append]
      · cases l with
        | nil =>
          rw [getLast?_append,getLast?_singleton] at ha
          cases ha
          exact hb
        | cons c l =>
          have hlast : (inorder u++b::c::l).getLast?=(c::l).getLast? := by
            rw [getLast?_append,getLast?_cons_cons]
            simp [getLast?_cons]
          exact hl a (hlast ▸ ha)

/-- The entry after another one in order. -/
def latter [DecidableEq α] (x : α) : List α → Option α
  | [] => none
  | a::l => if a=x then l.head? else latter x l

/-- The entry before another one in order. -/
def former [DecidableEq α] (x : α) : List α → Option α
  | a::b::l => if b=x then some a else former x (b::l)
  | _ => none

variable {l : List α} {x y : α}

/-- The entry after another one is a different one. -/
theorem latter_mem [DecidableEq α] (hn : l.Nodup) (h : latter x l=some y) : y∈l ∧ y≠x := by
  induction l with
  | nil => cases h
  | cons a l ih =>
    obtain ⟨ha,hl⟩ := nodup_cons.mp hn
    unfold latter at h
    split at h
    case isTrue hax =>
      have hy := mem_of_mem_head? h
      refine ⟨mem_cons_of_mem a hy,fun hyx => ha ?_⟩
      rw [hax,← hyx]
      exact hy
    case isFalse => exact ⟨mem_cons_of_mem a (ih hl h).1,(ih hl h).2⟩

/-- The entry before another one is a different one. -/
theorem former_mem [DecidableEq α] (hn : l.Nodup) (h : former x l=some y) : y∈l ∧ y≠x := by
  induction l with
  | nil => cases h
  | cons a l ih =>
    obtain ⟨ha,hl⟩ := nodup_cons.mp hn
    cases l with
    | nil => cases h
    | cons b l =>
      unfold former at h
      split at h
      case isTrue hbx =>
        cases h
        refine ⟨mem_cons_self,fun hax => ha ?_⟩
        rw [hax,← hbx]
        exact mem_cons_self
      case isFalse => exact ⟨mem_cons_of_mem a (ih hl h).1,(ih hl h).2⟩

/-- An element that is related to its two neighbours keeps a list in the order of a transitive
relation. -/
theorem pairwise_insert {R : α → α → Prop} {m : List α} (ht : ∀ a b c, R a b → R b c → R a c) (h : (l++m).Pairwise R)
    (hl : ∀ a∈l.getLast?, R a x) (hm : ∀ a∈m.head?, R x a) : (l++x::m).Pairwise R := by
  obtain ⟨hpl,hpm,hlm⟩ := pairwise_append.mp h
  have hafter : ∀ b∈m, R x b := by
    intro b hb
    cases m with
    | nil => cases hb
    | cons c m =>
      rcases mem_cons.mp hb with hb|hb
      · exact hb ▸ hm c rfl
      · exact ht _ _ _ (hm c rfl) ((pairwise_cons.mp hpm).1 b hb)
  have hbefore : ∀ a∈l, R a x := by
    intro a ha
    obtain ⟨l',c,hlc⟩ : ∃ l' c, l=l'++[c] :=
      ⟨l.dropLast,l.getLast (ne_nil_of_mem ha),(dropLast_append_getLast _).symm⟩
    have hc : R c x := hl c (by rw [hlc]; exact getLast?_concat)
    rw [hlc] at ha hpl
    rcases mem_append.mp ha with ha|ha
    · exact ht _ _ _ ((pairwise_append.mp hpl).2.2 a ha c (mem_singleton_self c)) hc
    · exact mem_singleton.mp ha ▸ hc
  refine pairwise_append.mpr ⟨hpl,pairwise_cons.mpr ⟨hafter,hpm⟩,fun a ha b hb => ?_⟩
  rcases mem_cons.mp hb with hb|hb
  · exact hb ▸ hbefore a ha
  · exact hlm a ha b hb

section

variable [LinearOrder β] (key : α → β)

/-- The entries are in order of their keys, and no key is there twice. -/
def Sorted (t : BinaryTree α) : Prop := (inorder t).Pairwise (fun a b => key a<key b)

/-- Compare a key with the key of an entry. -/
def toKey (k : β) (a : α) : Ordering := compare k (key a)

variable {key}

variable {t : BinaryTree α} {a : α}

/-- A search in a sorted tree finds a key that is there. -/
theorem search_eq_none {k : β} (hs : Sorted key t) (h : search (toKey key k) t=none) (ha : a∈inorder t) :
    key a≠k := by
  induction t with
  | nil => cases ha
  | node b l r ihl ihr =>
    obtain ⟨hl,hbr,hlr⟩ := pairwise_append.mp hs
    obtain ⟨hb,hr⟩ := pairwise_cons.mp hbr
    unfold search at h
    rcases mem_append.mp ha with ha'|ha'
    · split at h
      case h_1 => exact ihl hl h ha'
      case h_2 hc =>
        have hlt := hlr a ha' b mem_cons_self
        have hgt : key b<k := compare_gt_iff_gt.mp hc
        exact (hlt.trans hgt).ne
      case h_3 => cases h
    · split at h
      case h_1 hc =>
        have hlt : k<key b := compare_lt_iff_lt.mp hc
        rcases mem_cons.mp ha' with ha'|ha'
        · exact ha' ▸ hlt.ne'
        · exact (hlt.trans (hb a ha')).ne'
      case h_2 hc =>
        rcases mem_cons.mp ha' with ha'|ha'
        · exact ha' ▸ (compare_gt_iff_gt.mp hc).ne
        · exact ihr hr h ha'
      case h_3 => cases h

/-- Entries of the same key are the same. -/
theorem Sorted.inj (hs : Sorted key t) {b : α} (ha : a∈inorder t) (hb : b∈inorder t) (hk : key a=key b) : a=b := by
  refine inj_on_of_nodup_map ?_ ha hb hk
  exact pairwise_map.mpr (hs.imp (fun h => h.ne))

theorem Sorted.nodup (hs : Sorted key t) : (inorder t).Nodup := hs.imp (fun h he => h.ne (congrArg key he))

/-- A new entry whose key is not there keeps a tree sorted. -/
theorem link_sorted {x : α} (hs : Sorted key t) (hx : ∀ a∈inorder t, key a≠key x) :
    Sorted key (link (toKey key (key x)) x t) := by
  obtain ⟨l,m,hold,hnew,hl,hm⟩ := link_inorder (toKey key (key x)) x t
  unfold Sorted at hs ⊢
  rw [hold] at hs hx
  rw [hnew]
  refine pairwise_insert (fun _ _ _ => lt_trans) hs (fun a ha => ?_) (fun a ha => ?_)
  · have hne := hx a (mem_append_left m (mem_of_mem_getLast? ha))
    exact lt_of_le_of_ne (not_lt.mp (fun hlt => hl a ha (compare_lt_iff_lt.mpr hlt))) hne
  · exact compare_lt_iff_lt.mp (hm a ha)

end

/-- Hang a tree below the last entry of another one. -/
def hang (u : BinaryTree α) : BinaryTree α → BinaryTree α
  | .nil => u
  | .node a l r => .node a l (hang u r)

/-- The order of two trees that were put together. -/
theorem inorder_hang (t u : BinaryTree α) : inorder (hang u t)=inorder t++inorder u := by
  induction t with
  | nil => rfl
  | node a l r _ ihr => simp only [hang,inorder,ihr,append_assoc,cons_append]

section

variable [DecidableEq α]

/-- A way to keep trees balanced: what is done after an entry was linked, and the removal of an
entry. -/
structure Balance (α : Type*) [DecidableEq α] where
  color : BinaryTree α → BinaryTree α
  /-- Remove an entry. -/
  erase : BinaryTree α → α → BinaryTree α
  /-- The order stays. -/
  inorder_color : ∀ t, inorder (color t)=inorder t
  /-- The order of all others stays. -/
  inorder_erase : ∀ t a, inorder (erase t a)=(inorder t).erase a

/-- Remove an entry without rebalancing. -/
def remove (x : α) : BinaryTree α → BinaryTree α
  | .nil => .nil
  | .node a l r =>
    if x∈inorder l then .node a (remove x l) r
    else if a=x then hang r l
    else .node a l (remove x r)

/-- The order of all others stays. -/
theorem inorder_remove (x : α) (t : BinaryTree α) : inorder (remove x t)=(inorder t).erase x := by
  induction t with
  | nil => rfl
  | node a l r ihl ihr =>
    unfold remove
    split
    case isTrue hl =>
      change inorder (remove x l)++a::inorder r=(inorder l++a::inorder r).erase x
      rw [ihl,erase_append_left _ hl]
    case isFalse hl =>
      change _=(inorder l++a::inorder r).erase x
      rw [erase_append_right _ hl]
      split
      case isTrue hax =>
        rw [hax,erase_cons_head]
        exact inorder_hang l r
      case isFalse hax =>
        rw [erase_cons_tail (by simpa using hax),← ihr]
        rfl

/-- Trees that are never rebalanced. -/
def unbalanced : Balance α := ⟨id,fun t a => remove a t,fun _ => rfl,fun t a => inorder_remove a t⟩

end

end BlockIpc.SearchTrees
