import Mathlib

/-!
# Draining a list of pieces

Some bytes are taken from the front of a list of pieces: pieces are removed as long as all of
them is taken, and the first piece of which something is left is cut. Taking bytes in two portions
is the same as taking them at once. Pieces are arbitrary; what a cut keeps is a parameter.
-/

namespace BlockIpc.Draining

open List

variable {α β : Type*} (len : α → ℕ) (cut : ℕ → α → α)

/-- What is left after some bytes are taken. -/
def drain : List α → ℕ → List α
  | [],_ => []
  | a::l,n => if n=0 then a::l else if len a≤n then drain l (n-len a) else cut n a::l

/-- The pieces that are taken as a whole, in order. -/
def drained : List α → ℕ → List α
  | [],_ => []
  | a::l,n => if n=0 then [] else if len a≤n then a::drained l (n-len a) else []

def bytes (l : List α) : ℕ := (l.map len).sum

/-- A cut leaves the rest of a piece, and two cuts are one if the second is fine. -/
structure Cuts (fine : ℕ → Prop) : Prop where
  len_cut : ∀ {n a}, n<len a → len (cut n a)=len a-n
  cut_cut : ∀ {m n a}, 0 < m → 0<n → m+n<len a → fine n → cut n (cut m a)=cut (m+n) a

variable {len cut} {fine : ℕ → Prop}

theorem drain_zero (l : List α) : drain len cut l 0=l := by
  cases l with
  | nil => rfl
  | cons a l => exact if_pos rfl

theorem drained_zero (l : List α) : drained len l 0=[] := by
  cases l with
  | nil => rfl
  | cons a l => exact if_pos rfl

variable {a : α} {n : ℕ} {key : α → β} {l : List α}

/-- A piece is taken as a whole. -/
theorem drain_cons_of_le (l : List α) (hn : 0<n) (h : len a≤n) :
    drain len cut (a::l) n=drain len cut l (n-len a) := by
  unfold drain
  rw [if_neg hn.ne',if_pos h]
  cases l <;> rfl

theorem drain_cons_of_lt (l : List α) (hn : 0<n) (h : n<len a) : drain len cut (a::l) n=cut n a::l := by
  unfold drain
  rw [if_neg hn.ne',if_neg (not_le.mpr h)]

/-- A piece is taken as a whole. -/
theorem drained_cons_of_le (l : List α) (hn : 0<n) (h : len a≤n) :
    drained len (a::l) n=a::drained len l (n-len a) := by
  conv_lhs => unfold drained
  rw [if_neg hn.ne',if_pos h]

theorem drained_cons_of_lt (l : List α) (h : n<len a) : drained len (a::l) n=[] := by
  unfold drained
  rw [if_neg (not_le.mpr h),ite_self]

/-- Two portions are one. -/
theorem drain_add (hc : Cuts len cut fine) (l : List α) (m : ℕ) (hn : fine n) :
    drain len cut l (m+n)=drain len cut (drain len cut l m) n := by
  induction l generalizing m with
  | nil => rfl
  | cons a l ih =>
    rcases Nat.eq_zero_or_pos m with rfl|hm
    · rw [drain_zero,Nat.zero_add]
    rcases Nat.eq_zero_or_pos n with rfl|hn0
    · rw [drain_zero,Nat.add_zero]
    by_cases hle : len a ≤ m
    · -- the first portion takes the piece
      rw [drain_cons_of_le l hm hle,drain_cons_of_le l (by omega) (by omega),← ih]
      congr 1
      omega
    · have hlt : m<len a := not_le.mp hle
      rw [drain_cons_of_lt l hm hlt]
      by_cases hsum : len a ≤ m+n
      · -- the second portion takes what is left of it
        have hlen := hc.len_cut hlt
        rw [drain_cons_of_le l (by omega) hsum,drain_cons_of_le l hn0 (by omega),hlen]
        congr 1
        omega
      · have hlen := hc.len_cut hlt
        rw [drain_cons_of_lt l (by omega) (not_le.mp hsum),drain_cons_of_lt l hn0 (by omega),
          hc.cut_cut hm hn0 (not_le.mp hsum) hn]

/-- The pieces that two portions take, by a key that a cut keeps. -/
theorem drained_add (hc : Cuts len cut fine) (hkey : ∀ n a, key (cut n a)=key a) (l : List α) (m n : ℕ) :
    (drained len l (m+n)).map key=(drained len l m).map key++(drained len (drain len cut l m) n).map key := by
  induction l generalizing m with
  | nil => rfl
  | cons a l ih =>
    rcases Nat.eq_zero_or_pos m with rfl|hm
    · rw [drain_zero,drained_zero,Nat.zero_add]
      rfl
    rcases Nat.eq_zero_or_pos n with rfl|hn0
    · rw [drained_zero,Nat.add_zero]
      exact (append_nil _).symm
    by_cases hle : len a ≤ m
    · rw [drain_cons_of_le l hm hle,drained_cons_of_le l hm hle,drained_cons_of_le l (by omega) (by omega),
        map_cons,map_cons,cons_append,← ih (m-len a)]
      congr 3
      omega
    · have hlt : m<len a := not_le.mp hle
      have hlen := hc.len_cut hlt
      rw [drain_cons_of_lt l hm hlt,drained_cons_of_lt l hlt,map_nil,nil_append]
      by_cases hsum : len a ≤ m+n
      · rw [drained_cons_of_le l (by omega) hsum,drained_cons_of_le l hn0 (by omega),map_cons,map_cons,hkey,hlen]
        congr 3
        omega
      · rw [drained_cons_of_lt l (not_le.mp hsum),drained_cons_of_lt l (by omega)]

/-- The pieces that are taken and those that are left are the list, by a key that a cut keeps. -/
theorem drained_append_drain (hkey : ∀ n a, key (cut n a)=key a) (l : List α) (n : ℕ) :
    (drained len l n).map key++(drain len cut l n).map key=l.map key := by
  induction l generalizing n with
  | nil => rfl
  | cons a l ih =>
    rcases Nat.eq_zero_or_pos n with rfl|hn
    · rw [drained_zero,drain_zero]
      rfl
    by_cases hle : len a≤n
    · rw [drained_cons_of_le l hn hle,drain_cons_of_le l hn hle,map_cons,cons_append,ih,map_cons]
    · rw [drained_cons_of_lt l (not_le.mp hle),drain_cons_of_lt l hn (not_le.mp hle),map_cons,hkey]
      rfl

theorem bytes_drain (hc : Cuts len cut fine) (l : List α) (n : ℕ) : bytes len (drain len cut l n)=bytes len l-n := by
  induction l generalizing n with
  | nil => exact (Nat.zero_sub n).symm
  | cons a l ih =>
    have hsum : bytes len (a::l)=len a+bytes len l := sum_cons
    rcases Nat.eq_zero_or_pos n with rfl|hn
    · rw [drain_zero]
      rfl
    by_cases hle : len a≤n
    · rw [drain_cons_of_le l hn hle,ih,hsum]
      omega
    · have hlt := not_le.mp hle
      have hlen := hc.len_cut hlt
      have hcut : bytes len (cut n a::l)=len (cut n a)+bytes len l := sum_cons
      rw [drain_cons_of_lt l hn hlt,hcut,hlen,hsum]
      omega

/-- A piece is taken as a whole if and only if the bytes reach its end. -/
theorem lt_length_drained_iff (hpos : ∀ a∈l, 0<len a) (n k : ℕ) :
    k<(drained len l n).length ↔ k<l.length ∧ bytes len (l.take (k+1))≤n := by
  induction l generalizing n k with
  | nil => exact ⟨fun h => absurd h (Nat.not_lt_zero k),fun h => absurd h.1 (Nat.not_lt_zero k)⟩
  | cons a l ih =>
    have ha := hpos a mem_cons_self
    have hsum : bytes len ((a::l).take (k+1))=len a+bytes len (l.take k) := sum_cons
    rw [hsum,length_cons]
    by_cases hle : len a≤n
    · rw [drained_cons_of_le l (by omega) hle,length_cons]
      cases k with
      | zero =>
        have hzero : bytes len (l.take 0)=0 := rfl
        omega
      | succ k =>
        have hrest := ih (fun x hx => hpos x (mem_cons_of_mem a hx)) (n-len a) k
        omega
    · rw [drained_cons_of_lt l (not_le.mp hle),length_nil]
      omega

/-- A map that goes with the cuts goes with draining. -/
theorem drain_map {len' : β → ℕ} {cut' : ℕ → β → β} {f : α → β} (hlen : ∀ a, len' (f a)=len a)
    (hcut : ∀ n a, f (cut n a)=cut' n (f a)) (l : List α) (n : ℕ) :
    (drain len cut l n).map f=drain len' cut' (l.map f) n := by
  induction l generalizing n with
  | nil => rfl
  | cons a l ih =>
    rcases Nat.eq_zero_or_pos n with rfl|hn
    · rw [drain_zero,drain_zero]
    rw [map_cons]
    by_cases hle : len a≤n
    · rw [drain_cons_of_le l hn hle,drain_cons_of_le (l.map f) hn (by rw [hlen]; exact hle),ih,hlen]
    · have hlt := not_le.mp hle
      rw [drain_cons_of_lt l hn hlt,drain_cons_of_lt (l.map f) hn (by rw [hlen]; exact hlt),map_cons,hcut]

/-- A property that cuts keep holds of what is left. -/
theorem forall_drain {P : α → Prop} (hcut : ∀ n a, 0<n → n<len a → P a → P (cut n a)) (h : ∀ a∈l, P a) (n : ℕ) :
    ∀ a∈drain len cut l n, P a := by
  induction l generalizing n with
  | nil => exact h
  | cons a l ih =>
    have hrest : ∀ x∈l, P x := fun x hx => h x (mem_cons_of_mem a hx)
    rcases Nat.eq_zero_or_pos n with rfl|hn
    · rw [drain_zero]
      exact h
    by_cases hle : len a≤n
    · rw [drain_cons_of_le l hn hle]
      exact ih hrest (n-len a)
    · have hlt := not_le.mp hle
      rw [drain_cons_of_lt l hn hlt]
      intro x hx
      rcases mem_cons.mp hx with rfl|hx
      · exact hcut n a hn hlt (h a mem_cons_self)
      · exact hrest x hx

end BlockIpc.Draining
