import BlockIpc.MqueueInodes

/-!
# Exactness of the checked sizes

The helpers for sizes return the exact value whenever it is a word. The bytes of
a message queue are calculated as records; the test model adds a table and the
payload. Both reject the same attributes and return the same sizes.
-/

namespace BlockIpc.CheckedSizes

open CheckedMath MqueueInodes

/-- mq_calculate_sizes for words and pointers of any width. -/
def mqSizes (w pointerSize maxmsg msgsize : ℕ) : Option (ℕ×ℕ) :=
  match l30SizeArrayBytes w maxmsg pointerSize with
  | none => none
  | some tableBytes =>
    match l30SizeRecordsBytes w maxmsg msgsize pointerSize with
    | none => none
    | some queueBytes => some (tableBytes,queueBytes)

/-- The function mqueue_bytes of the test model. -/
def mqueueBytes (w pointerSize maxMessages messageSize : ℕ) : Option (ℕ×ℕ) :=
  match l30SizeArrayBytes w maxMessages pointerSize with
  | none => none
  | some tableBytes =>
    match l30SizeArrayBytes w maxMessages messageSize with
    | none => none
    | some payloadBytes =>
      match l30SizeAddOverflow w tableBytes payloadBytes with
      | none => none
      | some queueBytes => some (tableBytes,queueBytes)

variable {w pointerSize maxmsg msgsize x : ℕ} {o : Option ℕ}

/-- A checked value that is returned exactly if it is a word. -/
theorem eq_ite_of_eq_some (h : ∀ c, o=some c ↔ x<2^w ∧ c=x) : o=if x<2^w then some x else none := by
  split
  case isTrue hlt => exact (h x).mpr ⟨hlt,rfl⟩
  case isFalse hge => exact Option.eq_none_iff_forall_ne_some.mpr (fun c hc => hge ((h c).mp hc).1)

/-- The sizes of a queue that fits in a word. -/
theorem mqSizes_of_lt (hmax : 1 ≤ maxmsg) (hlt : maxmsg*(msgsize+pointerSize)<2^w) :
    mqSizes w pointerSize maxmsg msgsize=some (maxmsg*pointerSize,maxmsg*(msgsize+pointerSize)) ∧
      mqueueBytes w pointerSize maxmsg msgsize=some (maxmsg*pointerSize,maxmsg*(msgsize+pointerSize)) := by
  have hrecord : msgsize+pointerSize<2^w := lt_of_le_of_lt (Nat.le_mul_of_pos_left _ hmax) hlt
  have hpointer : pointerSize<2^w := lt_of_le_of_lt (Nat.le_add_left _ _) hrecord
  have hsum : maxmsg*(msgsize+pointerSize)=maxmsg*pointerSize+maxmsg*msgsize := by ring
  have htable : l30SizeArrayBytes w maxmsg pointerSize=some (maxmsg*pointerSize) :=
    l30SizeMulOverflow_eq_some.mpr ⟨by omega,rfl⟩
  have hpayload : l30SizeArrayBytes w maxmsg msgsize=some (maxmsg*msgsize) :=
    l30SizeMulOverflow_eq_some.mpr ⟨by omega,rfl⟩
  have hrecords := (l30SizeRecordsBytes_eq_some hpointer).mpr ⟨hrecord,hlt,rfl⟩
  have hadd : l30SizeAddOverflow w (maxmsg*pointerSize) (maxmsg*msgsize)=some (maxmsg*(msgsize+pointerSize)) :=
    (l30SizeAddOverflow_eq_some (by omega)).mpr ⟨by omega,hsum⟩
  unfold mqSizes mqueueBytes
  rw [htable,hpayload]
  dsimp only
  rw [hrecords,hadd]
  exact ⟨rfl,rfl⟩

/-- A queue whose sizes are calculated fits in a word. -/
theorem lt_of_mqSizes (hpointer : pointerSize<2^w) (h : (mqSizes w pointerSize maxmsg msgsize).isSome=true) :
    maxmsg*(msgsize+pointerSize)<2^w := by
  unfold mqSizes at h
  split at h
  · cases h
  · cases hr : l30SizeRecordsBytes w maxmsg msgsize pointerSize with
    | none =>
      rw [hr] at h
      cases h
    | some c => exact ((l30SizeRecordsBytes_eq_some hpointer).mp hr).2.1

/-- For every width of words the helpers for sums, products, arrays and flexible objects return the
exact value if it is a word and report an overflow otherwise, and what the helper for records returns
is exact. The sizes of a queue are calculated exactly if the bytes of its records are a word, and then
they are those of the test model; mq_calculate_sizes is this calculation. -/
theorem checked_sizes_exact (w : ℕ) :
    (∀ a b : Fin (2^w), l30SizeAddOverflow w a b=if a.val+b.val<2^w then some (a.val+b.val) else none) ∧
    (∀ a b : Fin (2^w), l30SizeMulOverflow w a b=if a.val*b.val<2^w then some (a.val*b.val) else none) ∧
    (∀ a b : Fin (2^w), l30SizeArrayBytes w a b=if a.val*b.val<2^w then some (a.val*b.val) else none) ∧
    (∀ header count element : Fin (2^w), l30SizeFlexBytes w header count element=
      if header.val+count.val*element.val<2^w then some (header.val+count.val*element.val) else none) ∧
    (∀ (count payload overhead : Fin (2^w)) (c : ℕ), l30SizeRecordsBytes w count payload overhead=some c →
      c=count.val*(payload.val+overhead.val) ∧ c<2^w) ∧
    (∀ pointerSize maxmsg msgsize : Fin (2^w), 1 ≤ maxmsg.val → 1 ≤ msgsize.val →
      ((mqSizes w pointerSize maxmsg msgsize).isSome=true ↔ maxmsg.val*(msgsize.val+pointerSize.val)<2^w) ∧
      (maxmsg.val*(msgsize.val+pointerSize.val)<2^w →
        mqSizes w pointerSize maxmsg msgsize=mqueueBytes w pointerSize maxmsg msgsize)) ∧
    (∀ (pf : Platform) (attr : MqAttr pf), mqCalculateSizes attr=
      mqSizes pf.width pf.pointerSize (pf.toSize attr.maxmsg) (pf.toSize attr.msgsize)) := by
  refine ⟨fun a b => eq_ite_of_eq_some (fun c => l30SizeAddOverflow_eq_some b.isLt),
    fun a b => eq_ite_of_eq_some (fun c => l30SizeMulOverflow_eq_some),
    fun a b => eq_ite_of_eq_some (fun c => l30SizeMulOverflow_eq_some),
    fun header count element => eq_ite_of_eq_some (fun c => l30SizeFlexBytes_eq_some),
    fun count payload overhead c h => ?_,fun pointerSize maxmsg msgsize hmax _ => ⟨⟨?_,fun hlt => ?_⟩,fun hlt => ?_⟩,
    fun pf attr => rfl⟩
  · obtain ⟨-,hlt,rfl⟩ := (l30SizeRecordsBytes_eq_some overhead.isLt).mp h
    exact ⟨rfl,hlt⟩
  · exact lt_of_mqSizes pointerSize.isLt
  · rw [(mqSizes_of_lt hmax hlt).1]
    rfl
  · rw [(mqSizes_of_lt hmax hlt).1,(mqSizes_of_lt hmax hlt).2]

/-- The largest queue with ten messages on a machine with 32 bits, and one more byte for each message. -/
theorem checked_sizes_exact_ten :
    (mqSizes 32 4 10 429496725).isSome=true ∧ (mqSizes 32 4 10 429496726).isSome=false := by
  obtain ⟨-,-,-,-,-,hmq,-⟩ := checked_sizes_exact 32
  refine ⟨((hmq ⟨4,by decide⟩ ⟨10,by decide⟩ ⟨429496725,by decide⟩ (by decide) (by decide)).1).mpr (by decide),?_⟩
  rw [← Bool.not_eq_true]
  intro h
  exact absurd (((hmq ⟨4,by decide⟩ ⟨10,by decide⟩ ⟨429496726,by decide⟩ (by decide) (by decide)).1).mp h) (by decide)

end BlockIpc.CheckedSizes
