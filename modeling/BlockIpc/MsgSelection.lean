import BlockIpc.MsgQueues

/-!
# The message that msgrcv selects

The search of do_msgrcv takes the oldest message that the caller prefers. For a
negative type these are the messages of least type up to its absolute value; the
search sinks its own bound while it goes through the queue.
-/

namespace BlockIpc.MsgSelection

open List MsgQueues

/-- Whether a call with some msgtyp and MSG_EXCEPT may get a message. -/
def qualifies (msgtyp : ℤ) (except : Bool) (m : MsgMsg) : Bool :=
  if msgtyp=0 then true
  else if msgtyp<0 then decide (m.mType≤|msgtyp|)
  else if except=true then decide (m.mType≠msgtyp)
  else decide (m.mType=msgtyp)

/-- Whether a call may get a message and, if msgtyp is negative, no other one that it may get is of
less type. -/
def preferred (msgtyp : ℤ) (except : Bool) (l : List MsgMsg) (m : MsgMsg) : Bool :=
  qualifies msgtyp except m &&
    decide (0 ≤ msgtyp ∨ ∀ x∈l, qualifies msgtyp except x=true → m.mType≤x.mType)

/-- The search of do_msgrcv when the security hook permits all. -/
def selected (msgtyp : ℤ) (except : Bool) (l : List MsgMsg) : Option MsgMsg :=
  scanMessages (convertMode msgtyp except).2 (fun _ _ => false) (convertMode msgtyp except).1 none l

variable {l : List MsgMsg} {mode : SearchMode} {msgtyp : ℤ} {found : Option MsgMsg}

/-- Without a bound that sinks the search takes the first message. -/
theorem scanMessages_first (h : mode≠.lessequal) :
    scanMessages mode (fun _ _ => false) msgtyp found l=(l.find? (testmsg · msgtyp mode)).or found := by
  induction l with
  | nil => rfl
  | cons a l ih =>
    unfold scanMessages
    rw [find?_cons]
    cases ha : testmsg a msgtyp mode with
    | true => rw [if_pos ⟨rfl,rfl⟩,if_neg (fun hc => h hc.1)]; rfl
    | false => rw [if_neg (fun hc => Bool.false_ne_true hc.1)]; exact ih

/-- The messages of least type up to a bound. -/
def Least (msgtyp : ℤ) (l : List MsgMsg) (m : MsgMsg) : Prop :=
  m.mType ≤ msgtyp ∧ ∀ x∈l, x.mType ≤ msgtyp → m.mType≤x.mType

/-- With a bound that sinks the search takes the first message of least type, if one is within the
bound. -/
theorem scanMessages_least (msgtyp : ℤ) (found : Option MsgMsg) (ht : ∀ m∈l, 1 ≤ m.mType) :
    (∃ m before after, l=before++m::after ∧ Least msgtyp l m ∧ (∀ x∈before, ¬Least msgtyp l x) ∧
      scanMessages .lessequal (fun _ _ => false) msgtyp found l=some m) ∨
    ((∀ x∈l, msgtyp<x.mType) ∧ scanMessages .lessequal (fun _ _ => false) msgtyp found l=found) := by
  induction l generalizing msgtyp found with
  | nil => exact .inr ⟨forall_mem_nil _,rfl⟩
  | cons a l ih =>
    have ht' : ∀ m∈l, 1 ≤ m.mType := fun m hm => ht m (mem_cons_of_mem a hm)
    unfold scanMessages
    by_cases ha : a.mType ≤ msgtyp
    · rw [if_pos ⟨decide_eq_true ha,rfl⟩]
      by_cases hone : a.mType=1
      · rw [if_neg (fun hc => hc.2 hone)]
        exact .inl ⟨a,[],l,rfl,⟨ha,fun x hx _ => hone.trans_le (ht x hx)⟩,forall_mem_nil _,rfl⟩
      · rw [if_pos ⟨rfl,hone⟩]
        refine .inl ?_
        rcases ih (a.mType-1) (some a) ht' with ⟨m,before,after,hl,hm,hbefore,hscan⟩|⟨hno,hscan⟩
        · -- A message below the new bound is below the old one and before it there is none as good.
          have hlow : ∀ x∈l, x.mType ≤ msgtyp → m.mType≤x.mType := by
            intro x hx hxt
            by_cases hxa : x.mType≤a.mType-1
            · exact hm.2 x hx hxa
            · have := hm.1
              omega
          refine ⟨m,a::before,after,congrArg (a::·) hl,⟨by have := hm.1; omega,?_⟩,?_,hscan⟩
          · rw [forall_mem_cons]
            exact ⟨fun _ => by have := hm.1; omega,hlow⟩
          · have hml : m∈l := hl ▸ mem_append_right before mem_cons_self
            have hmt : m.mType ≤ msgtyp := by have := hm.1; omega
            rw [forall_mem_cons]
            refine ⟨fun hc => ?_,fun x hx hc => hbefore x hx ⟨?_,fun y hy hya => ?_⟩⟩
            · have := hc.2 m (mem_cons_of_mem a hml) hmt
              have := hm.1
              omega
            · exact (hc.2 m (mem_cons_of_mem a hml) hmt).trans hm.1
            · exact hc.2 y (mem_cons_of_mem a hy) (by omega)
        · refine ⟨a,[],l,rfl,⟨ha,?_⟩,forall_mem_nil _,hscan⟩
          rw [forall_mem_cons]
          exact ⟨fun _ => le_rfl,fun x hx _ => by have := hno x hx; omega⟩
    · rw [if_neg (fun hc => ha (of_decide_eq_true hc.1))]
      have hsame : ∀ x, Least msgtyp (a::l) x ↔ Least msgtyp l x := by
        intro x
        unfold Least
        rw [forall_mem_cons]
        exact and_congr_right (fun _ => and_iff_right (fun hc => absurd hc ha))
      rcases ih msgtyp found ht' with ⟨m,before,after,hl,hm,hbefore,hscan⟩|⟨hno,hscan⟩
      · refine .inl ⟨m,a::before,after,congrArg (a::·) hl,(hsame m).mpr hm,?_,hscan⟩
        rw [forall_mem_cons]
        exact ⟨fun hc => ha hc.1,fun x hx hc => hbefore x hx ((hsame x).mp hc)⟩
      · refine .inr ⟨?_,hscan⟩
        rw [forall_mem_cons]
        exact ⟨not_le.mp ha,hno⟩

/-- The selection of a search whose bound does not sink. -/
theorem selects_first {except : Bool} (hmode : mode≠.lessequal) (hpos : 0 ≤ msgtyp)
    (hq : ∀ m, qualifies msgtyp except m=testmsg m msgtyp mode) :
    scanMessages mode (fun _ _ => false) msgtyp none l=l.find? (preferred msgtyp except l) ∧
      (scanMessages mode (fun _ _ => false) msgtyp none l=none ↔ ∀ m∈l, qualifies msgtyp except m=false) := by
  have hp : ∀ m, preferred msgtyp except l m=testmsg m msgtyp mode := by
    intro m
    rw [preferred,decide_eq_true (.inl hpos),Bool.and_true,hq]
  simp only [funext hp,hq,scanMessages_first hmode,Option.or_none,find?_eq_none,Bool.not_eq_true,and_self]

/-- The selection for a negative type. -/
theorem selects_least (except : Bool) (ht : ∀ m∈l, 1 ≤ m.mType) (hneg : msgtyp<0) :
    scanMessages .lessequal (fun _ _ => false) |msgtyp| none l=l.find? (preferred msgtyp except l) ∧
      (scanMessages .lessequal (fun _ _ => false) |msgtyp| none l=none ↔
        ∀ m∈l, qualifies msgtyp except m=false) := by
  have hq : ∀ m, qualifies msgtyp except m=true ↔ m.mType≤|msgtyp| := by
    intro m
    rw [qualifies,if_neg hneg.ne,if_pos hneg,decide_eq_true_iff]
  have hp : ∀ m, preferred msgtyp except l m=true ↔ Least |msgtyp| l m := by
    intro m
    rw [preferred,Bool.and_eq_true,decide_eq_true_iff,or_iff_right (not_le.mpr hneg),hq]
    simp only [hq]
    rfl
  simp only [← Bool.not_eq_true,hq,not_le]
  rcases scanMessages_least |msgtyp| none ht with ⟨m,before,after,hl,hm,hbefore,hscan⟩|⟨hno,hscan⟩
  · rw [hscan]
    refine ⟨(find?_eq_some_iff_append.mpr ⟨(hp m).mpr hm,before,after,hl,fun x hx => ?_⟩).symm,nofun,fun hno => ?_⟩
    · rw [Bool.not_eq_true',← Bool.not_eq_true,hp]
      exact hbefore x hx
    · exact absurd hm.1 (not_le.mpr (hno m (hl ▸ mem_append_right before mem_cons_self)))
  · rw [hscan]
    refine ⟨(find?_eq_none.mpr (fun x hx => ?_)).symm,fun _ => hno,fun _ => rfl⟩
    rw [hp]
    exact fun hc => absurd hc.1 (not_le.mpr (hno x hx))

/-- LONG_MIN is its own negation, and no message is of a type up to that. -/
theorem selected_long_min (except : Bool) (ht : ∀ m∈l, 1 ≤ m.mType) : selected (-2^63) except l=none := by
  have hmode : convertMode (-2^63) except=(-2^63,.lessequal) := rfl
  unfold selected
  rw [hmode]
  rcases scanMessages_least (-2^63) none ht with ⟨m,before,after,hl,hm,-⟩|⟨-,hscan⟩
  · have hone := ht m (hl ▸ mem_append_right before mem_cons_self)
    have hle := hm.1
    omega
  · exact hscan

/-- For every long msgtyp but LONG_MIN msgrcv selects the oldest of the messages that the caller
prefers, and none exactly if there is none that it may get. For LONG_MIN it selects none. -/
theorem msgrcv_selects_preferred {l : List MsgMsg} {msgtyp : ℤ} (except : Bool) (ht : ∀ m∈l, 1 ≤ m.mType)
    (hmax : msgtyp<2^63) : (-2^63 < msgtyp → selected msgtyp except l=l.find? (preferred msgtyp except l) ∧
      (selected msgtyp except l=none ↔ ∀ m∈l, qualifies msgtyp except m=false)) ∧
    (msgtyp= -2^63 → selected msgtyp except l=none) := by
  refine ⟨fun hmin => ?_,fun heq => heq ▸ selected_long_min except ht⟩
  unfold selected convertMode
  by_cases hz : msgtyp=0
  · rw [if_pos hz]
    exact selects_first nofun hz.ge (fun m => if_pos hz)
  rw [if_neg hz]
  by_cases hneg : msgtyp<0
  · rw [if_pos hneg]
    have habs : (-msgtyp).bmod (2^64)=|msgtyp| := by
      rw [abs_of_neg hneg]
      exact Int.bmod_eq_of_le (by omega) (by omega)
    dsimp only
    rw [habs]
    exact selects_least except ht hneg
  rw [if_neg hneg]
  by_cases he : except=true
  · rw [if_pos he]
    exact selects_first nofun (not_lt.mp hneg) (fun m => by rw [qualifies,if_neg hz,if_neg hneg,if_pos he]; rfl)
  · rw [if_neg he]
    exact selects_first nofun (not_lt.mp hneg) (fun m => by rw [qualifies,if_neg hz,if_neg hneg,if_neg he]; rfl)

/-- The older of two messages of type 2 is selected for type -3. -/
theorem msgrcv_selects_preferred_least : selected (-3) false [⟨0,4,1⟩,⟨1,2,1⟩,⟨2,3,1⟩,⟨3,2,1⟩]=some ⟨1,2,1⟩ := by
  rw [((msgrcv_selects_preferred false (by decide) (by decide)).1 (by decide)).1]
  decide

theorem msgrcv_misses_long_min : selected (-2^63) false [⟨0,1,1⟩]=none ∧ qualifies (-2^63) false ⟨0,1,1⟩=true := by
  decide

end BlockIpc.MsgSelection
