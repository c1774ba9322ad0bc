import BlockIpc.TransitionRuns

/-!
# Rules of blkio cgroups and the groups that use them

A cgroup has a default weight and rules, each for one device and one file. A group copies the
values for its device when it is created; later writes are sent to the groups of the device
number of the rule. A group that is created before its device is registered gets its number with
a later request. When there is no memory for a group of CFQ, the root group of the queue is
linked to the cgroup as well; what else is on its old list then is not followed.
-/

namespace BlockIpc.BlkioRules

open Function List TransitionRuns

/-- The limits of the throttling policy. -/
inductive Limit where
  /-- throttle.read_bps_device. -/
  | readBps
  /-- throttle.write_bps_device. -/
  | writeBps
  /-- throttle.read_iops_device. -/
  | readIops
  /-- throttle.write_iops_device. -/
  | writeIops
  deriving DecidableEq

/-- The files that take rules. -/
inductive File where
  /-- weight_device. -/
  | weight
  | limit (l : Limit)
  deriving DecidableEq

/-- blkio_policy_id. -/
inductive Policy where
  /-- BLKIO_POLICY_PROP. -/
  | prop
  /-- BLKIO_POLICY_THROTL. -/
  | throtl
  deriving DecidableEq

def File.policy : File → Policy
  | .weight => .prop
  | .limit _ => .throtl

/-- blkio_policy_node. -/
structure Rule where
  dev : ℕ
  /-- plid and fileid. -/
  file : File
  val : ℕ
  deriving DecidableEq

structure Cgroup where
  weight : ℕ
  /-- policy_list. -/
  rules : List Rule

/-- A group of CFQ or of the throttling code. -/
structure Group where
  /-- The cgroups whose lists lead to it. -/
  linked : List ℕ
  key : ℕ
  plid : Policy
  dev : ℕ
  /-- weight of a group of CFQ. -/
  weight : ℕ
  newWeight : ℕ
  needsUpdate : Bool
  /-- bps and iops of a group of the throttling code. -/
  limits : Limit → ℕ
  limitsChanged : Bool
  /-- The root_group of a queue. -/
  root : Bool

/-- The cgroups, the groups that are linked to them, and the devices. -/
structure Data where
  /-- The cgroups; 0 is blkio_root_cgroup. -/
  cgroups : ℕ → Cgroup
  groups : ℕ → Option Group
  /-- The number of the next group. -/
  next : ℕ
  /-- The device number of the backing_dev_info of a queue, 0 when it is not registered. -/
  bdiDev : ℕ → ℕ
  /-- The device numbers of the disks that are registered. -/
  disks : List ℕ

/-- BLKIO_WEIGHT_MIN. -/
def weightMin : ℕ := 10

/-- BLKIO_WEIGHT_MAX. -/
def weightMax : ℕ := 1000

/-- BLKIO_WEIGHT_DEFAULT. -/
def weightDefault : ℕ := 500

/-- The value -1 of a limit, of 64 or 32 bits. -/
def unlimited : Limit → ℕ
  | .readBps => 2^64-1
  | .writeBps => 2^64-1
  | .readIops => 2^32-1
  | .writeIops => 2^32-1

/-- What holds without a rule. -/
def Cgroup.default (c : Cgroup) : File → ℕ
  | .weight => c.weight
  | .limit l => unlimited l

/-- A rule is for a device and a file. -/
def Rule.isFor (dev : ℕ) (file : File) (r : Rule) : Bool := decide (r.dev=dev ∧ r.file=file)

/-- blkio_policy_search_node. -/
def searchNode (rules : List Rule) (dev : ℕ) (file : File) : Option Rule := rules.find? (Rule.isFor dev file)

/-- blkcg_get_weight and blkcg_get_read_bps to blkcg_get_write_iops. -/
def blkcgGet (c : Cgroup) (dev : ℕ) (file : File) : ℕ :=
  match searchNode c.rules dev file with
  | some r => r.val
  | none => c.default file

/-- cfq_update_blkio_group_weight and throtl_update_blkio_group_read_bps to
throtl_update_blkio_group_write_iops, for a group that the policy owns. -/
def Group.update (g : Group) (file : File) (v : ℕ) : Group :=
  match file with
  | .weight => {g with newWeight := v, needsUpdate := true}
  | .limit l => {g with limits := Function.update g.limits l v, limitsChanged := true}

/-- blkio_update_group_weight, blkio_update_group_bps and blkio_update_group_iops. -/
def updateGroup (g : Group) (file : File) (v : ℕ) : Group := if file.policy=g.plid then g.update file v else g

/-- blkio_update_blkg_policy. -/
def updateBlkgPolicy (c : Cgroup) (g : Group) (r : Rule) : Group :=
  updateGroup g r.file (if r.val≠0 then r.val else c.default r.file)

/-- Change the groups of a cgroup. -/
def Data.mapGroups (s : Data) (c : ℕ) (f : Group → Group) : Data :=
  {s with groups := fun g => (s.groups g).map (fun x => if c∈x.linked then f x else x)}

def Data.setCgroup (s : Data) (c : ℕ) (x : Cgroup) : Data := {s with cgroups := Function.update s.cgroups c x}

def Data.setGroup (s : Data) (g : ℕ) (x : Option Group) : Data := {s with groups := Function.update s.groups g x}

/-- blkio_update_policy_node_blkg. -/
def updatePolicyNodeBlkg (s : Data) (c : ℕ) (r : Rule) : Data :=
  s.mapGroups c (fun x => if r.dev≠x.dev ∨ r.file.policy≠x.plid then x else updateBlkgPolicy (s.cgroups c) x r)

/-- blkio_update_policy_rule of the rule that the search finds. -/
def updatePolicyRule (new : Rule) : List Rule → List Rule
  | [] => []
  | r::l => if Rule.isFor new.dev new.file r then {r with val := new.val}::l else r::updatePolicyRule new l

/-- The change of policy_list by a write: insert, delete or change a rule. -/
def writeRule (rules : List Rule) (new : Rule) : List Rule :=
  match searchNode rules new.dev new.file with
  | none => if new.val≠0 then new::rules else rules
  | some _ => if new.val=0 then rules.eraseP (Rule.isFor new.dev new.file) else updatePolicyRule new rules

/-- The checks of blkio_policy_parse_and_set on the numbers it has read, with
blkio_check_dev_num. -/
def parsed (s : Data) (r : Rule) : Bool :=
  decide (r.dev∈s.disks) &&
    match r.file with
    | .weight => decide (r.val=0 ∨ (weightMin ≤ r.val ∧ r.val≤weightMax))
    | .limit l => decide (r.val≤unlimited l)

def blkiocgFileWrite (s : Data) (c : ℕ) (r : Rule) : Data :=
  let x := s.cgroups c
  updatePolicyNodeBlkg (s.setCgroup c {x with rules := writeRule x.rules r}) c r

def blkioWeightWrite (s : Data) (c v : ℕ) : Data :=
  if v<weightMin ∨ weightMax<v then s
  else
    let x := {s.cgroups c with weight := v}
    (s.setCgroup c x).mapGroups c (fun g =>
      if (searchNode x.rules g.dev .weight).isSome then g else updateGroup g .weight v)

/-- A group without any values. -/
def zeroGroup : Group := ⟨[],0,.prop,0,0,0,false,fun _ => 0,false,false⟩

def cfqInitAddCfqgLists (s : Data) (c key : ℕ) (x : Group) : Group :=
  {x with
    linked := c::x.linked
    key := key
    dev := s.bdiDev key
    weight := blkcgGet (s.cgroups c) (s.bdiDev key) .weight}

/-- cfq_init_queue: the root group. -/
def cfqRootGroup (key : ℕ) : Group :=
  {zeroGroup with linked := [0], key := key, weight := 2*weightDefault, root := true}

/-- throtl_init_add_tg_lists of a new group. -/
def throtlInitAddTgLists (s : Data) (c key : ℕ) : Group :=
  {zeroGroup with
    linked := [c]
    key := key
    plid := .throtl
    dev := s.bdiDev key
    limits := fun l => blkcgGet (s.cgroups c) (s.bdiDev key) (.limit l)}

/-- cfq_find_cfqg and __throtl_tg_fill_dev_details: the device number is filled in. -/
def fillDevDetails (s : Data) (g : Group) : Group :=
  if g.dev=0 ∧ s.bdiDev g.key≠0 then {g with dev := s.bdiDev g.key} else g

def cfqUpdateGroupWeight (g : Group) : Group :=
  if g.needsUpdate then {g with weight := g.newWeight, needsUpdate := false} else g

/-- throtl_process_limit_change takes note of new limits. -/
def throtlProcessLimitChange (g : Group) : Group := {g with limitsChanged := false}

/-- What can happen. -/
inductive Event where
  /-- A write to the weight file of a cgroup. -/
  | weight (c v : ℕ)
  /-- A write to a rule file of a cgroup. -/
  | rule (c : ℕ) (r : Rule)
  /-- The device of a queue is registered. -/
  | register (key dev : ℕ)
  | cfqGroup (c key : ℕ)
  /-- There is no memory for a group of CFQ, and the root group is taken. -/
  | cfqNoMemory (g c : ℕ)
  /-- CFQ is set up on a queue. -/
  | cfqRoot (key : ℕ)
  /-- The throttling code creates a group, the root group included. -/
  | throtlGroup (c key : ℕ)
  /-- A request finds its group. -/
  | find (g : ℕ)
  /-- CFQ takes over a new weight. -/
  | update (g : ℕ)
  /-- The throttling code takes note of new limits. -/
  | process (g : ℕ)
  | unlink (g : ℕ)

def addGroup (s : Data) (x : Group) : Data := {s.setGroup s.next (some x) with next := s.next+1}

def changeGroup (s : Data) (g : ℕ) (f : Group → Group) : Option Data :=
  (s.groups g).map (fun x => s.setGroup g (some (f x)))

def ruleStep (s : Data) : Event → Option Data
  | .weight c v => some (blkioWeightWrite s c v)
  | .rule c r => some (if parsed s r then blkiocgFileWrite s c r else s)
  | .register key dev =>
    if s.bdiDev key=0 ∧ dev≠0
    then some {s with bdiDev := Function.update s.bdiDev key dev, disks := dev::s.disks} else none
  | .cfqGroup c key => some (addGroup s (cfqInitAddCfqgLists s c key zeroGroup))
  | .cfqNoMemory g c =>
    if (s.groups g).any Group.root then changeGroup s g (fun x => cfqInitAddCfqgLists s c x.key x) else none
  | .cfqRoot key => some (addGroup s (cfqRootGroup key))
  | .throtlGroup c key => some (addGroup s (throtlInitAddTgLists s c key))
  | .find g => changeGroup s g (fillDevDetails s)
  | .update g => changeGroup s g cfqUpdateGroupWeight
  | .process g => changeGroup s g throtlProcessLimitChange
  | .unlink g => some (s.setGroup g none)

/-- There are no rules, groups and devices; blkio_root_cgroup has twice the default weight. -/
def newData : Data := ⟨fun c => ⟨if c=0 then 2*weightDefault else weightDefault,[]⟩,fun _ => none,0,fun _ => 0,[]⟩

/-- All states. -/
def RuleRun : Data → Prop := Reachable (fun s => s=newData) (fun s e t => ruleStep s e=some t)

/-- There is no rule of a policy for a device. -/
def unruled (c : Cgroup) (dev : ℕ) (plid : Policy) : Bool :=
  c.rules.all (fun r => decide (r.dev≠dev ∨ r.file.policy≠plid))

/-- All groups have a property. -/
def Data.allGroups (s : Data) (p : Group → Bool) : Bool := (range s.next).all (fun g => (s.groups g).all p)

/-- As long as a group has no device number, its cgroup gets no rule of its policy for the device of
its queue, and there is none when the device is registered or CFQ is set up. blkio_root_cgroup has its
first weight when CFQ is set up, and there is memory for the groups of CFQ. -/
def timely (s : Data) : Event → Bool
  | .rule c r => s.allGroups (fun x =>
      decide (x.dev≠0 ∨ c∉x.linked ∨ s.bdiDev x.key≠r.dev ∨ x.plid≠r.file.policy))
  | .register key dev => s.allGroups (fun x =>
      decide (x.key≠key) || x.linked.all (fun c => unruled (s.cgroups c) dev x.plid))
  | .cfqRoot key => decide ((s.cgroups 0).weight=2*weightDefault) && unruled (s.cgroups 0) (s.bdiDev key) .prop
  | .cfqNoMemory _ _ => false
  | _ => true

/-- One such event. -/
def timelyStep (s : Data) (e : Event) : Option Data := if timely s e then ruleStep s e else none

/-- The states that such events reach. -/
def TimelyRun : Data → Prop := Reachable (fun s => s=newData) (fun s e t => timelyStep s e=some t)

section

variable {rules : List Rule} {new r : Rule} {dev : ℕ} {file : File}

/-- There is one rule for each device and file. -/
def OneEach (rules : List Rule) : Prop := rules.Pairwise (fun a b => ¬(a.dev=b.dev ∧ a.file=b.file))

/-- The value of a rule. -/
def ruleVal (rules : List Rule) (dev : ℕ) (file : File) : Option ℕ := (searchNode rules dev file).map Rule.val

/-- A rule is for its own device and file. -/
theorem isFor_self (r : Rule) : Rule.isFor r.dev r.file r=true := decide_eq_true ⟨rfl,rfl⟩

theorem ruleVal_cons (r : Rule) (rules : List Rule) (dev : ℕ) (file : File) :
    ruleVal (r::rules) dev file=if Rule.isFor dev file r then some r.val else ruleVal rules dev file := by
  unfold ruleVal searchNode
  rw [find?_cons]
  cases Rule.isFor dev file r <;> rfl

theorem ruleVal_update (new : Rule) (h : ruleVal rules new.dev new.file≠none) (dev : ℕ) (file : File) :
    ruleVal (updatePolicyRule new rules) dev file=
      if new.dev=dev ∧ new.file=file then some new.val else ruleVal rules dev file := by
  induction rules with
  | nil => exact absurd rfl h
  | cons r rules ih =>
    unfold updatePolicyRule
    by_cases hr : Rule.isFor new.dev new.file r=true
    · rw [if_pos hr,ruleVal_cons,ruleVal_cons]
      obtain ⟨hd,hf⟩ := of_decide_eq_true hr
      have hsame : Rule.isFor dev file {r with val := new.val}=Rule.isFor dev file r := rfl
      rw [hsame]
      unfold Rule.isFor
      rw [hd,hf]
      by_cases hk : new.dev=dev ∧ new.file=file
      · simp [hk]
      · simp [hk]
    · rw [if_neg hr,ruleVal_cons,ruleVal_cons]
      rw [ruleVal_cons,if_neg hr] at h
      rw [ih h]
      by_cases hk : new.dev=dev ∧ new.file=file
      · rw [← hk.1,← hk.2]
        simp [hr]
      · simp [hk]

theorem ruleVal_erase (hone : OneEach rules) (h : ruleVal rules new.dev new.file≠none) (dev : ℕ) (file : File) :
    ruleVal (rules.eraseP (Rule.isFor new.dev new.file)) dev file=
      if new.dev=dev ∧ new.file=file then none else ruleVal rules dev file := by
  induction rules with
  | nil => exact absurd rfl h
  | cons r rules ih =>
    obtain ⟨hother,hrest⟩ := pairwise_cons.mp hone
    by_cases hr : Rule.isFor new.dev new.file r=true
    · rw [eraseP_cons_of_pos hr,ruleVal_cons]
      obtain ⟨hd,hf⟩ := of_decide_eq_true hr
      unfold Rule.isFor
      rw [hd,hf]
      by_cases hk : new.dev=dev ∧ new.file=file
      · rw [if_pos hk]
        unfold ruleVal searchNode
        rw [Option.map_eq_none_iff,find?_eq_none]
        intro a ha hc
        obtain ⟨hda,hfa⟩ := of_decide_eq_true hc
        exact hother a ha ⟨hd.trans (hk.1.trans hda.symm),hf.trans (hk.2.trans hfa.symm)⟩
      · simp [hk]
    · rw [eraseP_cons_of_neg hr,ruleVal_cons,ruleVal_cons]
      rw [ruleVal_cons,if_neg hr] at h
      rw [ih hrest h]
      by_cases hk : new.dev=dev ∧ new.file=file
      · rw [← hk.1,← hk.2]
        simp [hr]
      · simp [hk]

theorem ruleVal_write (hone : OneEach rules) (new : Rule) (dev : ℕ) (file : File) :
    ruleVal (writeRule rules new) dev file=
      if new.dev=dev ∧ new.file=file then (if new.val=0 then none else some new.val) else ruleVal rules dev file := by
  unfold writeRule
  cases hs : searchNode rules new.dev new.file with
  | none =>
    have hnone : ruleVal rules new.dev new.file=none := by
      unfold ruleVal
      rw [hs]
      rfl
    by_cases hv : new.val=0
    · simp only [hv,ne_eq,not_true_eq_false,if_false,if_true]
      by_cases hk : new.dev=dev ∧ new.file=file
      · rw [if_pos hk,← hk.1,← hk.2]
        exact hnone
      · rw [if_neg hk]
    · simp only [hv,ne_eq,not_false_eq_true,if_true,if_false]
      rw [ruleVal_cons]
      simp [Rule.isFor]
  | some r =>
    have hsome : ruleVal rules new.dev new.file≠none := by
      unfold ruleVal
      rw [hs]
      nofun
    by_cases hv : new.val=0
    · simp only [hv,if_true]
      exact ruleVal_erase hone hsome dev file
    · simp only [hv,if_false]
      exact ruleVal_update new hsome dev file

/-- A changed rule has the device and the file of an old one, and an old or the new value. -/
theorem updatePolicyRule_mem (hr : r∈updatePolicyRule new rules) :
    ∃ a∈rules, a.dev=r.dev ∧ a.file=r.file ∧ (r.val=a.val ∨ r.val=new.val) := by
  induction rules with
  | nil => cases hr
  | cons b rules ih =>
    unfold updatePolicyRule at hr
    split at hr
    · rcases mem_cons.mp hr with hr|hr
      · rw [hr]
        exact ⟨b,mem_cons_self,rfl,rfl,.inr rfl⟩
      · exact ⟨r,mem_cons_of_mem b hr,rfl,rfl,.inl rfl⟩
    · rcases mem_cons.mp hr with hr|hr
      · rw [hr]
        exact ⟨b,mem_cons_self,rfl,rfl,.inl rfl⟩
      · obtain ⟨a,ha,hab⟩ := ih hr
        exact ⟨a,mem_cons_of_mem b ha,hab⟩

/-- A changed list has one rule for each device and file. -/
theorem OneEach.update (h : OneEach rules) (new : Rule) : OneEach (updatePolicyRule new rules) := by
  induction rules with
  | nil => exact List.Pairwise.nil
  | cons b rules ih =>
    obtain ⟨hb,hrest⟩ := pairwise_cons.mp h
    unfold updatePolicyRule
    split
    · exact pairwise_cons.mpr ⟨hb,hrest⟩
    · refine pairwise_cons.mpr ⟨fun c hc => ?_,ih hrest⟩
      obtain ⟨a,ha,hd,hf,_⟩ := updatePolicyRule_mem hc
      rw [← hd,← hf]
      exact hb a ha

/-- A write keeps one rule for each device and file. -/
theorem OneEach.write (h : OneEach rules) (new : Rule) : OneEach (writeRule rules new) := by
  unfold writeRule
  split
  · rename_i hs
    split
    · refine pairwise_cons.mpr ⟨fun a ha hk => ?_,h⟩
      have hnone := find?_eq_none.mp hs a ha
      rw [hk.1,hk.2] at hnone
      exact hnone (isFor_self a)
    · exact h
  · split
    · exact h.sublist eraseP_sublist
    · exact h.update new

theorem writeRule_mem (hr : r∈writeRule rules new) :
    (∃ a∈rules, a.dev=r.dev ∧ a.file=r.file ∧ (a.val≠0 → r.val≠0)) ∨ r=new ∧ new.val≠0 := by
  have hkeep : r∈rules → ∃ a∈rules, a.dev=r.dev ∧ a.file=r.file ∧ (a.val≠0 → r.val≠0) :=
    fun hr => ⟨r,hr,rfl,rfl,id⟩
  unfold writeRule at hr
  split at hr
  · split at hr
    case isTrue hv => exact (mem_cons.mp hr).symm.imp hkeep (fun hr => ⟨hr,hv⟩)
    case isFalse => exact .inl (hkeep hr)
  · split at hr
    case isTrue => exact .inl (hkeep (mem_of_mem_eraseP hr))
    case isFalse hv =>
      obtain ⟨a,ha,hd,hf,hval⟩ := updatePolicyRule_mem hr
      refine .inl ⟨a,ha,hd,hf,fun h0 => ?_⟩
      rcases hval with hval|hval
      · exact hval ▸ h0
      · exact hval ▸ hv

end

section

variable {s t : Data} {x y : Group} {g c key v : ℕ} {file : File}

/-- The value that a group uses, or has pending. -/
def Group.value (x : Group) : File → ℕ
  | .weight => if x.needsUpdate then x.newWeight else x.weight
  | .limit l => x.limits l

/-- A group agrees with the rules of a cgroup for its device number. -/
def Agrees (c : Cgroup) (x : Group) : Prop := ∀ file, file.policy=x.plid → x.value file=blkcgGet c x.dev file

/-- What holds for a group: its device number is that of its queue, unless it has none yet. -/
structure GroupOk (cgroups : ℕ → Cgroup) (bdiDev : ℕ → ℕ) (x : Group) : Prop where
  dev : x.dev=0 ∨ x.dev=bdiDev x.key
  link : ∃ c, x.linked=[c] ∧ (x.dev=0 → unruled (cgroups c) (bdiDev x.key) x.plid=true) ∧ Agrees (cgroups c) x

/-- What holds for all cgroups and groups. -/
structure RuleInv (s : Data) : Prop where
  /-- There is one rule for each device and file. -/
  one : ∀ c, OneEach (s.cgroups c).rules
  /-- A rule has a value and a device. -/
  sound : ∀ c, ∀ r∈(s.cgroups c).rules, r.val≠0 ∧ r.dev≠0
  /-- Disks have device numbers. -/
  disks : ∀ d∈s.disks, d≠0
  fresh : ∀ g, s.next≤g → s.groups g=none
  /-- Groups agree with the rules. -/
  group : ∀ g x, s.groups g=some x → GroupOk s.cgroups s.bdiDev x

/-- The value of a rule, or the default. -/
theorem blkcgGet_eq (c : Cgroup) (dev : ℕ) (file : File) :
    blkcgGet c dev file=(ruleVal c.rules dev file).getD (c.default file) := by
  unfold blkcgGet ruleVal
  cases searchNode c.rules dev file <;> rfl

/-- Two groups are for the same. -/
def Same (x y : Group) : Prop := x.linked=y.linked ∧ x.plid=y.plid ∧ x.dev=y.dev ∧ x.key=y.key

theorem update_value (x : Group) (f file : File) (v : ℕ) :
    (x.update f v).value file=if f=file then v else x.value file := by
  cases f with
  | weight =>
    cases file with
    | weight | limit l => rfl
  | limit k =>
    cases file with
    | weight => rfl
    | limit l =>
      change update x.limits k v l=_
      by_cases hkl : k=l
      · rw [hkl,update_self,if_pos rfl]
      · rw [update_of_ne (Ne.symm hkl),if_neg (fun he => hkl (File.limit.inj he))]
        rfl

/-- An update by another policy changes nothing, so the values of the policy of a group are the
updated ones. -/
theorem updateGroup_value {f : File} (hp : file.policy=x.plid) (v : ℕ) :
    (updateGroup x f v).value file=if f=file then v else x.value file := by
  unfold updateGroup
  by_cases hf : f.policy=x.plid
  · rw [if_pos hf]
    exact update_value x f file v
  · rw [if_neg hf,if_neg (fun he : f=file => hf (he ▸ hp))]

theorem updateGroup_same (x : Group) (file : File) (v : ℕ) : Same (updateGroup x file v) x := by
  unfold updateGroup
  split
  · cases file <;> exact ⟨rfl,rfl,rfl,rfl⟩
  · exact ⟨rfl,rfl,rfl,rfl⟩

theorem ruleVal_of_unruled {z : Cgroup} {dev : ℕ} {plid : Policy} (h : unruled z dev plid=true)
    (hp : file.policy=plid) : ruleVal z.rules dev file=none := by
  refine Option.map_eq_none_iff.mpr (find?_eq_none.mpr (fun r hr hc => ?_))
  obtain ⟨hd,hf⟩ := of_decide_eq_true hc
  exact (of_decide_eq_true (all_eq_true.mp h r hr)).elim (fun hne => hne hd) (fun hne => hne (hf ▸ hp))

/-- No rule is for the device number 0. -/
theorem RuleInv.unruled_zero (h : RuleInv s) (c : ℕ) (plid : Policy) : unruled (s.cgroups c) 0 plid=true :=
  all_eq_true.mpr (fun r hr => decide_eq_true (.inl (h.sound c r hr).2))

/-- A group with the device number of its queue. -/
theorem RuleInv.ok_of_dev (h : RuleInv s) (hd : x.dev=s.bdiDev x.key) (hl : x.linked=[c])
    (hag : Agrees (s.cgroups c) x) : GroupOk s.cgroups s.bdiDev x := by
  refine ⟨.inr hd,c,hl,fun h0 => ?_,hag⟩
  rw [← hd,h0]
  exact h.unruled_zero c x.plid

theorem RuleInv.allGroups (h : RuleInv s) {p : Group → Bool} (hp : s.allGroups p=true) (hx : s.groups g=some x) :
    p x=true := by
  have hg : g<s.next := by
    by_contra hge
    rw [h.fresh g (not_lt.mp hge)] at hx
    cases hx
  have hall := all_eq_true.mp hp g (mem_range.mpr hg)
  rwa [hx] at hall

/-- The rules for the device of the queue are those for the device number. -/
theorem RuleInv.get_dev (h : RuleInv s) (hx : GroupOk s.cgroups s.bdiDev x) (hc : c∈x.linked)
    (hp : file.policy=x.plid) : blkcgGet (s.cgroups c) x.dev file=blkcgGet (s.cgroups c) (s.bdiDev x.key) file := by
  obtain ⟨d,hd,hearly,-⟩ := hx.link
  rw [hd,mem_singleton] at hc
  subst hc
  by_cases h0 : x.dev=0
  · rw [blkcgGet_eq,blkcgGet_eq,ruleVal_of_unruled (hearly h0) hp,h0,ruleVal_of_unruled (h.unruled_zero c x.plid) hp]
  · rw [hx.dev.resolve_left h0]

theorem RuleInv.add (h : RuleInv s) (hx : GroupOk s.cgroups s.bdiDev x) : RuleInv (addGroup s x) := by
  refine ⟨h.one,h.sound,h.disks,fun q hq => ?_,fun q y hq => ?_⟩
  · change s.next+1≤q at hq
    exact (update_of_ne (by omega) ..).trans (h.fresh q (by omega))
  · change update s.groups s.next (some x) q=some y at hq
    by_cases hqn : q=s.next
    · rw [hqn,update_self] at hq
      exact Option.some.inj hq ▸ hx
    · rw [update_of_ne hqn] at hq
      exact h.group q y hq

/-- A group is changed or unlinked. -/
theorem RuleInv.setGroup (h : RuleInv s) {o : Option Group} (hg : o=none ∨ (s.groups g).isSome)
    (ho : ∀ x, o=some x → GroupOk s.cgroups s.bdiDev x) : RuleInv (s.setGroup g o) := by
  refine ⟨h.one,h.sound,h.disks,fun q hq => ?_,fun q x hq => ?_⟩
  · change update s.groups g o q=none
    have hnone := h.fresh q hq
    by_cases hqg : q=g
    · rw [hqg,update_self]
      rw [hqg] at hnone
      exact hg.resolve_right (by rw [hnone]; exact Bool.false_ne_true)
    · exact (update_of_ne hqg ..).trans hnone
  · change update s.groups g o q=some x at hq
    by_cases hqg : q=g
    · rw [hqg,update_self] at hq
      exact ho x hq
    · rw [update_of_ne hqg] at hq
      exact h.group q x hq

theorem RuleInv.change (h : RuleInv s) {f : Group → Group}
    (hf : ∀ x, s.groups g=some x → GroupOk s.cgroups s.bdiDev x → GroupOk s.cgroups s.bdiDev (f x))
    (hs : changeGroup s g f=some t) : RuleInv t := by
  obtain ⟨x,hx,rfl⟩ := Option.map_eq_some_iff.mp hs
  exact h.setGroup (.inr (by rw [hx]; rfl)) (fun y hy => Option.some.inj hy ▸ hf x hx (h.group g x hx))

/-- All groups of a cgroup change with its rules or its weight. -/
theorem RuleInv.mapGroups (h : RuleInv s) {z : Cgroup} {f : Group → Group} (hone : OneEach z.rules)
    (hsound : ∀ r∈z.rules, r.val≠0 ∧ r.dev≠0) (hsame : ∀ x, Same (f x) x)
    (hearly : ∀ g x, s.groups g=some x → c∈x.linked → x.dev=0 → unruled (s.cgroups c) (s.bdiDev x.key) x.plid=true →
      unruled z (s.bdiDev x.key) x.plid=true)
    (hf : ∀ x, Agrees (s.cgroups c) x → Agrees z (f x)) : RuleInv ((s.setCgroup c z).mapGroups c f) := by
  have hself : ((s.setCgroup c z).mapGroups c f).cgroups c=z := update_self ..
  have hother : ∀ d, d≠c → ((s.setCgroup c z).mapGroups c f).cgroups d=s.cgroups d := fun d hd => update_of_ne hd ..
  refine ⟨fun d => ?_,fun d => ?_,h.disks,fun q hq => Option.map_eq_none_iff.mpr (h.fresh q hq),fun q x hq => ?_⟩
  · by_cases hd : d=c
    · rw [hd,hself]
      exact hone
    · rw [hother d hd]
      exact h.one d
  · by_cases hd : d=c
    · rw [hd,hself]
      exact hsound
    · rw [hother d hd]
      exact h.sound d
  · obtain ⟨y,hy,hyx⟩ := Option.map_eq_some_iff.mp hq
    obtain ⟨hdev,d,hd,hunruled,hag⟩ := h.group q y hy
    split at hyx
    case isTrue hyc =>
      obtain rfl : c=d := mem_singleton.mp (hd ▸ hyc)
      obtain ⟨hl,hp,hv,hk⟩ := hsame y
      rw [hyx] at hl hp hv hk
      refine ⟨by rw [hv,hk]; exact hdev,c,hl.trans hd,fun h0 => ?_,by rw [hself,← hyx]; exact hf y hag⟩
      rw [hself,hk,hp]
      exact hearly q y hy hyc (hv ▸ h0) (hunruled (hv ▸ h0))
    case isFalse hyc =>
      have hne : d≠c := fun hdc => hyc (hd ▸ mem_singleton.mpr hdc.symm)
      rw [← hyx]
      refine ⟨hdev,d,hd,?_⟩
      rw [hother d hne]
      exact ⟨hunruled,hag⟩

theorem RuleInv.weightWrite (h : RuleInv s) (c v : ℕ) : RuleInv (blkioWeightWrite s c v) := by
  unfold blkioWeightWrite
  split
  case isTrue => exact h
  case isFalse =>
    have hsame := fun x : Group => updateGroup_same x .weight v
    refine h.mapGroups (h.one c) (h.sound c) (fun x => ?_) (fun _ _ _ _ _ => id) (fun x hx => ?_)
    · dsimp only
      split
      · exact ⟨rfl,rfl,rfl,rfl⟩
      · exact hsame x
    · dsimp only
      split
      case isTrue hs =>
        intro file hp
        rw [hx file hp,blkcgGet_eq,blkcgGet_eq]
        cases file with
        | weight =>
          obtain ⟨r,hr⟩ := Option.isSome_iff_exists.mp hs
          have hval : ruleVal (s.cgroups c).rules x.dev .weight=some r.val := congrArg (Option.map Rule.val) hr
          rw [hval]
          rfl
        | limit l => rfl
      case isFalse hs =>
        intro file hp
        rw [(hsame x).2.1] at hp
        rw [updateGroup_value hp,(hsame x).2.2.1,blkcgGet_eq]
        cases file with
        | weight =>
          have hnone : ruleVal (s.cgroups c).rules x.dev .weight=none :=
            Option.map_eq_none_iff.mpr (Option.not_isSome_iff_eq_none.mp hs)
          rw [if_pos rfl,hnone]
          rfl
        | limit l =>
          rw [if_neg nofun,hx _ hp,blkcgGet_eq]
          rfl

/-- What a file reads after a rule is written. -/
theorem blkcgGet_write {z : Cgroup} (hone : OneEach z.rules) (r : Rule) (dev : ℕ) (file : File) :
    blkcgGet {z with rules := writeRule z.rules r} dev file=
      if r.dev=dev ∧ r.file=file then (if r.val≠0 then r.val else z.default file) else blkcgGet z dev file := by
  have hd : Cgroup.default {z with rules := writeRule z.rules r} file=z.default file := by
    cases file <;> rfl
  rw [blkcgGet_eq,blkcgGet_eq,ruleVal_write hone r dev file,hd]
  by_cases hk : r.dev=dev ∧ r.file=file
  · rw [if_pos hk,if_pos hk]
    by_cases hv : r.val=0
    · simp [hv]
    · simp [hv]
  · rw [if_neg hk,if_neg hk]

theorem RuleInv.fileWrite (h : RuleInv s) (c : ℕ) {r : Rule} (hr : r.dev≠0) (hm : timely s (.rule c r)=true) :
    RuleInv (blkiocgFileWrite s c r) := by
  have hone := h.one c
  let z : Cgroup := {s.cgroups c with rules := writeRule (s.cgroups c).rules r}
  have hz : (s.setCgroup c z).cgroups c=z := update_self ..
  change RuleInv ((s.setCgroup c z).mapGroups c (fun x =>
    if r.dev≠x.dev ∨ r.file.policy≠x.plid then x else updateBlkgPolicy ((s.setCgroup c z).cgroups c) x r))
  rw [hz]
  have hget (dev : ℕ) (file : File) : blkcgGet z dev file=_ := blkcgGet_write hone r dev file
  have hsame := fun x : Group => updateGroup_same x r.file (if r.val≠0 then r.val else z.default r.file)
  refine h.mapGroups (hone.write r) (fun a ha => ?_) (fun x => ?_)
    (fun g x hx hc h0 hno => all_eq_true.mpr (fun a ha => ?_))
    (fun x hx => ?_)
  · rcases writeRule_mem ha with ⟨b,hb,hd,-,hv⟩|⟨rfl,hv⟩
    · exact ⟨hv (h.sound c b hb).1,hd ▸ (h.sound c b hb).2⟩
    · exact ⟨hv,hr⟩
  · split
    · exact ⟨rfl,rfl,rfl,rfl⟩
    · exact hsame x
  · rcases writeRule_mem ha with ⟨b,hb,hd,hfile,-⟩|⟨rfl,-⟩
    · rw [← hd,← hfile]
      exact all_eq_true.mp hno b hb
    · have hwait := of_decide_eq_true (h.allGroups hm hx)
      refine decide_eq_true ?_
      rcases hwait with hne|hne|hne|hne
      · exact absurd h0 hne
      · exact absurd hc hne
      · exact .inl hne.symm
      · exact .inr hne.symm
  · split
    case isTrue hno =>
      intro file hp
      rw [hget,hx file hp,if_neg]
      rintro ⟨hd,hf⟩
      rcases hno with hno|hno
      · exact hno hd
      · exact hno (hf ▸ hp)
    case isFalse hyes =>
      obtain ⟨hd,_⟩ := not_or.mp hyes
      intro file hp
      unfold updateBlkgPolicy at hp ⊢
      rw [(hsame x).2.1] at hp
      rw [updateGroup_value hp,(hsame x).2.2.1,hget,hx file hp]
      by_cases hf : r.file=file
      · have hk : r.dev=x.dev ∧ r.file=file := ⟨not_not.mp hd,hf⟩
        rw [if_pos hf,if_pos hk,hf]
        cases file <;> rfl
      · rw [if_neg hf,if_neg (fun hk => hf hk.2)]

theorem RuleInv.step {e : Event} (h : RuleInv s) (hm : timely s e=true) (hs : ruleStep s e=some t) : RuleInv t := by
  cases e with
  | weight c v =>
    cases hs
    exact h.weightWrite c v
  | rule c r =>
    cases hs
    split
    case isTrue hp =>
      have hd : r.dev∈s.disks := of_decide_eq_true (Bool.and_eq_true_iff.mp hp).1
      exact h.fileWrite c (h.disks _ hd) hm
    case isFalse => exact h
  | register key dev =>
    obtain ⟨⟨h0,hd⟩,rfl⟩ := of_guard hs
    refine ⟨h.one,h.sound,fun d hin => ?_,h.fresh,fun g x hx => ?_⟩
    · exact (mem_cons.mp hin).elim (fun hin => hin ▸ hd) (h.disks d)
    · obtain ⟨hdev,c,hc,hunruled,hag⟩ := h.group g x hx
      by_cases hk : x.key=key
      · have hrules := h.allGroups hm hx
        rw [hk,h0,or_self] at hdev
        simp only [hk,ne_eq,not_true_eq_false,decide_false,Bool.false_or,hc,all_cons,all_nil,Bool.and_true] at hrules
        refine ⟨.inl hdev,c,hc,fun _ => ?_,hag⟩
        change unruled (s.cgroups c) (update s.bdiDev key dev x.key) x.plid=true
        rwa [hk,update_self]
      · have hsame : update s.bdiDev key dev x.key=s.bdiDev x.key := update_of_ne hk ..
        change GroupOk s.cgroups (update s.bdiDev key dev) x
        refine ⟨?_,c,hc,?_,hag⟩
        · rwa [hsame]
        · rwa [hsame]
  | cfqGroup c key =>
    cases hs
    refine h.add (h.ok_of_dev rfl (c := c) rfl (fun file hp => ?_))
    cases file with
    | weight => rfl
    | limit l => cases hp
  | cfqNoMemory g c => cases hm
  | cfqRoot key =>
    cases hs
    obtain ⟨hw,hrules⟩ := Bool.and_eq_true_iff.mp hm
    refine h.add ⟨.inl rfl,0,rfl,fun _ => hrules,fun file hp => ?_⟩
    cases file with
    | weight =>
      change 2*weightDefault=blkcgGet (s.cgroups 0) 0 .weight
      rw [blkcgGet_eq,ruleVal_of_unruled (h.unruled_zero 0 .prop) rfl]
      exact (of_decide_eq_true hw).symm
    | limit l => cases hp
  | throtlGroup c key =>
    cases hs
    refine h.add (h.ok_of_dev rfl (c := c) rfl (fun file hp => ?_))
    cases file with
    | weight => cases hp
    | limit l => rfl
  | find g =>
    refine h.change (fun x _ hx => ?_) hs
    unfold fillDevDetails
    split
    case isTrue hc =>
      obtain ⟨c,hl,hearly,hag⟩ := hx.link
      refine h.ok_of_dev rfl hl (fun file hp => ?_)
      change x.value file=_
      rw [hag file hp]
      exact h.get_dev hx (hl ▸ mem_singleton_self c) hp
    case isFalse => exact hx
  | update g =>
    refine h.change (fun x _ hx => ?_) hs
    unfold cfqUpdateGroupWeight
    split
    case isTrue hn =>
      obtain ⟨c,hl,hearly,hag⟩ := hx.link
      refine ⟨hx.dev,c,hl,hearly,fun file hp => (?_ : _=x.value file).trans (hag file hp)⟩
      cases file with
      | weight => exact (if_pos hn).symm
      | limit l => rfl
    case isFalse => exact hx
  | process g =>
    refine h.change (f := throtlProcessLimitChange) (fun x _ hx => ?_) hs
    obtain ⟨c,hl,hearly,hag⟩ := hx.link
    refine ⟨hx.dev,c,hl,hearly,fun file hp => (?_ : _=x.value file).trans (hag file hp)⟩
    cases file <;> rfl
  | unlink g =>
    cases hs
    exact h.setGroup (.inl rfl) nofun

theorem RuleInv.run (h : TimelyRun s) : RuleInv s := by
  refine Reachable.invariant (I := RuleInv) (fun t ht => ?_) (fun _ _ _ _ hi hs => ?_) h
  · rw [ht]
    exact ⟨fun _ => List.Pairwise.nil,nofun,nofun,fun _ _ => rfl,nofun⟩
  · obtain ⟨hm,hstep⟩ := Option.ite_none_right_eq_some.mp hs
    exact hi.step hm hstep

end

/-- Every group has the value of the rule of its cgroup for the device of its queue, or the default, for
each file of its policy; a cgroup has at most one rule for each device and file; and no limit of the
throttling code is 0. -/
theorem rules_agree_of_timely {s : Data} (h : TimelyRun s) :
    (∀ g x, s.groups g=some x → ∀ c∈x.linked, ∀ file, file.policy=x.plid →
      x.value file=blkcgGet (s.cgroups c) (s.bdiDev x.key) file) ∧
      (∀ c dev file, ((s.cgroups c).rules.filter (Rule.isFor dev file)).length≤1) ∧
      ∀ g x l, s.groups g=some x → x.plid=.throtl → x.limits l≠0 := by
  have hi := RuleInv.run h
  refine ⟨fun g x hx c hc file hp => ?_,fun c dev file => ?_,fun g x l hx hp => ?_⟩
  · have hok := hi.group g x hx
    obtain ⟨d,hd,-,hag⟩ := hok.link
    rw [← hi.get_dev hok hc hp]
    rw [hd,mem_singleton] at hc
    exact hc ▸ hag file hp
  · have hone := (hi.one c).filter (Rule.isFor dev file)
    have hfor : ∀ r∈(s.cgroups c).rules.filter (Rule.isFor dev file), r.dev=dev ∧ r.file=file :=
      fun r hr => of_decide_eq_true (mem_filter.mp hr).2
    cases hl : (s.cgroups c).rules.filter (Rule.isFor dev file) with
    | nil => exact Nat.zero_le 1
    | cons a l =>
      cases l with
      | nil => exact Nat.le_refl 1
      | cons b l =>
        rw [hl] at hone hfor
        have ha := hfor a mem_cons_self
        have hb := hfor b (mem_cons_of_mem a mem_cons_self)
        have hne := (pairwise_cons.mp hone).1 b mem_cons_self
        exact absurd ⟨ha.1.trans hb.1.symm,ha.2.trans hb.2.symm⟩ hne
  · obtain ⟨c,-,-,hag⟩ := (hi.group g x hx).link
    have hval := hag (.limit l) hp.symm
    change x.limits l=_ at hval
    rw [hval,blkcgGet]
    split
    · rename_i r hr
      exact (hi.sound _ r (mem_of_find?_eq_some hr)).1
    · change unlimited l≠0
      cases l <;> decide

/-- A group of the throttling code is created before its device is registered and gets its number with
a request; it follows the rule for its device, and is unlimited once the rule is deleted. A group of
CFQ on the same queue has the weight of its cgroup. -/
theorem rules_agree_of_timely_deleted : ∃ s x, TimelyRun s ∧ s.groups 0=some x ∧ x.value (.limit .readBps)=2^64-1 ∧
      x.value (.limit .readBps)=blkcgGet (s.cgroups 1) 8 (.limit .readBps) := by
  obtain ⟨s,hrun,hv⟩ : ∃ s, TimelyRun s ∧
      (s.groups 0).map (fun x => (x.linked,x.plid,s.bdiDev x.key,x.value (.limit .readBps)))=
        some ([1],.throtl,8,2^64-1) :=
    exists_run (fun _ _ _ => id) rfl [.throtlGroup 1 1,.register 1 8,.find 0,.cfqGroup 1 1,
      .rule 1 ⟨8,.limit .readBps,1024⟩,.process 0,.weight 1 700,.rule 1 ⟨8,.limit .readBps,0⟩] (by decide)
  obtain ⟨x,hx,hp⟩ := Option.map_eq_some_iff.mp hv
  simp only [Prod.mk.injEq] at hp
  obtain ⟨hl,hplid,hdev,hval⟩ := hp
  have hag := (rules_agree_of_timely hrun).1 0 x hx 1 (by rw [hl]; decide) (.limit .readBps) hplid.symm
  rw [hdev] at hag
  exact ⟨s,x,hrun,hx,hval,hag⟩

/-- What a group uses, with what the rules of a cgroup say for the device of its queue. -/
def compare (s : Data) (g c : ℕ) (file : File) : Option (Bool × ℕ × ℕ) :=
  (s.groups g).map (fun x => (decide (c∈x.linked),x.value file,blkcgGet (s.cgroups c) (s.bdiDev x.key) file))

/-- There is a rule for a device when CFQ is set up on it: the root group has another weight. A group
without device number misses a rule. When there is no memory for a group, the root group gets the
weight of another cgroup. -/
theorem rules_disagree : (∃ s, RuleRun s ∧ compare s 0 0 .weight=some (true,1000,200)) ∧
    (∃ s, RuleRun s ∧ compare s 0 1 (.limit .readIops)=some (true,2^32-1,30)) ∧
    ∃ s, RuleRun s ∧ compare s 0 0 .weight=some (true,100,1000) :=
  ⟨exists_run (fun _ _ _ => id) rfl [.register 1 8,.rule 0 ⟨8,.weight,200⟩,.cfqRoot 1,.find 0] (by decide),
    exists_run (fun _ _ _ => id) rfl [.throtlGroup 1 1,.register 1 8,.rule 1 ⟨8,.limit .readIops,30⟩] (by decide),
    exists_run (fun _ _ _ => id) rfl [.register 1 8,.cfqRoot 1,.weight 1 100,.cfqNoMemory 0 1] (by decide)⟩

end BlockIpc.BlkioRules
