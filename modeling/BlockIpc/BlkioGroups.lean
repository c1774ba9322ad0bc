import BlockIpc.IntrusiveLists
import BlockIpc.TransitionRuns

/-!
# Finding or creating the group of a cgroup on a queue

A task looks for the group of its cgroup on a queue, drops the locks to allocate one when
there is none, and looks again. cfq_get_cfqg and throtl_get_tg differ in what they do when the
allocation fails or comes too late. The model has both, over any number of tasks that change
their cgroup at any time, and the tree of the groups of CFQ with its sum of weights. Group and
cgroup 0 are the root ones.
-/

namespace BlockIpc.BlkioGroups

open Function List IntrusiveLists TransitionRuns

/-- The policy a group belongs to. -/
inductive Policy where
  /-- cfq_get_cfqg. -/
  | cfq
  /-- throtl_get_tg. -/
  | throtl
  deriving DecidableEq

/-- A weight and the cgroup it is the weight of. -/
structure Weight where
  value : ℕ
  source : ℕ
  deriving DecidableEq

def blkioWeightMin : ℕ := 10

def blkioWeightMax : ℕ := 1000

inductive Phase where
  | out
  /-- It dropped the locks, with the nesting of RCU that it entered with. -/
  | allocating (entry : ℤ)
  /-- The allocation returned a group or NULL. -/
  | allocated (entry : ℤ) (new : Option ℕ)
  deriving DecidableEq

structure Task where
  cgroup : ℕ
  /-- Its nesting of rcu_read_lock. -/
  rcu : ℤ
  phase : Phase
  deriving DecidableEq

/-- The groups of one policy on one queue. -/
structure Queue where
  /-- The blkg_list of each cgroup, as far as it has groups of this queue. -/
  cgroup : ℕ → List ℕ
  /-- cfqg_list or tg_list. -/
  own : List ℕ
  weight : ℕ → Weight
  newWeight : ℕ → Weight
  needsUpdate : ℕ → Bool
  nrCfqq : ℕ → ℕ
  /-- The groups on grp_service_tree. -/
  tree : List ℕ
  /-- total_weight of grp_service_tree. -/
  totalWeight : ℤ
  /-- The groups whose area of statistics is allocated. -/
  areas : List ℕ
  /-- The number of group addresses that were used. -/
  addresses : ℕ
  /-- QUEUE_FLAG_DEAD. -/
  dead : Bool
  tasks : ℕ → Task
  /-- The nesting of RCU at the entry and at the return of each finished call. -/
  returns : List (ℤ × ℤ)
  /-- The values cfq_group_slice divided by. -/
  divisors : List ℤ

def Queue.setTask (s : Queue) (t : ℕ) (x : Task) : Queue := {s with tasks := update s.tasks t x}

def Queue.setWeight (s : Queue) (g : ℕ) (x : Weight) : Queue := {s with weight := update s.weight g x}

/-- rcu_read_lock and rcu_read_unlock. -/
def Queue.addRcu (s : Queue) (t : ℕ) (n : ℤ) : Queue := s.setTask t {s.tasks t with rcu := (s.tasks t).rcu+n}

/-- The task returns. -/
def Queue.ret (s : Queue) (t : ℕ) (entry : ℤ) : Queue :=
  {s.setTask t {s.tasks t with phase := .out} with returns := (entry,(s.tasks t).rcu)::s.returns}

/-- cfq_find_cfqg and throtl_find_tg. -/
def findGroup (s : Queue) (c : ℕ) : Option ℕ := if c=0 then some 0 else (s.cgroup c).head?

/-- cfq_get_cfqg and throtl_get_tg until the locks are dropped. -/
def enterGet (s : Queue) (t : ℕ) : Queue :=
  let entry := (s.tasks t).rcu
  let s := s.addRcu t 1
  match findGroup s (s.tasks t).cgroup with
  | some _ => (s.addRcu t (-1)).ret t entry
  | none =>
    let s := s.addRcu t (-1)
    s.setTask t {s.tasks t with phase := .allocating entry}

/-- What kzalloc_node and alloc_percpu return. -/
inductive Memory where
  /-- kzalloc_node fails. -/
  | noGroup
  /-- alloc_percpu fails. -/
  | noStats
  | both
  deriving DecidableEq

/-- cfq_alloc_cfqg and throtl_alloc_tg. -/
def allocGroup (s : Queue) (t : ℕ) (entry : ℤ) (m : Memory) : Queue :=
  match m with
  | .noGroup | .noStats => s.setTask t {s.tasks t with phase := .allocated entry none}
  | .both =>
    let g := s.addresses
    let s := {s with addresses := g+1, areas := g::s.areas}
    s.setTask t {s.tasks t with phase := .allocated entry (some g)}

/-- cfq_init_add_cfqg_lists and throtl_init_add_tg_lists, with the weight of the cgroup. -/
def initAddLists (s : Queue) (p : Policy) (g c w : ℕ) : Queue :=
  let s := {s with cgroup := addHead s.cgroup g c, own := g::s.own}
  if p=.cfq then s.setWeight g ⟨w,c⟩ else s

/-- cfq_get_cfqg and throtl_get_tg after the allocation. kfree frees a group that is not
needed, but not its area of statistics. -/
def finishGet (s : Queue) (p : Policy) (t : ℕ) (entry : ℤ) (new : Option ℕ) (w : ℕ) : Queue :=
  if p=.throtl ∧ s.dead=true then s.ret t entry
  else
    let s := s.addRcu t 1
    let c := (s.tasks t).cgroup
    match findGroup s c,new,p with
    | some _,_,_ => (s.addRcu t (-1)).ret t entry
    | none,some g,_ => ((initAddLists s p g c w).addRcu t (-1)).ret t entry
    | none,none,.cfq => ((initAddLists s p 0 c w).addRcu t (-1)).ret t entry
    | none,none,.throtl => s.ret t entry

/-- cfq_update_group_weight. -/
def updateGroupWeight (s : Queue) (g : ℕ) : Queue :=
  if s.needsUpdate g then
    {s.setWeight g (s.newWeight g) with needsUpdate := update s.needsUpdate g false}
  else s

/-- cfq_group_service_tree_add. -/
def treeAdd (s : Queue) (g : ℕ) : Queue :=
  let s := updateGroupWeight s g
  {s with tree := g::s.tree, totalWeight := s.totalWeight+(s.weight g).value}

/-- cfq_group_service_tree_del. -/
def treeDel (s : Queue) (g : ℕ) : Queue :=
  {s with totalWeight := s.totalWeight-(s.weight g).value, tree := s.tree.erase g}

def Queue.setNr (s : Queue) (g n : ℕ) : Queue := {s with nrCfqq := update s.nrCfqq g n}

/-- cfq_group_notify_queue_add. -/
def notifyQueueAdd (s : Queue) (g : ℕ) : Queue :=
  let s := s.setNr g (s.nrCfqq g+1)
  if g∈s.tree then s else treeAdd s g

/-- cfq_group_notify_queue_del. -/
def notifyQueueDel (s : Queue) (g : ℕ) : Queue :=
  let s := s.setNr g (s.nrCfqq g-1)
  if s.nrCfqq g≠0 then s else treeDel s g

/-- cfq_update_blkio_group_weight. -/
def updateBlkioGroupWeight (s : Queue) (g : ℕ) (x : Weight) : Queue :=
  {s with newWeight := update s.newWeight g x, needsUpdate := update s.needsUpdate g true}

/-- What can happen. -/
inductive Event where
  /-- A task changes its cgroup. -/
  | move (t c : ℕ)
  /-- A task enters the function. -/
  | enter (t : ℕ)
  /-- Its allocation returns. -/
  | alloc (t : ℕ) (m : Memory)
  /-- It takes the locks again, and the weight of its cgroup is read if it is needed. -/
  | finish (t w : ℕ)
  | die
  /-- A weight is written for the groups of a cgroup. -/
  | weight (c w : ℕ)
  /-- A queue of a group gets busy. -/
  | queueAdd (g : ℕ)
  /-- A busy queue of a group gets idle. -/
  | queueDel (g : ℕ)
  /-- cfq_group_served of a group with a busy queue. -/
  | served (g : ℕ)
  /-- cfq_group_slice of a group with a busy queue. -/
  | slice (g : ℕ)

def groupStep (p : Policy) (s : Queue) : Event → Option Queue
  | .move t c => some (s.setTask t {s.tasks t with cgroup := c})
  | .enter t => if (s.tasks t).phase=.out then some (enterGet s t) else none
  | .alloc t m =>
    match (s.tasks t).phase with
    | .allocating entry => some (allocGroup s t entry m)
    | _ => none
  | .finish t w =>
    match (s.tasks t).phase with
    | .allocated entry new =>
      if blkioWeightMin≤w ∧ w≤blkioWeightMax then some (finishGet s p t entry new w) else none
    | _ => none
  | .die => some {s with dead := true}
  | .weight c w =>
    if p=.cfq ∧ blkioWeightMin≤w ∧ w≤blkioWeightMax then
      some ((s.cgroup c).foldl (fun s g => updateBlkioGroupWeight s g ⟨w,c⟩) s)
    else none
  | .queueAdd g => if p=.cfq ∧ g∈s.own then some (notifyQueueAdd s g) else none
  | .queueDel g => if p=.cfq ∧ 0<s.nrCfqq g then some (notifyQueueDel s g) else none
  | .served g => if p=.cfq ∧ 0<s.nrCfqq g then some (treeAdd (treeDel s g) g) else none
  | .slice g => if p=.cfq ∧ 0<s.nrCfqq g then some {s with divisors := s.totalWeight::s.divisors} else none

/-- The root group only, as cfq_init_queue and blk_throtl_init leave it. -/
def Start (s : Queue) : Prop :=
  s.cgroup=(fun c => if c=0 then [0] else []) ∧ s.own=[0] ∧ s.weight 0=⟨1000,0⟩ ∧ s.needsUpdate=(fun _ => false) ∧
    s.nrCfqq=(fun _ => 0) ∧ s.tree=[] ∧ s.totalWeight=0 ∧ s.areas=[0] ∧ s.addresses=1 ∧
    (∀ t, (s.tasks t).phase=.out) ∧ s.returns=[] ∧ s.divisors=[]

/-- The states of the groups when the queue lock is free. -/
def GroupRun (p : Policy) : Queue → Prop := Reachable Start (fun s e t => groupStep p s e=some t)

/-- An allocation comes neither in vain nor does its failure matter: a task gets a new group
exactly if there is still none for its cgroup, and none if the queue died. -/
def timely (p : Policy) (s : Queue) : Event → Bool
  | .finish t _ =>
    match (s.tasks t).phase with
    | .allocated _ new =>
      if p=.throtl ∧ s.dead=true then new.isNone else new.isNone==(findGroup s (s.tasks t).cgroup).isSome
    | _ => true
  | _ => true

def timelyStep (p : Policy) (s : Queue) (e : Event) : Option Queue := if timely p s e then groupStep p s e else none

/-- The states of the groups that timely events reach. -/
def TimelyRun (p : Policy) : Queue → Prop := Reachable Start (fun s e t => timelyStep p s e=some t)

section

variable {p : Policy} {s u : Queue} {t g c : ℕ}

/-- A task has a group that is not linked yet. -/
def Queue.Pending (s : Queue) (t g : ℕ) : Prop := ∃ entry, (s.tasks t).phase=.allocated entry (some g)

/-- The lists of the groups. -/
structure Linked (s : Queue) : Prop where
  /-- A group is on one list of a cgroup. -/
  separate : Separate s.cgroup
  single : ∀ c, (s.cgroup c).length≤1
  root : s.cgroup 0=[0]
  /-- A group is once on the list of the queue. -/
  nodup : s.own.Nodup
  /-- The list of the queue has the groups of all cgroups. -/
  linked : ∀ g, g∈s.own ↔ ∃ c, g∈s.cgroup c
  /-- Linked groups have an address. -/
  bound : ∀ g∈s.own, g<s.addresses

/-- A weight that a group of a cgroup may have. -/
def Weight.Valid (x : Weight) (c : ℕ) : Prop := x.source=c ∧ 0<x.value

/-- The weights of the groups and the tree. -/
structure Weighed (p : Policy) (s : Queue) : Prop where
  weight : p=.cfq → ∀ c, ∀ g∈s.cgroup c, (s.weight g).Valid c
  newWeight : p=.cfq → ∀ c, ∀ g∈s.cgroup c, s.needsUpdate g=true → (s.newWeight g).Valid c
  /-- A group that is not linked got no new weight. -/
  fresh : ∀ g, g∉s.own → s.needsUpdate g=false
  /-- A group is once on the tree. -/
  nodup : s.tree.Nodup
  /-- The groups on the tree have busy queues. -/
  busy : ∀ g, g∈s.tree ↔ 0<s.nrCfqq g
  /-- They are linked groups of CFQ. -/
  own : ∀ g∈s.tree, p=.cfq ∧ g∈s.own
  /-- The sum of the weights is kept. -/
  total : s.totalWeight=(s.tree.map (fun g => ((s.weight g).value : ℤ))).sum
  /-- Nobody divided by zero. -/
  divisors : ∀ d∈s.divisors, 0<d

structure Waiting (s : Queue) : Prop where
  /-- A group that is not linked yet has an address and belongs to one task. -/
  pending : ∀ t g, s.Pending t g → g<s.addresses ∧ g∉s.own ∧ ∀ u, s.Pending u g → u=t
  /-- An area of statistics belongs to a linked group or to one that a task has. -/
  areas : ∀ g∈s.areas, g∈s.own ∨ ∃ t, s.Pending t g
  /-- A task without the locks has the nesting it entered with. -/
  entry : ∀ t e, (s.tasks t).phase=.allocating e ∨ (∃ new, (s.tasks t).phase=.allocated e new) → (s.tasks t).rcu=e
  /-- So had every task that returned. -/
  returns : ∀ x∈s.returns, x.1=x.2

structure GroupInv (p : Policy) (s : Queue) : Prop where
  linked : Linked s
  weighed : Weighed p s
  waiting : Waiting s

theorem setTask_self (s : Queue) (t : ℕ) (x : Task) : (s.setTask t x).tasks t=x := update_self ..

theorem setTask_of_ne {v : ℕ} (s : Queue) (x : Task) (h : v≠t) : (s.setTask t x).tasks v=s.tasks v :=
  update_of_ne h ..

/-- The sum of positive weights of a nonempty tree is positive. -/
theorem GroupInv.total_pos (h : GroupInv p s) (hg : g∈s.tree) : 0<s.totalWeight := by
  have hpos : ∀ x∈s.tree.map (fun g => ((s.weight g).value : ℤ)), 0<x := by
    intro x hx
    obtain ⟨q,hq,rfl⟩ := mem_map.mp hx
    obtain ⟨hp,ho⟩ := h.weighed.own q hq
    obtain ⟨c,hc⟩ := (h.linked.linked q).mp ho
    exact Int.natCast_pos.mpr (h.weighed.weight hp c q hc).2
  rw [h.weighed.total]
  exact sum_pos _ hpos (fun hn => ne_nil_of_mem hg (map_eq_nil_iff.mp hn))

variable {x : Task} {entry : ℤ} {w : ℕ}

/-- A change of a task that keeps the groups it has, its place and its nesting. -/
theorem GroupInv.setTask (h : GroupInv p s) (hp : x.phase=(s.tasks t).phase) (hr : x.rcu=(s.tasks t).rcu) :
    GroupInv p (s.setTask t x) := by
  have hph : ∀ v, ((s.setTask t x).tasks v).phase=(s.tasks v).phase ∧
    ((s.setTask t x).tasks v).rcu=(s.tasks v).rcu := by
    intro v
    by_cases hv : v=t
    · rw [hv,setTask_self]
      exact ⟨hp,hr⟩
    · rw [setTask_of_ne s x hv]
      exact ⟨rfl,rfl⟩
  have hpend : ∀ v q, (s.setTask t x).Pending v q ↔ s.Pending v q := by
    intro v q
    rw [Queue.Pending,Queue.Pending,(hph v).1]
  refine ⟨{h.linked with},{h.weighed with},fun v q hq => ?_,fun q hq => ?_,fun v e he => ?_,h.waiting.returns⟩
  · simp only [hpend] at hq ⊢
    exact h.waiting.pending v q hq
  · simp only [hpend]
    exact h.waiting.areas q hq
  · rw [(hph v).1] at he
    rw [(hph v).2]
    exact h.waiting.entry v e he

/-- A task that has no group may go anywhere with the nesting it entered with. -/
theorem GroupInv.goTo (h : GroupInv p s) (hn : ∀ g, ¬s.Pending t g) (hx : ∀ e g, x.phase≠.allocated e (some g))
    (he : ∀ e, x.phase=.allocating e ∨ (∃ new, x.phase=.allocated e new) → x.rcu=e) : GroupInv p (s.setTask t x) := by
  have hpend : ∀ v q, (s.setTask t x).Pending v q ↔ s.Pending v q := by
    intro v q
    by_cases hv : v=t
    · subst hv
      rw [Queue.Pending,setTask_self]
      exact ⟨fun ⟨e,hq⟩ => absurd hq (hx e q),fun hq => absurd hq (hn q)⟩
    · rw [Queue.Pending,setTask_of_ne s x hv]
      exact Iff.rfl
  refine ⟨{h.linked with},{h.weighed with},fun v q hq => ?_,fun q hq => ?_,fun v e hv => ?_,h.waiting.returns⟩
  · simp only [hpend] at hq ⊢
    exact h.waiting.pending v q hq
  · simp only [hpend]
    exact h.waiting.areas q hq
  · by_cases hvt : v=t
    · rw [hvt,setTask_self] at hv ⊢
      exact he e hv
    · rw [setTask_of_ne s x hvt] at hv ⊢
      exact h.waiting.entry v e hv

/-- A task that has no group returns with the nesting it entered with. -/
theorem GroupInv.ret (h : GroupInv p s) (hn : ∀ g, ¬s.Pending t g) (he : (s.tasks t).rcu=entry) :
    GroupInv p (s.ret t entry) := by
  have hg := h.goTo hn (x := {s.tasks t with phase := .out}) nofun
    (fun e hx => hx.elim nofun (fun ⟨_,hx⟩ => nomatch hx))
  exact ⟨{hg.linked with},{hg.weighed with},
    {hg.waiting with returns := forall_mem_cons.mpr ⟨he.symm,hg.waiting.returns⟩}⟩

/-- The nesting after a lock and an unlock. -/
theorem addRcu_addRcu (s : Queue) (t : ℕ) : (s.addRcu t 1).addRcu t (-1)=s := by
  have hx : {(s.addRcu t 1).tasks t with rcu := ((s.addRcu t 1).tasks t).rcu+-1}=s.tasks t := by
    rw [Queue.addRcu,setTask_self]
    dsimp only
    rw [Int.add_neg_cancel_right]
  have hs : (s.addRcu t 1).addRcu t (-1)=(s.addRcu t 1).setTask t (s.tasks t) := by rw [← hx]; rfl
  rw [hs,Queue.addRcu,Queue.setTask,Queue.setTask]
  dsimp only
  rw [update_idem,update_eq_self]

/-- A task enters and finds its group, or is about to allocate one. -/
theorem GroupInv.enter (h : GroupInv p s) (ho : (s.tasks t).phase=.out) : GroupInv p (enterGet s t) := by
  have hn : ∀ g, ¬s.Pending t g := fun g ⟨e,hg⟩ => absurd (ho.symm.trans hg) nofun
  rw [enterGet]
  dsimp only
  split
  · rw [addRcu_addRcu]
    exact h.ret hn rfl
  · rw [addRcu_addRcu]
    refine h.goTo hn nofun (fun e he => ?_)
    rcases he with he|⟨_,he⟩
    · exact Phase.allocating.inj he
    · cases he

/-- An allocation returns a group with its area, or nothing. -/
theorem GroupInv.alloc (h : GroupInv p s) (ha : (s.tasks t).phase=.allocating entry) (m : Memory) :
    GroupInv p (allocGroup s t entry m) := by
  have hn : ∀ g, ¬s.Pending t g := fun g ⟨e,hg⟩ => absurd (ha.symm.trans hg) nofun
  have hr := h.waiting.entry t entry (.inl ha)
  have hnone : GroupInv p (s.setTask t {s.tasks t with phase := .allocated entry none}) := by
    refine h.goTo hn (fun e g hx => ?_) (fun e he => ?_)
    · exact absurd (Phase.allocated.inj hx).2 nofun
    · rcases he with he|⟨new,he⟩
      · cases he
      · exact hr.trans (Phase.allocated.inj he).1
  cases m with
  | noGroup | noStats => exact hnone
  | both =>
    rw [allocGroup]
    generalize hx : ({s.tasks t with phase := .allocated entry (some s.addresses)} : Task)=x
    have hph : x.phase=.allocated entry (some s.addresses) := by rw [← hx]
    have hrx : x.rcu=entry := by rw [← hx]; exact hr
    have hpend : ∀ v q, (s.setTask t x).Pending v q ↔ (v=t ∧ q=s.addresses) ∨ (v≠t ∧ s.Pending v q) := by
      intro v q
      by_cases hv : v=t
      · rw [Queue.Pending,hv,setTask_self,hph]
        refine ⟨fun ⟨e,he⟩ => .inl ⟨rfl,?_⟩,fun hq => ⟨entry,?_⟩⟩
        · exact (Option.some.inj (Phase.allocated.inj he).2).symm
        · rw [(hq.resolve_right (fun hh => hh.1 rfl)).2]
      · rw [Queue.Pending,setTask_of_ne s x hv]
        exact ⟨fun hq => .inr ⟨hv,hq⟩,fun hq => (hq.resolve_left (fun hh => hv hh.1)).2⟩
    refine ⟨{h.linked with bound := fun g hg => Nat.lt_succ_of_lt (h.linked.bound g hg)},{h.weighed with},
      fun v q hq => ?_,fun q hq => ?_,fun v e hv => ?_,h.waiting.returns⟩
    · rcases (hpend v q).mp hq with ⟨rfl,rfl⟩|⟨hv,hq⟩
      · refine ⟨Nat.lt_succ_self _,fun ho => lt_irrefl _ (h.linked.bound _ ho),fun u hu => ?_⟩
        rcases (hpend u _).mp hu with ⟨hu,_⟩|⟨_,hu⟩
        · exact hu
        · exact absurd (h.waiting.pending u _ hu).1 (lt_irrefl _)
      · obtain ⟨hlt,hno,huni⟩ := h.waiting.pending v q hq
        refine ⟨Nat.lt_succ_of_lt hlt,hno,fun u hu => ?_⟩
        rcases (hpend u q).mp hu with ⟨_,hqa⟩|⟨_,hu⟩
        · exact absurd hqa (ne_of_lt hlt)
        · exact huni u hu
    · rcases mem_cons.mp hq with rfl|hq
      · exact .inr ⟨t,(hpend t _).mpr (.inl ⟨rfl,rfl⟩)⟩
      · rcases h.waiting.areas q hq with ho|⟨v,hv⟩
        · exact .inl ho
        · exact .inr ⟨v,(hpend v q).mpr (.inr ⟨fun hvt => hn q (hvt ▸ hv),hv⟩)⟩
    · by_cases hvt : v=t
      · subst hvt
        change ((s.setTask v x).tasks v).phase=.allocating e ∨
          (∃ new, ((s.setTask v x).tasks v).phase=.allocated e new) at hv
        change ((s.setTask v x).tasks v).rcu=e
        rw [setTask_self,hph] at hv
        rw [setTask_self,hrx]
        rcases hv with hv|⟨new,hv⟩
        · cases hv
        · exact (Phase.allocated.inj hv).1
      · change ((s.setTask t x).tasks v).phase=.allocating e ∨
          (∃ new, ((s.setTask t x).tasks v).phase=.allocated e new) at hv
        change ((s.setTask t x).tasks v).rcu=e
        rw [setTask_of_ne s x hvt] at hv ⊢
        exact h.waiting.entry v e hv

/-- A new group is linked for a cgroup that has none. -/
theorem GroupInv.link (h : GroupInv p s) (hg : s.Pending t g) (hc : s.cgroup c=[]) (hpos : 0<w) :
    Linked (initAddLists s p g c w) ∧ Weighed p (initAddLists s p g c w) := by
  obtain ⟨hlt,hno,_⟩ := h.waiting.pending t g hg
  have hnew : ∀ d, g∉s.cgroup d := fun d hd => hno ((h.linked.linked g).mpr ⟨d,hd⟩)
  have hc0 : (0 : ℕ)≠c := fun h0 => absurd ((h0 ▸ h.linked.root : s.cgroup c=[0]).symm.trans hc) nofun
  have hl : Linked {s with cgroup := addHead s.cgroup g c, own := g::s.own} := by
    refine ⟨h.linked.separate.addHead hnew c,fun d => ?_,?_,nodup_cons.mpr ⟨hno,h.linked.nodup⟩,fun q => ?_,
      forall_mem_cons.mpr ⟨hlt,h.linked.bound⟩⟩
    · change (update s.cgroup c (g::s.cgroup c) d).length≤1
      by_cases hd : d=c
      · rw [hd,update_self,hc,length_singleton]
      · rw [update_of_ne hd]
        exact h.linked.single d
    · exact (update_of_ne hc0 ..).trans h.linked.root
    · simp only [mem_cons,mem_addHead,h.linked.linked q]
      constructor
      · rintro (hq|⟨d,hd⟩)
        · exact ⟨c,.inl ⟨hq,rfl⟩⟩
        · exact ⟨d,.inr hd⟩
      · rintro ⟨d,⟨hq,_⟩|hd⟩
        · exact .inl hq
        · exact .inr ⟨d,hd⟩
  have hsum : ∀ x, s.tree.map (fun q => ((update s.weight g x q).value : ℤ))=
      s.tree.map (fun q => ((s.weight q).value : ℤ)) := by
    intro x
    refine map_congr_left (fun q hq => ?_)
    rw [update_of_ne]
    rintro rfl
    exact hno (h.weighed.own q hq).2
  have hw := h.weighed
  cases p with
  | throtl =>
    exact ⟨{hl with},⟨nofun,nofun,fun q hq => hw.fresh q (fun ho => hq (mem_cons_of_mem g ho)),hw.nodup,hw.busy,
      fun q hq => absurd (hw.own q hq).1 nofun,hw.total,hw.divisors⟩⟩
  | cfq =>
    refine ⟨{hl with},⟨fun _ d q hq => ?_,fun _ d q hq hu => ?_,
      fun q hq => hw.fresh q (fun ho => hq (mem_cons_of_mem g ho)),hw.nodup,hw.busy,
      fun q hq => ⟨rfl,mem_cons_of_mem g (hw.own q hq).2⟩,?_,hw.divisors⟩⟩
    · change (update s.weight g ⟨w,c⟩ q).Valid d
      rcases mem_addHead.mp hq with ⟨rfl,rfl⟩|hq
      · rw [update_self]
        exact ⟨rfl,hpos⟩
      · rw [update_of_ne (fun hqg : q=g => hnew d (hqg ▸ hq))]
        exact hw.weight rfl d q hq
    · rcases mem_addHead.mp hq with ⟨rfl,rfl⟩|hq
      · exact absurd ((hw.fresh q hno).symm.trans hu) nofun
      · exact hw.newWeight rfl d q hq hu
    · exact hw.total.trans (congrArg List.sum (hsum ⟨w,c⟩).symm)

theorem GroupInv.linkRet (h : GroupInv p s) (hg : (s.tasks t).phase=.allocated entry (some g)) (hc : s.cgroup c=[])
    (hw : 0<w) : GroupInv p ((initAddLists s p g c w).ret t entry) := by
  have hgp : s.Pending t g := ⟨entry,hg⟩
  obtain ⟨hl,hwd⟩ := h.link hgp hc hw
  have htasks : (initAddLists s p g c w).tasks=s.tasks ∧ (initAddLists s p g c w).own=g::s.own ∧
      (initAddLists s p g c w).areas=s.areas ∧ (initAddLists s p g c w).addresses=s.addresses ∧
      (initAddLists s p g c w).returns=s.returns := by
    cases p with
    | cfq | throtl => exact ⟨rfl,rfl,rfl,rfl,rfl⟩
  generalize initAddLists s p g c w=v at hl hwd htasks
  obtain ⟨ht,ho,ha,hb,hr⟩ := htasks
  have hself : ((v.ret t entry).tasks t).phase=.out := by
    rw [show (v.ret t entry).tasks t={v.tasks t with phase := .out} from update_self ..]
  have hother : ∀ u, u≠t → (v.ret t entry).tasks u=s.tasks u := fun u hu =>
    (update_of_ne hu ..).trans (congrFun ht u)
  have hpend : ∀ u q, (v.ret t entry).Pending u q ↔ u≠t ∧ s.Pending u q := by
    intro u q
    rw [Queue.Pending]
    by_cases hu : u=t
    · rw [hu,hself]
      exact ⟨fun ⟨_,he⟩ => absurd he nofun,fun hq => absurd rfl hq.1⟩
    · rw [hother u hu]
      exact ⟨fun hq => ⟨hu,hq⟩,fun hq => hq.2⟩
  refine ⟨{hl with},{hwd with},fun u q hq => ?_,fun q hq => ?_,fun u e hu => ?_,?_⟩
  · obtain ⟨hut,hq⟩ := (hpend u q).mp hq
    obtain ⟨hlt,hno,huni⟩ := h.waiting.pending u q hq
    refine ⟨?_,?_,fun x hx => huni x ((hpend x q).mp hx).2⟩
    · exact lt_of_lt_of_eq hlt hb.symm
    · change q∉v.own
      rw [ho,mem_cons,not_or]
      exact ⟨fun hqg => hut (huni t (hqg ▸ hgp)).symm,hno⟩
  · change q∈v.own ∨ _
    rw [ho,mem_cons]
    rcases h.waiting.areas q (ha ▸ hq) with hq|⟨u,hu⟩
    · exact .inl (.inr hq)
    · by_cases hut : u=t
      · obtain ⟨e,hu⟩ := hu
        exact .inl (.inl (Option.some.inj (Phase.allocated.inj ((hut ▸ hu).symm.trans hg)).2))
      · exact .inr ⟨u,(hpend u q).mpr ⟨hut,hu⟩⟩
  · by_cases hut : u=t
    · rw [hut,hself] at hu
      exact hu.elim nofun (fun ⟨_,hu⟩ => nomatch hu)
    · rw [hother u hut] at hu ⊢
      exact h.waiting.entry u e hu
  · refine forall_mem_cons.mpr ⟨?_,hr ▸ h.waiting.returns⟩
    rw [ht]
    exact (h.waiting.entry t entry (.inr ⟨_,hg⟩)).symm

/-- The locks do not matter for linking. -/
theorem initAddLists_addRcu (s : Queue) (p : Policy) (g c w t : ℕ) :
    (initAddLists (s.addRcu t 1) p g c w).addRcu t (-1)=initAddLists s p g c w := by
  have hcomm : initAddLists (s.addRcu t 1) p g c w=(initAddLists s p g c w).addRcu t 1 := by
    cases p with
    | cfq | throtl => rfl
  rw [hcomm,addRcu_addRcu]

/-- A timely end of the call keeps the invariant. -/
theorem GroupInv.finish (h : GroupInv p s) {new : Option ℕ} (ha : (s.tasks t).phase=.allocated entry new) (hw : 0<w)
    (ht : (if p=.throtl ∧ s.dead=true then new.isNone else new.isNone==(findGroup s (s.tasks t).cgroup).isSome)=true) :
    GroupInv p (finishGet s p t entry new w) := by
  have hr := h.waiting.entry t entry (.inr ⟨new,ha⟩)
  have hret : new=none → GroupInv p (s.ret t entry) := by
    rintro rfl
    refine h.ret (fun g ⟨e,hg⟩ => ?_) hr
    exact absurd (Phase.allocated.inj (ha.symm.trans hg)).2 nofun
  rw [finishGet]
  by_cases hd : p=.throtl ∧ s.dead=true
  · rw [if_pos hd] at ht ⊢
    exact hret (Option.isNone_iff_eq_none.mp ht)
  · rw [if_neg hd,beq_iff_eq] at ht
    rw [if_neg hd]
    have hcg : ((s.addRcu t 1).tasks t).cgroup=(s.tasks t).cgroup := by rw [Queue.addRcu,setTask_self]
    have hfind : findGroup (s.addRcu t 1) ((s.addRcu t 1).tasks t).cgroup=findGroup s (s.tasks t).cgroup := by
      rw [hcg]
      rfl
    simp only [hfind]
    cases hf : findGroup s (s.tasks t).cgroup with
    | some q =>
      rw [hf] at ht
      simp only [addRcu_addRcu]
      exact hret (Option.isNone_iff_eq_none.mp ht)
    | none =>
      rw [hf] at ht
      have hempty : s.cgroup (s.tasks t).cgroup=[] := by
        rw [findGroup] at hf
        split at hf
        · cases hf
        · exact head?_eq_none_iff.mp hf
      cases new with
      | none => cases ht
      | some g =>
        simp only [initAddLists_addRcu,hcg]
        exact h.linkRet ha hempty hw

/-- The weights of a tree that a group is not on do not depend on the group. -/
theorem sum_update (l : List ℕ) (f : ℕ → Weight) {g : ℕ} (hg : g∉l) (x : Weight) :
    (l.map (fun q => ((update f g x q).value : ℤ))).sum=(l.map (fun q => ((f q).value : ℤ))).sum := by
  refine congrArg List.sum (map_congr_left (fun q hq => ?_))
  rw [update_of_ne (fun hqg : q=g => hg (hqg ▸ hq))]

/-- The invariant while the number of queues of one group is not the one the tree goes by. -/
structure TreeInv (g : ℕ) (s : Queue) : Prop where
  linked : Linked s
  waiting : Waiting s
  /-- The group is linked. -/
  own : g∈s.own
  weight : ∀ c, ∀ q∈s.cgroup c, (s.weight q).Valid c
  newWeight : ∀ c, ∀ q∈s.cgroup c, s.needsUpdate q=true → (s.newWeight q).Valid c
  /-- A group that is not linked got no new weight. -/
  fresh : ∀ q, q∉s.own → s.needsUpdate q=false
  /-- A group is once on the tree. -/
  nodup : s.tree.Nodup
  /-- The other groups on the tree have busy queues. -/
  busy : ∀ q, q≠g → (q∈s.tree ↔ 0<s.nrCfqq q)
  /-- The groups on the tree are linked. -/
  treeOwn : ∀ q∈s.tree, q∈s.own
  /-- The sum of the weights is kept. -/
  total : s.totalWeight=(s.tree.map (fun q => ((s.weight q).value : ℤ))).sum
  /-- Nobody divided by zero. -/
  divisors : ∀ d∈s.divisors, 0<d

/-- The number of queues of a group changes. -/
theorem GroupInv.setNr (h : GroupInv .cfq s) (hg : g∈s.own) (n : ℕ) : TreeInv g (s.setNr g n) :=
  { linked := {h.linked with}
    waiting := {h.waiting with}
    own := hg
    weight := h.weighed.weight rfl
    newWeight := h.weighed.newWeight rfl
    fresh := h.weighed.fresh
    nodup := h.weighed.nodup
    busy := fun q hq => by
      rw [show (s.setNr g n).nrCfqq q=s.nrCfqq q from update_of_ne hq ..]
      exact h.weighed.busy q
    treeOwn := fun q hq => (h.weighed.own q hq).2
    total := h.weighed.total
    divisors := h.weighed.divisors }

/-- The tree goes by the number of queues of the group. -/
theorem TreeInv.settle (h : TreeInv g s) (hb : g∈s.tree ↔ 0<s.nrCfqq g) : GroupInv .cfq s :=
  ⟨h.linked,⟨fun _ => h.weight,fun _ => h.newWeight,h.fresh,h.nodup,
    fun q => if hq : q=g then hq ▸ hb else h.busy q hq,fun q hq => ⟨rfl,h.treeOwn q hq⟩,h.total,h.divisors⟩,h.waiting⟩

/-- A group that is off the tree takes its new weight. -/
theorem TreeInv.updateWeight (h : TreeInv g s) (hg : g∉s.tree) : TreeInv g (updateGroupWeight s g) := by
  rw [updateGroupWeight]
  split
  · rename_i hu
    refine
      {h with
        linked := {h.linked with}
        waiting := {h.waiting with}
        weight := fun c q hq => ?_
        newWeight := fun c q hq hn => ?_
        fresh := fun q hq => ?_
        total := h.total.trans (sum_update s.tree s.weight hg _).symm}
    · change (update s.weight g (s.newWeight g) q).Valid c
      by_cases hqg : q=g
      · rw [hqg,update_self]
        exact h.newWeight c g (hqg ▸ hq) hu
      · rw [update_of_ne hqg]
        exact h.weight c q hq
    · change update s.needsUpdate g false q=true at hn
      by_cases hqg : q=g
      · rw [hqg,update_self] at hn
        exact absurd hn nofun
      · rw [update_of_ne hqg] at hn
        exact h.newWeight c q hq hn
    · change update s.needsUpdate g false q=false
      by_cases hqg : q=g
      · rw [hqg,update_self]
      · rw [update_of_ne hqg]
        exact h.fresh q hq
  · exact h

theorem TreeInv.add (h : TreeInv g s) (hg : g∉s.tree) : TreeInv g (treeAdd s g) ∧ g∈(treeAdd s g).tree := by
  have hu := h.updateWeight hg
  have ht : (updateGroupWeight s g).tree=s.tree := by
    rw [updateGroupWeight]
    split
    · rfl
    · rfl
  rw [treeAdd]
  generalize updateGroupWeight s g=v at hu ht
  rw [← ht] at hg
  refine
    ⟨{hu with
      linked := {hu.linked with}
      waiting := {hu.waiting with}
      nodup := nodup_cons.mpr ⟨hg,hu.nodup⟩
      busy := fun q hq => ?_
      treeOwn := forall_mem_cons.mpr ⟨hu.own,hu.treeOwn⟩
      total := ?_},mem_cons_self⟩
  · rw [mem_cons,or_iff_right hq]
    exact hu.busy q hq
  · dsimp only
    rw [map_cons,sum_cons,hu.total,Int.add_comm]

/-- A group on the tree is deleted from it. -/
theorem TreeInv.del (h : TreeInv g s) (hg : g∈s.tree) : TreeInv g (treeDel s g) ∧ g∉(treeDel s g).tree := by
  refine
    ⟨{h with
      linked := {h.linked with}
      waiting := {h.waiting with}
      nodup := h.nodup.erase g
      busy := fun q hq => ?_
      treeOwn := fun q hq => h.treeOwn q (mem_of_mem_erase hq)
      total := ?_},h.nodup.not_mem_erase⟩
  · change q∈s.tree.erase g ↔ _
    rw [mem_erase_of_ne hq]
    exact h.busy q hq
  · change s.totalWeight-(s.weight g).value=((s.tree.erase g).map (fun q => ((s.weight q).value : ℤ))).sum
    rw [h.total,((perm_cons_erase hg).map _).sum_eq,map_cons,sum_cons]
    ring

theorem GroupInv.noteWeight (h : GroupInv p s) (hg : g∈s.cgroup c) (hw : 0<w) :
    GroupInv p (updateBlkioGroupWeight s g ⟨w,c⟩) := by
  refine ⟨{h.linked with},{h.weighed with newWeight := fun hp d q hq hu => ?_, fresh := fun q hq => ?_},
    {h.waiting with}⟩
  · change (update s.newWeight g ⟨w,c⟩ q).Valid d
    change update s.needsUpdate g true q=true at hu
    by_cases hqg : q=g
    · subst hqg
      rw [update_self]
      exact ⟨h.linked.separate.unique c d q hg hq,hw⟩
    · rw [update_of_ne hqg] at hu ⊢
      exact h.weighed.newWeight hp d q hq hu
  · have hqg : q≠g := by
      rintro rfl
      exact hq ((h.linked.linked q).mpr ⟨c,hg⟩)
    exact (update_of_ne hqg ..).trans (h.weighed.fresh q hq)

/-- A new weight is noted for all groups of a cgroup. -/
theorem GroupInv.noteWeights (h : GroupInv p s) (hw : 0<w) {l : List ℕ} (hl : ∀ g∈l, g∈s.cgroup c) :
    GroupInv p (l.foldl (fun s g => updateBlkioGroupWeight s g ⟨w,c⟩) s) := by
  induction l generalizing s with
  | nil => exact h
  | cons g l ih =>
    obtain ⟨hg,hl⟩ := forall_mem_cons.mp hl
    exact ih (h.noteWeight hg hw) hl

theorem GroupInv.of_busy (h : GroupInv p s) (hg : 0<s.nrCfqq g) : g∈s.tree ∧ g∈s.own :=
  have ht := (h.weighed.busy g).mpr hg
  ⟨ht,(h.weighed.own g ht).2⟩

/-- A queue of a group gets busy. -/
theorem GroupInv.queueAdd (h : GroupInv .cfq s) (hg : g∈s.own) : GroupInv .cfq (notifyQueueAdd s g) := by
  have hn := h.setNr hg (s.nrCfqq g+1)
  have hnr : (s.setNr g (s.nrCfqq g+1)).nrCfqq g=s.nrCfqq g+1 := update_self ..
  rw [notifyQueueAdd]
  split
  · rename_i ht
    exact hn.settle ⟨fun _ => by rw [hnr]; exact Nat.succ_pos _,fun _ => ht⟩
  · rename_i ht
    obtain ⟨hi,hm⟩ := hn.add ht
    refine hi.settle ⟨fun _ => ?_,fun _ => hm⟩
    have hsame : (treeAdd (s.setNr g (s.nrCfqq g+1)) g).nrCfqq=(s.setNr g (s.nrCfqq g+1)).nrCfqq := by
      rw [treeAdd,updateGroupWeight]
      split
      · rfl
      · rfl
    rw [hsame,hnr]
    exact Nat.succ_pos _

/-- A queue of a group gets idle. -/
theorem GroupInv.queueDel (h : GroupInv .cfq s) (hg : 0<s.nrCfqq g) : GroupInv .cfq (notifyQueueDel s g) := by
  obtain ⟨ht,ho⟩ := h.of_busy hg
  have hn := h.setNr ho (s.nrCfqq g-1)
  rw [notifyQueueDel]
  split
  · rename_i hz
    exact hn.settle ⟨fun _ => Nat.pos_of_ne_zero hz,fun _ => ht⟩
  · rename_i hz
    obtain ⟨hi,hm⟩ := hn.del ht
    refine hi.settle ⟨fun hx => absurd hx hm,fun hp => ?_⟩
    change 0<(s.setNr g (s.nrCfqq g-1)).nrCfqq g at hp
    exact absurd (not_not.mp hz) (ne_of_gt hp)

/-- A group is taken off the tree and put back. -/
theorem GroupInv.served (h : GroupInv .cfq s) (hg : 0<s.nrCfqq g) : GroupInv .cfq (treeAdd (treeDel s g) g) := by
  obtain ⟨ht,ho⟩ := h.of_busy hg
  have hn := h.setNr ho (s.nrCfqq g)
  have hs : s.setNr g (s.nrCfqq g)=s := by rw [Queue.setNr,update_eq_self]
  rw [hs] at hn
  obtain ⟨hd,hm⟩ := hn.del ht
  obtain ⟨ha,hm⟩ := hd.add hm
  refine ha.settle ⟨fun _ => ?_,fun _ => hm⟩
  have hsame : (treeAdd (treeDel s g) g).nrCfqq=s.nrCfqq := by
    rw [treeAdd,updateGroupWeight]
    split
    · rfl
    · rfl
  rw [hsame]
  exact hg

theorem GroupInv.step (h : GroupInv p s) {e : Event} (hu : timelyStep p s e=some u) : GroupInv p u := by
  obtain ⟨htime,hu⟩ := Option.ite_none_right_eq_some.mp hu
  cases e with
  | move t c => exact Option.some.inj hu ▸ h.setTask rfl rfl
  | enter t =>
    obtain ⟨ho,rfl⟩ := of_guard hu
    exact h.enter ho
  | alloc t m =>
    rw [groupStep] at hu
    split at hu
    · rename_i entry ha
      exact Option.some.inj hu ▸ h.alloc ha m
    · cases hu
  | finish t w =>
    rw [groupStep] at hu
    rw [timely] at htime
    split at hu
    · rename_i entry new ha
      obtain ⟨hw,rfl⟩ := of_guard hu
      rw [ha] at htime
      exact h.finish ha (lt_of_lt_of_le (by decide) hw.1) htime
    · cases hu
  | die => exact Option.some.inj hu ▸ ⟨{h.linked with},{h.weighed with},{h.waiting with}⟩
  | weight c w =>
    obtain ⟨hw,rfl⟩ := of_guard hu
    exact h.noteWeights (lt_of_lt_of_le (by decide) hw.2.1) (fun _ hg => hg)
  | queueAdd g =>
    obtain ⟨⟨rfl,hg⟩,rfl⟩ := of_guard hu
    exact h.queueAdd hg
  | queueDel g =>
    obtain ⟨⟨rfl,hg⟩,rfl⟩ := of_guard hu
    exact h.queueDel hg
  | served g =>
    obtain ⟨⟨rfl,hg⟩,rfl⟩ := of_guard hu
    exact h.served hg
  | slice g =>
    obtain ⟨⟨rfl,hg⟩,rfl⟩ := of_guard hu
    have hpos := h.total_pos (h.of_busy hg).1
    exact ⟨{h.linked with},{h.weighed with divisors := forall_mem_cons.mpr ⟨hpos,h.weighed.divisors⟩},{h.waiting with}⟩

/-- The root group alone has the invariant. -/
theorem GroupInv.start (hs : Start s) : GroupInv p s := by
  obtain ⟨hcg,hown,hwt,hneeds,hnr,htree,htotal,hareas,haddr,htasks,hret,hdiv⟩ := hs
  have hmem : ∀ c g, g∈s.cgroup c ↔ g=0 ∧ c=0 := by
    intro c g
    rw [hcg]
    dsimp only
    by_cases hc : c=0
    · rw [if_pos hc,mem_singleton]
      exact ⟨fun hg => ⟨hg,hc⟩,fun hg => hg.1⟩
    · rw [if_neg hc]
      exact ⟨fun hg => absurd hg not_mem_nil,fun hg => absurd hg.2 hc⟩
  have hlen : ∀ c, (s.cgroup c).length≤1 := by
    intro c
    rw [hcg]
    dsimp only
    split <;> decide
  have hpend : ∀ t g, ¬s.Pending t g := fun t g ⟨e,he⟩ => absurd ((htasks t).symm.trans he) nofun
  refine ⟨⟨⟨fun c => ?_,fun c d g hc hd => ?_⟩,hlen,by rw [hcg]; rfl,by rw [hown]; decide,fun g => ?_,fun g hg => ?_⟩,
    ⟨fun _ c g hg => ?_,fun _ c g _ hu => ?_,fun g _ => by rw [hneeds],by rw [htree]; exact nodup_nil,fun g => ?_,
      fun g hg => ?_,?_,fun d hd => ?_⟩,
    ⟨fun t g hg => absurd hg (hpend t g),fun g hg => ?_,fun t e he => ?_,fun x hx => ?_⟩⟩
  · exact nodup_iff_count_le_one.mpr (fun g => le_trans count_le_length (hlen c))
  · rw [((hmem c g).mp hc).2,((hmem d g).mp hd).2]
  · rw [hown,mem_singleton]
    exact ⟨fun hg => ⟨0,(hmem 0 g).mpr ⟨hg,rfl⟩⟩,fun ⟨c,hc⟩ => ((hmem c g).mp hc).1⟩
  · rw [hown,mem_singleton] at hg
    rw [hg,haddr]
    exact Nat.one_pos
  · obtain ⟨rfl,rfl⟩ := (hmem c g).mp hg
    rw [hwt]
    exact ⟨rfl,by decide⟩
  · rw [hneeds] at hu
    cases hu
  · rw [htree,hnr]
    exact ⟨fun hg => absurd hg not_mem_nil,fun hg => absurd hg (lt_irrefl 0)⟩
  · rw [htree] at hg
    exact absurd hg not_mem_nil
  · rw [htotal,htree]
    rfl
  · rw [hdiv] at hd
    exact absurd hd not_mem_nil
  · rw [hareas] at hg
    rw [hown]
    exact .inl hg
  · rw [htasks t] at he
    exact he.elim nofun (fun ⟨_,he⟩ => nomatch he)
  · rw [hret] at hx
    exact absurd hx not_mem_nil

end

/-- If a new group comes exactly when the cgroup of the task has none, and none when the queue
died, then a cgroup has one group at most, a group is linked once into the list of one cgroup
and once into the list of the queue, the root group is on the list of the root cgroup only,
every group has the weight of its own cgroup, the sum of the weights on the tree is kept and
nobody divides by zero, every area of statistics belongs to a linked group or to one that a
task is about to link, and every call returns with the nesting of RCU that it was entered
with. -/
theorem blkio_groups_safe_of_timely (p : Policy) {s : Queue} (hs : TimelyRun p s) : (∀ c, (s.cgroup c).length≤1) ∧
    (∀ g∈s.own, s.own.count g=1 ∧ ∃! c, g∈s.cgroup c) ∧ (∀ c, ∀ g∈s.cgroup c, g∈s.own) ∧
    (∀ c, 0∈s.cgroup c → c=0) ∧ (p=.cfq → ∀ c, ∀ g∈s.cgroup c, (s.weight g).source=c) ∧
    s.totalWeight=(s.tree.map (fun g => ((s.weight g).value : ℤ))).sum ∧ (∀ d∈s.divisors, 0<d) ∧
    (∀ g∈s.areas, g∈s.own ∨ ∃ t entry, (s.tasks t).phase=.allocated entry (some g)) ∧ ∀ x∈s.returns, x.2=x.1 := by
  have h : GroupInv p s :=
    hs.invariant (I := GroupInv p) (fun _ h => .start h) (fun _ _ _ _ h hu => h.step hu)
  have hlink := h.linked
  refine ⟨hlink.single,fun g hg => ⟨count_eq_one_of_mem hlink.nodup hg,?_⟩,
    fun c g hg => (hlink.linked g).mpr ⟨c,hg⟩,fun c hc => ?_,fun hp c g hg => (h.weighed.weight hp c g hg).1,
    h.weighed.total,h.weighed.divisors,h.waiting.areas,fun x hx => (h.waiting.returns x hx).symm⟩
  · obtain ⟨c,hc⟩ := (hlink.linked g).mp hg
    exact ⟨c,hc,fun d hd => hlink.separate.unique d c g hd hc⟩
  · exact hlink.separate.unique c 0 0 hc (by rw [hlink.root]; exact mem_cons_self)

/-- The groups of a new queue, and tasks of the root cgroup. -/
def newQueue : Queue where
  cgroup := fun c => if c=0 then [0] else []
  own := [0]
  weight := fun _ => ⟨1000,0⟩
  newWeight := fun _ => ⟨1000,0⟩
  needsUpdate := fun _ => false
  nrCfqq := fun _ => 0
  tree := []
  totalWeight := 0
  areas := [0]
  addresses := 1
  dead := false
  tasks := fun _ => ⟨0,0,.out⟩
  returns := []
  divisors := []

theorem newQueue_start : Start newQueue := ⟨rfl,rfl,rfl,rfl,rfl,rfl,rfl,rfl,rfl,fun _ => rfl,rfl,rfl⟩

/-- Two tasks create the groups of two cgroups at the same time, one of which changed its
cgroup while it had no locks. -/
theorem blkio_groups_safe_of_timely_two : ∃ s : Queue, TimelyRun .cfq s ∧ s.own=[2,1,0] ∧ s.cgroup 1=[1] ∧
    s.cgroup 3=[2] ∧ s.totalWeight=600 ∧ s.divisors=[600] ∧ (∀ d∈s.divisors, 0<d) ∧ ∀ x∈s.returns, x.2=x.1 := by
  obtain ⟨s,hr,hown,h1,h3,hw,hd⟩ : ∃ s, TimelyRun .cfq s ∧ s.own=[2,1,0] ∧ s.cgroup 1=[1] ∧ s.cgroup 3=[2] ∧
      s.totalWeight=600 ∧ s.divisors=[600] :=
    exists_run (fun _ _ _ => id) newQueue_start [.move 5 1,.move 6 2,.enter 5,.enter 6,.alloc 5 .both,.alloc 6 .both,
      .move 6 3,.finish 5 500,.finish 6 100,.queueAdd 1,.queueAdd 2,.slice 2] (by decide)
  obtain ⟨_,_,_,_,_,_,hdiv,_,hret⟩ := blkio_groups_safe_of_timely .cfq hr
  exact ⟨s,hr,hown,h1,h3,hw,hd,hdiv,hret⟩

/-- When an allocation fails, cfq_get_cfqg links the root group a second time and gives it the
weight of another cgroup while it is on the tree, whose sum is wrong from then on. When two
tasks of a cgroup race, the loser frees its group but not its area of statistics. When an
allocation fails, throtl_get_tg returns inside rcu_read_lock. -/
theorem blkio_groups_unsafe :
    (∃ s : Queue, GroupRun .cfq s ∧ s.own=[0,0] ∧ s.cgroup 0=[0] ∧ s.cgroup 1=[0] ∧ s.weight 0=⟨100,1⟩ ∧
      s.tree=[0] ∧ s.totalWeight=1000) ∧
    (∃ s : Queue, GroupRun .cfq s ∧ s.own=[1,0] ∧ s.areas=[2,1,0] ∧ (s.tasks 5).phase=.out ∧ (s.tasks 6).phase=.out) ∧
    ∃ s : Queue, GroupRun .throtl s ∧ s.returns=[(0,1)] := by
  refine ⟨?_,?_,?_⟩
  · exact exists_run (fun _ _ _ => id) newQueue_start
      [.queueAdd 0,.move 5 1,.enter 5,.alloc 5 .noGroup,.finish 5 100] (by decide)
  · exact exists_run (fun _ _ _ => id) newQueue_start [.move 5 1,.move 6 1,.enter 5,.enter 6,.alloc 5 .both,
      .alloc 6 .both,.finish 5 500,.finish 6 500] (by decide)
  · exact exists_run (fun _ _ _ => id) newQueue_start [.move 5 1,.enter 5,.alloc 5 .noStats,.finish 5 500] (by decide)

end BlockIpc.BlkioGroups
