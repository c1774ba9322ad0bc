import Mathlib

/-!
# Draining a queue of pending attempts

A state machine keeps a list of requests that could not be served. After a change it retries
them, removing each one whose attempt no longer blocks. A drain serves a request only when its
earlier competitors block, and ends with every remaining request blocked. In list order it is
deterministic; when requests of different keys do not interfere, it decomposes by key. The state,
the requests and the attempt function are arbitrary.
-/

namespace BlockIpc.PendingScan

open List

variable {σ ε κ : Type*}

/-- A request blocks when its attempt reports a positive code. -/
def Blocked (attempt : σ → ε → ℤ×σ) (s : σ) (e : ε) : Prop := 0<(attempt s e).1

/-- Serve requests until all of them block. A request is served only when
every earlier one that competes with it blocks. The fourth argument lists the
served requests with their codes, in order. -/
inductive Drains (attempt : σ → ε → ℤ×σ) (competes : ε → ε → Prop) :
    σ → List ε → List (ε×ℤ) → σ → List ε → Prop
  /-- Every remaining request blocks. -/
  | stop {s : σ} {pend : List ε} (hb : ∀ e∈pend, Blocked attempt s e) :
      Drains attempt competes s pend [] s pend
  /-- The earlier competitors block and this one is served or rejected. -/
  | fire {s t : σ} {before after rest : List ε} {e : ε} {done : List (ε×ℤ)}
      (hb : ∀ x∈before, competes x e → Blocked attempt s x) (he : ¬Blocked attempt s e)
      (ht : Drains attempt competes (attempt s e).2 (before++after) done t rest) :
      Drains attempt competes s (before++e::after) ((e,(attempt s e).1)::done) t rest

/-- Every earlier request competes: the first servable one is served. -/
def inOrder (_ _ : ε) : Prop := True

variable {attempt : σ → ε → ℤ×σ} {competes : ε → ε → Prop} {s t : σ} {pend rest : List ε}
  {done : List (ε×ℤ)}

/-- The first request that does not block splits a list in only one way. -/
theorem first_split_unique {P : ε → Prop} {before before' after after' : List ε} {e e' : ε}
    (hb : ∀ x∈before, P x) (he : ¬P e) (hb' : ∀ x∈before', P x) (he' : ¬P e')
    (h : before++e::after=before'++e'::after') : before=before' ∧ e=e' ∧ after=after' := by
  induction before generalizing before' with
  | nil =>
    cases before' with
    | nil => simpa using h
    | cons x tail =>
      simp only [nil_append,cons_append,List.cons.injEq] at h
      exact absurd (hb' x (by simp)) (h.1 ▸ he)
  | cons y before ih =>
    cases before' with
    | nil =>
      simp only [nil_append,cons_append,List.cons.injEq] at h
      exact absurd (hb y (by simp)) (h.1 ▸ he')
    | cons x tail =>
      simp only [cons_append,List.cons.injEq] at h
      have hc := ih (fun z hz => hb z (mem_cons_of_mem _ hz))
        (fun z hz => hb' z (mem_cons_of_mem _ hz)) h.2
      exact ⟨by rw [h.1,hc.1],hc.2⟩

/-- A finished drain leaves only blocked requests behind. -/
theorem Drains.blocked (h : Drains attempt competes s pend done t rest) : ∀ e∈rest, Blocked attempt t e := by
  induction h with
  | stop hb => exact hb
  | fire _ _ _ ih => exact ih

/-- Served and remaining requests together are the original ones. -/
theorem Drains.perm (h : Drains attempt competes s pend done t rest) : pend.Perm (done.map Prod.fst++rest) := by
  induction h with
  | stop _ => simp
  | fire _ _ _ ih => exact perm_middle.trans (by simpa using ih)

/-- The remaining requests keep their original relative order. -/
theorem Drains.sublist (h : Drains attempt competes s pend done t rest) : rest.Sublist pend := by
  induction h with
  | stop _ => exact List.Sublist.refl _
  | fire _ _ _ ih => exact ih.trans (by simp)

/-- Fewer competitors are a weaker demand. -/
theorem Drains.mono {competes' : ε → ε → Prop} (hc : ∀ x e, competes' x e → competes x e)
    (h : Drains attempt competes s pend done t rest) : Drains attempt competes' s pend done t rest := by
  induction h with
  | stop hb => exact Drains.stop hb
  | fire hb he _ ih => exact Drains.fire (fun x hx hr => hb x hx (hc x _ hr)) he ih

/-- A drain in list order is a function of the state and the request list. -/
theorem Drains.deterministic (h : Drains attempt inOrder s pend done t rest)
    {done' : List (ε×ℤ)} {t' : σ} {rest' : List ε}
    (h' : Drains attempt inOrder s pend done' t' rest') : done=done' ∧ t=t' ∧ rest=rest' := by
  induction h generalizing done' t' rest' with
  | stop hb =>
    cases h' with
    | stop _ => exact ⟨rfl,rfl,rfl⟩
    | @fire _ _ before _ _ e _ _ he _ => exact absurd (hb e (by simp)) he
  | @fire s t before after rest e done hb he _ ih =>
    generalize hp : before++e::after=pend at h'
    cases h' with
    | stop hb' => exact absurd (hb' e (by rw [←hp]; simp)) he
    | @fire _ _ before' after' _ e' _ hb' he' ht' =>
      obtain ⟨rfl,rfl,rfl⟩ := first_split_unique (fun x hx => hb x hx trivial) he
        (fun x hx => hb' x hx trivial) he' hp
      obtain ⟨rfl,rfl,rfl⟩ := ih ht'
      exact ⟨rfl,rfl,rfl⟩

/-- When a request is served, every competitor listed before it and not yet
served blocks, in the very state in which the request is attempted. -/
theorem Drains.served (h : Drains attempt competes s pend done t rest)
    {early late : List (ε×ℤ)} {e : ε} {code : ℤ} (hd : done=early++(e,code)::late) :
    ∃ u before after, (before++e::after).Perm ((e::late.map Prod.fst)++rest) ∧
      (before++e::after).Sublist pend ∧ (∀ x∈before, competes x e → Blocked attempt u x) ∧
      (attempt u e).1=code := by
  induction h generalizing early with
  | stop _ => simp at hd
  | @fire s t before after rest e₀ done hb he ht ih =>
    cases early with
    | nil =>
      simp only [nil_append,List.cons.injEq,Prod.mk.injEq] at hd
      obtain ⟨⟨rfl,hc⟩,rfl⟩ := hd
      refine ⟨s,before,after,?_,List.Sublist.refl _,hb,hc⟩
      exact perm_middle.trans (by simpa using ht.perm)
    | cons x early =>
      simp only [cons_append,List.cons.injEq] at hd
      obtain ⟨u,b,a,hp,hs,hblocked,hc⟩ := ih hd.2
      exact ⟨u,b,a,hp,hs.trans (by simp),hblocked,hc⟩

/-- Among distinct requests the remaining ones are those not served. -/
theorem Drains.rest_eq [DecidableEq ε] (h : Drains attempt competes s pend done t rest)
    (hn : pend.Nodup) : rest=pend.filter (fun e => e∉done.map Prod.fst) := by
  induction h with
  | stop _ => simp
  | @fire s t before after rest e done _ _ _ ih =>
    have hp := nodup_append.mp hn
    have he := nodup_cons.mp hp.2.1
    have hd : (before++after).Nodup := hn.sublist (by simp)
    rw [ih hd,filter_append,filter_append,filter_cons_of_neg (by simp)]
    congr 1
    · refine filter_congr (fun x hx => ?_)
      have hne : x≠e := hp.2.2 x hx e (by simp)
      simp [hne]
    · refine filter_congr (fun x hx => ?_)
      have hne : x≠e := fun h => he.1 (h ▸ hx)
      simp [hne]

section

variable {key : ε → κ} [DecidableEq κ] {agree : κ → σ → σ → Prop}

/-- A drain in which requests of one key compete, restricted to one key whose
requests read and write a separate component of the state, is the drain of
that component in list order. It may start from any state that agrees with
the original one on the component. -/
theorem Drains.project (k : κ) (hkey : ∀ x e, key x=key e → competes x e)
    (hlocal : ∀ e u v, e∈pend → key e=k → agree k u v →
      (attempt u e).1=(attempt v e).1 ∧ agree k (attempt u e).2 (attempt v e).2)
    (hframe : ∀ e u v, e∈pend → key e≠k → agree k u v → agree k (attempt u e).2 v)
    (h : Drains attempt competes s pend done t rest) {v : σ} (ha : agree k s v) :
    ∃ w, Drains attempt inOrder v (pend.filter (fun e => key e=k))
      (done.filter (fun p => key p.1=k)) w (rest.filter (fun e => key e=k)) ∧ agree k t w := by
  induction h generalizing v with
  | stop hb =>
    refine ⟨v,Drains.stop (fun e he => ?_),ha⟩
    obtain ⟨hm,hk⟩ := mem_filter.mp he
    have hp := hb e hm
    unfold Blocked at hp ⊢
    rwa [←(hlocal e _ _ hm (of_decide_eq_true hk) ha).1]
  | @fire s t before after rest e done hb he _ ih =>
    have hsub : ∀ x∈before++after, x∈before++e::after := by
      intro x hx
      simp only [mem_append,mem_cons] at hx ⊢
      tauto
    have ih' := fun v hv => ih (fun x u w hx => hlocal x u w (hsub x hx))
      (fun x u w hx => hframe x u w (hsub x hx)) (v:=v) hv
    by_cases hk : key e=k
    · obtain ⟨hc,hn⟩ := hlocal e _ _ (by simp) hk ha
      obtain ⟨w,hw,hag⟩ := ih' _ hn
      have hfire : Drains attempt inOrder v
          (before.filter (fun e => key e=k)++e::after.filter (fun e => key e=k))
          ((e,(attempt v e).1)::done.filter (fun p => key p.1=k)) w
          (rest.filter (fun e => key e=k)) := by
        refine Drains.fire (fun x hx _ => ?_) ?_ (by simpa using hw)
        · obtain ⟨hm,hx⟩ := mem_filter.mp hx
          have hx := of_decide_eq_true hx
          have hp := hb x hm (hkey x e (hx.trans hk.symm))
          unfold Blocked at hp ⊢
          rwa [←(hlocal x _ _ (by simp [hm]) hx ha).1]
        · unfold Blocked at he ⊢
          rwa [←hc]
      refine ⟨w,?_,hag⟩
      simpa [hk,hc] using hfire
    · obtain ⟨w,hw,hag⟩ := ih' v (hframe e _ _ (by simp) hk ha)
      exact ⟨w,by simpa [hk] using hw,hag⟩

/-- When requests of different keys read and write separate components, any
two drains that keep each key in order serve the same requests with the same
codes, leave the same ones and agree on every component. -/
theorem Drains.components_unique [DecidableEq ε] (key : ε → κ) (agree : κ → σ → σ → Prop)
    (hkey : ∀ x e, key x=key e → competes x e) (hlocal : ∀ k e u v, e∈pend → key e=k → agree k u v →
      (attempt u e).1=(attempt v e).1 ∧ agree k (attempt u e).2 (attempt v e).2)
    (hframe : ∀ k e u v, e∈pend → key e≠k → agree k u v → agree k (attempt u e).2 v)
    (hrefl : ∀ k, agree k s s) (hn : pend.Nodup)
    (h : Drains attempt competes s pend done t rest) {done' : List (ε×ℤ)} {t' : σ} {rest' : List ε}
    (h' : Drains attempt competes s pend done' t' rest') :
    done.Perm done' ∧ rest=rest' ∧ ∀ k, ∃ w, agree k t w ∧ agree k t' w := by
  have hsame : ∀ k, done.filter (fun p => key p.1=k)=done'.filter (fun p => key p.1=k) ∧
      ∃ w, agree k t w ∧ agree k t' w := by
    intro k
    obtain ⟨w,hw,ha⟩ := h.project k hkey (hlocal k) (hframe k) (hrefl k)
    obtain ⟨w',hw',ha'⟩ := h'.project k hkey (hlocal k) (hframe k) (hrefl k)
    obtain ⟨hd,rfl,_⟩ := hw.deterministic hw'
    exact ⟨hd,w,ha,ha'⟩
  have hperm : done.Perm done' := by
    refine perm_iff_count.mpr (fun p => ?_)
    rw [←count_filter (p:=fun x : ε×ℤ => decide (key x.1=key p.1)) (by simp),
      (hsame (key p.1)).1,count_filter (by simp)]
  refine ⟨hperm,?_,fun k => (hsame k).2⟩
  rw [h.rest_eq hn,h'.rest_eq hn]
  refine filter_congr (fun e _ => ?_)
  simp only [(hperm.map Prod.fst).mem_iff]

end

/-- The reference procedure's state: values, remaining list, served requests
and whether the pass so far has completed a request. -/
structure NaiveReport (σ ε : Type*) where
  /-- Current machine state. -/
  state : σ
  /-- Requests still pending, in their original order. -/
  pending : List ε
  /-- Completed requests with their codes, oldest first. -/
  done : List (ε×ℤ)
  /-- Another full pass over the list is required. -/
  again : Bool

/-- One pass of the reference procedure. A request with a code at most zero is
removed at once, and a success ends the pass so that the scan restarts. -/
def naivePass (attempt : σ → ε → ℤ×σ) (s : σ) (before : List ε) (done : List (ε×ℤ)) (again : Bool) :
    List ε → NaiveReport σ ε
  | [] => ⟨s,before,done,again⟩
  | e::walk =>
    let r := attempt s e
    if 0<r.1 then naivePass attempt r.2 (before++[e]) done again walk
    else if r.1=0 then ⟨r.2,before++walk,done++[(e,r.1)],true⟩
    else naivePass attempt r.2 before (done++[(e,r.1)]) true walk

/-- Full passes from the head of the list until one completes nothing. -/
def naiveScan (attempt : σ → ε → ℤ×σ) : ℕ → σ → List ε → List (ε×ℤ) → NaiveReport σ ε
  | 0,s,pend,done => ⟨s,pend,done,true⟩
  | fuel+1,s,pend,done =>
    let r := naivePass attempt s [] done false pend
    if r.again then naiveScan attempt fuel r.state r.pending r.done else r

/-- A pass extends every drain of its result to a drain of its input, and a
pass that asks for no repetition has blocked requests only. -/
theorem naivePass_drains (hframe : ∀ s e, (attempt s e).1≠0 → (attempt s e).2=s)
    (s : σ) (before walk : List ε) (done : List (ε×ℤ)) (again : Bool) (hb : ∀ x∈before, Blocked attempt s x) :
    ∃ served, (naivePass attempt s before done again walk).done=done++served ∧
      (∀ more t rest, Drains attempt inOrder (naivePass attempt s before done again walk).state
          (naivePass attempt s before done again walk).pending more t rest →
        Drains attempt inOrder s (before++walk) (served++more) t rest) ∧
      ((naivePass attempt s before done again walk).again=false → again=false ∧ served=[] ∧
        ∀ x∈(naivePass attempt s before done again walk).pending,
          Blocked attempt (naivePass attempt s before done again walk).state x) ∧
      ((naivePass attempt s before done again walk).again=true → again=true ∨ served≠[]) := by
  induction walk generalizing s before done again with
  | nil => exact ⟨[],by simp [naivePass],by simp [naivePass],by simpa [naivePass] using fun h => ⟨h,hb⟩,
      by simp [naivePass]⟩
  | cons e walk ih =>
    by_cases hp : 0<(attempt s e).1
    · have hs := hframe s e (by omega)
      have hb' : ∀ x∈before++[e], Blocked attempt s x := by
        intro x hx
        rcases mem_append.mp hx with hx|hx
        · exact hb x hx
        · rw [mem_singleton.mp hx]
          exact hp
      simpa [naivePass,hp,hs] using ih s (before++[e]) done again hb'
    · have hblock : ¬Blocked attempt s e := hp
      by_cases hz : (attempt s e).1=0
      · refine ⟨[(e,(attempt s e).1)],by simp [naivePass,hz],?_,by simp [naivePass,hz],by simp⟩
        intro more t rest hd
        simp only [naivePass,if_neg hp,if_pos hz] at hd
        exact Drains.fire (fun x hx _ => hb x hx) hblock hd
      · have hs := hframe s e hz
        obtain ⟨served,hdone,hdrain,hstop,hmore⟩ := ih s before (done++[(e,(attempt s e).1)]) true hb
        refine ⟨(e,(attempt s e).1)::served,?_,?_,?_,by simp⟩
        · simp [naivePass,hp,hz,hs,hdone]
        · intro more t rest hd
          simp only [naivePass,if_neg hp,if_neg hz,hs] at hd
          exact Drains.fire (fun x hx _ => hb x hx) hblock (hs.symm ▸ hdrain more t rest hd)
        · intro ha
          simp only [naivePass,if_neg hp,if_neg hz,hs] at ha
          exact absurd (hstop ha).1 (by simp)

/-- A pass loses no request: each one is still pending or has been completed. -/
theorem naivePass_length (s : σ) (before walk : List ε) (done : List (ε×ℤ)) (again : Bool) :
    (naivePass attempt s before done again walk).pending.length+
        (naivePass attempt s before done again walk).done.length=
      before.length+walk.length+done.length := by
  induction walk generalizing s before done again with
  | nil => simp [naivePass]
  | cons e walk ih =>
    rw [naivePass]
    split
    · rw [ih]
      simp only [length_append,length_cons,length_nil]
      omega
    · split
      · simp only [length_append,length_cons,length_nil]
        omega
      · rw [ih]
        simp only [length_append,length_cons,length_nil]
        omega

/-- With one unit of fuel per pending request and one more, the reference
procedure stops by itself and computes the drain. -/
theorem naiveScan_drains (hframe : ∀ s e, (attempt s e).1≠0 → (attempt s e).2=s)
    (fuel : ℕ) (s : σ) (pend : List ε) (done : List (ε×ℤ)) (hf : pend.length<fuel) :
    (naiveScan attempt fuel s pend done).again=false ∧
      ∃ served, (naiveScan attempt fuel s pend done).done=done++served ∧
        Drains attempt inOrder s pend served (naiveScan attempt fuel s pend done).state
          (naiveScan attempt fuel s pend done).pending := by
  induction fuel generalizing s pend done with
  | zero => omega
  | succ fuel ih =>
    obtain ⟨served,hdone,hdrain,hstop,hmore⟩ :=
      naivePass_drains hframe s [] pend done false (by simp)
    have hl := @naivePass_length σ ε attempt s [] pend done false
    cases ha : (naivePass attempt s [] done false pend).again with
    | true =>
      have hne : 0<served.length := length_pos_of_ne_nil ((hmore ha).resolve_left (by simp))
      rw [hdone,length_append,length_nil] at hl
      obtain ⟨hf',more,hd',hr⟩ := ih (naivePass attempt s [] done false pend).state
        (naivePass attempt s [] done false pend).pending
        (naivePass attempt s [] done false pend).done (by omega)
      simp only [naiveScan,ha,if_true]
      exact ⟨hf',served++more,by rw [hd',hdone,append_assoc],hdrain more _ _ hr⟩
    | false =>
      obtain ⟨_,rfl,hb⟩ := hstop ha
      simp only [naiveScan,ha,Bool.false_eq_true,if_false]
      exact ⟨trivial,[],hdone,hdrain [] _ _ (Drains.stop hb)⟩

end BlockIpc.PendingScan
