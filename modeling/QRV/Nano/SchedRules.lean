import QRV.Nano.DispatchRel
import QRV.Nano.Sched

/- The rules the scheduler operations are verified with.

   `Good s` says that the dispatch table describes exactly the READY threads, each
   at its priority. `Base b e s` is what else holds inside a call on the processor
   `e.kernCpu`: the active threads of the other processors run, no thread is active
   twice, and the one active here is not READY (it runs, or its caller has just
   blocked it). `After b e t s s'` is what a call about the thread `t` leaves.

   Every operation ends in one of three ways, and each is one rule: a thread goes on
   its ready list (`after_enqueue`), a thread takes the processor from the active one,
   which goes on a ready list (`after_switch`), or a thread takes the processor from a
   blocked one (`ran_picked`). Calls about one thread compose (`After.trans`). -/
namespace QRV.Nano.Sched
open Function

open LinkCell Dispatch Option

variable {τ : Type}

theorem blocked_iff {st : ThState} : st.blocked ↔ st ≠ .running ∧ st ≠ .ready := by
  simp [ThState.blocked]

/-- The thread is READY at the priority `p`. -/
def Listed (th : τ → Thread) (t : τ) (p : Nat) : Prop := (th t).state = .ready ∧ (th t).priority.val = p

/-- The table describes exactly the READY threads. -/
def Good (s : Sched τ) : Prop := s.disp.Holds (Listed s.th) none

/-- What holds of the active threads inside a call. -/
structure Base (b : Build) (e : Env τ) (s : Sched τ) : Prop where
  others : ∀ c < b.numProcessors, c ≠ e.kernCpu → (s.th (s.actives c)).state = .running
  distinct : ∀ c < b.numProcessors, c ≠ e.kernCpu → s.actives c ≠ s.actives e.kernCpu
  apart : ∀ c < b.numProcessors, ∀ c' < b.numProcessors, c ≠ e.kernCpu → c' ≠ e.kernCpu →
    s.actives c = s.actives c' → c = c'
  active : (s.th (s.actives e.kernCpu)).state ≠ .ready

/-- The active thread of this processor runs. -/
def ActRun (e : Env τ) (s : Sched τ) : Prop := (s.th (s.actives e.kernCpu)).state = .running

/-- No READY thread has a higher priority than the active one. -/
def Top (e : Env τ) (s : Sched τ) : Prop :=
  ∀ u, (s.th u).state = .ready → (s.th u).priority ≤ (s.th (s.actives e.kernCpu)).priority

/-- What a call about the thread `t` leaves: the table is right again, a running
active thread is replaced only by a running one, no other thread that is not READY
is touched, and on a uniprocessor the active thread stays the highest. -/
structure After (b : Build) (e : Env τ) (t : τ) (s s' : Sched τ) : Prop where
  good : Good s'
  base : Base b e s'
  act : ActRun e s → ActRun e s'
  top : b.smp = false → ActRun e s → Top e s → Top e s'
  frame : ∀ u, (s.th u).state ≠ .ready → u ≠ t → u ≠ s.actives e.kernCpu → s'.th u = s.th u
  next : s'.actives e.kernCpu = s.actives e.kernCpu ∨ (s.th (s'.actives e.kernCpu)).state = .ready ∨
    s'.actives e.kernCpu = t
  mask : ∀ u, (s'.th u).runmask = (s.th u).runmask

variable {b : Build} {e : Env τ} {s s' s'' : Sched τ} {t : τ}

theorem After.refl (hg : Good s) (hb : Base b e s) : After b e t s s :=
  ⟨hg, hb, id, fun _ _ h => h, fun _ _ _ _ => rfl, .inl rfl, fun _ => rfl⟩

/-- A thread that has become READY was READY, or is one the call was about. -/
theorem After.ready_before (h : After b e t s s') {u : τ} (hu : (s'.th u).state = .ready) :
    (s.th u).state = .ready ∨ u = t ∨ u = s.actives e.kernCpu := by
  by_contra hn
  obtain ⟨h1, h2, h3⟩ := not_or.mp hn |>.imp_right not_or.mp
  rw [h.frame u h1 h2 h3] at hu
  exact h1 hu

theorem After.trans (h : After b e t s s') (h' : After b e t s' s'') : After b e t s s'' where
  good := h'.good
  base := h'.base
  act ha := h'.act (h.act ha)
  top hb ha ht := h'.top hb (h.act ha) (h.top hb ha ht)
  frame := by
    intro u hu hut hua
    have hs := h.frame u hu hut hua
    have hu' : (s'.th u).state ≠ .ready := by rwa [hs]
    refine (h'.frame u hu' hut fun hx => ?_).trans hs
    rcases h.next with h1 | h1 | h1
    · exact hua (hx.trans h1)
    · exact hu (hx ▸ h1)
    · exact hut (hx.trans h1)
  next := by
    rcases h'.next with h1 | h1 | h1
    · rw [h1]
      exact h.next
    · rcases h.ready_before h1 with h2 | h2 | h2
      · exact .inr (.inl h2)
      · exact .inr (.inr h2)
      · exact .inl h2
    · exact .inr (.inr h1)
  mask u := (h'.mask u).trans (h.mask u)

/-- The table and the active threads do not see the other fields of a thread. -/
theorem Good.of_same (h : Good s) (hd : s'.disp = s.disp)
    (hs : ∀ u, (s'.th u).state = (s.th u).state ∧ (s'.th u).priority = (s.th u).priority) : Good s' := by
  unfold Good
  rw [hd]
  refine h.congr fun u a => ?_
  rw [Listed, Listed, (hs u).1, (hs u).2]

theorem Base.of_same (h : Base b e s) (ha : s'.actives = s.actives)
    (hs : ∀ u, (s'.th u).state = (s.th u).state) : Base b e s' := by
  refine ⟨?_, ?_, ?_, ?_⟩
  · intro c hc hce
    rw [ha, hs]
    exact h.others c hc hce
  · rw [ha]
    exact h.distinct
  · rw [ha]
    exact h.apart
  · rw [ha, hs]
    exact h.active

/-- The active threads after a call that leaves `a` active on this processor: the other
running threads still run, and `a` was not one of them. -/
theorem Base.of_update (h : Base b e s) {a : τ} (hact : s'.actives = update s.actives e.kernCpu a)
    (hrun : ∀ u, (s.th u).state = .running → u ≠ s.actives e.kernCpu → (s'.th u).state = .running)
    (ha : a = s.actives e.kernCpu ∨ (s.th a).state ≠ .running) (hst : (s'.th a).state ≠ .ready) :
    Base b e s' where
  others := by
    intro c hc hce
    rw [hact, update_of_ne hce]
    exact hrun _ (h.others c hc hce) (h.distinct c hc hce)
  distinct := by
    intro c hc hce
    rw [hact, update_of_ne hce, update_self]
    rcases ha with rfl | ha
    · exact h.distinct c hc hce
    · exact fun e => ha (e ▸ h.others c hc hce)
  apart := by
    intro c hc c' hc' hce hce' heq
    rw [hact, update_of_ne hce, update_of_ne hce'] at heq
    exact h.apart c hc c' hc' hce hce' heq
  active := by
    rw [hact, update_self]
    exact hst

theorem Base.of_off (h : Base b e s) (ha : s'.actives = s.actives)
    (hrun : ∀ u, (s.th u).state = .running → u ≠ s.actives e.kernCpu → (s'.th u).state = .running)
    (hst : (s'.th (s.actives e.kernCpu)).state ≠ .ready) : Base b e s' :=
  h.of_update (ha.trans (update_eq_self _ _).symm) hrun (.inl rfl) hst

/-! ## The three endings -/

theorem after_enqueue (h : Base b e s) (hta : t ≠ s.actives e.kernCpu) (htr : (s.th t).state ≠ .running)
    (hd : s'.disp.Holds (With (Without (Listed s.th) t) t (s'.th t).priority) none)
    (hact : s'.actives = s.actives) (ht : (s'.th t).state = .ready)
    (hoff : ∀ u, u ≠ t → (s'.th u).state = (s.th u).state ∧ (s'.th u).priority = (s.th u).priority)
    (hframe : ∀ u, u ≠ t → u ≠ s.actives e.kernCpu → s'.th u = s.th u)
    (hmask : ∀ u, (s'.th u).runmask = (s.th u).runmask)
    (htop : b.smp = false → (s'.th t).priority ≤ (s.th (s.actives e.kernCpu)).priority) :
    After b e t s s' where
  good := by
    refine hd.congr fun u a => ?_
    by_cases hu : u = t
    · subst hu
      simp [With, Without, Listed, ht, eq_comm]
    · simp [With, Without, Listed, hu, hoff u hu]
  base := by
    refine h.of_off hact ?_ ?_
    · intro u hu _
      rwa [(hoff u fun e => htr (e ▸ hu)).1]
    · rw [(hoff _ hta.symm).1]
      exact h.active
  act ha := by
    unfold ActRun
    rw [hact, (hoff _ hta.symm).1]
    exact ha
  top := by
    intro hb _ hs u hu
    rw [hact, (hoff _ hta.symm).2]
    by_cases hut : u = t
    · rw [hut]
      exact htop hb
    · rw [(hoff u hut).1] at hu
      rw [(hoff u hut).2]
      exact hs u hu
  frame u _ hut hua := hframe u hut hua
  next := .inl (by rw [hact])
  mask := hmask

/-- A thread takes the processor, and the active one goes on a ready list. -/
theorem after_switch (h : Base b e s) {a : τ} (haa : a ≠ s.actives e.kernCpu)
    (har : (s.th a).state ≠ .running) (hat : a = t ∨ (s.th a).state = .ready)
    (hd : s'.disp.Holds (With (Without (Listed s.th) a) (s.actives e.kernCpu)
      (s'.th (s.actives e.kernCpu)).priority) none)
    (hact : s'.actives = update s.actives e.kernCpu a) (ha : (s'.th a).state = .running)
    (hold : (s'.th (s.actives e.kernCpu)).state = .ready)
    (hoff : ∀ u, u ≠ a → u ≠ s.actives e.kernCpu → s'.th u = s.th u)
    (hmask : ∀ u, (s'.th u).runmask = (s.th u).runmask)
    (htop : b.smp = false → Top e s → (s'.th (s.actives e.kernCpu)).priority ≤ (s'.th a).priority ∧
      ∀ u, u ≠ a → (s.th u).state = .ready → (s.th u).priority ≤ (s'.th a).priority) :
    After b e t s s' where
  good := by
    refine hd.congr fun u x => ?_
    by_cases hu : u = s.actives e.kernCpu
    · subst hu
      simp [With, Without, Listed, h.active, hold, eq_comm]
    · by_cases hua : u = a
      · subst hua
        simp [With, Without, Listed, ha, haa]
      · simp [With, Without, Listed, hu, hua, hoff u hua hu]
  base := by
    refine h.of_update hact ?_ (.inr har) (by rw [ha]; decide)
    intro u hu hua
    rw [hoff u (fun e => har (e ▸ hu)) hua]
    exact hu
  act _ := by
    unfold ActRun
    rw [hact, update_self]
    exact ha
  top := by
    intro hb _ hs u hu
    obtain ⟨h1, h2⟩ := htop hb hs
    rw [hact, update_self]
    by_cases hua : u = s.actives e.kernCpu
    · rw [hua]
      exact h1
    · have hne : u ≠ a := by
        rintro rfl
        cases ha.symm.trans hu
      rw [hoff u hne hua] at hu ⊢
      exact h2 u hne hu
  frame := by
    intro u hu hut hua
    refine hoff u (fun e => ?_) hua
    rcases hat with h1 | h1
    · exact hut (e.trans h1)
    · exact hu (e ▸ h1)
  next := by
    rw [hact, update_self]
    exact hat.elim (fun h1 => .inr (.inr h1)) fun h1 => .inr (.inl h1)
  mask := hmask

/-! ## Stores to one thread -/

section
variable [DecidableEq τ]

@[simp] theorem upd_disp (f : Thread → Thread) : (s.upd t f).disp = s.disp := rfl
@[simp] theorem upd_actives (f : Thread → Thread) : (s.upd t f).actives = s.actives := rfl
@[simp] theorem upd_self (f : Thread → Thread) : (s.upd t f).th t = f (s.th t) := update_self ..
theorem upd_off (f : Thread → Thread) {u : τ} (h : u ≠ t) : (s.upd t f).th u = s.th u :=
  update_of_ne h _ _

/-- A property that both threads have, the stored one and the old ones. -/
theorem upd_forall {P : τ → Thread → Prop} {f : Thread → Thread} (ht : P t (f (s.th t)))
    (h : ∀ u, u ≠ t → P u (s.th u)) (u : τ) : P u ((s.upd t f).th u) := by
  by_cases hu : u = t
  · rw [hu, upd_self]
    exact ht
  · rw [upd_off f hu]
    exact h u hu

/-- A store that leaves state, priority and mask. -/
structure Quiet (f : Thread → Thread) : Prop where
  state : ∀ x, (f x).state = x.state
  priority : ∀ x, (f x).priority = x.priority
  runmask : ∀ x, (f x).runmask = x.runmask

theorem after_quiet (hg : Good s) (hb : Base b e s) {f : Thread → Thread} (hf : Quiet f) :
    After b e t s (s.upd t f) := by
  have hst : ∀ u, ((s.upd t f).th u).state = (s.th u).state :=
    upd_forall (P := fun u x => x.state = (s.th u).state) (hf.state _) fun _ _ => rfl
  have hpr : ∀ u, ((s.upd t f).th u).priority = (s.th u).priority :=
    upd_forall (P := fun u x => x.priority = (s.th u).priority) (hf.priority _) fun _ _ => rfl
  refine ⟨hg.of_same rfl fun u => ⟨hst u, hpr u⟩, hb.of_same rfl hst, ?_, ?_, ?_, .inl rfl, ?_⟩
  · intro ha
    unfold ActRun
    rw [hst]
    exact ha
  · intro _ _ htop u hu
    rw [hst] at hu
    rw [hpr, hpr]
    exact htop u hu
  · intro u _ hut _
    exact upd_off f hut
  · exact upd_forall (P := fun u x => x.runmask = (s.th u).runmask) (hf.runmask _) fun _ _ => rfl

theorem quiet_rrReset : Quiet Thread.rrReset := by
  constructor <;> intro x <;> unfold Thread.rrReset <;> split <;> rfl

theorem quiet_rrAddPreempt : Quiet (Thread.rrAddPreempt b) := by
  constructor <;> intro x <;> unfold Thread.rrAddPreempt <;> split <;> rfl

theorem quiet_saveReal : Quiet Thread.saveReal := ⟨fun _ => rfl, fun _ => rfl, fun _ => rfl⟩

theorem quiet_takeLow : Quiet Thread.takeLow := ⟨fun _ => rfl, fun _ => rfl, fun _ => rfl⟩

theorem quiet_takeOrg : Quiet Thread.takeOrg := ⟨fun _ => rfl, fun _ => rfl, fun _ => rfl⟩

theorem quiet_withPolicy (p : Policy) : Quiet (Thread.withPolicy p) :=
  ⟨fun _ => rfl, fun _ => rfl, fun _ => rfl⟩

theorem quiet_withReal (p : Prio) : Quiet (Thread.withReal p) := ⟨fun _ => rfl, fun _ => rfl, fun _ => rfl⟩

theorem quiet_newSporadic : Quiet Thread.newSporadic := ⟨fun _ => rfl, fun _ => rfl, fun _ => rfl⟩

theorem quiet_dropSs : Quiet Thread.dropSs := ⟨fun _ => rfl, fun _ => rfl, fun _ => rfl⟩

theorem quiet_setprio (p : Prio) : Quiet (Thread.setprio p) := ⟨fun _ => rfl, fun _ => rfl, fun _ => rfl⟩

theorem quiet_ss (f : SsInfo → SsInfo) : Quiet fun x => { x with ss := f x.ss } :=
  ⟨fun _ => rfl, fun _ => rfl, fun _ => rfl⟩

theorem after_setPriority (hg : Good s) (hb : Base b e s) {p : Prio} (ht : (s.th t).state ≠ .ready)
    (htop : b.smp = false → ActRun e s → Top e s → t = s.actives e.kernCpu →
      ∀ u, (s.th u).state = .ready → (s.th u).priority ≤ p) :
    After b e t s (s.setPriority t p) := by
  have hst : ∀ u, ((s.setPriority t p).th u).state = (s.th u).state :=
    upd_forall (P := fun u x => x.state = (s.th u).state) rfl fun _ _ => rfl
  refine ⟨?_, hb.of_same rfl hst, ?_, ?_, ?_, .inl rfl, ?_⟩
  · refine Holds.congr hg fun u a => ?_
    by_cases hu : u = t
    · subst hu
      simp [Listed, hst, ht]
    · rw [Listed, Listed, setPriority, upd_off _ hu]
  · intro ha
    unfold ActRun
    rw [hst]
    exact ha
  · intro hsmp ha hs u hu
    rw [hst] at hu
    have hut : u ≠ t := fun e => ht (e ▸ hu)
    have hup : ((s.setPriority t p).th u).priority = (s.th u).priority := by rw [setPriority, upd_off _ hut]
    rw [hup]
    by_cases hta : s.actives e.kernCpu = t
    · have : ((s.setPriority t p).th ((s.setPriority t p).actives e.kernCpu)).priority = p := by
        rw [setPriority, upd_actives, hta, upd_self]
      rw [this]
      exact htop hsmp ha hs hta.symm u hu
    · have : ((s.setPriority t p).th ((s.setPriority t p).actives e.kernCpu)).priority
          = (s.th (s.actives e.kernCpu)).priority := by
        rw [setPriority, upd_actives, upd_off _ hta]
      rw [this]
      exact hs u hu
  · intro u _ hut _
    exact upd_off _ hut
  · exact upd_forall (P := fun u x => x.runmask = (s.th u).runmask) rfl fun _ _ => rfl

/-! ## Selection -/

theorem Good.unlink (hg : Good s) (ht : (s.th t).state = .ready) :
    ∃ d, s.unlink t = some { s with disp := d } ∧ d.Holds (Without (Listed s.th) t) none := by
  have hl : Listed s.th t (s.th t).priority := ⟨ht, rfl⟩
  obtain ⟨d, hd, hh⟩ := Holds.rem hg hl
  refine ⟨_, ?_, hh.clean⟩
  simp only [Sched.unlink, linkRem, hd, bind_eq_bind, bind_some]
  split_ifs <;> rfl

omit [DecidableEq τ] in
theorem findOnCpu_mem {n : Nat} {c : Cell Nat τ} {l : List τ} (hc : Chain s.disp.link c l)
    {u : τ} (h : findOnCpu e s n (s.disp.link c) = some (some u)) : u ∈ l := by
  induction l generalizing n c with
  | nil =>
    rw [show s.disp.link c = none from hc, findOnCpu] at h
    cases h
  | cons x l ih =>
    rw [hc.1] at h
    cases n with
    | zero => cases h
    | succ n =>
      rw [findOnCpu] at h
      split_ifs at h with hx
      · rw [some.injEq, some.injEq] at h
        simp [h]
      · exact .tail _ (ih hc.2 h)

omit [DecidableEq τ] in
theorem Good.findOnCpu (hg : Good s) {n p : Nat} {u : τ}
    (h : findOnCpu e s n (s.disp.thp p) = some (some u)) : Listed s.th u p := by
  obtain ⟨q, hl, hm, -⟩ := hg
  exact (hm u p).mp (findOnCpu_mem (hl.chain p) h)

/-- What select_thread hands over: a READY thread off its list, of the priority asked
for, and on a uniprocessor the highest. -/
structure Picked (b : Build) (s s' : Sched τ) (prio : Int) (u : τ) : Prop where
  same : ∃ d, s' = { s with disp := d }
  holds : s'.disp.Holds (Without (Listed s.th) u) none
  ready : (s.th u).state = .ready
  enough : prio ≤ (s.th u).priority.val
  highest : b.smp = false → ∀ v, (s.th v).state = .ready → (s.th v).priority ≤ (s.th u).priority

theorem selectDown_spec (hg : Good s) (hsmp : b.smp = true) {prio : Int} {k : Nat} {r : Option τ}
    (h : s.selectDown e prio k = some (r, s')) :
    (r = none ∧ s' = s) ∨ ∃ u, r = some u ∧ Picked b s s' prio u := by
  induction k with
  | zero =>
    rw [selectDown] at h
    split_ifs at h
    simp only [some.injEq, Prod.mk.injEq] at h
    exact .inl ⟨h.1.symm, h.2.symm⟩
  | succ k ih =>
    rw [selectDown] at h
    split_ifs at h with hk
    · simp only [some.injEq, Prod.mk.injEq] at h
      exact .inl ⟨h.1.symm, h.2.symm⟩
    · cases hf : findOnCpu e s e.fuel (s.disp.thp k) with
      | none => simp [hf] at h
      | some r' =>
        rw [hf] at h
        cases r' with
        | none => exact ih h
        | some u =>
          obtain ⟨hu, hk'⟩ := hg.findOnCpu hf
          have henough : prio ≤ ((s.th u).priority.val : Int) := by omega
          obtain ⟨d, hd, hh⟩ := hg.unlink hu
          simp only [bind_eq_bind, bind_some, henough, if_true, hd, some.injEq,
            Prod.mk.injEq] at h
          obtain ⟨rfl, rfl⟩ := h
          exact .inr ⟨u, rfl, ⟨d, rfl⟩, hh, hu, henough, fun hb => nomatch hsmp.symm.trans hb⟩

theorem selectThread_spec (hg : Good s) {prio : Int} {r : Option τ}
    (h : selectThread b e s prio = some (r, s')) :
    (r = none ∧ s' = s) ∨ ∃ u, r = some u ∧ Picked b s s' prio u := by
  rw [selectThread] at h
  split_ifs at h with hsmp hlt
  · exact selectDown_spec hg hsmp h
  · simp only [some.injEq, Prod.mk.injEq] at h
    exact .inl ⟨h.1.symm, h.2.symm⟩
  · cases hu : s.disp.thp s.disp.highestPri with
    | none =>
      rw [hu] at h
      simp only [some.injEq, Prod.mk.injEq] at h
      exact .inl ⟨h.1.symm, h.2.symm⟩
    | some u =>
      obtain ⟨hr, hp⟩ := Holds.first hg hu
      obtain ⟨d, hd, hh⟩ := hg.unlink hr
      simp only [hu, hd, bind_eq_bind, bind_some, some.injEq, Prod.mk.injEq] at h
      obtain ⟨rfl, rfl⟩ := h
      refine .inr ⟨u, rfl, ⟨d, rfl⟩, hh, hr, by omega, fun _ v hv => ?_⟩
      have hle := (Holds.highest hg (s.th v).priority.isLt ⟨hv, rfl⟩).2
      rw [Fin.le_def]
      omega

end

end QRV.Nano.Sched
