import QRV.Nano.SchedOps

/- The operations that leave the processor to another thread.

   block, block_and_ready and unready take a thread off the processor, resched and
   sched_thread may do so. `Kept` is `After` without the thread the call is about.
   `Ran b e P s s'` is what an operation leaves whatever the active thread was: a
   running thread, on a uniprocessor the highest one if `P` holds.

   For block_and_ready `P` needs more than the order of the priorities: it charges a
   sporadic thread before it compares, and the charge can lower the thread
   (`Shortcut`). -/
open Call (Ends)

namespace QRV.Nano.Sched

open Dispatch Option

variable {τ : Type} {b : Build} {e : Env τ} {s s' s'' : Sched τ} {t : τ}
variable {P : Prop} {a : τ} {s1 : Sched τ} {n p : Nat} {param : Param} {f : Thread → Thread}

/-- What an operation leaves when it is not about one thread. -/
structure Kept (b : Build) (e : Env τ) (s s' : Sched τ) : Prop where
  good : Good s'
  base : Base b e s'
  act : ActRun e s → ActRun e s'
  top : b.smp = false → ActRun e s → Top e s → Top e s'
  mask : ∀ u, (s'.th u).runmask = (s.th u).runmask

theorem After.kept (h : After b e t s s') : Kept b e s s' := ⟨h.good, h.base, h.act, h.top, h.mask⟩

theorem Kept.trans (h : Kept b e s s') (h' : Kept b e s' s'') : Kept b e s s'' :=
  ⟨h'.good, h'.base, fun ha => h'.act (h.act ha), fun hb ha ht => h'.top hb (h.act ha) (h.top hb ha ht),
    fun u => (h'.mask u).trans (h.mask u)⟩

/-- An operation that leaves a running thread whatever it found; on a uniprocessor the
highest, if `P` holds. -/
structure Ran (b : Build) (e : Env τ) (P : Prop) (s s' : Sched τ) : Prop where
  good : Good s'
  base : Base b e s'
  act : ActRun e s'
  top : b.smp = false → P → Top e s'
  mask : ∀ u, (s'.th u).runmask = (s.th u).runmask

theorem Ran.kept (h : Ran b e P s s') (h' : Kept b e s' s'') : Ran b e P s s'' :=
  ⟨h'.good, h'.base, h'.act h.act, fun hb hp => h'.top hb h.act (h.top hb hp),
    fun u => (h'.mask u).trans (h.mask u)⟩

/-- The masks may be those of an earlier state, and the order may need more. -/
theorem Ran.weaken {Q : Prop} (h : Ran b e P s' s'') (hm : ∀ u, (s'.th u).runmask = (s.th u).runmask)
    (hP : b.smp = false → Q → P) : Ran b e Q s s'' :=
  ⟨h.good, h.base, h.act, fun hb hq => h.top hb (hP hb hq), fun u => (h.mask u).trans (hm u)⟩

theorem Kept.refl (hg : Good s) (hb : Base b e s) : Kept b e s s :=
  ⟨hg, hb, id, fun _ _ h => h, fun _ => rfl⟩

theorem Kept.ran (h : Kept b e s s') (hrun : ActRun e s) (hP : P → Top e s) : Ran b e P s s' :=
  ⟨h.good, h.base, h.act hrun, fun hb hp => h.top hb hrun (hP hp), h.mask⟩

theorem Alike.trans {x y z : Thread} (h : Alike x y) (h' : Alike y z) : Alike x z :=
  ⟨h.state.trans h'.state, h.priority.trans h'.priority, h.runmask.trans h'.runmask⟩

variable [DecidableEq τ]

theorem blockActive (hg : Good s) (hb : Base b e s) {st : ThState} (hst : st ≠ .ready) :
    Good (s.setState (s.actives e.kernCpu) st) ∧ Base b e (s.setState (s.actives e.kernCpu) st) := by
  constructor
  · refine Holds.congr hg fun u a => ?_
    by_cases hu : u = s.actives e.kernCpu
    · subst hu
      simp [Listed, setState, hst, hb.active]
    · rw [Listed, Listed, setState, upd_off _ hu]
  · refine hb.of_off rfl ?_ ?_
    · intro u hu hua
      rw [setState, upd_off _ hua]
      exact hu
    · rw [setState, upd_self]
      exact hst

/-- A thread in hand takes the processor from one that is blocked. -/
theorem ran_hand (hb : Base b e s) {u : τ} (hne : u ≠ s.actives e.kernCpu)
    (hu : (s.th u).state ≠ .running) (hd : s1.disp.Holds (Without (Listed s.th) u) none)
    (ha : s1.actives = s.actives) (hl : ∀ v, Alike (s1.th v) (s.th v))
    (htop : b.smp = false → P → ∀ v, (s.th v).state = .ready → v ≠ u → (s.th v).priority ≤ (s.th u).priority) :
    Ran b e P s (markRunning e s1 u) where
  good := by
    refine hd.congr fun v a => ?_
    by_cases hv : v = u
    · subst hv
      simp [Without, Listed]
    · simp [Without, Listed, hv, markRunning_off hv, (hl v).state, (hl v).priority]
  base := by
    refine hb.of_update (a := u) (by rw [markRunning_actives, ha]) ?_ (.inr hu) ?_
    · intro v hv _
      have hvu : v ≠ u := fun h => hu (h ▸ hv)
      rw [markRunning_off hvu, (hl v).state]
      exact hv
    · rw [markRunning_self]
      simp
  act := by
    unfold ActRun
    rw [markRunning_actives, Function.update_self, markRunning_self]
  top := by
    intro hsmp hp v hv
    have hvu : v ≠ u := by
      rintro rfl
      rw [markRunning_self] at hv
      cases hv
    rw [markRunning_off hvu] at hv ⊢
    rw [(hl v).state] at hv
    rw [markRunning_actives, Function.update_self, markRunning_self, (hl v).priority]
    exact (hl u).priority ▸ htop hsmp hp v hv hvu
  mask := markRunning_mask fun v => (hl v).runmask

theorem ran_picked (hb : Base b e s) {s1 s2 : Sched τ} {prio : Int} {u : τ} (hk : Picked b s s1 prio u)
    (hd : s2.disp = s1.disp) (ha : s2.actives = s1.actives) (hl : ∀ v, Alike (s2.th v) (s1.th v)) :
    Ran b e True s (markRunning e s2 u) := by
  obtain ⟨d, hs1⟩ := hk.same
  have hth : s1.th = s.th := by rw [hs1]
  have hac : s1.actives = s.actives := by rw [hs1]
  refine ran_hand hb (fun h => hb.active (h ▸ hk.ready)) (by rw [hk.ready]; decide) (by rw [hd]; exact hk.holds)
    (ha.trans hac) (fun v => by rw [← hth]; exact hl v) fun hsmp _ v hv _ => hk.highest hsmp v hv

/-! ## block, block_and_ready, unready -/

section
variable (hg : Good s) (hb : Base b e s)
include hg hb

/-- block: another thread runs, and then the old one may be charged. -/
theorem block_split : Ends (block b e s) fun s' => ∃ s1 u, selectThread b e s (-1) = some (some u, s1) ∧
      Ran b e True s (markRunning e (blockTick b s1 (s.actives e.kernCpu) u) u) ∧
      (markRunning e (blockTick b s1 (s.actives e.kernCpu) u) u = s' ∨ ∃ pre,
        ssStopRunning b (adjustDrop b e) (markRunning e (blockTick b s1 (s.actives e.kernCpu) u) u)
          (s.actives e.kernCpu) pre = some s') := by
  refine .seq fun ⟨r, s1⟩ hsel => ?_
  rcases selectThread_spec hg hsel with ⟨rfl, -⟩ | ⟨u, rfl, hk⟩
  · exact .fails
  intro s' h
  simp only [bind_eq_bind, bind_some] at h
  refine ⟨s1, u, hsel, ?_, ?_⟩
  · unfold blockTick
    split_ifs
    · exact ran_picked hb hk rfl rfl fun w => upd_alike quiet_rrAddPreempt w
    · exact ran_picked hb hk rfl rfl fun w => ⟨rfl, rfl, rfl⟩
  · split_ifs at h with hne
    · exact .inr ⟨_, h⟩
    · exact .inl (some.inj h)

theorem block_ran : Ends (block b e s) (Ran b e True s) := by
  refine (block_split hg hb).mono fun s' ⟨s1, u, _, hran, h⟩ => ?_
  rcases h with rfl | ⟨pre, h⟩
  · exact hran
  · exact hran.kept (ssStopRunning_after adjustDrop_adj hran.good hran.base _ h).kept

/-- block_and_ready_default up to the place where it compares priorities: the active thread
has been charged, and `t` is blocked as before. -/
theorem blockAndReady_charge (hta : t ≠ s.actives e.kernCpu) (ht : (s.th t).state ≠ .ready) {pre : Bool}
    (h : ssStopRunning b (adjustDrop b e) (s.nullLinks t) (s.actives e.kernCpu) pre = some s1) :
    After b e t s s1 ∧ s1.th t = s.th t ∧ t ≠ s1.actives e.kernCpu := by
  have hg1 : Good (s.nullLinks t) := holds_nullLinks (s := s) hg fun a h1 => ht h1.1
  have hb1 : Base b e (s.nullLinks t) := hb.of_same rfl fun _ => rfl
  have hx := ssStopRunning_after adjustDrop_adj hg1 hb1 _ h
  have hx' : After b e t (s.nullLinks t) s1 := hx.of_active
  exact ⟨hx'.entry rfl ⟨rfl, rfl, rfl⟩ fun _ _ => rfl, hx.frame t ht hta hta, hx.inactive hta ht hta⟩

theorem blockLink_good (hta : t ≠ s.actives e.kernCpu)
    (ht : (s.th t).state ≠ .ready) (htr : (s.th t).state ≠ .running) :
    Good (blockLink s t (s.th t).priority) ∧ Base b e (blockLink s t (s.th t).priority) := by
  have hoff : ∀ v, v ≠ t → (blockLink s t (s.th t).priority).th v = s.th v := by
    intro v hv
    unfold blockLink
    rw [setState, upd_off _ hv]
    split_ifs <;> rfl
  have hself : (blockLink s t (s.th t).priority).th t = { s.th t with state := .ready } := by
    unfold blockLink
    rw [setState, upd_self]
    split_ifs <;> rfl
  have hd : (blockLink s t (s.th t).priority).disp.Holds (With (Listed s.th) t (s.th t).priority) none := by
    unfold blockLink
    split_ifs
    · exact Holds.finSet hg fun a h => ht h.1
    · exact Holds.begSet hg fun a h => ht h.1
  constructor
  · refine hd.congr fun v a => ?_
    by_cases hv : v = t
    · subst hv
      simp [With, Listed, hself, ht, eq_comm]
    · simp [With, Listed, hv, hoff v hv]
  · have hact : (blockLink s t (s.th t).priority).actives = s.actives := by
      unfold blockLink
      split_ifs <;> rfl
    refine hb.of_off hact ?_ ?_
    · intro v hv _
      have hvt : v ≠ t := fun h => htr (h ▸ hv)
      rwa [hoff v hvt]
    · rw [hoff _ hta.symm]
      exact hb.active

end

theorem blockLink_mask (u : τ) : ((blockLink s t (s.th t).priority).th u).runmask = (s.th u).runmask := by
  unfold blockLink
  apply upd_mask rfl
  intro v
  split_ifs <;> rfl

/-! ### The charge of a thread that has just been blocked

SS_STOP_RUNNING in block_and_ready_default is about an active thread that is already
blocked. It may lower its priority, the one the new thread is then compared with. -/

theorem ssCharge_alike (u : τ) : Alike ((s.ssCharge t).th u) (s.th u) := by
  unfold ssCharge
  apply (updSs_alike _ u).trans
  split_ifs
  · unfold schedRepl
    dsimp only
    exact updSs_alike _ u
  · exact updSs_alike _ u

theorem ssCharge_low : ((s.ssCharge t).th t).ss.lowPriority = (s.th t).ss.lowPriority ∧
    ((s.ssCharge t).th t).realPriority = (s.th t).realPriority := by
  unfold ssCharge
  rw [updSs, upd_self]
  split_ifs
  · unfold schedRepl
    rw [updSs, upd_self]
    exact ⟨rfl, rfl⟩
  · rw [updSs, upd_self]
    exact ⟨rfl, rfl⟩

theorem ssCharge_actives : (s.ssCharge t).actives = s.actives := by
  unfold ssCharge schedRepl
  split_ifs <;> rfl

/-- A thread that is not active and already at its low priority is only charged. -/
theorem schedSsUpdate_alike {drop : Bool} (hta : t ≠ s.actives e.kernCpu)
    (hp : (s.th t).priority = (s.th t).ss.lowPriority) :
    Ends (schedSsUpdate b (fun s t p => adjustPriority b e (n + 1) s t p false) s t drop) fun s' =>
      ∀ u, Alike (s'.th u) (s.th u) := by
  rw [schedSsUpdate]
  split_ifs with horg hdrop
  · exact .done fun _ => ⟨rfl, rfl, rfl⟩
  · refine .seq fun _ _ => .seq fun s1 hs1 => .done fun u => ?_
    have hs : s1 = (s.ssCharge t).upd t Thread.saveReal := by
      rw [ssDrop] at hs1
      split_ifs at hs1
      · rw [adjustPriority, adjustBody, if_pos, if_neg] at hs1
        · cases hs1
          rfl
        · rw [upd_actives, ssCharge_actives]
          exact hta
        · rw [upd_self]
          change ((s.ssCharge t).th t).priority = ((s.ssCharge t).th t).ss.lowPriority
          rw [(ssCharge_alike t).priority, ssCharge_low.1]
          exact hp
      · cases hs1
        rfl
    rw [hs]
    exact (upd_alike quiet_takeLow u).trans ((upd_alike quiet_saveReal u).trans (ssCharge_alike u))
  · exact .seq fun _ _ => .done ssCharge_alike

/-- A blocked active thread yields: it is put on its ready list, and no READY thread is
higher than it. -/
theorem yield_blocked (hg : Good s) (hb : Base b e s) (ha : s.actives e.kernCpu = a)
    (hp : (s.th a).priority = (s.th a).ss.lowPriority)
    (htop : ∀ v, (s.th v).state = .ready → (s.th v).priority ≤ (s.th a).priority) :
    Ends (yieldDefault b e (fun s t p => adjustPriority b e (n + 1) s t p false) s) fun s' =>
      (s'.th a).priority = (s.th a).priority ∧
      ∀ v, (s'.th v).state = .ready → (s'.th v).priority ≤ (s.th a).priority := by
  have hact := hb.active
  unfold yieldDefault
  rw [ha] at hact ⊢
  refine .seq fun r hr => ?_
  cases r with
  | none => exact .done ⟨rfl, htop⟩
  | some u =>
    have hu := yieldTo_listed hg hr
    have hne : u ≠ a := fun h => hact (h ▸ hu.1)
    refine .bind (P := fun s0 => ∃ d, { s with disp := d } = s0) (.seq fun d _ => .done ⟨d, rfl⟩) ?_
    rintro _ ⟨d, rfl⟩
    refine .seq fun s2 hs2 => .done ?_
    -- what SS_STOP_RUNNING finds, and leaves
    obtain ⟨s1, hs1⟩ : ∃ s1, s1 = markRunning e (((({ s with disp := d } : Sched τ).linkEnd
        (s.th a).priority a).upd a
        Thread.rrReset).setState a .ready) u := ⟨_, rfl⟩
    rw [← hs1] at hs2
    have hact : s1.th a = { Thread.rrReset (s.th a) with state := .ready } := by
      rw [hs1, markRunning_off hne.symm, setState, upd_self, upd_self]
      rfl
    have hoff : ∀ v, v ≠ u → v ≠ a → s1.th v = s.th v := by
      intro v hvu hva
      rw [hs1, markRunning_off hvu, setState, upd_off _ hva, upd_off _ hva]
      rfl
    have hlow : (s1.th a).priority = (s1.th a).ss.lowPriority := by
      rw [hact]
      change (Thread.rrReset (s.th a)).priority
        = (Thread.rrReset (s.th a)).ss.lowPriority
      rw [quiet_rrReset.priority, hp]
      unfold Thread.rrReset
      split <;> rfl
    have hne1 : a ≠ s1.actives e.kernCpu := by
      rw [hs1, markRunning_actives, Function.update_self]
      exact hne.symm
    have hal : ∀ v, Alike (s2.th v) (s1.th v) := by
      refine Ends.guard (P := fun s2 => ∀ v, Alike (s2.th v) (s1.th v)) (fun v => ⟨rfl, rfl, rfl⟩) (fun _ => ?_) s2 hs2
      rw [schedSsBlock]
      split_ifs with horg hpre
      · exact .done fun v => ⟨rfl, rfl, rfl⟩
      · cases hpre
      · exact schedSsUpdate_alike hne1 hlow
    have hal' : ∀ v, Alike ((ssMarkActivation e s2 a).th v) (s1.th v) := fun v =>
      (ssMarkActivation_frame.2.2.1 v).trans (hal v)
    have hpa : (s1.th a).priority = (s.th a).priority := by
      rw [hact]
      exact quiet_rrReset.priority _
    refine ⟨(hal' _).priority.trans hpa, fun v hv => ?_⟩
    rw [(hal' v).state] at hv
    rw [(hal' v).priority]
    by_cases hva : v = a
    · exact Fin.le_of_eq (by rw [hva, hpa])
    · have hvu : v ≠ u := by
        rintro rfl
        rw [hs1, markRunning_self] at hv
        cases hv
      rw [hoff v hvu hva] at hv ⊢
      exact htop v hv

/-- SS_STOP_RUNNING lowers the priority of a thread that blocks. -/
def Drops (s : Sched τ) (t : τ) : Prop :=
  (s.th t).policy = .sporadic ∧ (s.th t).ss.orgPriority = 0 ∧
    (s.th t).ss.maxRepl.toNat ≤ (s.th t).ss.replCount.toNat + 1 ∧ (s.th t).priority ≤ (s.th t).realPriority

/-- The blocked active thread is charged: either it is still as high as every READY thread,
or it has dropped to its low priority and the READY threads are as before. -/
theorem charge_blocked (hg : Good s) (hb : Base b e s) (ha : s.actives e.kernCpu = a) (hrun : (s.th a).state ≠ .running)
    (htop : ∀ v, (s.th v).state = .ready → (s.th v).priority ≤ (s.th a).priority) :
    Ends (ssStopRunning b (adjustDrop b e) s a false) fun s' =>
      (∀ v, (s'.th v).state = .ready → (s'.th v).priority ≤ (s'.th a).priority) ∨
      Drops s a ∧ (s'.th a).priority = (s.th a).ss.lowPriority ∧
        ∀ v, (s'.th v).state = .ready → (s.th v).state = .ready ∧ (s'.th v).priority = (s.th v).priority := by
  have hsame {s' : Sched τ} (hl : ∀ v, Alike (s'.th v) (s.th v)) :
      ∀ v, (s'.th v).state = .ready → (s'.th v).priority ≤ (s'.th a).priority := by
    intro v hv
    rw [(hl v).priority, (hl _).priority]
    exact htop v ((hl v).state ▸ hv)
  rw [ssStopRunning]
  split_ifs with hpol
  · rw [schedSsBlock]
    split_ifs with horg hpre
    · exact .done (.inl (hsame fun v => ⟨rfl, rfl, rfl⟩))
    · cases hpre
    · rw [schedSsUpdate, if_neg horg]
      refine .seq fun _ _ => ?_
      split_ifs with hdrop
      · refine .seq fun s1 hs1 => .done ?_
        -- the state in which the priority is adjusted
        obtain ⟨s0, hs0⟩ : ∃ s0, s0 = (s.ssCharge a).upd a Thread.saveReal := ⟨_, rfl⟩
        rw [← hs0] at hs1
        have hl0 : ∀ v, Alike (s0.th v) (s.th v) := by
          intro v
          rw [hs0]
          exact (upd_alike quiet_saveReal v).trans (ssCharge_alike v)
        have hlow0 : (s0.th a).ss.lowPriority = (s.th a).ss.lowPriority := by
          rw [hs0, upd_self]
          exact ssCharge_low.1
        have hreal0 : (s0.th a).realPriority = (s.th a).realPriority := by
          rw [hs0, upd_self]
          exact ssCharge_low.2
        have hact0 : s0.actives e.kernCpu = a := by
          rw [hs0, upd_actives, ssCharge_actives, ha]
        have h0 : After b e a s s0 := hs0 ▸ (ssCharge_after hg hb).quiet quiet_saveReal
        have hl1 : ∀ v, Alike ((s1.upd a Thread.takeLow).th v) (s1.th v) :=
          upd_alike quiet_takeLow
        rw [ssDrop] at hs1
        split_ifs at hs1 with hle
        · rw [adjustDrop, adjustPriority, adjustBody] at hs1
          split_ifs at hs1 with heq hta
          · -- at the low priority already: the blocked thread yields
            obtain ⟨h1, h2⟩ := yield_blocked h0.good h0.base hact0 (by rw [heq, hlow0]) (hsame hl0) _ hs1
            left
            intro v hv
            rw [(hl1 v).state] at hv
            rw [(hl1 v).priority, (hl1 _).priority, h1]
            exact h2 v hv
          · exact absurd hact0.symm hta
          · -- the priority drops
            right
            have hst : s1 = s0.setPriority a (s.th a).ss.lowPriority := by
              have h1 : (s0.th a).state ≠ .ready := hact0 ▸ h0.base.active
              have h2 : (s0.th a).state ≠ .running := by
                rw [(hl0 _).state]
                exact hrun
              cases hst : (s0.th a).state <;> simp_all
            refine ⟨⟨hpol, ?_, ?_, ?_⟩, ?_, fun v hv => ?_⟩
            · simpa using horg
            · simpa using hdrop
            · rwa [(hl0 _).priority, hreal0] at hle
            · rw [(hl1 _).priority, hst, setPriority, upd_self]
            · rw [(hl1 v).state, hst] at hv
              rw [(hl1 v).priority, hst]
              have hva : v ≠ a := by
                rintro rfl
                rw [setPriority, upd_self] at hv
                exact h0.base.active (hact0 ▸ hv)
              rw [setPriority, upd_off _ hva] at hv ⊢
              exact ⟨(hl0 v).state ▸ hv, (hl0 v).priority⟩
        · cases hs1
          exact .inl (hsame fun v => (hl1 v).trans (hl0 v))
      · exact .done (.inl (hsame ssCharge_alike))
  · exact .done (.inl (hsame fun v => ⟨rfl, rfl, rfl⟩))

/-- block_and_ready_default of `t` drops the priority of the blocking thread below that of
`t`, while a higher thread is READY. -/
def Shortcut (s : Sched τ) (act t : τ) : Prop :=
  (s.th t).stops = false ∧ Drops s act ∧ (s.th act).ss.lowPriority < (s.th t).priority ∧
    ∃ v, (s.th v).state = .ready ∧ (s.th t).priority < (s.th v).priority

theorem blockAndReady_ran (hg : Good s) (hb : Base b e s) (hta : t ≠ s.actives e.kernCpu)
    (htb : (s.th t).state.blocked) :
    Ends (blockAndReady b e s t) (Ran b e (Top e s ∧ ¬ActRun e s ∧ ¬Shortcut s (s.actives e.kernCpu) t) s) := by
  obtain ⟨htr, ht⟩ := blocked_iff.mp htb
  have hg0 : Good (s.nullLinks t) := holds_nullLinks (s := s) hg fun a h1 => ht h1.1
  have hb0 : Base b e (s.nullLinks t) := hb.of_same rfl fun _ => rfl
  unfold blockAndReady
  dsimp only
  split_ifs with hstop
  · -- a pending stop: the call is a block
    have hst : After b e t (s.nullLinks t) ((s.nullLinks t).setState t .stopped) :=
      after_setState hb0 hta htr (hg0.without ht) (by decide)
    exact (block_ran hst.good hst.base).mono fun _ hran => hran.weaken hst.mask fun _ _ => trivial
  refine .seq fun s1 hs1 => ?_
  obtain ⟨hx, ht1, hta1⟩ := blockAndReady_charge hg hb hta ht hs1
  -- SS_MARK_ACTIVATION changes nothing the rules speak of
  obtain ⟨s2, hs2⟩ : ∃ s2, s2 = ssMarkActivation e s1 t := ⟨_, rfl⟩
  rw [← hs2]
  have hm : After b e t s1 s2 := hs2 ▸ ssMarkActivation_after hx.good hx.base
  obtain ⟨hac, -, hl, -⟩ : s2.actives = s1.actives ∧ _ ∧ (∀ v, Alike (s2.th v) (s1.th v)) ∧ _ :=
    hs2 ▸ ssMarkActivation_frame
  have hta2 : t ≠ s2.actives e.kernCpu := by rwa [hac]
  have ht2 : Alike (s2.th t) (s.th t) := ht1 ▸ hl t
  have hmask : ∀ u, (s2.th u).runmask = (s.th u).runmask := fun u => (hm.mask u).trans (hx.mask u)
  split_ifs with hcrash hrun
  · exact .fails
  · -- the new thread runs at once
    have hran : Ran b e (Top e s ∧ ¬ActRun e s ∧ ¬Shortcut s (s.actives e.kernCpu) t) s2 (markRunning e s2 t) := by
      refine ran_hand hm.base hta2 (by rw [ht2.state]; exact htr) (hm.good.without (by rw [ht2.state]; exact ht))
        rfl (fun v => ⟨rfl, rfl, rfl⟩) fun _ hP v hv _ => ?_
      obtain ⟨htop, hna, hsafe⟩ := hP
      rw [ht2.priority]
      rcases hrun.2 with hgt | hgt
      · -- higher than the blocking thread
        have hpre : decide ((s.th (s.actives e.kernCpu)).state = .ready ∨
            (s.th (s.actives e.kernCpu)).state = .running) = false := by
          rw [decide_eq_false_iff_not]
          exact fun h1 => h1.elim hb.active hna
        change ssStopRunning b (adjustDrop b e) (s.nullLinks t) (s.actives e.kernCpu)
          (decide ((s.th (s.actives e.kernCpu)).state = .ready ∨
            (s.th (s.actives e.kernCpu)).state = .running)) = some s1 at hs1
        rw [hpre] at hs1
        rw [(hl v).state] at hv
        rw [(hl v).priority]
        rw [(hl _).priority] at hgt
        rcases charge_blocked hg0 hb0 rfl hna htop _ hs1 with h1 | ⟨hd, hlow, h1⟩
        · exact Fin.le_trans (h1 v hv) (Fin.le_of_lt hgt)
        · obtain ⟨hvr, hvp⟩ := h1 v hv
          rw [hvp]
          refine Fin.not_lt.mp fun hlt => hsafe ⟨eq_false_of_ne_true hstop, hd, ?_, v, hvr, hlt⟩
          exact hlow ▸ hgt
      · -- higher than every ready list
        have := (Holds.highest hm.good (s2.th v).priority.isLt ⟨hv, rfl⟩).2
        rw [Fin.le_def]
        change s2.disp.highestPri < (s.th t).priority.val at hgt
        omega
    exact .done (hran.weaken hmask fun _ => id)
  · -- it is linked, and the highest thread runs
    refine .seq fun ⟨r, s3⟩ hsel => ?_
    have hp : (s.th t).priority = (s2.th t).priority := ht2.priority.symm
    change selectThread b e (blockLink s2 t (s.th t).priority) (-1) = some (r, s3) at hsel
    rw [hp] at hsel
    obtain ⟨hg3, hb3⟩ := blockLink_good hm.good hm.base hta2 (by rw [ht2.state]; exact ht)
      (by rw [ht2.state]; exact htr)
    rcases selectThread_spec hg3 hsel with ⟨rfl, -⟩ | ⟨u, rfl, hk⟩
    · exact .fails
    have hran := ran_picked hb3 hk rfl rfl fun v => ⟨rfl, rfl, rfl⟩
    exact .done (hran.weaken (fun v => (blockLink_mask v).trans (hmask v)) fun _ _ => trivial)

theorem unready_ran (hg : Good s) (hb : Base b e s) {st : ThState} (hst : st.blocked)
    (ht : t ≠ s.actives e.kernCpu → (s.th t).state ≠ .running) :
    Ends (unready b e s t st) fun s' => Ran b e True s s' ∨ After b e t s s' := by
  have hst' : st ≠ .ready := (blocked_iff.mp hst).2
  unfold unready
  split_ifs with hta
  · subst hta
    obtain ⟨hg1, hb1⟩ := blockActive hg hb hst'
    refine .seq fun _ _ => (block_ran hg1 hb1).mono fun _ hran => .inl (hran.weaken (fun u => ?_) fun _ => id)
    exact upd_mask rfl (fun _ => rfl) u
  · refine .seq fun _ _ => .seq fun s1 hs1 => .done (.inr ?_)
    rw [leaveList] at hs1
    split_ifs at hs1 with hr
    · obtain ⟨d, hd, hh⟩ := hg.unlink hr
      rw [hd] at hs1
      cases hs1
      have hb1 : Base b e ({ s with disp := d } : Sched τ) := hb.of_same rfl fun _ => rfl
      have := after_setState (s := { s with disp := d }) hb1 hta (ht hta) hh hst'
      exact this.entry rfl ⟨rfl, rfl, rfl⟩ fun _ _ => rfl
    · cases hs1
      exact after_setState hb hta (ht hta) (hg.without hr) hst'

/-! ## resched -/

theorem ssAdjustTurn_kept (hg : Good s) (hb : Base b e s) {rest : List τ} :
    Ends (ssAdjustTurn b e s t rest) fun r => Kept b e s r.2 := by
  have h0 : After b e t s (s.popRepl rest) := after_same hg hb rfl rfl rfl
  unfold ssAdjustTurn
  dsimp only
  split_ifs with hpol
  · have h1 := h0.updSs fun i => { i with currBudget := i.initBudget, replCount := 0 }
    have h2 := h1.updSs fun i => { i with activationTime := e.snap none, consumed := 0 }
    refine .bind (P := fun r => After b e t s r.2) (.guard h1 fun _ => ?_) fun r hx => .done ?_
    · refine .bind (.guard h2 fun _ => h2.then (adjustDrop_adj.ends h2.good h2.base)) fun s3 h3 => .done ?_
      simpa only using (h3.quiet quiet_takeOrg).updSs _
    · simpa only using (hx.updSs _).kept
  · exact .fails
  · exact .done h0.kept

theorem ssAdjustLoop_kept (n : Nat) {s : Sched τ} (hg : Good s) (hb : Base b e s) :
    Ends (ssAdjustLoop b e n s) fun r => Kept b e s r.2 := by
  unfold ssAdjustLoop
  split
  · exact .done (Kept.refl hg hb)
  split_ifs
  · cases n with
    | zero => exact .fails
    | succ n =>
      exact .bind (ssAdjustTurn_kept hg hb) fun r h1 =>
        .bind (ssAdjustLoop_kept n h1.good h1.base) fun _ h2 => .done (h1.trans h2)
  · exact .done (Kept.refl hg hb)

theorem Linked.of_upd (h : Linked e (s.upd t f) s' t p) (hf : Quiet f) : Linked e s s' t p :=
  ⟨h.holds, fun u => (h.alike u).trans (upd_alike hf u), fun u hut hua => (h.off u hut hua).trans (upd_off f hut), h.actives⟩

theorem reschedLink_spec (s : Sched τ) (act : τ) (hact : s.actives e.kernCpu = act) :
    (∀ M, s.disp.Holds M none → (∀ a, ¬M act a) →
      (reschedLink b s act).disp.Holds (With M act (s.th act).priority) none) ∧
    Alike ((reschedLink b s act).th act) { s.th act with state := .ready } ∧
    (∀ v, v ≠ act → (reschedLink b s act).th v = s.th v) ∧ (reschedLink b s act).actives = s.actives := by
  obtain ⟨s1, hs1, hl⟩ : ∃ s1, reschedLink b s act = s1.setState act .ready ∧ Linked e s s1 act (s.th act).priority := by
    have hq := quiet_rrAddPreempt (b := b)
    have hp := (upd_alike (s := s) (t := act) hq act).priority
    unfold reschedLink
    dsimp only
    rw [hp]
    split_ifs
    · exact ⟨_, rfl, (linked_end quiet_rrReset hp).of_upd hq⟩
    · exact ⟨_, rfl, linked_beg hq (.inl rfl) rfl⟩
  rw [hs1]
  refine ⟨hl.holds, ?_, fun v hv => ?_, hl.actives⟩
  · rw [setState, upd_self]
    exact ⟨rfl, (hl.alike act).priority, (hl.alike act).runmask⟩
  · rw [setState, upd_off _ hv]
    exact hl.off v hv (hact ▸ hv)

theorem le_reschedPrio {x : Thread} {cpu : Nat} (h : x.runsOn cpu = true) : x.priority.val ≤ reschedPrio x cpu := by
  unfold reschedPrio
  rw [h]
  simp only [Bool.not_true, Bool.false_eq_true, if_false]
  split_ifs <;> omega

/-- resched_default. On a uniprocessor the highest thread runs if the threads may run
here: set_runmask refuses any other mask. -/
theorem resched_ran (hg : Good s) (hb : Base b e s) (hrun : ActRun e s) :
    Ends (resched b e s) (Ran b e (Top e s ∧ ∀ u, (s.th u).runsOn e.kernCpu = true) s) := by
  refine .bind (ssCheckExpiry_after adjustDrop_adj hg hb) fun s1 h1 => ?_
  refine .bind (ssAdjustLoop_kept _ h1.good h1.base) fun ⟨n, s2⟩ h2 => ?_
  replace h2 : Kept b e s s2 := h1.kept.trans h2
  dsimp only
  split_ifs with hearly hcpu
  · exact .done (h2.ran hrun And.left)
  · exact .done (h2.ran hrun And.left)
  refine .seq fun ⟨r, s3⟩ hsel => ?_
  have hsame : s.actives e.kernCpu = s2.actives e.kernCpu := not_not.mp (not_or.mp hearly).2
  rcases selectThread_spec h2.good hsel with ⟨rfl, rfl⟩ | ⟨u, rfl, hk⟩
  · exact .done (h2.ran hrun And.left)
  refine .done ?_
  obtain ⟨d, hs3⟩ := hk.same
  have hne : u ≠ s2.actives e.kernCpu := fun h => h2.base.active (h ▸ hk.ready)
  obtain ⟨hlink, hact, hoff, hac⟩ := reschedLink_spec (b := b) (e := e) s3 (s2.actives e.kernCpu) (by rw [hs3])
  have hth : s3.th = s2.th := by rw [hs3]
  rw [hsame]
  have hdisp : (reschedLink b s3 (s2.actives e.kernCpu)).disp.Holds (With (Without (Listed s2.th) u)
      (s2.actives e.kernCpu) (s2.th (s2.actives e.kernCpu)).priority) none := by
    rw [← hth]
    have := hlink _ hk.holds fun a h3 => h2.base.active h3.1.1
    rwa [← hth] at this
  have hlow (b' : Build) (hb' : Base b' e s2)
      (htop : b'.smp = false → (s2.th (s2.actives e.kernCpu)).priority ≤ (s2.th u).priority ∧
        ∀ v, (s2.th v).state = .ready → (s2.th v).priority ≤ (s2.th u).priority) :
      Kept b' e s2 (markRunning e (reschedLink b s3 (s2.actives e.kernCpu)) u) :=
    (after_lowered (t := u) hb' (reschedLink b s3 (s2.actives e.kernCpu))
      (reschedLink b s3 (s2.actives e.kernCpu)) (hac.trans (by rw [hs3])) (fun v hv => by rw [hoff v hv, hth])
      (by rw [← hth]; exact hact) hne hk.ready rfl (fun _ => ⟨rfl, rfl, rfl⟩) (fun _ _ => rfl) hdisp htop).kept
  by_cases hm : b.smp = false → ∀ u, (s.th u).runsOn e.kernCpu = true
  · refine (h2.trans (hlow b h2.base fun hsmp => ⟨?_, fun v hv => hk.highest hsmp v hv⟩)).ran hrun And.left
    have hr : (s2.th (s2.actives e.kernCpu)).runsOn e.kernCpu = true := by
      have := hm hsmp (s2.actives e.kernCpu)
      unfold Thread.runsOn at this ⊢
      rwa [h2.mask]
    have hprio := hk.enough
    rw [hsame] at hprio
    exact Nat.le_trans (le_reschedPrio hr) (Int.ofNat_le.mp hprio)
  · -- a mask that set_runmask refuses: only the order of the priorities is lost
    obtain ⟨g, b', a, -, m⟩ := hlow { b with smp := true }
      ⟨h2.base.others, h2.base.distinct, h2.base.apart, h2.base.active⟩ (by simp)
    exact ⟨g, ⟨b'.others, b'.distinct, b'.apart, b'.active⟩, a (h2.act hrun),
      fun hsmp hP => absurd (fun _ => hP.2) hm, fun v => (m v).trans (h2.mask v)⟩

/-! ## sched_thread -/

section
variable (hg : Good s) (hb : Base b e s)
include hg hb

theorem schedSsCleanup_after : Ends (schedSsCleanup b s t) (After b e t s) := by
  have h1 : After b e t s (s.upd t (Thread.withPolicy .fifo)) := after_quiet hg hb (quiet_withPolicy _)
  refine .seq fun _ _ => .seq fun _ _ => .done ?_
  refine (h1.trans (after_same h1.good h1.base ?_ ?_ ?_)).quiet quiet_dropSs <;> rfl

theorem setAttributes_after (param : Param) : After b e t s (s.setAttributes t param).2 := by
  unfold setAttributes
  dsimp only
  split_ifs
  · exact After.refl hg hb
  · dsimp only
    exact (after_updSs hg hb _).updSs _
  · dsimp only
    exact after_updSs hg hb _

theorem setSporadic_after (param : Param) : After b e t s (setSporadic e s t param).2 := by
  unfold setSporadic
  obtain ⟨s1, hs1⟩ : ∃ s1, s1 = (if (s.th t).policy ≠ .sporadic then s.upd t Thread.newSporadic else s) := ⟨_, rfl⟩
  rw [← hs1]
  have h1 : After b e t s s1 := by
    rw [hs1]
    split_ifs
    · exact after_quiet hg hb quiet_newSporadic
    · exact After.refl hg hb
  have h2 : After b e t s (if (s1.th t).waaa = true ∨ (s1.th t).policy ≠ .sporadic then
      s1.updSs t fun i => { i with activationTime := e.snap (some t), currBudget := param.initBudget } else s1) := by
    split_ifs
    · exact h1.updSs _
    · exact h1
  exact h2.trans (setAttributes_after h2.good h2.base param)

theorem setSchedinfo_after {policy : Policy} :
    Ends (setSchedinfo b e s t policy param) fun r => After b e t s r.2 := by
  unfold setSchedinfo
  split_ifs
  · exact .done (setSporadic_after hg hb param)
  · unfold setPlain
    split_ifs
    · exact .bind (schedSsCleanup_after hg hb) fun s1 h1 => .done (h1.quiet quiet_rrReset)
    · exact .done (after_quiet hg hb quiet_rrReset)

theorem setPolicy_after {policy : Option Policy} :
    Ends (setPolicy b e s t policy param) fun r => After b e t s r.2 := by
  unfold setPolicy
  split
  · rename_i policy _
    split_ifs
    · exact .done (After.refl hg hb)
    · refine .bind (setSchedinfo_after hg hb) fun r h1 => ?_
      replace h1 := h1.quiet (quiet_withPolicy policy)
      refine .bind (h1.then (adjustPriority_after 2 h1.good h1.base)) fun s2 h2 => .done (h2.quiet (quiet_withReal _))
  · exact .done (After.refl hg hb)

theorem relink_after (ht : (s.th t).state = .ready) (h : s.linkRem (s.th t).priority t = some s1) :
    After b e t s (s1.linkBeg (s1.th t).priority t) ∧
      After b e t s ((s1.upd t Thread.rrReset).linkEnd ((s1.upd t Thread.rrReset).th t).priority t) := by
  obtain ⟨d, hd, hh⟩ := Holds.rem hg ⟨ht, rfl⟩
  simp only [linkRem, hd, bind_eq_bind, bind_some, some.injEq] at h
  subst h
  have hback : ∀ d' : Dispatch τ, Dispatch.Holds d' (With (Without (Listed s.th) t) t (s.th t).priority) none →
      Dispatch.Holds d' (Listed s.th) none := by
    intro d' h'
    refine h'.congr fun u a => ?_
    by_cases hu : u = t
    · subst hu
      simp [With, Without, Listed, ht, eq_comm]
    · simp [With, Without, hu]
  have hbeg := hback _ (hh.beg fun a h1 => h1.2 rfl)
  have hend := hback _ (hh.fin fun a h1 => h1.2 rfl)
  refine ⟨after_relinked hbeg hb rfl rfl, ?_⟩
  rw [upd_self, quiet_rrReset.priority]
  have : After b e t s (({ s with disp := d } : Sched τ).linkEnd (s.th t).priority t) :=
    after_relinked hend hb rfl rfl
  exact this.quiet quiet_rrReset

theorem setPrio_after {p : Prio} : Ends (setPrio b e s t p) (After b e t s) := by
  refine .bind ?_ fun s1 (hx : After b e t s s1) => .done (hx.quiet (quiet_setprio _))
  refine .guard (After.refl hg hb) fun _ => .bind (adjustPriority_after 2 hg hb) fun s2 h2 => ?_
  refine .guard h2 fun hr => .seq fun s3 hs3 => .done ?_
  exact h2.trans (relink_after h2.good h2.base hr.2 hs3).1

theorem schedThread_after {req : Request} :
    Ends (schedThread b e s t req param) fun r => After b e t s r.2 := by
  unfold schedThread
  cases req with
  | adjToHead =>
    dsimp only
    split_ifs with hr
    · exact .done (After.refl hg hb)
    · exact .seq fun s1 hs1 => .done (relink_after hg hb (not_not.mp hr) hs1).1
  | adjToTail =>
    dsimp only
    split_ifs with hr
    · exact .done (After.refl hg hb)
    · exact .seq fun s1 hs1 => .done (relink_after hg hb (not_not.mp hr) hs1).2
  | noChange => exact setPolicy_after hg hb
  | setPrio =>
    dsimp only
    split_ifs
    · exact .done (After.refl hg hb)
    · exact .done (After.refl hg hb)
    · exact .bind (setPrio_after hg hb) fun _ h => .done h
  | policy p => exact setPolicy_after hg hb
  | bad => exact setPolicy_after hg hb

end

end QRV.Nano.Sched
