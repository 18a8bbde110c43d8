import QRV.Lib.Call
import QRV.Nano.SchedRules

/- What each operation of the scheduler leaves, in the terms of `After`.

   The functions that take the inner adjust_priority as an argument are verified for
   any `adjust` that keeps the rules (`Adj`); adjust_priority itself then keeps them
   at every depth (`adjustPriority_after`). -/
open Call (Ends)

namespace QRV.Nano.Sched
open Function

open LinkCell Dispatch Option

variable {τ : Type} {b : Build} {e : Env τ} {s s' s'' : Sched τ} {t : τ}
variable {u : τ} {f : Thread → Thread}

theorem without_congr (hoff : ∀ u, u ≠ t → s'.th u = s.th u) (u : τ) (a : Nat) :
    Without (Listed s.th) t u a ↔ Without (Listed s'.th) t u a := by
  by_cases hu : u = t
  · simp [Without, hu]
  · simp [Without, Listed, hoff u hu]

/-- A call about `t` that changes the order of the ready lists only. -/
theorem after_relinked (hg : Good s') (hb : Base b e s) (hth : s'.th = s.th) (ha : s'.actives = s.actives) :
    After b e t s s' := by
  refine ⟨hg, hb.of_same ha fun u => by rw [hth], ?_, ?_, fun u _ _ _ => by rw [hth], .inl (by rw [ha]),
    fun u => by rw [hth]⟩
  · intro h
    unfold ActRun
    rw [hth, ha]
    exact h
  · intro _ _ h u hu
    rw [hth] at hu ⊢
    rw [ha]
    exact h u hu

theorem after_same (hg : Good s) (hb : Base b e s) (hd : s'.disp = s.disp) (hth : s'.th = s.th)
    (ha : s'.actives = s.actives) : After b e t s s' :=
  after_relinked (hg.of_same hd fun u => by rw [hth]; exact ⟨rfl, rfl⟩) hb hth ha

theorem After.then {r : Option (Sched τ)} (h : After b e t s s') (h' : Ends r (After b e t s')) :
    Ends r (After b e t s) := h'.mono fun _ => h.trans

theorem yieldTo_listed (hg : Good s) (h : yieldTo b e s p = some (some u)) :
    Listed s.th u p := by
  rw [yieldTo] at h
  split_ifs at h
  · exact hg.findOnCpu h
  · exact Holds.first hg (some.inj h)

theorem After.of_active (h : After b e (s.actives e.kernCpu) s s') : After b e t s s' where
  good := h.good
  base := h.base
  act := h.act
  top := h.top
  frame u hu _ hua := h.frame u hu hua hua
  next := by
    rcases h.next with h1 | h1 | h1
    · exact .inl h1
    · exact .inr (.inl h1)
    · exact .inl h1
  mask := h.mask

/-- A blocked thread that the call is not about does not become the active one. -/
theorem After.inactive {a : τ} (h : After b e a s s') (hta : t ≠ s.actives e.kernCpu)
    (ht : (s.th t).state ≠ .ready) (hne : t ≠ a) : t ≠ s'.actives e.kernCpu := by
  rintro rfl
  rcases h.next with h1 | h1 | h1
  · exact hta h1
  · exact ht h1
  · exact hne h1

/-- A call may start from a state that differs in the link words and in the thread in hand. -/
theorem After.entry_hand (h : After b e t s' s'') (ha : s'.actives = s.actives)
    (hoff : ∀ u, u ≠ t → s'.th u = s.th u) (hm : (s'.th t).runmask = (s.th t).runmask)
    (hact : ActRun e s → ActRun e s') (htop : b.smp = false → Top e s → Top e s') : After b e t s s'' where
  good := h.good
  base := h.base
  act h1 := h.act (hact h1)
  top hb h1 h2 := h.top hb (hact h1) (htop hb h2)
  frame u hu hut hua := by
    rw [h.frame u (by rwa [hoff u hut]) hut (by rwa [ha]), hoff u hut]
  next := by
    rcases h.next with h1 | h1 | h1
    · exact .inl (h1.trans (by rw [ha]))
    · by_cases hx : s''.actives e.kernCpu = t
      · exact .inr (.inr hx)
      · rw [hoff _ hx] at h1
        exact .inr (.inl h1)
    · exact .inr (.inr h1)
  mask u := by
    rw [h.mask u]
    by_cases hu : u = t
    · rw [hu]
      exact hm
    · rw [hoff u hu]

theorem Good.without (h : Good s) (ht : (s.th t).state ≠ .ready) :
    s.disp.Holds (Without (Listed s.th) t) none := by
  refine Holds.congr h fun u a => ⟨fun hu => ⟨hu, ?_⟩, fun hu => hu.1⟩
  rintro rfl
  exact ht hu.1

theorem Good.of_without (h : s.disp.Holds (Without (Listed s.th) t) none) (ht : (s.th t).state ≠ .ready) :
    Good s := by
  refine Holds.congr h fun u a => ⟨fun hu => hu.1, fun hu => ⟨hu, ?_⟩⟩
  rintro rfl
  exact ht hu.1

variable [DecidableEq τ]

@[simp] theorem markRunning_disp : (markRunning e s t).disp = s.disp := rfl
@[simp] theorem markRunning_actives :
    (markRunning e s t).actives = update s.actives e.kernCpu t := rfl
@[simp] theorem markRunning_self :
    (markRunning e s t).th t = { s.th t with state := .running, runcpu := e.kernCpu } :=
  update_self ..
theorem markRunning_off (h : u ≠ t) : (markRunning e s t).th u = s.th u :=
  update_of_ne h _ _

theorem upd_mask {m : τ → BitVec 32} (hf : (f (s.th t)).runmask = (s.th t).runmask)
    (h : ∀ u, (s.th u).runmask = m u) (u : τ) : ((s.upd t f).th u).runmask = m u :=
  upd_forall (P := fun u x => x.runmask = m u) (hf.trans (h t)) (fun u _ => h u) u

theorem markRunning_mask {m : τ → BitVec 32} (h : ∀ u, (s.th u).runmask = m u) (u : τ) :
    ((markRunning e s t).th u).runmask = m u :=
  upd_mask (s := { s with actives := update s.actives e.kernCpu t }) rfl h u

/-- The rules see no difference between two threads. -/
structure Alike (x y : Thread) : Prop where
  state : x.state = y.state
  priority : x.priority = y.priority
  runmask : x.runmask = y.runmask

theorem Quiet.alike (h : Quiet f) (x : Thread) : Alike (f x) x :=
  ⟨h.state x, h.priority x, h.runmask x⟩

theorem upd_alike (h : Quiet f) (u : τ) : Alike ((s.upd t f).th u) (s.th u) :=
  upd_forall (P := fun u x => Alike x (s.th u)) (h.alike _) (fun _ _ => ⟨rfl, rfl, rfl⟩) u

theorem updSs_alike (f : SsInfo → SsInfo) (u : τ) : Alike ((s.updSs t f).th u) (s.th u) :=
  upd_alike (quiet_ss f) u

theorem After.quiet (h : After b e t s s') (hf : Quiet f) :
    After b e t s (s'.upd t f) := h.trans (after_quiet h.good h.base hf)

/-! ## Sporadic threads -/

/-- The inner adjust_priority keeps the rules. -/
def Adj (b : Build) (e : Env τ) (adjust : Sched τ → τ → Prio → Option (Sched τ)) : Prop :=
  ∀ s s' t p, Good s → Base b e s → adjust s t p = some s' → After b e t s s'

variable {adjust : Sched τ → τ → Prio → Option (Sched τ)}
variable {p : Prio} {inherit : Bool}

omit [DecidableEq τ] in
theorem Adj.ends (h : Adj b e adjust) (hg : Good s) (hb : Base b e s) : Ends (adjust s t p) (After b e t s) :=
  fun _ => h _ _ _ _ hg hb

theorem After.updSs (h : After b e t s s') (f : SsInfo → SsInfo) : After b e t s (s'.updSs t f) :=
  h.quiet (quiet_ss f)

@[simp] theorem ssStopRunning_preempted : ssStopRunning b adjust s t true = some s := by
  simp [ssStopRunning, schedSsBlock]

theorem ssMarkActivation_cases : ssMarkActivation e s t = s ∨
    ssMarkActivation e s t = s.updSs t fun i => { i with activationTime := e.snap (some t), consumed := 0 } := by
  unfold ssMarkActivation schedSsQueue
  split_ifs
  · exact .inl rfl
  · split
    · exact .inl rfl
    · exact .inl rfl
    · exact .inr rfl
  · exact .inl rfl

/-- Of other threads nothing changes, and of `t` only fields no rule speaks of. -/
theorem ssMarkActivation_frame : (ssMarkActivation e s t).actives = s.actives ∧ (ssMarkActivation e s t).disp = s.disp ∧
    (∀ u, Alike ((ssMarkActivation e s t).th u) (s.th u)) ∧ ∀ u, u ≠ t → (ssMarkActivation e s t).th u = s.th u := by
  rcases ssMarkActivation_cases (e := e) (s := s) (t := t) with h | h
  · rw [h]
    exact ⟨rfl, rfl, fun _ => ⟨rfl, rfl, rfl⟩, fun _ _ => rfl⟩
  · rw [h]
    exact ⟨rfl, rfl, updSs_alike _, fun u hu => upd_off _ hu⟩

section
variable (hadj : Adj b e adjust) (hg : Good s) (hb : Base b e s)
include hg hb

theorem after_updSs (f : SsInfo → SsInfo) :
    After b e t s (s.updSs t f) := after_quiet hg hb (quiet_ss f)

theorem schedRepl_after : After b e t s (s.schedRepl t) := by
  have h := after_updSs (t := t) hg hb fun i =>
    { i with
      amount := if i.consumed = 0 then 1 else i.consumed
      replTime := i.activationTime + i.replPeriod }
  exact h.trans (after_same h.good h.base rfl rfl rfl)

theorem ssCharge_after : After b e t s (s.ssCharge t) := by
  unfold ssCharge
  apply After.updSs
  split_ifs
  · exact schedRepl_after hg hb
  · exact after_updSs hg hb _

theorem ssMarkActivation_after :
    After b e t s (ssMarkActivation e s t) := by
  rcases ssMarkActivation_cases (e := e) (s := s) (t := t) with h | h
  · rw [h]
    exact After.refl hg hb
  · rw [h]
    exact after_updSs hg hb _

include hadj

theorem schedSsUpdate_after {drop : Bool} : Ends (schedSsUpdate b adjust s t drop) (After b e t s) := by
  rw [schedSsUpdate]
  split_ifs
  · exact .done (After.refl hg hb)
  · have h1 := (ssCharge_after (t := t) hg hb).quiet quiet_saveReal
    refine .seq fun _ _ => .bind ?_ fun s1 (h : After b e t s s1) => .done (h.quiet quiet_takeLow)
    exact .guard h1 fun _ => h1.then (hadj.ends h1.good h1.base)
  · exact .seq fun _ _ => .done (ssCharge_after hg hb)

theorem schedSsBlock_after {pre : Bool} : Ends (schedSsBlock b adjust s t pre) (After b e t s) := by
  rw [schedSsBlock]
  split_ifs
  · exact .done (After.refl hg hb)
  · exact .done (After.refl hg hb)
  · exact schedSsUpdate_after hadj hg hb

theorem ssStopRunning_after {pre : Bool} : Ends (ssStopRunning b adjust s t pre) (After b e t s) :=
  .guard (After.refl hg hb) fun _ => schedSsBlock_after hadj hg hb

theorem ssCheckExpiry_after : Ends (ssCheckExpiry b adjust s t) (After b e t s) :=
  .guard (After.refl hg hb) fun _ => schedSsUpdate_after hadj hg hb

end

/-! ## Linking -/

/-- `t` has been linked at the priority `p`, and DISPATCH_SET done. -/
structure Linked (e : Env τ) (s s' : Sched τ) (t : τ) (p : Nat) : Prop where
  holds : ∀ M, s.disp.Holds M none → (∀ a, ¬M t a) → s'.disp.Holds (With M t p) none
  alike : ∀ u, Alike (s'.th u) (s.th u)
  off : ∀ u, u ≠ t → u ≠ s.actives e.kernCpu → s'.th u = s.th u
  actives : s'.actives = s.actives

theorem linked_beg (hf : Quiet f) {v : τ} (hv : v = t ∨ v = s.actives e.kernCpu)
    (hp : (s.th t).priority = p) :
    Linked e s (((s.upd v f).linkBeg p t).dispatchSet t) t p where
  holds M hM ht := by
    have := hM.begSet (p := p) ht
    unfold Sched.dispatchSet linkBeg
    rw [show ((s.upd v f).th t).priority = p from (upd_alike hf t).priority.trans hp]
    exact this
  alike u := upd_alike hf u
  off u hut hua := upd_off f fun h => hv.elim (fun h' => hut (h.trans h')) fun h' => hua (h.trans h')
  actives := rfl

theorem linked_end (hf : Quiet f) (hp : (s.th t).priority = p) :
    Linked e s (((s.upd t f).linkEnd p t).dispatchSet t) t p where
  holds M hM ht := by
    have := hM.finSet (p := p) ht
    unfold Sched.dispatchSet linkEnd
    rw [show ((s.upd t f).th t).priority = p from (upd_alike hf t).priority.trans hp]
    exact this
  alike u := upd_alike hf u
  off u hut _ := upd_off f hut
  actives := rfl

theorem adjustLink_linked {i : Bool} :
    Linked e s (adjustLink b s t i) t (s.th t).priority := by
  cases i
  · exact linked_end quiet_rrReset rfl
  · exact linked_beg quiet_rrAddPreempt (.inl rfl) rfl

/-! ## yield -/

theorem yieldSwap_after (hg : Good s) (hb : Base b e s)
    (hu : Listed s.th u (s.th (s.actives e.kernCpu)).priority) :
    ∃ s1, s.linkRem (s.th (s.actives e.kernCpu)).priority u = some s1 ∧
      After b e (s.actives e.kernCpu) s (markRunning e
        (((s1.linkEnd (s.th (s.actives e.kernCpu)).priority (s.actives e.kernCpu)).upd
          (s.actives e.kernCpu) Thread.rrReset).setState (s.actives e.kernCpu) .ready) u) := by
  obtain ⟨d, hd, hh⟩ := Holds.rem hg hu
  have hact : ∀ a, ¬Without (Listed s.th) u (s.actives e.kernCpu) a := fun a h => hb.active h.1.1
  have hfin := hh.fin hact
  have hne : u ≠ s.actives e.kernCpu := fun h => hb.active (h ▸ hu.1)
  have hpu : (s.th u).priority = (s.th (s.actives e.kernCpu)).priority := Fin.ext hu.2
  refine ⟨{ s with disp := d }, by simp [linkRem, hd], after_switch hb hne ?_ (.inr hu.1) ?_ rfl ?_ ?_ ?_ ?_ ?_⟩
  · rw [hu.1]
    decide
  · simpa [markRunning_off hne.symm, setState, linkEnd, quiet_rrReset.priority] using hfin
  · rw [markRunning_self]
  · rw [markRunning_off hne.symm, setState, upd_self]
  · intro v hvu hva
    rw [markRunning_off hvu, setState, upd_off _ hva, upd_off _ hva]
    rfl
  · apply markRunning_mask
    apply upd_mask rfl
    exact upd_mask (quiet_rrReset.runmask _) fun _ => rfl
  · intro _ htop
    rw [markRunning_self, markRunning_off hne.symm, setState, upd_self, upd_self, upd_off _ hne, upd_off _ hne]
    refine ⟨?_, fun v _ hv => ?_⟩
    · change (Thread.rrReset (s.th (s.actives e.kernCpu))).priority ≤ (s.th u).priority
      exact Fin.le_of_eq (by rw [quiet_rrReset.priority, hpu])
    · change (s.th v).priority ≤ (s.th u).priority
      rw [hpu]
      exact htop v hv

theorem yieldDefault_after (hadj : Adj b e adjust) (hg : Good s) (hb : Base b e s) :
    Ends (yieldDefault b e adjust s) (After b e (s.actives e.kernCpu) s) := by
  refine .seq fun r hr => ?_
  cases r with
  | none => exact .done (After.refl hg hb)
  | some u =>
    obtain ⟨s1, hs1, h1⟩ := yieldSwap_after hg hb (yieldTo_listed hg hr)
    simp only [hs1, bind_eq_bind, bind_some]
    refine .bind (h1.then (ssStopRunning_after hadj h1.good h1.base)) fun s2 h2 => .done ?_
    exact h2.trans (ssMarkActivation_after h2.good h2.base)

/-! ## ready -/

theorem After.entry (h : After b e t s' s'') (ha : s'.actives = s.actives)
    (ht : Alike (s'.th t) (s.th t)) (hoff : ∀ u, u ≠ t → s'.th u = s.th u) : After b e t s s'' := by
  have hall : ∀ u, Alike (s'.th u) (s.th u) := by
    intro u
    by_cases hu : u = t
    · rw [hu]
      exact ht
    · rw [hoff u hu]
      exact ⟨rfl, rfl, rfl⟩
  refine h.entry_hand ha hoff ht.runmask (fun h1 => by rwa [ActRun, ha, (hall _).state]) fun _ h2 u hu => ?_
  rw [(hall u).state] at hu
  rw [(hall u).priority, ha, (hall _).priority]
  exact h2 u hu

section
variable (hb : Base b e s) (hta : t ≠ s.actives e.kernCpu) (htr : (s.th t).state ≠ .running)
  (hh : s.disp.Holds (Without (Listed s.th) t) none)
include hb hta htr hh

theorem after_setState {st : ThState} (hst : st ≠ .ready) : After b e t s (s.setState t st) where
  good := by
    refine Holds.congr hh fun u a => ?_
    by_cases hu : u = t
    · subst hu
      simp [Without, Listed, setState, hst]
    · simp [Without, Listed, setState, upd_off _ hu, hu]
  base := by
    refine hb.of_off rfl ?_ ?_
    · intro u hu _
      have hut : u ≠ t := fun h => htr (h ▸ hu)
      rw [setState, upd_off _ hut]
      exact hu
    · rw [setState, upd_off _ hta.symm]
      exact hb.active
  act h := by
    unfold ActRun
    rw [setState, upd_actives, upd_off _ hta.symm]
    exact h
  top := by
    intro _ _ h u hu
    have hut : u ≠ t := by
      rintro rfl
      rw [setState, upd_self] at hu
      exact hst hu
    rw [setState, upd_off _ hut] at hu
    rw [setState, upd_off _ hut, upd_actives, upd_off _ hta.symm]
    exact h u hu
  frame u _ hut _ := upd_off _ hut
  next := .inl rfl
  mask := upd_mask rfl fun _ => rfl

omit hb hta htr hh in
theorem readyLink_linked (b : Build) (e : Env τ) (s : Sched τ) (t : τ) (sendvnc : Bool) :
    Linked e (s.setState t .ready) (readyLink b e s t (s.th t).priority sendvnc) t (s.th t).priority := by
  have hp : ((s.setState t .ready).th t).priority = (s.th t).priority := by rw [setState, upd_self]
  cases sendvnc
  · exact linked_end quiet_rrReset hp
  · refine linked_beg quiet_rrAddPreempt ?_ hp
    split_ifs
    · exact .inl rfl
    · exact .inr rfl

theorem readyLink_after {sendvnc : Bool}
    (htop : b.smp = false → (s.th t).priority ≤ (s.th (s.actives e.kernCpu)).priority) :
    After b e t s (readyLink b e s t (s.th t).priority sendvnc) := by
  have hl := readyLink_linked b e s t sendvnc
  have ht : Alike ((readyLink b e s t (s.th t).priority sendvnc).th t) { s.th t with state := .ready } := by
    have := hl.alike t
    rwa [setState, upd_self] at this
  have hoff : ∀ u, u ≠ t → Alike ((readyLink b e s t (s.th t).priority sendvnc).th u) (s.th u) := by
    intro u hu
    have := hl.alike u
    rwa [setState, upd_off _ hu] at this
  refine after_enqueue hb hta htr ?_ hl.actives ht.state (fun u hu => ⟨(hoff u hu).state, (hoff u hu).priority⟩)
    ?_ ?_ ?_
  · rw [ht.priority]
    exact hl.holds _ hh fun a h => h.2 rfl
  · intro u hut hua
    rw [hl.off u hut hua, setState, upd_off _ hut]
  · intro u
    by_cases hu : u = t
    · rw [hu, ht.runmask]
    · exact (hoff u hu).runmask
  · intro h
    rw [ht.priority]
    exact htop h

omit hb hta htr hh in
/-- A higher thread takes the processor, and the active one goes to the head of its list. -/
theorem after_takeover (hb : Base b e s) (hta : t ≠ s.actives e.kernCpu) (htr : (s.th t).state ≠ .running)
    {d : Dispatch τ} (hh : d.Holds (Without (Listed s.th) t) none)
    (hd : s'.disp = (d.link3Beg (s.th (s.actives e.kernCpu)).priority (s.actives e.kernCpu)).dispatchSet
      (s.th (s.actives e.kernCpu)).priority)
    (hact : s'.actives = update s.actives e.kernCpu t) (ht : (s'.th t).state = .running)
    (hm : (s'.th t).runmask = (s.th t).runmask)
    (ha : Alike (s'.th (s.actives e.kernCpu)) { s.th (s.actives e.kernCpu) with state := .ready })
    (hoff : ∀ u, u ≠ t → u ≠ s.actives e.kernCpu → s'.th u = s.th u)
    (htop : b.smp = false → (s.th (s.actives e.kernCpu)).priority < (s'.th t).priority) : After b e t s s' := by
  refine after_switch hb hta htr (.inl rfl) ?_ hact ht ha.state hoff ?_ ?_
  · rw [ha.priority, hd]
    exact hh.begSet fun a h => hb.active h.1.1
  · intro u
    by_cases hut : u = t
    · rw [hut, hm]
    · by_cases hua : u = s.actives e.kernCpu
      · rw [hua, ha.runmask]
      · rw [hoff u hut hua]
  · intro hsmp hs
    rw [ha.priority]
    refine ⟨Fin.le_of_lt (htop hsmp), fun u _ hu => ?_⟩
    exact Fin.le_of_lt (Fin.lt_of_le_of_lt (hs u hu) (htop hsmp))

theorem readyRun_after (htop : b.smp = false → (s.th (s.actives e.kernCpu)).priority < (s.th t).priority) :
    Ends (readyRun b e adjust s t) (After b e t s) := by
  intro s' h
  simp only [readyRun, ssStopRunning_preempted, bind_eq_bind, bind_some, some.injEq] at h
  have hth : s'.th = (((markRunning e s t).upd (s.actives e.kernCpu) (Thread.rrAddPreempt b)).setState
      (s.actives e.kernCpu) .ready).th := by
    rw [← h]
    rfl
  have ht : s'.th t = { s.th t with state := .running, runcpu := e.kernCpu } := by
    rw [hth, setState, upd_off _ hta, upd_off _ hta, markRunning_self]
  have hq := quiet_rrAddPreempt (b := b)
  refine after_takeover hb hta htr hh ?_ ?_ (by rw [ht]) (by rw [ht]) ?_ ?_ ?_
  · rw [← h]
    simp only [Sched.dispatchSet, linkBeg, setState, upd_disp, markRunning_disp, upd_self,
      markRunning_off hta.symm, hq.priority]
  · rw [← h]
    rfl
  · rw [hth, setState, upd_self, upd_self, markRunning_off hta.symm]
    exact ⟨rfl, hq.priority _, hq.runmask _⟩
  · intro u hut hua
    rw [hth, setState, upd_off _ hua, upd_off _ hua, markRunning_off hut]
  · rw [ht]
    exact htop

theorem readyPlace_after {sendvnc : Bool} :
    Ends (readyPlace b e adjust s t (s.th t).priority sendvnc) (After b e t s) := by
  have hlink : b.smp = true → After b e t s (readyLink b e s t (s.th t).priority sendvnc) := fun hsmp =>
    readyLink_after hb hta htr hh fun h1 => nomatch hsmp.symm.trans h1
  unfold readyPlace
  dsimp only
  split_ifs with hsmp hlazy hgt
  · exact .done (hlink hsmp)
  · split
    · split_ifs
      · exact .done (hlink hsmp)
      · exact readyRun_after hb hta htr hh fun h1 => nomatch hsmp.symm.trans h1
    · exact .done (hlink hsmp)
  · exact readyRun_after hb hta htr hh fun _ => hgt
  · exact .done (readyLink_after hb hta htr hh fun _ => Fin.not_lt.mp hgt)

end

theorem holds_nullLinks {M : τ → Nat → Prop} (h : s.disp.Holds M none) (ht : ∀ a, ¬M t a) :
    (s.nullLinks t).disp.Holds M none := by
  refine h.off (fun a => ?_) (fun u a hu => ?_) (fun u a hu => ?_) rfl rfl rfl rfl
  · exact set_next_head s.disp.link t a none
  · have hut : Cell.next u ≠ (Cell.next t : Cell Nat τ) := fun e => ht a (Cell.next.inj e ▸ hu)
    exact set_off hut _ _
  · have hut : u ≠ t := fun e => ht a (e ▸ hu)
    exact update_of_ne hut _ _

/-- ready_default of a thread that is on no list: a blocked one, or in the SMP variant one
that adjust_priority has just taken off its list. -/
theorem readyDefault_after (hadj : Adj b e adjust) (hb : Base b e s) (hta : t ≠ s.actives e.kernCpu)
    (htr : (s.th t).state ≠ .running) (hh : s.disp.Holds (Without (Listed s.th) t) none)
    (hup : b.smp = false → (s.th t).state ≠ .ready) : Ends (readyDefault b e adjust s t) (After b e t s) := by
  refine .seq fun _ _ => .seq fun _ _ => .seq fun _ _ => ?_
  dsimp only
  split_ifs with hstop
  · exact .done (after_setState hb hta htr hh (by decide))
  refine .seq fun s2 hs2 s' h => ?_
  have hh1 := holds_nullLinks (s := s) hh fun a h1 => h1.2 rfl
  have hb1 : Base b e (s.nullLinks t) := hb.of_same rfl fun _ => rfl
  obtain ⟨ha, hd, hk, hmark⟩ := ssMarkActivation_frame (e := e) (s := s2) (t := t)
  -- what is left is to find the place of the thread
  have hfin : Base b e s2 → t ≠ s2.actives e.kernCpu → s2.th t = s.th t →
      s2.disp.Holds (Without (Listed s2.th) t) none → After b e t s2 s' := by
    intro hb2 hta2 ht2 hh2
    have hp : (s.th t).priority = ((ssMarkActivation e s2 t).th t).priority := by rw [(hk t).priority, ht2]
    rw [hp] at h
    have hbm := hb2.of_same ha fun u => (hk u).state
    refine After.entry (readyPlace_after hbm (by rwa [ha]) ?_ ?_ _ h) ha (hk t) hmark
    · rw [(hk t).state, ht2]
      exact htr
    · rw [hd]
      exact hh2.congr (without_congr hmark)
  rw [readyExpiry] at hs2
  split_ifs at hs2 with hsmp
  · cases hs2
    exact After.entry (hfin hb1 hta rfl hh1) rfl ⟨rfl, rfl, rfl⟩ fun _ _ => rfl
  · -- SS_CHECK_EXPIRY may have changed the active thread, not this one
    have htn := hup (by simpa using hsmp)
    have hx := ssCheckExpiry_after hadj (Good.of_without hh1 htn) hb1 _ hs2
    have ht2 : s2.th t = s.th t := hx.frame t htn hta hta
    have hx' : After b e t s s2 := After.entry hx.of_active rfl ⟨rfl, rfl, rfl⟩ fun _ _ => rfl
    exact hx'.trans (hfin hx.base (hx.inactive hta htn hta) ht2 (hx.good.without (by rwa [ht2])))

/-! ## adjust_priority -/

/-- The SMP variant of the case STATE_READY: ready_default places the thread again. -/
theorem adjustReady_smp {s1 : Sched τ} (hadj : Adj b e adjust) (hb : Base b e s) (hta : t ≠ s.actives e.kernCpu)
    (hsmp : b.smp = true) {d : Dispatch τ} (hh : d.Holds (Without (Listed s.th) t) none) (hd : s1.disp = d)
    (ha : s1.actives = s.actives) (hoff : ∀ u, u ≠ t → s1.th u = s.th u) (hst : (s1.th t).state ≠ .running)
    (hm : (s1.th t).runmask = (s.th t).runmask) (hr : (s.th t).state ≠ .running) :
    Ends (readyDefault b e adjust s1 t) (After b e t s) := by
  refine (readyDefault_after hadj ?_ (by rwa [ha]) hst ?_ fun h1 => nomatch hsmp.symm.trans h1).mono
    fun _ h => h.entry_hand ha hoff hm
      (fun h1 => by rwa [ActRun, ha, hoff _ hta.symm]) fun h1 => nomatch hsmp.symm.trans h1
  · refine hb.of_off ha ?_ ?_
    · intro u hu _
      have hut : u ≠ t := fun h1 => hr (h1 ▸ hu)
      rwa [hoff u hut]
    · rw [hoff _ hta.symm]
      exact hb.active
  · rw [hd]
    exact hh.congr (without_congr hoff)

theorem adjustReady_after (hadj : Adj b e adjust) (hg : Good s) (hb : Base b e s)
    (ht : (s.th t).state = .ready) : Ends (adjustReady b e adjust s t p) (After b e t s) := by
  have hta : t ≠ s.actives e.kernCpu := fun h1 => hb.active (h1 ▸ ht)
  have htr : (s.th t).state ≠ .running := by
    rw [ht]
    decide
  obtain ⟨d, hd, hh⟩ := hg.unlink ht
  refine .seq fun _ _ => .seq fun s1 hs1 => ?_
  rw [hd] at hs1
  cases hs1
  dsimp only
  split_ifs with hsmp hdbg hgt
  · -- SMP, debug: the thread goes through ready_default as a DEAD one
    refine adjustReady_smp hadj hb hta hsmp hh ?_ ?_ (fun u hu => ?_) ?_ ?_ htr
    · rfl
    · rfl
    · rw [setState, upd_off _ hu, setPriority, upd_off _ hu]
    · rw [setState, upd_self]
      simp
    · rw [setState, upd_self, setPriority, upd_self]
  · refine adjustReady_smp hadj hb hta hsmp hh ?_ ?_ (fun u hu => ?_) ?_ ?_ htr
    · rfl
    · rfl
    · rw [setPriority, upd_off _ hu]
    · rw [setPriority, upd_self]
      exact htr
    · rw [setPriority, upd_self]
  · -- the thread is higher now than the active one
    intro s' h
    simp only [ssStopRunning_preempted, bind_eq_bind, bind_some, some.injEq] at h
    have hgt' : (s.th (s.actives e.kernCpu)).priority < p := by
      rwa [setPriority, upd_self, upd_off _ hta.symm] at hgt
    have hq := quiet_rrAddPreempt (b := b)
    have hth : s'.th = (markRunning e ((((({ s with disp := d } : Sched τ).setPriority t p).setState
        (s.actives e.kernCpu) .ready).upd (s.actives e.kernCpu) (Thread.rrAddPreempt b))) t).th := by
      rw [← h]
      rfl
    have ht : s'.th t = { s.th t with priority := p, state := .running, runcpu := e.kernCpu } := by
      rw [hth, markRunning_self, upd_off _ hta, setState, upd_off _ hta, setPriority, upd_self]
    have ha : s'.th (s.actives e.kernCpu)
        = Thread.rrAddPreempt b { s.th (s.actives e.kernCpu) with state := .ready } := by
      rw [hth, markRunning_off hta.symm, upd_self, setState, upd_self, setPriority, upd_off _ hta.symm]
    refine after_takeover hb hta htr hh ?_ ?_ (by rw [ht]) (by rw [ht]) ?_ ?_ ?_
    · rw [← h]
      simp only [Sched.dispatchSet, linkBeg, setState, setPriority, upd_disp, markRunning_disp, upd_self,
        markRunning_off hta.symm, upd_off _ hta.symm, hq.priority]
    · rw [← h]
      rfl
    · rw [ha]
      exact hq.alike _
    · intro u hut hua
      rw [hth, markRunning_off hut, upd_off _ hua, setState, upd_off _ hua, setPriority, upd_off _ hut]
    · rw [ht]
      exact fun _ => hgt'
  · -- it stays behind the active one
    have hle : p ≤ (s.th (s.actives e.kernCpu)).priority := by
      rw [setPriority, upd_self, upd_off _ hta.symm] at hgt
      exact Fin.not_lt.mp hgt
    have hp : ((({ s with disp := d } : Sched τ).setPriority t p).th t).priority = p := by
      rw [setPriority, upd_self]
    have hl := linked_end (e := e) (s := ({ s with disp := d } : Sched τ).setPriority t p) (t := t)
      quiet_rrReset hp
    have hoff : ∀ u, u ≠ t → (({ s with disp := d } : Sched τ).setPriority t p).th u = s.th u := by
      intro u hu
      rw [setPriority, upd_off _ hu]
    have hpp : (((({ s with disp := d } : Sched τ).setPriority t p).upd t Thread.rrReset).th t).priority = p := by
      rw [upd_self, quiet_rrReset.priority, hp]
    rw [hpp]
    refine .done (after_enqueue hb hta htr ?_ rfl ?_ (fun u hu => ?_) (fun u hut hua => ?_) (fun u => ?_) ?_)
    · rw [(hl.alike t).priority, hp]
      exact hl.holds _ hh fun a h1 => h1.2 rfl
    · rw [(hl.alike t).state, setPriority, upd_self]
      exact ht
    · rw [(hl.alike u).state, (hl.alike u).priority, hoff u hu]
      exact ⟨rfl, rfl⟩
    · rw [hl.off u hut hua, hoff u hut]
    · rw [(hl.alike u).runmask]
      exact upd_mask rfl (fun _ => rfl) u
    · rw [(hl.alike t).priority, hp]
      exact fun _ => hle

/-- The active thread leaves the processor with the priority `p`: it is READY in `s1`,
linked in `s2`, and `u` takes over. -/
theorem after_lowered (hb : Base b e s) (s1 s2 : Sched τ)
    (ha : s1.actives = s.actives) (hoff : ∀ v, v ≠ s.actives e.kernCpu → s1.th v = s.th v)
    (hact : Alike (s1.th (s.actives e.kernCpu)) { s.th (s.actives e.kernCpu) with state := .ready, priority := p })
    (hne : u ≠ s.actives e.kernCpu) (hu : (s.th u).state = .ready)
    (ha2 : s2.actives = s1.actives) (hl : ∀ v, Alike (s2.th v) (s1.th v))
    (hoff2 : ∀ v, v ≠ s.actives e.kernCpu → s2.th v = s1.th v)
    (hd : s2.disp.Holds (With (Without (Listed s.th) u) (s.actives e.kernCpu) p) none)
    (htop : b.smp = false → p ≤ (s.th u).priority ∧
      ∀ v, (s.th v).state = .ready → (s.th v).priority ≤ (s.th u).priority) :
    After b e t s (markRunning e s2 u) := by
  have hact2 : Alike ((markRunning e s2 u).th (s.actives e.kernCpu)) (s1.th (s.actives e.kernCpu)) := by
    rw [markRunning_off hne.symm]
    exact hl _
  have hp : ((markRunning e s2 u).th (s.actives e.kernCpu)).priority = p := hact2.priority.trans hact.priority
  have hpu : ((markRunning e s2 u).th u).priority = (s.th u).priority := by
    rw [markRunning_self]
    exact (hl u).priority.trans (by rw [hoff u hne])
  refine after_switch hb hne (by rw [hu]; decide) (.inr hu) ?_ ?_ (by rw [markRunning_self])
    (hact2.state.trans hact.state) ?_ ?_ ?_
  · rw [hp]
    exact hd
  · rw [markRunning_actives, ha2, ha]
  · intro v hvu hva
    rw [markRunning_off hvu, hoff2 v hva, hoff v hva]
  · apply markRunning_mask
    intro v
    rw [(hl v).runmask]
    by_cases hv : v = s.actives e.kernCpu
    · rw [hv, hact.runmask]
    · rw [hoff v hv]
  · intro hsmp _
    rw [hp, hpu]
    obtain ⟨h1, h2⟩ := htop hsmp
    exact ⟨h1, fun v _ hv => h2 v hv⟩

/-- The SMP variant lowers the thread of this processor: another one is selected. -/
theorem adjustLower_smp (hsmp : b.smp = true) (hb : Base b e s) {s1 : Sched τ}
    (hk : Picked b s s1 p u) :
    After b e t s (markRunning e (adjustLink b ((s1.setState (s.actives e.kernCpu) .ready).setPriority
      (s.actives e.kernCpu) p) (s.actives e.kernCpu) inherit) u) := by
  have hne : u ≠ s.actives e.kernCpu := fun h => hb.active (h ▸ hk.ready)
  obtain ⟨d, hs1⟩ := hk.same
  have hth : s1.th = s.th := by rw [hs1]
  have hac : s1.actives = s.actives := by rw [hs1]
  have hl := adjustLink_linked (b := b) (e := e) (i := inherit)
    (s := (s1.setState (s.actives e.kernCpu) .ready).setPriority (s.actives e.kernCpu) p) (t := s.actives e.kernCpu)
  refine after_lowered (p := p) hb ((s1.setState (s.actives e.kernCpu) .ready).setPriority (s.actives e.kernCpu) p) _ hac
    (fun v hv => ?_) ?_ hne hk.ready hl.actives hl.alike (fun v hv => hl.off v hv ?_) ?_
    fun h => nomatch hsmp.symm.trans h
  · rw [setPriority, upd_off _ hv, setState, upd_off _ hv, hth]
  · rw [setPriority, upd_self, setState, upd_self, hth]
    exact ⟨rfl, rfl, rfl⟩
  · rw [setPriority, upd_actives, setState, upd_actives, hac]
    exact hv
  · have := hl.holds _ hk.holds fun a h => hb.active h.1.1
    rwa [setPriority, upd_self] at this

theorem after_stay (hb : Base b e s) (hd : s'.disp.Holds (Listed s.th) none)
    (ha : s'.actives = s.actives) (hoff : ∀ v, v ≠ s.actives e.kernCpu → s'.th v = s.th v)
    (hst : (s'.th (s.actives e.kernCpu)).state = .running)
    (hp : (s'.th (s.actives e.kernCpu)).priority = p)
    (hm : (s'.th (s.actives e.kernCpu)).runmask = (s.th (s.actives e.kernCpu)).runmask)
    (htop : b.smp = false → ∀ v, (s.th v).state = .ready → (s.th v).priority ≤ p) : After b e t s s' where
  good := by
    refine hd.congr fun u a => ?_
    by_cases hu : u = s.actives e.kernCpu
    · subst hu
      simp [Listed, hst, hb.active]
    · simp [Listed, hoff u hu]
  base := by
    refine hb.of_off ha ?_ ?_
    · intro u hu hua
      rwa [hoff u hua]
    · rw [hst]
      decide
  act _ := by
    unfold ActRun
    rw [ha]
    exact hst
  top := by
    intro hsmp _ _ u hu
    have hua : u ≠ s.actives e.kernCpu := by
      rintro rfl
      cases hst.symm.trans hu
    rw [ha, hp]
    rw [hoff u hua] at hu ⊢
    exact htop hsmp u hu
  frame u _ _ hua := hoff u hua
  next := .inl (by rw [ha])
  mask u := by
    by_cases hu : u = s.actives e.kernCpu
    · rw [hu, hm]
    · rw [hoff u hu]

/-- The uniprocessor variant lowers the active thread: it is linked first, and the first
thread of the highest list, perhaps itself, runs. -/
theorem adjustLower_up (hg : Good s) (hb : Base b e s)
    {s1 s2 : Sched τ}
    (hs1 : s1 = adjustLink b ((s.setPriority (s.actives e.kernCpu) p).setState (s.actives e.kernCpu) .ready)
      (s.actives e.kernCpu) inherit)
    (hu : s1.disp.thp s1.disp.highestPri = some u) (hs2 : s1.unlink u = some s2) :
    After b e t s (markRunning e s2 u) := by
  have hl := adjustLink_linked (b := b) (e := e) (i := inherit)
    (s := (s.setPriority (s.actives e.kernCpu) p).setState (s.actives e.kernCpu) .ready) (t := s.actives e.kernCpu)
  rw [← hs1] at hl
  have hoff : ∀ v, v ≠ s.actives e.kernCpu → s1.th v = s.th v := by
    intro v hv
    rw [hl.off v hv hv, setState, upd_off _ hv, setPriority, upd_off _ hv]
  have hact : Alike (s1.th (s.actives e.kernCpu)) { s.th (s.actives e.kernCpu) with state := .ready, priority := p } := by
    have := hl.alike (s.actives e.kernCpu)
    rwa [setState, upd_self, setPriority, upd_self] at this
  have hd : s1.disp.Holds (With (Listed s.th) (s.actives e.kernCpu) p) none := by
    have := hl.holds _ hg fun a h => hb.active h.1
    rwa [setState, upd_self, setPriority, upd_self] at this
  have hg1 : Good s1 := by
    refine hd.congr fun v a => ?_
    by_cases hv : v = s.actives e.kernCpu
    · subst hv
      simp [With, Listed, hact.state, hact.priority, hb.active, eq_comm]
    · simp [With, Listed, hv, hoff v hv]
  obtain ⟨hur, hup⟩ := Holds.first hg1 hu
  have hmax : ∀ v, (s1.th v).state = .ready → (s1.th v).priority ≤ (s1.th u).priority := by
    intro v hv
    have := (Holds.highest hg1 (s1.th v).priority.isLt ⟨hv, rfl⟩).2
    rw [Fin.le_def]
    omega
  have hready : ∀ v, (s.th v).state = .ready → v ≠ s.actives e.kernCpu := fun v hv h => hb.active (h ▸ hv)
  obtain ⟨d, hd2, hh⟩ := hg1.unlink hur
  rw [hd2] at hs2
  cases hs2
  by_cases hua : u = s.actives e.kernCpu
  · -- no other thread is as high
    subst hua
    refine after_stay (p := p) hb ?_ ?_ (fun v hv => ?_) ?_ ?_ ?_ fun _ v hv => ?_
    · refine Holds.congr (d := d) hh fun v a => ?_
      by_cases hv : v = s.actives e.kernCpu
      · simp [hv, Without, Listed, hb.active]
      · simp [Without, Listed, hv, hoff v hv]
    · rw [markRunning_actives]
      exact (congrArg (fun a => update a e.kernCpu (s.actives e.kernCpu)) hl.actives).trans
        (update_eq_self _ _)
    · rw [markRunning_off hv]
      exact hoff v hv
    · rw [markRunning_self]
    · rw [markRunning_self]
      exact hact.priority
    · rw [markRunning_self]
      exact hact.runmask
    · have hva := hready v hv
      have := hmax v (by rw [hoff v hva]; exact hv)
      rwa [hoff v hva, hact.priority] at this
  · have hur' : (s.th u).state = .ready := by rwa [hoff u hua] at hur
    refine after_lowered (p := p) hb s1 { s1 with disp := d } hl.actives hoff hact hua hur' rfl
      (fun _ => ⟨rfl, rfl, rfl⟩) (fun _ _ => rfl) ?_ fun _ => ⟨?_, fun v hv => ?_⟩
    · refine hh.congr fun v a => ?_
      by_cases hv : v = s.actives e.kernCpu
      · subst hv
        simp [With, Without, Listed, hact.state, hact.priority, hb.active, Ne.symm hua, eq_comm]
      · simp [With, Without, Listed, hv, hoff v hv]
    · have := hmax (s.actives e.kernCpu) hact.state
      rwa [hact.priority, hoff u hua] at this
    · have hva := hready v hv
      have := hmax v (by rw [hoff v hva]; exact hv)
      rwa [hoff v hva, hoff u hua] at this

theorem adjustRunning_after (hg : Good s) (hb : Base b e s)
    (ht : (s.th t).state = .running) : Ends (adjustRunning b e adjust s t p inherit) (After b e t s) := by
  have htr : (s.th t).state ≠ .ready := by
    rw [ht]
    decide
  unfold adjustRunning
  simp only [ssStopRunning_preempted]
  split_ifs with hsmp hact hlt hlow
  · exact .done (after_setPriority hg hb htr fun h1 => nomatch hsmp.symm.trans h1)
  · refine .seq fun ⟨r, s1⟩ hsel => ?_
    rcases selectThread_spec hg hsel with ⟨rfl, rfl⟩ | ⟨u, rfl, hk⟩
    · exact .done (after_setPriority hg hb hb.active fun h1 => nomatch hsmp.symm.trans h1).of_active
    · obtain ⟨d, hs1⟩ := hk.same
      have hge : (s1.th u).priority ≥ p := by
        have := hk.enough
        rw [hs1, ge_iff_le, Fin.le_def]
        exact Int.ofNat_le.mp this
      dsimp only
      rw [if_pos hge]
      exact .done (adjustLower_smp hsmp hb hk)
  · exact .done (after_setPriority hg hb hb.active fun h1 => nomatch hsmp.symm.trans h1).of_active
  · exact .seq fun _ _ => .seq fun u hu => .seq fun s2 hs2 => .done (adjustLower_up hg hb rfl hu hs2)
  · refine .seq fun _ _ => .done (After.of_active (after_setPriority hg hb hb.active fun _ _ htop _ v hv => ?_))
    -- not lowered, or still above every ready list
    rcases not_and_or.mp hlow with h1 | h1
    · exact Fin.le_trans (htop v hv) (Fin.not_lt.mp h1)
    · have := (Holds.highest hg (s.th v).priority.isLt ⟨hv, rfl⟩).2
      rw [Fin.le_def]
      omega

theorem adjustBody_after (hadj : Adj b e adjust) (hg : Good s) (hb : Base b e s) :
    Ends (adjustBody b e adjust s t p inherit) (After b e t s) := by
  unfold adjustBody
  split_ifs with hp hta
  · subst hta
    exact yieldDefault_after hadj hg hb
  · exact .done (After.refl hg hb)
  · split
    · next hr => exact adjustReady_after hadj hg hb hr
    · next hn => exact adjustRunning_after hg hb hn
    · -- a blocked thread only gets the priority
      next hr hn =>
      refine .done (after_setPriority hg hb hr fun _ hrun _ hta => ?_)
      exact absurd (by rw [hta]; exact hrun) hn

theorem adjustPriority_after (n : Nat) (hg : Good s) (hb : Base b e s) :
    Ends (adjustPriority b e n s t p inherit) (After b e t s) := by
  induction n generalizing s t p inherit with
  | zero => exact .fails
  | succ n ih => exact adjustBody_after (fun s s' t p hg hb => ih hg hb s') hg hb

theorem adjustDrop_adj : Adj b e (adjustDrop (τ := τ) b e) := fun _ s' _ _ hg hb => adjustPriority_after 2 hg hb s'

end QRV.Nano.Sched
