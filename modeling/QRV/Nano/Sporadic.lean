import QRV.Nano.SchedBlock

/- The pending replenishments of sporadic threads.

   `Same s s'` is what almost every step of the scheduler does to them: nothing; at
   most a thread starts to count its execution time anew. Only a charge
   (sched_ss_update), a replenishment (sched_ss_adjust) and sched_thread do more.

   `SsInv b k s` says that the list is sorted, holds each thread once and exactly the
   threads with an amount, that `ss_replenish_time` is the time of its head, and that a
   dropped thread is on it. A release build adds up the amounts without a check: `k`
   is the number of charges for which there is still room in 64 bits. -/
open Call (Ends)

namespace QRV.Nano.Sched

open List Option


variable {τ : Type} {b : Build} {e : Env τ} {s s' s'' : Sched τ} {t : τ}

/-! ## What the replenishments depend on -/

/-- What the replenishments depend on is the same; `x` may have less execution time to
be charged for. -/
structure SsAlike (x y : Thread) : Prop where
  policy : x.policy = y.policy
  org : x.ss.orgPriority = y.ss.orgPriority
  amount : x.ss.amount = y.ss.amount
  replTime : x.ss.replTime = y.ss.replTime
  consumed : x.ss.consumed ≤ y.ss.consumed

theorem ssAlike_of {x y : Thread} (hp : x.policy = y.policy) (hs : x.ss = y.ss) : SsAlike x y :=
  ⟨hp, by rw [hs], by rw [hs], by rw [hs], by rw [hs]; exact UInt64.le_refl _⟩

theorem SsAlike.trans {x y z : Thread} (h : SsAlike x y) (h' : SsAlike y z) : SsAlike x z :=
  ⟨h.policy.trans h'.policy, h.org.trans h'.org, h.amount.trans h'.amount, h.replTime.trans h'.replTime,
    UInt64.le_trans h.consumed h'.consumed⟩

/-- The step leaves the replenishments and the real priorities alone. -/
structure Same (s s' : Sched τ) : Prop where
  list : s'.replenishList = s.replenishList
  time : s'.replenishTime = s.replenishTime
  th : ∀ u, SsAlike (s'.th u) (s.th u)
  real : ∀ u, (s'.th u).realPriority = (s.th u).realPriority

theorem Same.refl (s : Sched τ) : Same s s := ⟨rfl, rfl, fun _ => ssAlike_of rfl rfl, fun _ => rfl⟩

theorem Same.trans (h : Same s s') (h' : Same s' s'') : Same s s'' :=
  ⟨h'.list.trans h.list, h'.time.trans h.time, fun u => (h'.th u).trans (h.th u),
    fun u => (h'.real u).trans (h.real u)⟩

theorem same_of_th (hth : s'.th = s.th) (hl : s'.replenishList = s.replenishList)
    (ht : s'.replenishTime = s.replenishTime) : Same s s' :=
  ⟨hl, ht, fun u => by rw [hth]; exact ssAlike_of rfl rfl, fun u => by rw [hth]⟩

/-- A store to a thread that the replenishments do not see. -/
structure Still (f : Thread → Thread) : Prop where
  policy : ∀ x, (f x).policy = x.policy
  ss : ∀ x, (f x).ss = x.ss
  real : ∀ x, (f x).realPriority = x.realPriority

theorem still_rrReset : Still Thread.rrReset := by
  constructor <;> intro x <;> unfold Thread.rrReset <;> split_ifs <;> rfl

theorem still_rrAddPreempt : Still (Thread.rrAddPreempt b) := by
  constructor <;> intro x <;> unfold Thread.rrAddPreempt <;> split_ifs <;> rfl

variable {p : Prio} {k : Nat}

/-! ## The invariant -/

/-- The list of replenishments is in order, with room for `k` charges. -/
structure SsInv (b : Build) (k : Nat) (s : Sched τ) : Prop where
  sorted : s.replenishList.Pairwise fun t u => (s.th t).ss.replTime ≤ (s.th u).ss.replTime
  nodup : s.replenishList.Nodup
  mem : ∀ t, t ∈ s.replenishList ↔ (s.th t).ss.amount ≠ 0
  head : ∀ t ∈ s.replenishList.head?, s.replenishTime = (s.th t).ss.replTime
  dropped : ∀ t, (s.th t).ss.orgPriority ≠ 0 → t ∈ s.replenishList
  sporadic : ∀ t ∈ s.replenishList, (s.th t).policy = .sporadic
  room : b.debug = false → ∀ t, (s.th t).policy = .sporadic →
    (s.th t).ss.amount.toNat + k * (s.th t).ss.consumed.toNat < 2 ^ 64

/-- Whatever happens to the execution times, the list stays in order. -/
theorem SsInv.of_eqs {j k : Nat} (h : SsInv b k s) (hl : s'.replenishList = s.replenishList)
    (ht : s'.replenishTime = s.replenishTime)
    (hth : ∀ u, (s'.th u).policy = (s.th u).policy ∧ (s'.th u).ss.orgPriority = (s.th u).ss.orgPriority ∧
      (s'.th u).ss.amount = (s.th u).ss.amount ∧ (s'.th u).ss.replTime = (s.th u).ss.replTime)
    (hroom : b.debug = false → ∀ u, (s'.th u).policy = .sporadic →
      (s'.th u).ss.amount.toNat + j * (s'.th u).ss.consumed.toNat < 2 ^ 64) : SsInv b j s' where
  sorted := by
    rw [hl]
    refine h.sorted.imp fun {u v} huv => ?_
    rw [(hth u).2.2.2, (hth v).2.2.2]
    exact huv
  nodup := hl ▸ h.nodup
  mem u := by rw [hl, (hth u).2.2.1, h.mem u]
  head u hu := by
    rw [ht, (hth u).2.2.2]
    exact h.head u (hl ▸ hu)
  dropped u hu := by
    rw [(hth u).2.1] at hu
    exact hl ▸ h.dropped u hu
  sporadic u hu := (hth u).1.trans (h.sporadic u (hl ▸ hu))
  room := hroom

theorem SsAlike.room {x y : Thread} {j k : Nat} (h : SsAlike x y) (hj : j ≤ k)
    (hy : y.ss.amount.toNat + k * y.ss.consumed.toNat < 2 ^ 64) :
    x.ss.amount.toNat + j * x.ss.consumed.toNat < 2 ^ 64 := by
  have := Nat.mul_le_mul hj (UInt64.le_iff_toNat_le.mp h.consumed)
  rw [h.amount]
  omega

theorem SsInv.of_alike {j k : Nat} (h : SsInv b k s) (hj : j ≤ k) (hl : s'.replenishList = s.replenishList)
    (ht : s'.replenishTime = s.replenishTime) (hth : ∀ u, SsAlike (s'.th u) (s.th u)) : SsInv b j s' :=
  h.of_eqs hl ht (fun u => ⟨(hth u).policy, (hth u).org, (hth u).amount, (hth u).replTime⟩)
    fun hd u hu => (hth u).room hj (h.room hd u ((hth u).policy ▸ hu))

theorem SsInv.same (h : SsInv b k s) (h' : Same s s') : SsInv b k s' :=
  h.of_alike (le_refl k) h'.list h'.time h'.th

theorem SsInv.mono {j k : Nat} (h : SsInv b k s) (hj : j ≤ k) : SsInv b j s :=
  h.of_alike hj rfl rfl fun _ => ssAlike_of rfl rfl

/-! ## Steps that leave the replenishments alone -/

section
variable [DecidableEq τ]

theorem same_upd {f : Thread → Thread} (hf : Still f) : Same s (s.upd t f) :=
  ⟨rfl, rfl,
    upd_forall (P := fun u x => SsAlike x (s.th u)) (ssAlike_of (hf.policy _) (hf.ss _)) fun _ _ => ssAlike_of rfl rfl,
    upd_forall (P := fun u x => x.realPriority = (s.th u).realPriority) (hf.real _) fun _ _ => rfl⟩

theorem same_setState (st : ThState) : Same s (s.setState t st) :=
  same_upd ⟨fun _ => rfl, fun _ => rfl, fun _ => rfl⟩

theorem same_setPriority (p : Prio) : Same s (s.setPriority t p) :=
  same_upd ⟨fun _ => rfl, fun _ => rfl, fun _ => rfl⟩

theorem same_markRunning : Same s (markRunning e s t) := by
  have h : Same s { s with actives := Function.update s.actives e.kernCpu t } := same_of_th rfl rfl rfl
  exact h.trans (same_upd ⟨fun _ => rfl, fun _ => rfl, fun _ => rfl⟩)

theorem same_linkBeg (p : Prio) : Same s (s.linkBeg p t) := same_of_th rfl rfl rfl
theorem same_linkEnd (p : Prio) : Same s (s.linkEnd p t) := same_of_th rfl rfl rfl
omit [DecidableEq τ] in
theorem same_dispatchSet : Same s (s.dispatchSet t) := same_of_th rfl rfl rfl
theorem same_nullLinks : Same s (s.nullLinks t) := same_of_th rfl rfl rfl

theorem linkRem_same : Ends (s.linkRem p t) (Same s) := .seq fun _ _ => .done (same_of_th rfl rfl rfl)

theorem unlink_same : Ends (s.unlink t) (Same s) := by
  refine .bind linkRem_same fun s1 h1 => ?_
  split_ifs
  · exact .done (h1.trans (same_of_th rfl rfl rfl))
  · exact .done h1

theorem selectDown_same {prio : Int} : Ends (s.selectDown e prio k) fun r => Same s r.2 := by
  induction k with
  | zero =>
    rw [selectDown]
    split_ifs
    · exact .fails
    · exact .done (Same.refl _)
  | succ k ih =>
    rw [selectDown]
    split_ifs
    · exact .done (Same.refl _)
    · refine .seq fun u _ => ?_
      cases u with
      | none => exact ih
      | some u =>
        dsimp only
        split_ifs
        · exact .bind unlink_same fun _ h => .done h
        · exact .done (Same.refl _)

theorem selectThread_same {prio : Int} : Ends (selectThread b e s prio) fun r => Same s r.2 := by
  rw [selectThread]
  split_ifs
  · exact selectDown_same
  · exact .done (Same.refl _)
  · split
    · exact .done (Same.refl _)
    · exact .bind unlink_same fun _ h => .done h

theorem same_ssMarkActivation : Same s (ssMarkActivation e s t) := by
  rcases ssMarkActivation_cases (e := e) (s := s) (t := t) with h | h
  · rw [h]
    exact Same.refl s
  · rw [h]
    refine ⟨rfl, rfl, ?_, ?_⟩
    · exact upd_forall (P := fun u x => SsAlike x (s.th u)) ⟨rfl, rfl, rfl, rfl, UInt64.zero_le⟩
        fun _ _ => ssAlike_of rfl rfl
    · exact upd_forall (P := fun u x => x.realPriority = (s.th u).realPriority) rfl fun _ _ => rfl

/-! ### adjust_priority of a thread that is not charged -/

theorem same_readyLink (p : Prio) (v : Bool) : Same s (readyLink b e s t p v) := by
  unfold readyLink
  refine (same_setState (t := t) .ready).trans (Same.trans ?_ same_dispatchSet)
  split_ifs
  · exact (same_upd still_rrAddPreempt).trans (same_linkBeg p)
  · exact (same_upd still_rrAddPreempt).trans (same_linkBeg p)
  · exact (same_upd still_rrReset).trans (same_linkEnd p)

variable {adjust : Sched τ → τ → Prio → Option (Sched τ)}
variable {i : Bool} {rest : List τ} {now : UInt64}

theorem readyRun_same : Ends (readyRun b e adjust s t) (Same s) := by
  unfold readyRun
  simp only [ssStopRunning_preempted, bind_eq_bind, bind_some]
  exact .done ((((same_markRunning.trans (same_upd still_rrAddPreempt)).trans (same_setState _)).trans
    (same_linkBeg _)).trans same_dispatchSet)

theorem readyPlace_same {v : Bool} : Ends (readyPlace b e adjust s t p v) (Same s) := by
  unfold readyPlace
  dsimp only
  split_ifs
  · exact .done (same_readyLink p v)
  · split
    · split_ifs
      · exact .done (same_readyLink p v)
      · exact readyRun_same
    · exact .done (same_readyLink p v)
  · exact readyRun_same
  · exact .done (same_readyLink p v)

theorem readyDefault_split : Ends (readyDefault b e adjust s t) fun s' =>
    Same s s' ∨ ∃ s1, readyExpiry b e adjust (s.nullLinks t) = some s1 ∧ Same s1 s' := by
  refine .seq fun _ _ => .seq fun _ _ => .seq fun _ _ => ?_
  dsimp only
  split_ifs
  · exact .done (.inl (same_setState _))
  · exact .seq fun s1 hs1 => readyPlace_same.mono fun _ h => .inr ⟨s1, hs1, same_ssMarkActivation.trans h⟩

theorem adjustReady_same : Ends (adjustReady b e adjust s t p) (Same s) := by
  refine .seq fun _ _ => .bind unlink_same fun s1 h1 => ?_
  replace h1 : Same s (s1.setPriority t p) := h1.trans (same_setPriority p)
  by_cases hsmp : b.smp
  · -- the SMP variant has no SS_CHECK_EXPIRY in ready_default
    have h2 : Same s (if b.debug then (s1.setPriority t p).setState t .dead else s1.setPriority t p) := by
      split_ifs
      · exact h1.trans (same_setState _)
      · exact h1
    rw [if_pos hsmp]
    refine readyDefault_split.mono fun s' h => ?_
    rcases h with h3 | ⟨s2, hs2, h3⟩
    · exact h2.trans h3
    · rw [readyExpiry, if_pos hsmp] at hs2
      cases hs2
      exact h2.trans (same_nullLinks.trans h3)
  · rw [if_neg hsmp]
    split_ifs
    · simp only [ssStopRunning_preempted, bind_eq_bind, bind_some]
      exact .done (h1.trans (((((same_setState _).trans (same_upd still_rrAddPreempt)).trans same_markRunning).trans
        (same_linkBeg _)).trans same_dispatchSet))
    · exact .done (h1.trans (((same_upd still_rrReset).trans (same_linkEnd _)).trans same_dispatchSet))

theorem same_adjustLink (i : Bool) : Same s (adjustLink b s t i) := by
  unfold adjustLink
  refine Same.trans ?_ same_dispatchSet
  split_ifs
  · exact (same_upd still_rrAddPreempt).trans (same_linkBeg _)
  · exact (same_upd still_rrReset).trans (same_linkEnd _)

theorem adjustRunning_same : Ends (adjustRunning b e adjust s t p i) (Same s) := by
  unfold adjustRunning
  simp only [ssStopRunning_preempted]
  split_ifs
  · exact .done (same_setPriority p)
  · refine .bind selectThread_same fun r h1 => ?_
    split
    · split_ifs
      · exact .done (h1.trans ((((same_setState _).trans (same_setPriority p)).trans (same_adjustLink i)).trans
          same_markRunning))
      · exact .done (h1.trans (same_setPriority p))
    · exact .done (h1.trans (same_setPriority p))
  · exact .done (same_setPriority p)
  · refine .seq fun _ _ => .seq fun u _ => .bind unlink_same fun s1 h1 => .done ?_
    exact ((((same_setPriority p).trans (same_setState _)).trans (same_adjustLink i)).trans h1).trans same_markRunning
  · exact .seq fun _ _ => .done (same_setPriority p)

/-- yield_default: its only charge is for the thread that has left the processor. -/
theorem yieldDefault_split (hg : Good s) (hb : Base b e s) : Ends (yieldDefault b e adjust s) fun s' =>
    s' = s ∨ ∃ s1 s2, Same s s1 ∧ After b e (s.actives e.kernCpu) s s1 ∧
      s.actives e.kernCpu ≠ s1.actives e.kernCpu ∧
      ssStopRunning b adjust s1 (s.actives e.kernCpu) false = some s2 ∧ Same s2 s' := by
  refine .seq fun r hr => ?_
  cases r with
  | none => exact .done (.inl rfl)
  | some u =>
    have hu := yieldTo_listed hg hr
    obtain ⟨s1, hs1, h1⟩ := yieldSwap_after hg hb hu
    simp only [hs1, bind_eq_bind, bind_some]
    refine .seq fun s2 hs2 => .done (.inr ⟨_, s2, ?_, h1, ?_, hs2, same_ssMarkActivation⟩)
    · exact ((((linkRem_same _ hs1).trans (same_linkEnd _)).trans (same_upd still_rrReset)).trans
        (same_setState _)).trans same_markRunning
    · rw [markRunning_actives, Function.update_self]
      exact fun h2 => hb.active (h2 ▸ hu.1)

/-- adjust_priority charges nobody unless it lets the active thread yield, and a thread that
has been dropped is not charged either. -/
theorem adjustPriority_same (n : Nat) (hg : Good s) (hb : Base b e s)
    (ht : t = s.actives e.kernCpu → (s.th t).priority = p → (s.th t).ss.orgPriority ≠ 0) :
    Ends (adjustPriority b e (n + 1) s t p i) (Same s) := by
  change Ends (adjustBody b e _ s t p i) _
  unfold adjustBody
  split_ifs with hp hta
  · refine (yieldDefault_split hg hb).mono fun s' h => ?_
    rcases h with rfl | ⟨s1, s2, h1, -, -, hs2, h2⟩
    · exact Same.refl _
    · have horg : (s1.th (s.actives e.kernCpu)).ss.orgPriority ≠ 0 := by
        rw [(h1.th _).org, ← hta]
        exact ht hta hp
      rw [ssStopRunning, schedSsBlock, if_pos horg, ite_self] at hs2
      cases hs2
      exact h1.trans h2
  · exact .done (Same.refl _)
  · split
    · exact adjustReady_same
    · exact adjustRunning_same
    · exact .done (same_setPriority p)

/-! ## The charges -/

theorem SsInv.of_upd {j k : Nat} (h : SsInv b k s) (hj : j ≤ k) {f : Thread → Thread}
    (hr : (s.th t).ss.amount ≠ 0 → (f (s.th t)).ss.replTime = (s.th t).ss.replTime)
    (ha : (f (s.th t)).ss.amount ≠ 0 ↔ (s.th t).ss.amount ≠ 0)
    (ho : (f (s.th t)).ss.orgPriority ≠ 0 → (s.th t).ss.amount ≠ 0)
    (hp : (s.th t).ss.amount ≠ 0 → (f (s.th t)).policy = .sporadic)
    (hroom : b.debug = false → (f (s.th t)).policy = .sporadic →
      (f (s.th t)).ss.amount.toNat + j * (f (s.th t)).ss.consumed.toNat < 2 ^ 64) :
    SsInv b j (s.upd t f) where
  sorted := by
    have hrt : ∀ u, u ∈ s.replenishList → ((s.upd t f).th u).ss.replTime = (s.th u).ss.replTime :=
      upd_forall (P := fun u x => u ∈ s.replenishList → x.ss.replTime = (s.th u).ss.replTime)
        (fun h1 => hr ((h.mem t).mp h1)) fun _ _ _ => rfl
    refine h.sorted.imp_of_mem fun {u v} hu hv huv => ?_
    rw [hrt u hu, hrt v hv]
    exact huv
  nodup := h.nodup
  mem := upd_forall (P := fun u x => u ∈ s.replenishList ↔ x.ss.amount ≠ 0) ((h.mem t).trans ha.symm) fun u _ => h.mem u
  head := upd_forall (P := fun u x => u ∈ s.replenishList.head? → s.replenishTime = x.ss.replTime)
    (fun h1 => (h.head t h1).trans (hr ((h.mem t).mp (mem_of_mem_head? h1))).symm) fun u _ => h.head u
  dropped := upd_forall (P := fun u x => x.ss.orgPriority ≠ 0 → u ∈ s.replenishList)
    (fun h1 => (h.mem t).mpr (ho h1)) fun u _ => h.dropped u
  sporadic := upd_forall (P := fun u x => u ∈ s.replenishList → x.policy = .sporadic)
    (fun h1 => hp ((h.mem t).mp h1)) fun u _ => h.sporadic u
  room hd := upd_forall (P := fun _ x => x.policy = .sporadic → x.ss.amount.toNat + j * x.ss.consumed.toNat < 2 ^ 64)
    (hroom hd) fun u _ => (h.mono hj).room hd u

omit [DecidableEq τ] in
theorem insertRepl_eq (time : τ → UInt64) (l : List τ) :
    insertRepl time t l = l.orderedInsert (fun u v => time u ≤ time v) t := by
  induction l with
  | nil => rfl
  | cons u l ih =>
    rw [insertRepl, orderedInsert_cons, ih]
    by_cases h : time u < time t
    · rw [if_pos h, if_neg (UInt64.not_le.mpr h)]
    · rw [if_neg h, if_pos (UInt64.not_lt.mp h)]

theorem updSs_self (f : SsInfo → SsInfo) : ((s.updSs t f).th t).ss = f (s.th t).ss := by
  rw [updSs, upd_self]

theorem updSs_policy (f : SsInfo → SsInfo) (u : τ) : ((s.updSs t f).th u).policy = (s.th u).policy :=
  upd_forall (P := fun u x => x.policy = (s.th u).policy) rfl (fun _ _ => rfl) u

theorem updSs_off (f : SsInfo → SsInfo) {u : τ} (h : u ≠ t) : (s.updSs t f).th u = s.th u := upd_off _ h

theorem schedRepl_inv (hi : SsInv b (k + 1) s) (hp : (s.th t).policy = .sporadic)
    (h0 : (s.th t).ss.amount = 0) :
    SsInv b k (s.schedRepl t) ∧ ((s.schedRepl t).th t).ss.amount ≠ 0 := by
  obtain ⟨f, hf⟩ : ∃ f : SsInfo → SsInfo, f = fun i =>
      { i with amount := if i.consumed = 0 then 1 else i.consumed, replTime := i.activationTime + i.replPeriod } :=
    ⟨_, rfl⟩
  obtain ⟨time, htime⟩ : ∃ time : τ → UInt64, time = fun u => ((s.updSs t f).th u).ss.replTime := ⟨_, rfl⟩
  have hth : (s.schedRepl t).th = (s.updSs t f).th := by rw [hf]; rfl
  have hlist : (s.schedRepl t).replenishList = s.replenishList.orderedInsert (fun u v => time u ≤ time v) t := by
    rw [← insertRepl_eq, htime, hf]
    rfl
  have hnot : t ∉ s.replenishList := fun h => (hi.mem t).mp h h0
  have hne : ∀ u ∈ s.replenishList, u ≠ t := fun u hu h => hnot (h ▸ hu)
  have hoff : ∀ u ∈ s.replenishList, time u = (s.th u).ss.replTime := by
    intro u hu
    rw [htime]
    dsimp only
    rw [updSs_off f (hne u hu)]
  have hmem : ∀ u, u ∈ (s.schedRepl t).replenishList ↔ u = t ∨ u ∈ s.replenishList := by
    intro u
    rw [hlist, mem_orderedInsert]
  have hself : ((s.schedRepl t).th t).ss = f (s.th t).ss := by rw [hth, updSs_self]
  have hamt : ((s.schedRepl t).th t).ss.amount = if (s.th t).ss.consumed = 0 then 1 else (s.th t).ss.consumed := by
    rw [hself, hf]
  have hamt0 : ((s.schedRepl t).th t).ss.amount ≠ 0 := by
    rw [hamt]
    split_ifs with h
    · decide
    · exact h
  refine ⟨⟨?_, ?_, ?_, ?_, ?_, ?_, ?_⟩, hamt0⟩
  · have hold : s.replenishList.Pairwise fun u v => time u ≤ time v := by
      refine hi.sorted.imp_of_mem fun {u v} hu hv huv => ?_
      rw [hoff u hu, hoff v hv]
      exact huv
    have hnew := List.Pairwise.orderedInsert t _ hold
    rw [hlist, hth]
    subst htime
    exact hnew
  · rw [hlist, (perm_orderedInsert _ t _).nodup_iff, nodup_cons]
    exact ⟨hnot, hi.nodup⟩
  · intro u
    rw [hmem]
    by_cases hu : u = t
    · subst hu
      exact iff_of_true (.inl rfl) hamt0
    · rw [hth, updSs_off f hu, ← hi.mem u]
      simp [hu]
  · intro u hu
    have hnow : (s.schedRepl t).replenishTime = s.replenishList.head?.elim (time t) fun v =>
        if time v < time t then s.replenishTime else time t := by
      rw [htime, hf]
      clear * -
      obtain ⟨_, _, _, _ | _, _⟩ := s <;> rfl
    have htu : ((s.schedRepl t).th u).ss.replTime = time u := by rw [hth, htime]
    rw [hlist] at hu
    rw [hnow, htu]
    cases hl : s.replenishList with
    | nil =>
      rw [hl] at hu
      cases hu
      rfl
    | cons v l =>
      rw [hl, orderedInsert_cons] at hu
      by_cases hv : time v < time t
      · rw [if_neg (UInt64.not_le.mpr hv)] at hu
        obtain rfl : v = u := some.inj hu
        have hvl : v ∈ s.replenishList := by rw [hl]; exact mem_cons_self
        rw [head?_cons, elim_some, if_pos hv, hoff v hvl]
        exact hi.head v (by rw [hl]; rfl)
      · rw [if_pos (UInt64.not_lt.mp hv)] at hu
        cases hu
        exact if_neg hv
  · intro u hu
    rw [hmem]
    by_cases hut : u = t
    · exact .inl hut
    · rw [hth, updSs_off f hut] at hu
      exact .inr (hi.dropped u hu)
  · intro u hu
    rw [hth, updSs_policy]
    rcases (hmem u).mp hu with rfl | h1
    · exact hp
    · exact hi.sporadic u h1
  · intro hd u hu
    rw [hth, updSs_policy] at hu
    have h1 := hi.room hd u hu
    by_cases hut : u = t
    · subst hut
      have hc : ((s.schedRepl u).th u).ss.consumed = (s.th u).ss.consumed := by rw [hself, hf]
      rw [hamt, hc]
      split_ifs with hz
      · rw [hz]
        simp
      · rw [Nat.add_mul] at h1
        simp at h1
        omega
    · rw [hth, updSs_off f hut]
      rw [Nat.add_mul] at h1
      omega

/-- A charge: there is an amount then, if the sum has not wrapped to zero. -/
theorem ssCharge_inv (hi : SsInv b (k + 1) s) (hp : (s.th t).policy = .sporadic)
    (hd : b.debug = true → ((s.ssCharge t).th t).ss.amount ≠ 0) :
    SsInv b k (s.ssCharge t) ∧ ((s.ssCharge t).th t).ss.amount ≠ 0 := by
  have hcount : ∀ s1 : Sched τ, SsInv b k s1 ∧ (s1.th t).ss.amount ≠ 0 →
      SsInv b k (s1.updSs t fun i => { i with replCount := i.replCount + 1 }) ∧
        ((s1.updSs t fun i => { i with replCount := i.replCount + 1 }).th t).ss.amount ≠ 0 := by
    intro s1 h
    rw [updSs_self]
    refine ⟨h.1.of_alike (le_refl k) rfl rfl ?_, h.2⟩
    exact upd_forall (P := fun u x => SsAlike x (s1.th u)) ⟨rfl, rfl, rfl, rfl, UInt64.le_refl _⟩
      fun _ _ => ssAlike_of rfl rfl
  by_cases h0 : (s.th t).ss.amount = 0
  · have he : s.ssCharge t = (s.schedRepl t).updSs t fun i => { i with replCount := i.replCount + 1 } := by
      unfold ssCharge
      rw [if_pos h0]
    rw [he]
    exact hcount _ (schedRepl_inv hi hp h0)
  · have he : s.ssCharge t = (s.updSs t fun i => { i with amount := i.amount + i.consumed }).updSs t
        fun i => { i with replCount := i.replCount + 1 } := by
      unfold ssCharge
      rw [if_neg h0]
    rw [he, updSs_self, updSs_self] at hd
    have hsum : b.debug = false → ((s.th t).ss.amount + (s.th t).ss.consumed).toNat =
        (s.th t).ss.amount.toNat + (s.th t).ss.consumed.toNat := by
      intro hf
      have := hi.room hf t hp
      rw [Nat.add_mul] at this
      rw [UInt64.toNat_add]
      exact Nat.mod_eq_of_lt (by omega)
    have hamt : (s.th t).ss.amount + (s.th t).ss.consumed ≠ 0 := by
      cases hb : b.debug with
      | true => exact hd hb
      | false =>
        intro hz
        have h1 := hsum hb
        rw [hz] at h1
        have h2 : (s.th t).ss.amount.toNat ≠ 0 := fun h => h0 (UInt64.toNat_inj.mp h)
        simp at h1
        omega
    rw [he]
    apply hcount
    refine ⟨hi.of_upd (Nat.le_succ k) (fun _ => rfl) (iff_of_true hamt h0) (fun _ => h0) (fun _ => hp) fun hf _ => ?_,
      by rw [updSs_self]; exact hamt⟩
    have := hi.room hf t hp
    rw [Nat.add_mul] at this
    change ((s.th t).ss.amount + (s.th t).ss.consumed).toNat + k * (s.th t).ss.consumed.toNat < 2 ^ 64
    rw [hsum hf]
    omega

theorem crashcheck_false {c : Bool} {x : Unit} (h : crashcheck b c = some x) (hd : b.debug = true) : c = false := by
  unfold crashcheck at h
  rw [hd, Bool.true_and] at h
  cases c with
  | false => rfl
  | true => cases h

/-- sched_ss_update, whatever the adjust_priority in it does to the room. -/
theorem schedSsUpdate_inv {j k : Nat} {drop : Bool} (hj : j ≤ k)
    (hadj : ∀ s0 p, s0.actives = s.actives → Good s0 → Base b e s0 → SsInv b k s0 →
      Ends (adjust s0 t p) (SsInv b j))
    (hg : Good s) (hb : Base b e s) (hi : SsInv b (k + 1) s) (hp : (s.th t).policy = .sporadic) :
    Ends (schedSsUpdate b adjust s t drop) (SsInv b j) := by
  unfold schedSsUpdate
  by_cases horg : (s.th t).ss.orgPriority ≠ 0
  · rw [if_pos horg]
    exact .done (hi.mono (by omega))
  · rw [if_neg horg]
    refine .seq fun _ hc => ?_
    obtain ⟨h1, hamt⟩ := ssCharge_inv hi hp fun hd => by simpa using crashcheck_false hc hd
    have ha := (ssCharge_after (t := t) hg hb).quiet quiet_saveReal
    split_ifs
    · have hsp : ((s.ssCharge t).th t).policy = .sporadic := h1.sporadic t ((h1.mem t).mpr hamt)
      have h2 : SsInv b k ((s.ssCharge t).upd t Thread.saveReal) :=
        h1.of_upd (le_refl k) (fun _ => rfl) Iff.rfl (fun _ => hamt) (fun _ => hsp) fun hd => h1.room hd t
      refine .bind (.guard (h2.mono hj) fun _ => ?_) fun s2 h3 => .done ?_
      · exact hadj _ _ ((upd_actives _).trans ssCharge_actives) ha.good ha.base h2
      · exact h3.of_upd (le_refl j) (fun _ => rfl) Iff.rfl (fun ho => (h3.mem t).mp (h3.dropped t ho))
          (fun ho => h3.sporadic t ((h3.mem t).mpr ho)) fun hd => h3.room hd t
    · exact .done (h1.mono hj)

theorem ssStopRunning_inv {j k : Nat} {pre : Bool} (hj : j ≤ k)
    (hadj : ∀ s0 p, s0.actives = s.actives → Good s0 → Base b e s0 → SsInv b k s0 →
      Ends (adjust s0 t p) (SsInv b j))
    (hg : Good s) (hb : Base b e s) (hi : SsInv b (k + 1) s) :
    Ends (ssStopRunning b adjust s t pre) (SsInv b j) := by
  have hi' : SsInv b j s := hi.mono (by omega)
  unfold ssStopRunning schedSsBlock
  split_ifs with hp
  · exact .done hi'
  · exact .done hi'
  · exact schedSsUpdate_inv hj hadj hg hb hi hp
  · exact .done hi'

theorem adjustPriority_inv (hg : Good s) (hb : Base b e s) (hi : SsInv b (k + 1) s) :
    Ends (adjustPriority b e 2 s t p i) (SsInv b k) := by
  by_cases ht : t = s.actives e.kernCpu → (s.th t).priority = p → (s.th t).ss.orgPriority ≠ 0
  · exact (adjustPriority_same 1 hg hb ht).mono fun _ h => (hi.same h).mono (Nat.le_succ k)
  · obtain ⟨hta, ht⟩ := not_forall.mp ht
    obtain ⟨hp, -⟩ := not_forall.mp ht
    change Ends (adjustBody b e _ s t p i) _
    unfold adjustBody
    rw [if_pos hp, if_pos hta]
    refine (yieldDefault_split hg hb).mono fun s' h => ?_
    rcases h with rfl | ⟨s1, s2, h1, ha, hne, hs2, h2⟩
    · exact hi.mono (Nat.le_succ k)
    · refine (ssStopRunning_inv (le_refl k) ?_ ha.good ha.base (hi.same h1) _ hs2).same h2
      intro s0 p' hact hg0 hb0 hi0
      exact (adjustPriority_same 0 hg0 hb0 fun heq => absurd (hact ▸ heq) hne).mono fun _ => hi0.same

section
variable (hg : Good s) (hb : Base b e s) (hi : SsInv b (k + 2) s)
include hg hb hi

/-- The charges outside of adjust_priority: one, and one more in it. -/
theorem ssStopRunning_drop_inv {pre : Bool} : Ends (ssStopRunning b (adjustDrop b e) s t pre) (SsInv b k) :=
  ssStopRunning_inv (Nat.le_succ k) (fun _ _ _ => adjustPriority_inv) hg hb hi

theorem schedSsUpdate_drop_inv {drop : Bool} (hp : (s.th t).policy = .sporadic) :
    Ends (schedSsUpdate b (adjustDrop b e) s t drop) (SsInv b k) :=
  schedSsUpdate_inv (Nat.le_succ k) (fun _ _ _ => adjustPriority_inv) hg hb hi hp

theorem ssCheckExpiry_inv : Ends (ssCheckExpiry b (adjustDrop b e) s t) (SsInv b k) :=
  .guard (hi.mono (by omega)) fun hx => schedSsUpdate_drop_inv hg hb hi hx.1

end

/-! ## sched_ss_adjust -/

/-- What a turn of the loop leaves: the head is off the list, without an amount and at the
priority it was dropped from. -/
structure Turned (s s' : Sched τ) (t : τ) (rest : List τ) : Prop where
  list : s'.replenishList = rest
  time : ∀ u ∈ rest.head?, s'.replenishTime = (s.th u).ss.replTime
  off : ∀ u, u ≠ t → SsAlike (s'.th u) (s.th u) ∧ (s'.th u).realPriority = (s.th u).realPriority
  policy : (s'.th t).policy = (s.th t).policy
  org : (s'.th t).ss.orgPriority = 0
  amount : (s'.th t).ss.amount = 0
  consumed : (s'.th t).ss.consumed ≤ (s.th t).ss.consumed
  real : (s.th t).ss.orgPriority ≠ 0 → (s'.th t).realPriority = (s.th t).ss.orgPriority

theorem ssRestore_spec (hg : Good s) (hb : Base b e s) : Ends (ssRestore b e s t) fun ⟨_, s'⟩ =>
    s'.replenishList = s.replenishList ∧ s'.replenishTime = s.replenishTime ∧
    (∀ u, u ≠ t → SsAlike (s'.th u) (s.th u) ∧ (s'.th u).realPriority = (s.th u).realPriority) ∧
    (s'.th t).policy = (s.th t).policy ∧ (s'.th t).ss.orgPriority = 0 ∧
    (s'.th t).ss.consumed ≤ (s.th t).ss.consumed ∧
    ((s.th t).ss.orgPriority ≠ 0 → (s'.th t).realPriority = (s.th t).ss.orgPriority) := by
  rw [ssRestore]
  by_cases horg : (s.th t).ss.orgPriority ≠ 0
  · rw [if_pos horg]
    have ha := after_updSs (t := t) hg hb fun i => { i with activationTime := e.snap none, consumed := 0 }
    -- the thread is still marked as dropped here, so the boost charges nobody
    refine .bind (.guard (Same.refl _) fun _ => adjustPriority_same 1 ha.good ha.base fun _ _ => ?_)
      fun s1 hsame => .done ?_
    · rw [updSs_self]
      exact horg
    have ht := hsame.th t
    refine ⟨hsame.list, hsame.time, fun u hu => ?_, ?_, ?_, ?_, fun _ => ?_⟩
    · have h1 := hsame.th u
      have h2 := hsame.real u
      rw [updSs_off _ hu] at h1 h2
      rw [updSs_off _ hu, upd_off _ hu]
      exact ⟨h1, h2⟩
    · rw [updSs_policy, upd_self]
      exact ht.policy.trans (updSs_policy _ _)
    · rw [updSs_self]
    · have := ht.consumed
      rw [updSs_self] at this
      rw [updSs_self, upd_self]
      exact UInt64.le_trans this UInt64.zero_le
    · rw [updSs, upd_self, upd_self]
      have := ht.org
      rw [updSs_self] at this
      exact this
  · rw [if_neg horg]
    exact .done ⟨rfl, rfl, fun u _ => ⟨ssAlike_of rfl rfl, rfl⟩, rfl, not_not.mp horg, UInt64.le_refl _,
      fun h => absurd h horg⟩

theorem ssAdjustTurn_spec (hg : Good s) (hb : Base b e s) (hp : (s.th t).policy = .sporadic) :
    Ends (ssAdjustTurn b e s t rest) fun r => Turned s r.2 t rest := by
  have h0 : After b e t s (s.popRepl rest) := after_same hg hb rfl rfl rfl
  have h1 := h0.updSs fun i => { i with currBudget := i.initBudget, replCount := 0 }
  have hpop : ((s.popRepl rest).th t).policy = .sporadic := hp
  unfold ssAdjustTurn
  rw [if_pos hpop]
  refine .bind (ssRestore_spec h1.good h1.base) fun ⟨m, s1⟩ ⟨hlist, htime, hoff, hpol, horg, hcons, hreal⟩ => .done ?_
  have hself : ((s.popRepl rest).updSs t fun i => { i with currBudget := i.initBudget, replCount := 0 }).th t =
      { s.th t with ss := { (s.th t).ss with currBudget := (s.th t).ss.initBudget, replCount := 0 } } := upd_self _
  rw [hself] at hpol hcons hreal
  refine ⟨hlist, fun u hu => ?_, fun u hu => ?_, ?_, ?_, ?_, ?_, fun h => ?_⟩
  · cases rest with
    | nil => cases hu
    | cons v l =>
      cases hu
      exact htime
  · have := hoff u hu
    rw [updSs_off _ hu] at this ⊢
    exact this
  · rw [updSs_policy]
    exact hpol
  · rw [updSs_self]
    exact horg
  · rw [updSs_self]
  · rw [updSs_self]
    exact hcons
  · rw [updSs, upd_self]
    exact hreal h

theorem SsInv.removed (hi : SsInv b k s) (hlist : s'.replenishList = s.replenishList.erase t)
    (hhead : ∀ u ∈ s'.replenishList.head?, s'.replenishTime = (s.th u).ss.replTime)
    (hoff : ∀ u, u ≠ t → SsAlike (s'.th u) (s.th u)) (horg : (s'.th t).ss.orgPriority = 0)
    (hamt : (s'.th t).ss.amount = 0)
    (hroom : (s'.th t).policy = .sporadic →
      (s.th t).policy = .sporadic ∧ (s'.th t).ss.consumed ≤ (s.th t).ss.consumed) :
    SsInv b k s' := by
  have hmem : ∀ u, u ∈ s'.replenishList ↔ u ≠ t ∧ u ∈ s.replenishList := by
    intro u
    rw [hlist]
    exact hi.nodup.mem_erase_iff
  have hsame : ∀ u ∈ s'.replenishList, SsAlike (s'.th u) (s.th u) := fun u hu => hoff u ((hmem u).mp hu).1
  refine ⟨?_, ?_, fun u => ?_, fun u hu => ?_, fun u hu => ?_, fun u hu => ?_, fun hd u hu => ?_⟩
  · have hsub : s'.replenishList.Sublist s.replenishList := by
      rw [hlist]
      exact erase_sublist
    refine (hi.sorted.sublist hsub).imp_of_mem fun {u v} hu hv huv => ?_
    rw [(hsame u hu).replTime, (hsame v hv).replTime]
    exact huv
  · rw [hlist]
    exact hi.nodup.erase t
  · rw [hmem]
    by_cases hut : u = t
    · subst hut
      simp [hamt]
    · rw [(hoff u hut).amount, ← hi.mem u]
      simp [hut]
  · rw [(hsame u (mem_of_mem_head? hu)).replTime]
    exact hhead u hu
  · have hut : u ≠ t := fun h => hu (h ▸ horg)
    rw [(hoff u hut).org] at hu
    exact (hmem u).mpr ⟨hut, hi.dropped u hu⟩
  · rw [(hsame u hu).policy]
    exact hi.sporadic u ((hmem u).mp hu).2
  · by_cases hut : u = t
    · subst hut
      obtain ⟨hp, hc⟩ := hroom hu
      have h1 := hi.room hd u hp
      have h2 := Nat.mul_le_mul_left k (UInt64.le_iff_toNat_le.mp hc)
      rw [hamt]
      have : (0 : UInt64).toNat = 0 := rfl
      omega
    · exact (hoff u hut).room (le_refl k) (hi.room hd u ((hoff u hut).policy ▸ hu))

theorem Turned.inv (h : Turned s s' t rest) (hi : SsInv b k s)
    (hl : s.replenishList = t :: rest) : SsInv b k s' := by
  refine hi.removed (t := t) ?_ ?_ (fun u hu => (h.off u hu).1) h.org h.amount fun hp => ?_
  · rw [h.list, hl, erase_cons_head]
  · rw [h.list]
    exact h.time
  · exact ⟨h.policy ▸ hp, h.consumed⟩

omit [DecidableEq τ] in
theorem SsInv.not_due (hi : SsInv b k s)
    (hh : ∀ t ∈ s.replenishList.head?, ¬(s.th t).ss.replTime ≤ now) {u : τ} (hu : u ∈ s.replenishList) :
    ¬(s.th u).ss.replTime ≤ now := by
  intro hdue
  cases hl : s.replenishList with
  | nil =>
    rw [hl] at hu
    cases hu
  | cons t rest =>
    rw [hl] at hh hu
    have hs := hi.sorted
    rw [hl] at hs
    apply hh t rfl
    rcases mem_cons.mp hu with rfl | hu
    · exact hdue
    · exact UInt64.le_trans (rel_of_pairwise_cons hs hu) hdue

/-- What the loop leaves: the due threads have their priorities back. -/
structure Adjusted (b : Build) (k : Nat) (now : UInt64) (s s' : Sched τ) : Prop where
  inv : SsInv b k s'
  off : ∀ u, u ∉ s.replenishList → SsAlike (s'.th u) (s.th u) ∧ (s'.th u).realPriority = (s.th u).realPriority
  back : ∀ u, (s.th u).ss.orgPriority ≠ 0 → (s.th u).ss.replTime ≤ now →
    (s'.th u).ss.orgPriority = 0 ∧ (s'.th u).realPriority = (s.th u).ss.orgPriority

omit [DecidableEq τ] in
theorem SsInv.adjusted (hi : SsInv b k s)
    (hh : ∀ t ∈ s.replenishList.head?, ¬(s.th t).ss.replTime ≤ now) : Adjusted b k now s s :=
  ⟨hi, fun _ _ => ⟨ssAlike_of rfl rfl, rfl⟩, fun u ho hdue => absurd hdue (hi.not_due hh (hi.dropped u ho))⟩

theorem Turned.adjusted (h : Turned s s' t rest) (hi : SsInv b k s)
    (hl : s.replenishList = t :: rest) (h' : Adjusted b k now s' s'') : Adjusted b k now s s'' where
  inv := h'.inv
  off u hu := by
    rw [hl, mem_cons, not_or] at hu
    obtain ⟨h1, h2⟩ := h.off u hu.1
    obtain ⟨h3, h4⟩ := h'.off u (by rw [h.list]; exact hu.2)
    exact ⟨h3.trans h1, h4.trans h2⟩
  back u ho hdue := by
    by_cases hut : u = t
    · subst hut
      have hnd := hi.nodup
      rw [hl] at hnd
      obtain ⟨h3, h4⟩ := h'.off u (by rw [h.list]; exact (nodup_cons.mp hnd).1)
      exact ⟨h3.org.trans h.org, h4.trans (h.real ho)⟩
    · obtain ⟨h1, h2⟩ := h.off u hut
      rw [← h1.org] at ho ⊢
      rw [← h1.replTime] at hdue
      exact h'.back u ho hdue

theorem ssAdjustLoop_adjusted (n : Nat) {s : Sched τ} (hg : Good s) (hb : Base b e s) (hi : SsInv b k s) :
    Ends (ssAdjustLoop b e n s) fun r => Adjusted b k (e.snap none) s r.2 := by
  unfold ssAdjustLoop
  split
  · next hl => exact .done (hi.adjusted (by simp [hl]))
  next t rest hl =>
  split_ifs with hdue
  · cases n with
    | zero => exact .fails
    | succ n =>
      have hp : (s.th t).policy = .sporadic := hi.sporadic t (by rw [hl]; exact mem_cons_self)
      refine .seq fun r hs1 => ?_
      have hk := ssAdjustTurn_kept hg hb _ hs1
      have ht := ssAdjustTurn_spec hg hb hp _ hs1
      exact .bind (ssAdjustLoop_adjusted n hk.good hk.base (ht.inv hi hl)) fun _ h => .done (ht.adjusted hi hl h)
  · exact .done (hi.adjusted (by simpa [hl] using hdue))

end

end QRV.Nano.Sched
