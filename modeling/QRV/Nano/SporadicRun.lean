import Mathlib.Data.UInt
import QRV.Nano.SchedRun
import QRV.Nano.Sporadic

/- The replenishments over whole runs.

   A run interleaves the sporadic functions, called directly on any sporadic thread,
   with the operations of the scheduler, which call them in their midst. The rest of
   the kernel, the clock interrupt in particular, may change what a thread has
   consumed at any time.

   `replenish_run` is the invariant for every run in which a release build has room
   for the amounts; `replenish_run_wraps` is a run in which the sum wraps to zero. -/
open Call (Ends)

namespace QRV.Nano.Sched
open Option (bind_eq_some_iff)

open LinkCell List

variable {τ : Type} [DecidableEq τ] {b : Build} {e : Env τ} {s s' s'' : Sched τ} {t : τ} {k : Nat}
variable {l : List τ} {param : Param}

/-! ## sched_ss_cleanup -/

theorem removeRepl_of_not_mem (time : τ → UInt64) (h : t ∉ l) (first : Bool) (now : UInt64) :
    removeRepl b time t first l now = (l, now) := by
  induction l generalizing first now with
  | nil => rfl
  | cons u l ih =>
    rw [mem_cons, not_or] at h
    rw [removeRepl, if_neg (Ne.symm h.1), ih h.2]

theorem removeRepl_self (time : τ → UInt64) (h : t ∉ l) (first : Bool) (now : UInt64) :
    removeRepl b time t first (t :: l) now = (l, removeTime time first l now) := by
  rw [removeRepl, if_pos rfl]
  split_ifs
  · exact removeRepl_of_not_mem time h first _
  · rfl

theorem removeRepl_behind (time : τ → UInt64) (h : l.Nodup) (now : UInt64) :
    removeRepl b time t false l now = (l.erase t, now) := by
  induction l with
  | nil => rfl
  | cons v l ih =>
    obtain ⟨hv, hl⟩ := nodup_cons.mp h
    by_cases hvt : v = t
    · subst hvt
      rw [removeRepl_self time hv, erase_cons_head]
      cases l <;> rfl
    · rw [removeRepl, if_neg hvt, ih hl, erase_cons_tail (by simpa using hvt)]

/-- The loop of sched_ss_cleanup takes the thread off the list, and the time is that of
the new head. -/
theorem removeRepl_spec (time : τ → UInt64) (h : l.Nodup) {now : UInt64}
    (hnow : ∀ v ∈ l.head?, now = time v) :
    (removeRepl b time t true l now).1 = l.erase t ∧
    ∀ u ∈ (l.erase t).head?, (removeRepl b time t true l now).2 = time u := by
  cases l with
  | nil => exact ⟨rfl, nofun⟩
  | cons v l =>
    obtain ⟨hv, hl⟩ := nodup_cons.mp h
    by_cases hvt : v = t
    · subst hvt
      rw [removeRepl_self time hv, erase_cons_head]
      refine ⟨rfl, fun u hu => ?_⟩
      cases l with
      | nil => cases hu
      | cons w l =>
        cases hu
        rfl
    · rw [removeRepl, if_neg hvt, removeRepl_behind time hl, erase_cons_tail (by simpa using hvt)]
      refine ⟨rfl, fun u hu => ?_⟩
      cases hu
      exact hnow v rfl

theorem schedSsCleanup_inv (hi : SsInv b k s) : Ends (schedSsCleanup b s t) (SsInv b k) := by
  refine .seq fun _ _ => .seq fun _ _ => .done ?_
  have hrt : ∀ u, ((s.upd t (Thread.withPolicy .fifo)).th u).ss = (s.th u).ss :=
    upd_forall (P := fun u x => x.ss = (s.th u).ss) rfl fun _ _ => rfl
  have hhead : ∀ v ∈ s.replenishList.head?,
      s.replenishTime = ((s.upd t (Thread.withPolicy .fifo)).th v).ss.replTime := by
    intro v hv
    rw [hrt]
    exact hi.head v hv
  obtain ⟨hlist, htime⟩ := removeRepl_spec (b := b) (t := t)
    (fun u => ((s.upd t (Thread.withPolicy .fifo)).th u).ss.replTime) hi.nodup hhead
  refine hi.removed (t := t) hlist ?_ ?_ ?_ ?_ ?_
  · intro u hu
    have hu' : u ∈ (s.replenishList.erase t).head? := hlist ▸ hu
    exact (htime u hu').trans (by rw [hrt])
  · intro u hu
    rw [upd_off _ hu]
    rw [upd_off _ hu]
    exact ssAlike_of rfl rfl
  · rw [upd_self]
    rfl
  · rw [upd_self]
    rfl
  · rw [upd_self]
    rw [upd_self]
    intro h
    cases h

theorem schedSsCleanup_policy : Ends (schedSsCleanup b s t) fun s' => (s'.th t).policy ≠ .sporadic := by
  refine .seq fun _ _ => .seq fun _ _ => .done ?_
  rw [upd_self]
  rw [upd_self]
  exact nofun

/-! ## sched_thread -/

omit [DecidableEq τ] in
theorem SsInv.plain (hi : SsInv b k s) (hp : (s.th t).policy ≠ .sporadic) :
    (s.th t).ss.amount = 0 ∧ (s.th t).ss.orgPriority = 0 := by
  have hnot : t ∉ s.replenishList := fun h => hp (hi.sporadic t h)
  constructor
  · by_contra h
    exact hnot ((hi.mem t).mpr h)
  · by_contra h
    exact hnot (hi.dropped t h)

theorem SsInv.of_idle (hi : SsInv b k s) {f : Thread → Thread} (h0 : (s.th t).ss.amount = 0)
    (ha : (f (s.th t)).ss.amount = 0) (ho : (f (s.th t)).ss.orgPriority = 0)
    (hc : (f (s.th t)).policy = .sporadic → (f (s.th t)).ss.consumed = 0) : SsInv b k (s.upd t f) := by
  refine hi.of_upd (Nat.le_refl k) (fun h => absurd h0 h) ?_ (fun h => absurd ho h) (fun h => absurd h0 h) ?_
  · rw [ha, h0]
  · intro _ hp
    rw [ha, hc hp]
    simp

/-- A store that keeps what the list depends on; only a dropped thread may get another
priority to go back to. -/
theorem SsInv.of_kept (hi : SsInv b k s) {f : Thread → Thread} (hp : (f (s.th t)).policy = (s.th t).policy)
    (ha : (f (s.th t)).ss.amount = (s.th t).ss.amount) (hr : (f (s.th t)).ss.replTime = (s.th t).ss.replTime)
    (hc : (f (s.th t)).ss.consumed = (s.th t).ss.consumed)
    (ho : (f (s.th t)).ss.orgPriority ≠ 0 → (s.th t).ss.orgPriority ≠ 0) : SsInv b k (s.upd t f) := by
  refine hi.of_upd (Nat.le_refl k) (fun _ => hr) (by rw [ha]) ?_ ?_ ?_
  · exact fun h => (hi.mem t).mp (hi.dropped t (ho h))
  · exact fun h => hp.trans (hi.sporadic t ((hi.mem t).mpr h))
  · intro hd hs
    rw [ha, hc]
    exact hi.room hd t (hp ▸ hs)

/-- What sched_thread keeps while it stores the attributes of the thread. -/
structure Stored (b : Build) (k : Nat) (t : τ) (s s' : Sched τ) : Prop where
  inv : SsInv b k s'
  policy : (s'.th t).policy = (s.th t).policy
  amount : (s'.th t).ss.amount = (s.th t).ss.amount
  consumed : (s'.th t).ss.consumed = (s.th t).ss.consumed

theorem SsInv.updSs (hi : SsInv b k s) {f : SsInfo → SsInfo} (ha : (f (s.th t).ss).amount = (s.th t).ss.amount)
    (hr : (f (s.th t).ss).replTime = (s.th t).ss.replTime) (hc : (f (s.th t).ss).consumed = (s.th t).ss.consumed)
    (ho : (f (s.th t).ss).orgPriority ≠ 0 → (s.th t).ss.orgPriority ≠ 0) : Stored b k t s (s.updSs t f) :=
  ⟨hi.of_kept (f := fun x => { x with ss := f x.ss }) rfl ha hr hc ho, updSs_policy f t,
    by rw [updSs_self, ha], by rw [updSs_self, hc]⟩

omit [DecidableEq τ] in
theorem Stored.trans (h : Stored b k t s s') (h' : Stored b k t s' s'') : Stored b k t s s'' :=
  ⟨h'.inv, h'.policy.trans h.policy, h'.amount.trans h.amount, h'.consumed.trans h.consumed⟩

theorem setAttributes_stored (hi : SsInv b k s) (param : Param) : Stored b k t s (s.setAttributes t param).2 := by
  unfold setAttributes
  dsimp only
  split_ifs with hsame horg
  · exact ⟨hi, rfl, rfl, rfl⟩
  · have h1 := hi.updSs (t := t) (f := fun i => { i with
      lowPriority := toPrio param.lowPriority, maxRepl := UInt16.ofNat param.maxRepl.toNat
      replPeriod := param.replPeriod, initBudget := param.initBudget }) rfl rfl rfl id
    dsimp only
    refine h1.trans (h1.inv.updSs rfl rfl rfl fun _ => ?_)
    rw [updSs_self]
    exact horg
  · dsimp only
    exact hi.updSs rfl rfl rfl fun h => h

theorem setSporadic_inv (hi : SsInv b k s) (param : Param) :
    SsInv b k ((setSporadic e s t param).2.upd t (Thread.withPolicy .sporadic)) := by
  unfold setSporadic
  obtain ⟨s1, hs1⟩ : ∃ s1, s1 = (if (s.th t).policy ≠ .sporadic then s.upd t Thread.newSporadic else s) := ⟨_, rfl⟩
  rw [← hs1]
  have h1 : SsInv b k s1 ∧ ((s1.th t).policy ≠ .sporadic →
      (s1.th t).ss.amount = 0 ∧ (s1.th t).ss.consumed = 0) := by
    rw [hs1]
    split_ifs with hp
    · refine ⟨hi.of_idle (hi.plain hp).1 rfl rfl fun _ => rfl, fun _ => ?_⟩
      rw [upd_self]
      exact ⟨rfl, rfl⟩
    · exact ⟨hi, fun h => absurd h hp⟩
  have h2 : Stored b k t s1 (if (s1.th t).waaa = true ∨ (s1.th t).policy ≠ .sporadic then
      s1.updSs t fun i => { i with activationTime := e.snap (some t), currBudget := param.initBudget } else s1) := by
    split_ifs
    · exact h1.1.updSs rfl rfl rfl id
    · exact ⟨h1.1, rfl, rfl, rfl⟩
  obtain ⟨h3, hpol, hamt, hcons⟩ := h2.trans (setAttributes_stored h2.inv param)
  by_cases hp : (s1.th t).policy = .sporadic
  · refine h3.of_kept ?_ rfl rfl rfl id
    rw [hpol, hp]
    rfl
  · obtain ⟨ha, hc⟩ := h1.2 hp
    rw [ha] at hamt
    refine h3.of_idle hamt hamt ?_ fun _ => hcons.trans hc
    exact (h3.plain (hpol.symm ▸ hp)).2

theorem setSchedinfo_inv (hi : SsInv b k s) {policy : Policy} :
    Ends (setSchedinfo b e s t policy param) fun r => SsInv b k (r.2.upd t (Thread.withPolicy policy)) := by
  unfold setSchedinfo
  split_ifs with hpol
  · rw [hpol]
    exact .done (setSporadic_inv hi param)
  · have hplain : ∀ s1 : Sched τ, SsInv b k s1 → (s1.th t).policy ≠ .sporadic →
        SsInv b k ((s1.upd t Thread.rrReset).upd t (Thread.withPolicy policy)) := by
      intro s1 hi1 hp1
      have hs : SsInv b k (s1.upd t Thread.rrReset) := hi1.same (same_upd still_rrReset)
      have hp : ((s1.upd t Thread.rrReset).th t).policy ≠ .sporadic := by
        rw [upd_self, still_rrReset.policy]
        exact hp1
      obtain ⟨ha, ho⟩ := hs.plain hp
      exact hs.of_idle ha ha ho fun h => absurd h hpol
    unfold setPlain
    split_ifs with hs
    · exact .seq fun s1 hs1 => .done (hplain s1 (schedSsCleanup_inv hi _ hs1) (schedSsCleanup_policy _ hs1))
    · exact .done (hplain s hi hs)

section
variable (hg : Good s) (hb : Base b e s) (hi : SsInv b (k + 1) s)
include hg hb hi

theorem setPolicy_inv {policy : Option Policy} :
    Ends (setPolicy b e s t policy param) fun r => SsInv b k r.2 := by
  unfold setPolicy
  split
  · rename_i policy _
    split_ifs
    · exact .done (hi.mono (Nat.le_succ k))
    · refine .seq fun r hs1 => ?_
      have ha := (setSchedinfo_after hg hb _ hs1).quiet (quiet_withPolicy policy)
      exact .bind (adjustPriority_inv ha.good ha.base (setSchedinfo_inv hi _ hs1))
        fun s2 h2 => .done (h2.of_kept rfl rfl rfl rfl id)
  · exact .done (hi.mono (Nat.le_succ k))

omit hg hb hi in
theorem toHead_same {lowered : Bool} : Ends (s.toHead t lowered) (Same s) :=
  .guard (Same.refl _) fun _ => .bind linkRem_same fun _ h => .done (h.trans (same_linkBeg _))

theorem setPrio_inv {p : Prio} : Ends (setPrio b e s t p) (SsInv b k) := by
  refine .bind (.guard (hi.mono (Nat.le_succ k)) fun _ => ?_) fun s1 h1 => .done ?_
  · exact .bind (adjustPriority_inv hg hb hi) fun s2 h2 => toHead_same.mono fun _ => h2.same
  have hss : ∀ x : Thread, (x.setprio p).ss = if x.policy = .sporadic ∧ x.ss.orgPriority ≠ 0 then
      { x.ss with orgPriority := p } else x.ss := fun _ => rfl
  refine h1.of_kept rfl ?_ ?_ ?_ ?_
  · rw [hss]
    split_ifs <;> rfl
  · rw [hss]
    split_ifs <;> rfl
  · rw [hss]
    split_ifs <;> rfl
  · rw [hss]
    split_ifs with hx
    · exact fun _ => hx.2
    · exact id

theorem schedThread_inv {req : Request} : Ends (schedThread b e s t req param) fun r => SsInv b k r.2 := by
  have hi' := hi.mono (Nat.le_succ k)
  unfold schedThread
  cases req with
  | adjToHead =>
    dsimp only
    split_ifs
    · exact .done hi'
    · exact .bind linkRem_same fun _ h => .done (hi'.same (h.trans (same_linkBeg _)))
  | adjToTail =>
    dsimp only
    split_ifs
    · exact .done hi'
    · exact .bind linkRem_same fun _ h =>
        .done (hi'.same ((h.trans (same_upd still_rrReset)).trans (same_linkEnd _)))
  | noChange => exact setPolicy_inv hg hb hi
  | setPrio =>
    dsimp only
    split_ifs
    · exact .done hi'
    · exact .done hi'
    · exact .bind (setPrio_inv hg hb hi) fun _ h => .done h
  | policy p => exact setPolicy_inv hg hb hi
  | bad => exact setPolicy_inv hg hb hi

end

/-! ## The operations of the scheduler -/

section
variable (hg : Good s) (hb : Base b e s) (hi : SsInv b (k + 2) s)
include hg hb hi

theorem readyDefault_inv (ht : (s.th t).state ≠ .ready) :
    Ends (readyDefault b e (adjustDrop b e) s t) (SsInv b k) := by
  refine readyDefault_split.mono fun s' h => ?_
  rcases h with h | ⟨s1, hs1, h⟩
  · exact (hi.same h).mono (by omega)
  · refine SsInv.same ?_ h
    have hi1 : SsInv b (k + 2) (s.nullLinks t) := hi.same same_nullLinks
    rw [readyExpiry] at hs1
    split_ifs at hs1
    · cases hs1
      exact hi1.mono (by omega)
    · exact ssCheckExpiry_inv (holds_nullLinks (s := s) hg fun a h1 => ht h1.1) (hb.of_same rfl fun _ => rfl) hi1 _ hs1

theorem block_inv : Ends (block b e s) (SsInv b k) := by
  refine (block_split hg hb).mono fun s' ⟨s1, u, hsel, hran, h⟩ => ?_
  have hsame : Same s (markRunning e (blockTick b s1 (s.actives e.kernCpu) u) u) := by
    refine (selectThread_same _ hsel).trans (Same.trans ?_ same_markRunning)
    unfold blockTick
    split_ifs
    · exact same_upd still_rrAddPreempt
    · exact Same.refl _
  rcases h with rfl | ⟨pre, h⟩
  · exact (hi.same hsame).mono (by omega)
  · exact ssStopRunning_drop_inv hran.good hran.base (hi.same hsame) _ h

omit hg hb hi in
theorem same_blockLink (p : Prio) : Same s (blockLink s t p) := by
  unfold blockLink
  refine Same.trans (Same.trans ?_ same_dispatchSet) (same_setState _)
  split_ifs
  · exact same_linkEnd p
  · exact same_linkBeg p

theorem blockAndReady_inv (hta : t ≠ s.actives e.kernCpu)
    (htb : (s.th t).state.blocked) : Ends (blockAndReady b e s t) (SsInv b k) := by
  obtain ⟨htr, ht⟩ := blocked_iff.mp htb
  have hg0 : Good (s.nullLinks t) := holds_nullLinks (s := s) hg fun a h1 => ht h1.1
  have hb0 : Base b e (s.nullLinks t) := hb.of_same rfl fun _ => rfl
  have hi0 : SsInv b (k + 2) (s.nullLinks t) := hi.same same_nullLinks
  unfold blockAndReady
  dsimp only
  split_ifs with hstop
  · have ha := after_setState hb0 hta htr (hg0.without ht) (by decide : ThState.stopped ≠ .ready)
    exact block_inv ha.good ha.base (hi0.same (same_setState _))
  · refine .bind (ssStopRunning_drop_inv hg0 hb0 hi0) fun s1 h1 => ?_
    replace h1 : SsInv b k (ssMarkActivation e s1 t) := h1.same same_ssMarkActivation
    split_ifs
    · exact .fails
    · exact .done (h1.same same_markRunning)
    · exact .bind selectThread_same fun _ h2 => .seq fun u _ =>
        .done (h1.same (((same_blockLink _).trans h2).trans same_markRunning))

theorem unready_inv {st : ThState} (hst : st ≠ .ready) : Ends (unready b e s t st) (SsInv b k) := by
  unfold unready
  split_ifs with hta
  · subst hta
    obtain ⟨hg1, hb1⟩ := blockActive hg hb hst
    exact .seq fun _ _ => block_inv hg1 hb1 (hi.same (same_setState _))
  · refine .seq fun _ _ => .bind (.guard (Same.refl _) fun _ => unlink_same) fun s1 h1 => .done ?_
    exact (hi.mono (by omega)).same (h1.trans (same_setState _))

theorem yieldDefault_inv : Ends (yieldDefault b e (adjustDrop b e) s) (SsInv b k) := by
  refine (yieldDefault_split hg hb).mono fun s' h => ?_
  rcases h with rfl | ⟨s1, s2, h1, ha, -, hs2, h2⟩
  · exact hi.mono (by omega)
  · exact (ssStopRunning_drop_inv ha.good ha.base (hi.same h1) _ hs2).same h2

omit hg hb hi in
theorem same_reschedLink : Same s (reschedLink b s t) := by
  unfold reschedLink
  have h1 : Same s (s.upd t (Thread.rrAddPreempt b)) := same_upd still_rrAddPreempt
  refine h1.trans (Same.trans (Same.trans ?_ same_dispatchSet) (same_setState _))
  split_ifs
  · exact (same_upd still_rrReset).trans (same_linkEnd _)
  · exact same_linkBeg _

theorem resched_inv : Ends (resched b e s) (SsInv b k) := by
  refine .seq fun s1 hs1 => ?_
  have ha := ssCheckExpiry_after adjustDrop_adj hg hb _ hs1
  refine .bind (ssAdjustLoop_adjusted _ ha.good ha.base (ssCheckExpiry_inv hg hb hi _ hs1)) fun ⟨n, s2⟩ h2 => ?_
  dsimp only
  split_ifs
  · exact .done h2.inv
  · exact .done h2.inv
  · refine .bind selectThread_same fun ⟨r, s3⟩ h3 => ?_
    cases r with
    | none => exact .done (h2.inv.same h3)
    | some u => exact .done (h2.inv.same (h3.trans (same_reschedLink.trans same_markRunning)))

end

/-! ## Runs -/

/-- The calls of a run: the sporadic functions themselves, and the operations of the
scheduler (sched_thread is one of them), which also make them. -/
inductive SsOp (τ : Type) where
  | update (t : τ) (drop : Bool)
  | adjust
  | block (t : τ) (preempted : Bool)
  | queue (t : τ)
  | cleanup (t : τ)
  | kernel (op : Op τ)

structure SsCall (τ : Type) where
  env : Env τ
  op : SsOp τ

variable (b) in
def ssStep (s : Sched τ) (c : SsCall τ) : Option (Sched τ) :=
  match c.op with
  | .update t drop => schedSsUpdate b (adjustDrop b c.env) s t drop
  | .adjust => do
    let (_, s) ← schedSsAdjust b c.env s
    some s
  | .block t preempted => schedSsBlock b (adjustDrop b c.env) s t preempted
  | .queue t => some (schedSsQueue c.env s t)
  | .cleanup t => schedSsCleanup b s t
  | .kernel op => step b s ⟨c.env, op⟩

variable (b) in
def ssRun : Sched τ → List (SsCall τ) → Option (Sched τ)
  | s, [] => some s
  | s, c :: cs => do
    let s ← ssStep b s c
    ssRun s cs

variable (b) in
/-- What the callers promise: the sporadic functions are called for sporadic threads, the
operations as `Ok` says, and the rest of the kernel leaves the policy, the saved priority
and the replenishment of every thread alone (not what it has consumed). -/
def SsOk (s : Sched τ) (c : SsCall τ) : Prop :=
  c.env.kernCpu < b.numProcessors ∧
  match c.op with
  | .update t _ | .block t _ | .queue t | .cleanup t => (s.th t).policy = .sporadic
  | .adjust => True
  | .kernel op => Ok b s ⟨c.env, op⟩ ∧
    match op with
    | .outside th _ _ => ∀ t, (th t).policy = (s.th t).policy ∧ (th t).ss.orgPriority = (s.th t).ss.orgPriority ∧
        (th t).ss.amount = (s.th t).ss.amount ∧ (th t).ss.replTime = (s.th t).ss.replTime
    | _ => True

/-- A release build has room for what the sporadic threads can be charged in one call. -/
def Room (b : Build) (s : Sched τ) : Prop :=
  b.debug = false → ∀ t, (s.th t).policy = .sporadic →
    (s.th t).ss.amount.toNat + 2 * (s.th t).ss.consumed.toNat < 2 ^ 64

variable (b) in
def SsOkAlong : Sched τ → List (SsCall τ) → Prop
  | _, [] => True
  | s, c :: cs => SsOk b s c ∧ ∀ s', ssStep b s c = some s' → SsOkAlong s' cs

variable (b) in
def RoomAlong : Sched τ → List (SsCall τ) → Prop
  | _, [] => True
  | s, c :: cs => Room b s ∧ ∀ s', ssStep b s c = some s' → RoomAlong s' cs

omit [DecidableEq τ] in
theorem SsInv.with_room (hi : SsInv b 0 s) (hr : Room b s) : SsInv b 2 s :=
  ⟨hi.sorted, hi.nodup, hi.mem, hi.head, hi.dropped, hi.sporadic, hr⟩

theorem step_ssInv {c : Call τ} (hv : Inv b s) (hok : Ok b s c) (hi : SsInv b 2 s)
    (hout : ∀ th next prev, c.op ≠ .outside th next prev) : Ends (step b s c) (SsInv b 0) := by
  obtain ⟨e, op⟩ := c
  obtain ⟨he, hok⟩ := hok
  have hg := hv.good
  have hb : Base b e s := hv.base he
  cases op with
  | ready t => exact readyDefault_inv hg hb hi (blocked_iff.mp hok.2).2
  | block st =>
    obtain ⟨hg1, hb1⟩ := blockActive hg hb (blocked_iff.mp hok).2
    exact block_inv hg1 hb1 (hi.same (same_setState _))
  | blockAndReady st t =>
    obtain ⟨hst, hta, htb⟩ := hok
    obtain ⟨hg1, hb1⟩ := blockActive hg hb (blocked_iff.mp hst).2
    have hsame : (s.setState (s.actives e.kernCpu) st).th t = s.th t := upd_off _ hta
    exact blockAndReady_inv hg1 hb1 (hi.same (same_setState _)) hta (by rw [hsame]; exact htb)
  | unready t st => exact unready_inv hg hb hi (blocked_iff.mp hok.1).2
  | yield => exact yieldDefault_inv hg hb hi
  | resched => exact resched_inv hg hb hi
  | adjust t prio inherit => exact (adjustPriority_inv hg hb hi).mono fun _ h => h.mono (by omega)
  | sched t req param => exact .bind (schedThread_inv hg hb hi) fun _ h => .done (h.mono (by omega))
  | outside th next prev => exact absurd rfl (hout th next prev)

theorem schedSsQueue_same (hp : (s.th t).policy = .sporadic) : Same s (schedSsQueue e s t) := by
  have : ssMarkActivation e s t = schedSsQueue e s t := if_pos hp
  rw [← this]
  exact same_ssMarkActivation

theorem ssStep_inv {c : SsCall τ} (hv : Inv b s) (hi : SsInv b 0 s) (hok : SsOk b s c) (hr : Room b s)
    (h : ssStep b s c = some s') : Inv b s' ∧ SsInv b 0 s' := by
  obtain ⟨e, op⟩ := c
  obtain ⟨he, hok⟩ := hok
  have hg := hv.good
  have hb : Base b e s := hv.base he
  have hrun : ActRun e s := hv.running _ he
  have hi2 := hi.with_room hr
  have hafter : ∀ t, After b e t s s' → Inv b s' := fun t ha => (ha.kept.ran (P := False) hrun False.elim).inv
  cases op with
  | update t drop =>
    exact ⟨hafter t (schedSsUpdate_after adjustDrop_adj hg hb _ h), schedSsUpdate_drop_inv hg hb hi2 hok _ h⟩
  | adjust =>
    obtain ⟨⟨n, s1⟩, hs1, h⟩ := bind_eq_some_iff.mp h
    cases h
    have hk := ssAdjustLoop_kept _ hg hb _ hs1
    exact ⟨(hk.ran (P := False) hrun False.elim).inv, (ssAdjustLoop_adjusted _ hg hb hi _ hs1).inv⟩
  | block t pre =>
    exact ⟨hafter t (schedSsBlock_after adjustDrop_adj hg hb _ h),
      ssStopRunning_drop_inv hg hb hi2 _ ((if_pos hok).trans h)⟩
  | queue t =>
    cases h
    have hm : ssMarkActivation e s t = schedSsQueue e s t := if_pos hok
    exact ⟨hafter t (hm ▸ ssMarkActivation_after hg hb), hi.same (schedSsQueue_same hok)⟩
  | cleanup t => exact ⟨hafter t (schedSsCleanup_after hg hb _ h), schedSsCleanup_inv hi _ h⟩
  | kernel op =>
    obtain ⟨hok, hout⟩ := hok
    refine ⟨step_inv hv hok h, ?_⟩
    by_cases hx : ∃ th next prev, op = .outside th next prev
    · obtain ⟨th, next, prev, rfl⟩ := hx
      cases h
      refine hi.of_eqs rfl rfl hout fun _ t _ => ?_
      have := (th t).ss.amount.toNat_lt
      change (th t).ss.amount.toNat + 0 * (th t).ss.consumed.toNat < 2 ^ 64
      omega
    · exact step_ssInv hv hok hi2 (fun th next prev h1 => hx ⟨th, next, prev, h1⟩) _ h

theorem ssRun_inv {cs : List (SsCall τ)} (hv : Inv b s) (hi : SsInv b 0 s) (hok : SsOkAlong b s cs)
    (hr : RoomAlong b s cs) (h : ssRun b s cs = some s') : Inv b s' ∧ SsInv b 0 s' := by
  induction cs generalizing s with
  | nil =>
    cases h
    exact ⟨hv, hi⟩
  | cons c cs ih =>
    obtain ⟨s1, hs1, h⟩ := bind_eq_some_iff.mp h
    obtain ⟨hv1, hi1⟩ := ssStep_inv hv hi hok.1 hr.1 hs1
    exact ih hv1 hi1 (hok.2 s1 hs1) (hr.2 s1 hs1) h

/-! ## Runs that can be evaluated -/

instance instDecidableSsOk [Fintype τ] (b : Build) (s : Sched τ) (c : SsCall τ) : Decidable (SsOk b s c) := by
  unfold SsOk
  cases c.op with
  | kernel op => cases op <;> infer_instance
  | _ => infer_instance

instance instDecidableSsOkAlong [Fintype τ] (b : Build) (s : Sched τ) (cs : List (SsCall τ)) :
    Decidable (SsOkAlong b s cs) :=
  Run.decidableAlong (fun _ => trivial) (fun _ _ _ => .rfl) s cs

instance instDecidableRoom [Fintype τ] (b : Build) (s : Sched τ) : Decidable (Room b s) := by
  unfold Room
  infer_instance

instance instDecidableRoomAlong [Fintype τ] (b : Build) (s : Sched τ) (cs : List (SsCall τ)) :
    Decidable (RoomAlong b s cs) :=
  Run.decidableAlong (P := fun s _ => Room b s) (fun _ => trivial) (fun _ _ _ => .rfl) s cs

/-- A sporadic thread that runs and has consumed `c`, and a blocked one of its priority. -/
def server (c : UInt64) : Sched (Fin 2) where
  disp := emptyDisp
  th t := match t with
    | 0 => sample .running 20 .sporadic { SsInfo.zero with
        lowPriority := 5, maxRepl := 60000, replPeriod := 100, initBudget := 50, currBudget := 50, consumed := c }
    | 1 => sample .receive 20 .rr .zero
  actives _ := 0
  replenishList := []
  replenishTime := 0

theorem server_inv (c : UInt64) (d : Bool) : Inv ⟨false, d, 1, 4, 64⟩ (server c) ∧ SsInv ⟨false, d, 1, 4, 64⟩ 0 (server c) := by
  have hth : ∀ t, ((server c).th t).state ≠ .ready ∧ ((server c).th t).ss.amount = 0 ∧
      ((server c).th t).ss.orgPriority = 0 := by
    intro t
    match t with
    | 0 => exact ⟨(by decide : ThState.running ≠ .ready), rfl, rfl⟩
    | 1 => exact ⟨(by decide : ThState.receive ≠ .ready), rfl, rfl⟩
  refine ⟨⟨holds_emptyDisp fun t p h => (hth t).1 h.1, fun c' _ => rfl, ?_⟩, List.Pairwise.nil, nodup_nil,
    ?_, ?_, ?_, ?_, ?_⟩
  · intro c1 h1 c2 h2 _
    change c1 < 1 at h1
    change c2 < 1 at h2
    omega
  · intro t
    rw [(hth t).2.1]
    exact iff_of_false not_mem_nil fun h => h rfl
  · intro t ht
    cases ht
  · exact fun t ht => absurd (hth t).2.2 ht
  · intro t ht
    cases ht
  · intro _ t _
    rw [(hth t).2.1]
    simp

/-- A scheduler operation, and a call of sched_ss_adjust at a time, on processor 0. -/
def op0 (op : Op τ) : SsCall τ := ⟨(call0 op).env, .kernel op⟩
def adjustAt (now : UInt64) : SsCall τ := ⟨⟨0, fun _ => now, true, false, 8⟩, .adjust⟩

/-- The bound on the loop, the length of the list, never ends it. -/
theorem ssAdjustLoop_fuel (n : Nat) (s : Sched τ) (hg : Good s) (hb : Base b e s) (hi : SsInv b k s)
    (hn : s.replenishList.length ≤ n) : ssAdjustLoop b e n s = schedSsAdjust b e s := by
  induction n generalizing s with
  | zero => rw [schedSsAdjust, Nat.le_zero.mp hn]
  | succ n ih =>
    rw [schedSsAdjust]
    unfold ssAdjustLoop
    cases hl : s.replenishList with
    | nil => rfl
    | cons t rest =>
      dsimp only [length_cons]
      split_ifs
      · cases hs1 : ssAdjustTurn b e s t rest with
        | none => rfl
        | some r =>
          have hk := ssAdjustTurn_kept hg hb _ hs1
          have ht := ssAdjustTurn_spec hg hb (hi.sporadic t (by simp [hl])) _ hs1
          have hrest := ih r.2 hk.good hk.base (ht.inv hi hl) (by simpa [ht.list, hl] using hn)
          rw [schedSsAdjust, ht.list] at hrest
          simp only [Option.bind_eq_bind, Option.bind_some, hrest]
      · rfl

theorem ssAdjustLoop_fuel_server : ∃ s, ssRun upBuild (server 7) [op0 (.ready 1), op0 .yield] = some s ∧
    ssAdjustLoop upBuild (adjustAt 900).env 9 s = schedSsAdjust upBuild (adjustAt 900).env s := by
  refine Run.exists_of_isSome (by decide +kernel) fun s h => ?_
  obtain ⟨hv, hi⟩ := ssRun_inv (server_inv 7 true).1 (server_inv 7 true).2 (by decide +kernel) (by decide +kernel) h
  exact ssAdjustLoop_fuel 9 s hv.good (hv.base Nat.one_pos) hi (hi.nodup.length_le_card.trans (by decide))

/-! ## The result -/

/-- **The list of replenishments is right in every state a run reaches**: sorted by time,
each thread on it once and exactly when it has an amount, `ss_replenish_time` the time of
its head, and every dropped thread on it; so the next sched_ss_adjust behind the time of a
dropped thread gives it its priority back. The run may make any calls in any order; a
release build needs room for the amounts. -/
theorem replenish_run (b : Build) (s s' : Sched τ) (cs : List (SsCall τ)) (hv : Inv b s) (hi : SsInv b 0 s)
    (hok : SsOkAlong b s cs) (hr : RoomAlong b s cs) (h : ssRun b s cs = some s') :
    s'.replenishList.Pairwise (fun t u => (s'.th t).ss.replTime ≤ (s'.th u).ss.replTime) ∧
    (∀ t, s'.replenishList.count t = if (s'.th t).ss.amount ≠ 0 then 1 else 0) ∧
    (∀ t ∈ s'.replenishList.head?, s'.replenishTime = (s'.th t).ss.replTime) ∧
    (∀ t, (s'.th t).ss.orgPriority ≠ 0 → t ∈ s'.replenishList) ∧
    ∀ (e : Env τ) n s'', e.kernCpu < b.numProcessors → schedSsAdjust b e s' = some (n, s'') →
      ∀ t, (s'.th t).ss.orgPriority ≠ 0 → (s'.th t).ss.replTime ≤ e.snap none →
        (s''.th t).ss.orgPriority = 0 ∧ (s''.th t).realPriority = (s'.th t).ss.orgPriority := by
  obtain ⟨hv', hi'⟩ := ssRun_inv hv hi hok hr h
  refine ⟨hi'.sorted, fun t => ?_, hi'.head, hi'.dropped, fun e n s'' he hadj => ?_⟩
  · split_ifs with ha
    · exact count_eq_one_of_mem hi'.nodup ((hi'.mem t).mpr ha)
    · exact count_eq_zero_of_not_mem ((hi'.mem t).not.mpr ha)
  · exact (ssAdjustLoop_adjusted _ hv'.good (hv'.base he) hi' _ hadj).back

/-- With the debug checks, and in a release build, where the amounts have to stay below their room. -/
theorem replenish_run_server :
    (∃ s', ssRun upBuild (server 7)
        [op0 (.ready 1), op0 .yield, adjustAt 50, op0 .yield, op0 .yield, adjustAt 300] = some s' ∧
      ∀ t, s'.replenishList.count t = if (s'.th t).ss.amount ≠ 0 then 1 else 0) ∧
    ∃ s', ssRun ⟨false, false, 1, 4, 64⟩ (server 7)
        [op0 (.ready 1), op0 .yield, adjustAt 50, op0 .yield, op0 .yield, adjustAt 300] = some s' ∧
      ∀ t, s'.replenishList.count t = if (s'.th t).ss.amount ≠ 0 then 1 else 0 :=
  ⟨Run.exists_of_isSome (by decide +kernel) fun _ h =>
      (replenish_run _ _ _ _ (server_inv 7 true).1 (server_inv 7 true).2 (by decide +kernel) (by decide +kernel) h).2.1,
    Run.exists_of_isSome (by decide +kernel) fun _ h =>
      (replenish_run _ _ _ _ (server_inv 7 false).1 (server_inv 7 false).2 (by decide +kernel) (by decide +kernel) h).2.1⟩

/-- The same thread in a release build, when it has consumed 2^63 ns: two yields add up to an
amount of zero, and its replenishment is still on the list. With another yield it is
linked twice. -/
theorem replenish_run_wraps :
    SsOkAlong ⟨false, false, 1, 4, 64⟩ (server (2 ^ 63)) [op0 (.ready 1), op0 .yield, op0 .yield, op0 .yield] ∧
    (ssRun ⟨false, false, 1, 4, 64⟩ (server (2 ^ 63)) [op0 (.ready 1), op0 .yield, op0 .yield, op0 .yield]).map
      (fun s => (s.replenishList, (s.th 0).ss.amount)) = some ([0], 0) ∧
    (ssRun ⟨false, false, 1, 4, 64⟩ (server (2 ^ 63))
      [op0 (.ready 1), op0 .yield, op0 .yield, op0 .yield, op0 .yield, op0 .yield]).map
      (fun s => s.replenishList) = some [0, 0] :=
  ⟨by decide +kernel, by decide +kernel, by decide +kernel⟩

end QRV.Nano.Sched
