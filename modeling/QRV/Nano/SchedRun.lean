import QRV.Lib.Run
import QRV.Nano.SchedBlock

/- The scheduler over whole runs.

   `Inv b s` is the invariant between two kernel calls: the table describes exactly
   the READY threads, and the active threads run and are distinct. Every operation
   keeps it (`step_inv`), in the uniprocessor and in the SMP variant, with and
   without the debug checks; so it holds after every run (`run_inv`).

   `dispatch_run` reads it out: links, tails and bits of every ready list, and the
   result of DISPATCH_HIGHEST_PRI. `highest_run` is the order of the priorities on a
   uniprocessor, for the runs that avoid the short cut of block_and_ready;
   `highest_run_breaks` is one that does not.

   The depth of the calls between adjust_priority and sched_ss_update does not matter
   beyond two (`adjustPriority_depth`). -/
namespace QRV.Nano.Sched

open LinkCell Dispatch Option

variable {τ : Type} {b : Build} {e : Env τ} {s s' s'' : Sched τ} {t : τ}

/-! ## One operation -/

/-- What holds between two kernel calls. -/
structure Inv (b : Build) (s : Sched τ) : Prop where
  good : Good s
  running : ∀ c < b.numProcessors, (s.th (s.actives c)).state = .running
  apart : ∀ c < b.numProcessors, ∀ c' < b.numProcessors, s.actives c = s.actives c' → c = c'

theorem Inv.base (h : Inv b s) (he : e.kernCpu < b.numProcessors) : Base b e s where
  others c hc _ := h.running c hc
  distinct c hc hce heq := hce (h.apart c hc _ he heq)
  apart c hc c' hc' _ _ heq := h.apart c hc c' hc' heq
  active := by
    rw [h.running _ he]
    decide

theorem Ran.inv {P : Prop} (h : Ran b e P s s') : Inv b s' where
  good := h.good
  running := by
    intro c hc
    by_cases hce : c = e.kernCpu
    · rw [hce]
      exact h.act
    · exact h.base.others c hc hce
  apart := by
    intro c hc c' hc' heq
    by_cases hce : c = e.kernCpu
    · by_cases hce' : c' = e.kernCpu
      · rw [hce, hce']
      · exact absurd (hce ▸ heq.symm) (h.base.distinct c' hc' hce')
    · by_cases hce' : c' = e.kernCpu
      · exact absurd (hce' ▸ heq) (h.base.distinct c hc hce)
      · exact h.base.apart c hc c' hc' hce hce' heq

/-- The rest of the kernel does not touch what the scheduler keeps. -/
theorem outside_inv {th : τ → Thread} {next : τ → Option τ} {prev : τ → Option (Cell Nat τ)} (hi : Inv b s)
    (hth : ∀ t, (th t).state = (s.th t).state ∧ (th t).priority = (s.th t).priority)
    (hlink : ∀ t, (s.th t).state = .ready → next t = s.disp.link (.next t) ∧ prev t = s.disp.prev t) :
    Inv b (s.outside th next prev) where
  good := by
    have h1 : (s.outside th next prev).disp.Holds (Listed s.th) none :=
      Holds.off hi.good (fun _ => rfl) (fun u a hu => (hlink u hu.1).1) (fun u a hu => (hlink u hu.1).2) rfl rfl rfl rfl
    refine h1.congr fun u a => ?_
    change Listed s.th u a ↔ Listed th u a
    rw [Listed, Listed, (hth u).1, (hth u).2]
  running c hc := (hth _).1.trans (hi.running c hc)
  apart := hi.apart

variable [DecidableEq τ]

/-- The step does not take the short cut of block_and_ready past a higher READY thread.
The rest of the kernel leaves the masks a uniprocessor can have: set_runmask refuses
one without its processor. -/
def Straight (s : Sched τ) (c : Call τ) : Prop :=
  match c.op with
  | .blockAndReady _ t => ¬Shortcut s (s.actives c.env.kernCpu) t
  | .outside th _ _ => ∀ t, (th t).runsOn c.env.kernCpu = true
  | _ => True

/-- No step of the run takes the short cut. -/
def StraightAlong (b : Build) : Sched τ → List (Call τ) → Prop
  | _, [] => True
  | s, c :: cs => Straight s c ∧ ∀ s', step b s c = some s' → StraightAlong b s' cs

/-- A uniprocessor runs the highest thread, and every thread may run there. -/
structure Highest (cpu : Nat) (s : Sched τ) : Prop where
  top : ∀ u, (s.th u).state = .ready → (s.th u).priority ≤ (s.th (s.actives cpu)).priority
  mask : ∀ u, (s.th u).runsOn cpu = true

/-- The active thread has just been blocked: the READY threads are as before. -/
theorem blocked_top {a : τ} (ha : s.actives e.kernCpu = a) {st : ThState} (hst : st.blocked) :
    (Top e s → Top e (s.setState a st)) ∧ ¬ActRun e (s.setState a st) ∧
    (Shortcut (s.setState a st) a t → t ≠ a → Shortcut s a t) := by
  obtain ⟨hstr, hsty⟩ := blocked_iff.mp hst
  have hact : (s.setState a st).th a = { s.th a with state := st } := upd_self _
  have hready : ∀ u, ((s.setState a st).th u).state = .ready →
      (s.th u).state = .ready ∧ ((s.setState a st).th u).priority = (s.th u).priority := by
    intro u hu
    by_cases hua : u = a
    · rw [hua, hact] at hu
      exact absurd hu hsty
    · rw [setState, upd_off _ hua] at hu ⊢
      exact ⟨hu, rfl⟩
  refine ⟨fun htop u hu => ?_, ?_, ?_⟩
  · obtain ⟨h1, h2⟩ := hready u hu
    have h3 := htop u h1
    change _ ≤ ((s.setState a st).th (s.actives e.kernCpu)).priority
    rw [ha] at h3 ⊢
    rw [h2, hact]
    exact h3
  · change ((s.setState a st).th (s.actives e.kernCpu)).state ≠ .running
    rw [ha, hact]
    exact hstr
  · rintro ⟨h1, h2, h3, v, hv, hlt⟩ hta
    have ht : (s.setState a st).th t = s.th t := upd_off _ hta
    unfold Drops at h2
    rw [ht] at h1 h3 hlt
    rw [hact] at h2 h3
    obtain ⟨h4, h5⟩ := hready v hv
    rw [h5] at hlt
    exact ⟨h1, h2, h3, v, h4, hlt⟩

/-- Every operation leaves the table right and a running thread; on a uniprocessor the
highest one, unless it takes the short cut. -/
theorem step_ran {c : Call τ} (hi : Inv b s) (hok : Ok b s c) (hout : ∀ th next prev, c.op ≠ .outside th next prev)
    (h : step b s c = some s') :
    Ran b c.env (Highest c.env.kernCpu s ∧ Straight s c) s s' := by
  obtain ⟨e, op⟩ := c
  obtain ⟨he, hok⟩ := hok
  have hg := hi.good
  have hb : Base b e s := hi.base he
  have hrun : ActRun e s := hi.running _ he
  cases op with
  | ready t =>
    obtain ⟨htr, hty⟩ := blocked_iff.mp hok.2
    have := readyDefault_after adjustDrop_adj hb hok.1 htr (hg.without hty) (fun _ => hty) _ h
    exact this.kept.ran hrun fun h => h.1.top
  | block st =>
    obtain ⟨hg1, hb1⟩ := blockActive hg hb (blocked_iff.mp hok).2
    exact (block_ran hg1 hb1 _ h).weaken (upd_mask rfl fun _ => rfl) fun _ _ => trivial
  | blockAndReady st t =>
    obtain ⟨hst, hta, htb⟩ := hok
    obtain ⟨hg1, hb1⟩ := blockActive hg hb (blocked_iff.mp hst).2
    obtain ⟨htop, hblk, hcut⟩ := blocked_top (t := t) rfl hst
    have hsame : (s.setState (s.actives e.kernCpu) st).th t = s.th t := upd_off _ hta
    have hran := blockAndReady_ran hg1 hb1 hta (by rw [hsame]; exact htb) _ h
    exact hran.weaken (upd_mask rfl fun _ => rfl) fun _ hp =>
      ⟨htop hp.1.top, hblk, fun h1 => hp.2 (hcut h1 hta)⟩
  | unready t st =>
    rcases unready_ran hg hb hok.1 hok.2 _ h with hran | hafter
    · exact hran.weaken (fun _ => rfl) fun _ _ => trivial
    · exact hafter.kept.ran hrun fun h => h.1.top
  | yield => exact (yieldDefault_after adjustDrop_adj hg hb _ h).kept.ran hrun fun h => h.1.top
  | resched =>
    exact (resched_ran hg hb hrun _ h).weaken (fun _ => rfl) fun _ hp => ⟨hp.1.top, hp.1.mask⟩
  | adjust t prio inherit =>
    exact (adjustPriority_after 2 hg hb _ h).kept.ran hrun fun h => h.1.top
  | sched t req param =>
    obtain ⟨⟨err, s1⟩, hs1, h⟩ := bind_eq_some_iff.mp h
    cases h
    exact (schedThread_after hg hb _ hs1).kept.ran hrun fun h => h.1.top
  | outside th next prev => exact absurd rfl (hout th next prev)

theorem step_inv {c : Call τ} (hi : Inv b s) (hok : Ok b s c) (h : step b s c = some s') : Inv b s' := by
  by_cases hout : ∃ th next prev, c.op = .outside th next prev
  · obtain ⟨e, op⟩ := c
    obtain ⟨th, next, prev, rfl⟩ := hout
    cases h
    exact outside_inv hi hok.2.1 hok.2.2
  · exact (step_ran hi hok (fun th next prev h1 => hout ⟨th, next, prev, h1⟩) h).inv

theorem run_inv {cs : List (Call τ)} (hi : Inv b s) (hok : OkAlong b s cs) (h : run b s cs = some s') :
    Inv b s' := by
  induction cs generalizing s with
  | nil =>
    cases h
    exact hi
  | cons c cs ih =>
    obtain ⟨s1, hs1, h⟩ := bind_eq_some_iff.mp h
    exact ih (step_inv hi hok.1 hs1) (hok.2 s1 hs1) h

/-! ## Runs that can be evaluated -/

instance instDecidableOk [Fintype τ] (b : Build) (s : Sched τ) (c : Call τ) : Decidable (Ok b s c) := by
  unfold Ok
  cases c.op <;> infer_instance

instance instDecidableOkAlong [Fintype τ] (b : Build) (s : Sched τ) (cs : List (Call τ)) : Decidable (OkAlong b s cs) :=
  Run.decidableAlong (fun _ => trivial) (fun _ _ _ => .rfl) s cs

instance instDecidableStraight [Fintype τ] (s : Sched τ) (c : Call τ) : Decidable (Straight s c) := by
  unfold Straight Shortcut Drops
  cases c.op <;> infer_instance

instance instDecidableStraightAlong [Fintype τ] (b : Build) (s : Sched τ) (cs : List (Call τ)) :
    Decidable (StraightAlong b s cs) :=
  Run.decidableAlong (fun _ => trivial) (fun _ _ _ => .rfl) s cs

/-- A table without threads. -/
def emptyDisp : Dispatch τ := ⟨fun _ => none, fun _ => none, fun _ => none, 0#8, fun _ => 0#8, fun _ _ => 0#8⟩

omit [DecidableEq τ] in
theorem holds_emptyDisp {M : τ → Nat → Prop} (hM : ∀ t p, ¬M t p) : (emptyDisp : Dispatch τ).Holds M none := by
  refine ⟨fun _ => [], ⟨fun _ => rfl, fun _ => trivial, fun _ => rfl, ?_⟩, ?_, ?_, ?_, ?_⟩
  · intro p p' t h
    cases h
  · simp [hM]
  · simp [emptyDisp, hM]
  · simp [emptyDisp]
  · simp [emptyDisp]

/-- A thread of the examples. -/
def sample (st : ThState) (p : Prio) (policy : Policy) (ss : SsInfo) : Thread :=
  ⟨st, p, p, policy, 0#32, 0, 0, ss, false, false, false, false, false, false, false⟩

/-- An idle thread, a sporadic server of priority 20 (low 5, one replenishment) and two
round robin threads of priority 15 and 10, all three waiting for a message. -/
def fourThreads : Sched (Fin 4) where
  disp := emptyDisp
  th t := match t with
    | 0 => sample .running 0 .fifo .zero
    | 1 => sample .receive 20 .sporadic { SsInfo.zero with lowPriority := 5, maxRepl := 1, replPeriod := 100, initBudget := 10, currBudget := 10 }
    | 2 => sample .receive 15 .rr .zero
    | 3 => sample .receive 10 .rr .zero
  actives _ := 0
  replenishList := []
  replenishTime := 0

/-- A uniprocessor with the debug checks. -/
def upBuild : Build := ⟨false, true, 1, 4, 64⟩

/-- A call on processor 0. -/
def call0 (op : Op τ) : Call τ := ⟨⟨0, fun _ => 5, true, false, 8⟩, op⟩

theorem fourThreads_inv : Inv upBuild fourThreads ∧ Highest 0 fourThreads := by
  refine ⟨⟨holds_emptyDisp ?_, ?_, ?_⟩, ?_, ?_⟩
  · rintro t p ⟨h, -⟩
    revert t
    decide
  · intro c _
    rfl
  · intro c hc c' hc' _
    change c < 1 at hc
    change c' < 1 at hc'
    omega
  · decide
  · decide

/-! ## The dispatch table -/

/-- The table describes the relation `M` in every word: the links, tails and back links of
the lists `q`, each thread once and only where `M` has it, the bits of all three levels,
and the highest priority. -/
structure Table (d : Dispatch τ) (M : τ → Nat → Prop) (q : Nat → List τ) : Prop where
  chain : ∀ p, Chain d.link (.head p) (q p)
  back : ∀ p, Back some d.prev (.head p) (q p)
  tail : ∀ p, d.tail p = (q p).getLast?
  once : ∀ t p, M t p → (q p).count t = 1
  only : ∀ t p, ¬M t p → t ∉ q p
  lo : ∀ p, d.isset p = true ↔ q p ≠ []
  mid : ∀ h m, m < 8 → ((d.mid h).getLsbD m = true ↔ ∃ l < 8, q (h * 64 + m * 8 + l) ≠ [])
  hi : ∀ h < 8, (d.hi.getLsbD h = true ↔ ∃ m < 8, ∃ l < 8, q (h * 64 + m * 8 + l) ≠ [])
  highest : ∀ p < 256, q p ≠ [] → q d.highestPri ≠ [] ∧ p ≤ d.highestPri

theorem Holds.table {d : Dispatch τ} {M : τ → Nat → Prop} (h : d.Holds M none) : ∃ q, Table d M q := by
  obtain ⟨q, hl, hm, hb⟩ := h
  have hne : ∀ p, ((∃ t, M t p) ∨ (none : Option Nat) = some p) ↔ q p ≠ [] := by
    intro p
    rw [ne_eq, List.eq_nil_iff_forall_not_mem]
    simp [hm]
  have hlo : ∀ h m, m < 8 → (d.lo h m ≠ 0#8 ↔ ∃ l < 8, q (h * 64 + m * 8 + l) ≠ []) := by
    intro h m hm8
    calc d.lo h m ≠ 0#8 ↔ ∃ l < 8, (d.lo h m).getLsbD l = true := ne_zero_iff _
      _ ↔ ∃ l < 8, q (h * 64 + m * 8 + l) ≠ [] :=
        exists_congr fun l => and_congr_right fun hl8 => (hb.lo h m l hm8 hl8).trans (hne _)
  have hmid : ∀ h, d.mid h ≠ 0#8 ↔ ∃ m < 8, ∃ l < 8, q (h * 64 + m * 8 + l) ≠ [] := by
    intro h
    calc d.mid h ≠ 0#8 ↔ ∃ m < 8, (d.mid h).getLsbD m = true := ne_zero_iff _
      _ ↔ ∃ m < 8, ∃ l < 8, q (h * 64 + m * 8 + l) ≠ [] :=
        exists_congr fun m => and_congr_right fun hm8 => (hb.mid h m hm8).trans (hlo h m hm8)
  refine ⟨q, hl.chain, hl.back, hl.tail, ?_, fun t p h1 => (hm t p).not.mpr h1, ?_, ?_, ?_, ?_⟩
  · intro t p h1
    exact List.count_eq_one_of_mem (hl.nodup p) ((hm t p).mpr h1)
  · intro p
    have hp : hiOf p * 64 + midOf p * 8 + loOf p = p := (index_eq (midOf_lt p) (loOf_lt p)).mpr ⟨rfl, rfl, rfl⟩
    have := hb.lo (hiOf p) (midOf p) (loOf p) (midOf_lt p) (loOf_lt p)
    rw [hp] at this
    exact this.trans (hne p)
  · exact fun h m hm8 => (hb.mid h m hm8).trans (hlo h m hm8)
  · exact fun h h8 => (hb.hi h h8).trans (hmid h)
  · intro p hp hq
    obtain ⟨h1, h2⟩ := highestPri_spec hb hp ((hne p).mpr hq)
    exact ⟨(hne _).mp h1, h2⟩

/-- **The dispatch table is consistent in every state a run reaches.** From a state in which
it is, any sequence of operations, called as promised, leaves every READY thread once on
the list of its priority and no other thread on any list; links, tails, back links and
the three levels of bits agree with the lists. A call of select_thread there takes the
thread it returns off its list and leaves the rest as consistent as before. -/
theorem dispatch_run (b : Build) (s s' : Sched τ) (cs : List (Call τ)) (hi : Inv b s) (hok : OkAlong b s cs)
    (h : run b s cs = some s') :
    (∃ q, Table s'.disp (fun t p => (s'.th t).state = .ready ∧ (s'.th t).priority.val = p) q) ∧
    ∀ e prio r s'', selectThread b e s' prio = some (r, s'') →
      s''.th = s'.th ∧
      ∃ q, Table s''.disp
        (fun t p => ((s'.th t).state = .ready ∧ (s'.th t).priority.val = p) ∧ some t ≠ r) q := by
  have hg : Good s' := (run_inv hi hok h).good
  refine ⟨Holds.table hg, fun e prio r s'' hsel => ?_⟩
  rcases selectThread_spec hg hsel with ⟨rfl, rfl⟩ | ⟨u, rfl, hk⟩
  · refine ⟨rfl, Holds.table (hg.congr fun t p => ?_)⟩
    simp [Listed]
  · obtain ⟨d, hd⟩ := hk.same
    refine ⟨by rw [hd], Holds.table (hk.holds.congr fun t p => ?_)⟩
    simp [Without, Listed]

theorem dispatch_run_four : ∃ s', run upBuild fourThreads [call0 (.ready 2), call0 (.ready 1),
      call0 (.blockAndReady .reply 3), call0 .yield, call0 (.adjust 2 30 false)] = some s' ∧
    ∃ q, Table s'.disp (fun t p => (s'.th t).state = .ready ∧ (s'.th t).priority.val = p) q := by
  exact Run.exists_of_isSome (by decide +kernel) fun _ h =>
    (dispatch_run _ _ _ _ fourThreads_inv.1 (by decide +kernel) h).1

/-! ## The highest priority -/

theorem step_highest {c : Call τ} (hb : b.smp = false) (hi : Inv b s) (hok : Ok b s c)
    (hh : Highest c.env.kernCpu s) (hc : Straight s c) (h : step b s c = some s') :
    Highest c.env.kernCpu s' := by
  by_cases hout : ∃ th next prev, c.op = .outside th next prev
  · obtain ⟨e, op⟩ := c
    obtain ⟨th, next, prev, rfl⟩ := hout
    cases h
    refine ⟨fun u hu => ?_, hc⟩
    have hth := hok.2.1
    change (th u).state = .ready at hu
    change (th u).priority ≤ (th (s.actives e.kernCpu)).priority
    rw [(hth u).1] at hu
    rw [(hth u).2, (hth _).2]
    exact hh.top u hu
  · have hran := step_ran hi hok (fun th next prev h1 => hout ⟨th, next, prev, h1⟩) h
    refine ⟨hran.top hb ⟨hh, hc⟩, fun u => ?_⟩
    unfold Thread.runsOn
    rw [hran.mask u]
    exact hh.mask u

theorem run_highest {cs : List (Call τ)} (hb : b.smp = false) (hn : b.numProcessors = 1) (hi : Inv b s)
    (hh : Highest 0 s) (hok : OkAlong b s cs) (hc : StraightAlong b s cs) (h : run b s cs = some s') :
    Highest 0 s' := by
  induction cs generalizing s with
  | nil =>
    cases h
    exact hh
  | cons c cs ih =>
    obtain ⟨s1, hs1, h⟩ := bind_eq_some_iff.mp h
    have hcpu : c.env.kernCpu = 0 := by
      have := hok.1.1
      omega
    refine ih (step_inv hi hok.1 hs1) ?_ (hok.2 s1 hs1) (hc.2 s1 hs1) h
    rw [← hcpu] at hh ⊢
    exact step_highest hb hi hok.1 hh hc.1 hs1

/-- **A uniprocessor runs the highest thread.** In every run of the uniprocessor variant
whose steps avoid the short cut of block_and_ready, the running thread has at least the
priority of every READY thread, if it has it at the start. -/
theorem highest_run (b : Build) (hb : b.smp = false) (hn : b.numProcessors = 1) (s s' : Sched τ)
    (cs : List (Call τ)) (hi : Inv b s) (hh : Highest 0 s) (hok : OkAlong b s cs) (hc : StraightAlong b s cs)
    (h : run b s cs = some s') :
    (s'.th (s'.actives 0)).state = .running ∧
      ∀ u, (s'.th u).state = .ready → (s'.th u).priority ≤ (s'.th (s'.actives 0)).priority :=
  ⟨(run_inv hi hok h).running 0 (by omega), (run_highest hb hn hi hh hok hc h).top⟩

theorem highest_run_four : ∃ s', run upBuild fourThreads [call0 (.ready 2), call0 (.ready 3), call0 (.ready 1),
      call0 (.block .receive)] = some s' ∧
    ∀ u, (s'.th u).state = .ready → (s'.th u).priority ≤ (s'.th (s'.actives 0)).priority := by
  exact Run.exists_of_isSome (by decide +kernel) fun _ h =>
    (highest_run _ rfl rfl _ _ _ fourThreads_inv.1 fourThreads_inv.2 (by decide +kernel) (by decide +kernel) h).2

/-- The short cut: the sporadic thread is charged for blocking and drops to its low priority
5 before block_and_ready compares, so the thread of priority 10 that it unblocks runs,
although one of priority 15 is READY. -/
theorem highest_run_breaks :
    Inv upBuild fourThreads ∧ Highest 0 fourThreads ∧
    OkAlong upBuild fourThreads [call0 (.ready 2), call0 (.ready 1), call0 (.blockAndReady .reply 3)] ∧
    (run upBuild fourThreads [call0 (.ready 2), call0 (.ready 1), call0 (.blockAndReady .reply 3)]).map
      (fun s => (s.actives 0, (s.th 3).priority, (s.th 2).state, (s.th 2).priority)) =
      some (3, 10, .ready, 15) :=
  ⟨fourThreads_inv.1, fourThreads_inv.2, by decide +kernel, by decide +kernel⟩

/-! ## The bounds of the model

Inside adjust_priority only yield_default charges a thread that blocks, and by then the
thread is off the processor: the second adjust_priority does not charge again. -/

section Depth
variable (adjust adjust' : Sched τ → τ → Prio → Option (Sched τ))

theorem readyRun_free : readyRun b e adjust s t = readyRun b e adjust' s t := by
  unfold readyRun
  simp only [ssStopRunning_preempted]

theorem readyDefault_free (hb : b.smp = true) : readyDefault b e adjust s t = readyDefault b e adjust' s t := by
  unfold readyDefault readyExpiry readyPlace
  simp only [hb, if_true, readyRun_free adjust adjust']

theorem adjustReady_free (p : Prio) : adjustReady b e adjust s t p = adjustReady b e adjust' s t p := by
  unfold adjustReady
  by_cases hb : b.smp
  · simp only [hb, if_true, readyDefault_free adjust adjust' hb]
  · simp only [hb, Bool.false_eq_true, if_false, ssStopRunning_preempted]

theorem adjustRunning_free (p : Prio) (inherit : Bool) :
    adjustRunning b e adjust s t p inherit = adjustRunning b e adjust' s t p inherit := by
  unfold adjustRunning
  simp only [ssStopRunning_preempted]

theorem adjustBody_free (ht : t ≠ s.actives e.kernCpu) (p : Prio) (inherit : Bool) :
    adjustBody b e adjust s t p inherit = adjustBody b e adjust' s t p inherit := by
  unfold adjustBody
  rw [if_neg ht, if_neg ht, adjustReady_free adjust adjust', adjustRunning_free adjust adjust']

theorem ssStopRunning_congr {pre : Bool}
    (h : ∀ s' p, s'.actives = s.actives → adjust s' t p = adjust' s' t p) :
    ssStopRunning b adjust s t pre = ssStopRunning b adjust' s t pre := by
  unfold ssStopRunning schedSsBlock schedSsUpdate ssDrop
  dsimp only
  rw [h _ _ ((upd_actives _).trans ssCharge_actives)]

/-- yield_default calls it for a thread that has left the processor. -/
theorem yieldDefault_congr (hg : Good s) (hb : Base b e s)
    (h : ∀ s' t p, t ≠ s'.actives e.kernCpu → adjust s' t p = adjust' s' t p) :
    yieldDefault b e adjust s = yieldDefault b e adjust' s := by
  unfold yieldDefault
  simp only [bind_eq_bind]
  cases hr : yieldTo b e s (s.th (s.actives e.kernCpu)).priority with
  | none => rfl
  | some r =>
    rw [bind_some, bind_some]
    cases r with
    | none => rfl
    | some u =>
      have hu : s.actives e.kernCpu ≠ u := fun h1 => hb.active (h1 ▸ (yieldTo_listed hg hr).1)
      dsimp only
      congr 1
      funext s1
      rw [ssStopRunning_congr adjust adjust' fun s' p hs' => h s' _ p ?_]
      rw [hs', markRunning_actives, Function.update_self]
      exact hu

end Depth

/-- Two levels of calls are all there is. -/
theorem adjustPriority_depth (hg : Good s) (hb : Base b e s) (n : Nat) (p : Prio) (inherit : Bool) :
    adjustPriority b e (n + 2) s t p inherit = adjustPriority b e 2 s t p inherit := by
  have hone : ∀ s' t' p', t' ≠ s'.actives e.kernCpu →
      adjustPriority b e (n + 1) s' t' p' false = adjustPriority b e 1 s' t' p' false :=
    fun s' t' p' ht' => adjustBody_free _ _ ht' p' false
  by_cases ht : t = s.actives e.kernCpu
  · change adjustBody b e (fun s t p => adjustPriority b e (n + 1) s t p false) s t p inherit =
      adjustBody b e (fun s t p => adjustPriority b e 1 s t p false) s t p inherit
    unfold adjustBody
    rw [yieldDefault_congr _ _ hg hb hone, adjustReady_free _ (fun s t p => adjustPriority b e 1 s t p false),
      adjustRunning_free _ (fun s t p => adjustPriority b e 1 s t p false)]
  · exact adjustBody_free _ _ ht p inherit

/-- The sporadic server runs and a thread of its priority is READY: its own adjust_priority makes it
yield, the yield uses up its one replenishment, and the second adjust_priority takes it to priority 5. -/
theorem adjustPriority_depth_four : ∃ s, run upBuild fourThreads
      [call0 (.ready 1), call0 (.adjust 2 20 false), call0 (.ready 2)] = some s ∧
    adjustPriority upBuild (call0 .yield).env 5 s 1 20 false = adjustPriority upBuild (call0 .yield).env 2 s 1 20 false ∧
    (adjustPriority upBuild (call0 .yield).env 2 s 1 20 false).map
      (fun s' => (s'.actives 0, (s'.th 1).state, (s'.th 1).priority)) = some (2, .ready, 5) ∧
    adjustPriority upBuild (call0 .yield).env 1 s 1 20 false = none := by
  have hrun : (run upBuild fourThreads [call0 (.ready 1), call0 (.adjust 2 20 false), call0 (.ready 2)]).map
      (fun s => ((adjustPriority upBuild (call0 .yield).env 2 s 1 20 false).map
          (fun s' => (s'.actives 0, (s'.th 1).state, (s'.th 1).priority)),
        (adjustPriority upBuild (call0 .yield).env 1 s 1 20 false).isNone)) = some (some (2, .ready, 5), true) := by
    decide +kernel
  obtain ⟨s, hs, hboth⟩ := Option.map_eq_some_iff.mp hrun
  obtain ⟨htwo, hone⟩ := Prod.mk.inj hboth
  have hi := run_inv fourThreads_inv.1 (by decide +kernel) hs
  exact ⟨s, hs, adjustPriority_depth hi.good (hi.base Nat.one_pos) 3 20 false, htwo, Option.isNone_iff_eq_none.mp hone⟩

end QRV.Nano.Sched
