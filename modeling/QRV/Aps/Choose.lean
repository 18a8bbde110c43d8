import QRV.Aps.Partition
import QRV.Nano.SchedRun

/- choose_thread_to_schedule (aps_alg.c) with one processor and no candidate, from the call
   of microbill on: which thread runs next. The first loop looks at the first thread of every
   partition and finds the mode, the second keeps the best so far. Whether the time of the
   chosen thread is billed as critical is left out, and so is the retry, for a window that
   rotates during the call.

   Correspondence (C ↔ Lean)
     MIN_CYCLES_TO_SCHEDULE, MAY_SCHEDULE_MIN      ↔ `Sched.minToSchedule`, `Sched.maySchedule`
     THREAD_IS_RUNNING_CRITICAL                    ↔ `Sched.runningCritical`
     SB_STARVATION_METRIC                          ↔ `Sched.starvationMetric`
     the first and the second loop over partitions ↔ `Sched.cands`, `Cand.beats` in `Sched.choose` -/
namespace QRV.Aps.Choose

open Nano Dispatch
open Nano.Sched (emptyDisp holds_emptyDisp)

structure Thread where
  priority : Nat
  runmask : UInt32
  /-- AP_SCHED_RUNNING_CRIT -/
  runningCrit : Bool

structure Part (τ : Type) where
  dpp : Dispatch τ
  /-- The threads that are ready, as the table describes them. -/
  ready : τ → Nat → Prop
  holds : dpp.Holds ready none
  lt : ∀ {t prio}, ready t prio → prio < 256
  ppg : Ppg
  usedCycles : UInt32
  criticalCyclesUsed : UInt32
  /-- sb_last_run_winrot -/
  lastRunWinrot : UInt32
  /-- The bit of zerobudget_ap_set. -/
  zeroBudget : Bool

structure Sched (τ : Type) where
  th : τ → Thread
  /-- The priority and the partition of the running thread. -/
  act : Nat × Nat
  activesPpg : List (Part τ)
  cyclesLeftInTick : UInt32
  cyclesPerBucket : UInt64
  minCritical : UInt32
  tsBuckets : UInt32
  windowRotations : UInt32
  /-- SCHED_APS_SCHEDPOL_FREETIME_BY_RATIO -/
  byRatio : Bool

/-- The first thread of a partition with what it is compared by. -/
structure Cand (τ : Type) where
  thread : τ
  starvation : Nat
  runable : Bool
  priority : Nat
  rfu : Nat

variable {τ : Type} (s : Sched τ)

/-- The sum is of 64 bits and kept in 32. -/
def Sched.minToSchedule : UInt32 := (s.cyclesLeftInTick.toUInt64 + (s.cyclesPerBucket >>> 8)).toUInt32

def Sched.maySchedule (pap : Part τ) : Bool :=
  (pap.usedCycles + s.minToSchedule).toNat ≤ unsigned pap.ppg.bmpBudgetInCycles

def Sched.runningCritical (pap : Part τ) (ptrd : τ) : Bool :=
  (s.th ptrd).runningCrit && (pap.criticalCyclesUsed + s.minCritical).toNat ≤ pap.ppg.criticalBudgetInCycles

def Sched.starvationMetric (pap : Part τ) (ptrd : τ) : Nat :=
  if (s.th ptrd).runmask = 0xfffffffe ∧ pap.lastRunWinrot + s.tsBuckets < s.windowRotations ∧
    pap.ppg.stdBudgetInCycles ≠ 0 then (s.windowRotations - pap.lastRunWinrot).toNat else 0

/-- What the first loop keeps of a partition; `none` if it sleeps. -/
def Sched.cand (pap : Part τ) : Option (Cand τ) :=
  if pap.dpp.highestPri = 0 then none
  else (pap.dpp.thp pap.dpp.highestPri).map fun ptrd =>
    { thread := ptrd
      starvation := s.starvationMetric pap ptrd
      runable := s.maySchedule pap || s.runningCritical pap ptrd
      priority := (s.th ptrd).priority
      rfu := relativeFractionUsed pap.usedCycles.toNat pap.ppg }

def Sched.cands : List (Cand τ) := s.activesPpg.filterMap s.cand

def Sched.underload : Bool := s.cands.any (·.runable)

/-- Nobody can run within the budget, and a partition with a budget sleeps. -/
def Sched.freeTime : Bool :=
  !s.underload && s.activesPpg.zipIdx.any fun (pap, ap) =>
    pap.dpp.highestPri = 0 && !(s.act.1 ≠ 0 && ap = s.act.2) && !pap.zeroBudget

def Sched.prioEnable : Bool := s.underload || (s.freeTime && !s.byRatio)

/-- The comparison of the second loop. -/
def Cand.beats (prioEnable : Bool) (c best : Cand τ) : Bool :=
  if c.starvation < best.starvation then false
  else if c.starvation = best.starvation then
    if c.runable < best.runable then false
    else if c.runable = best.runable then
      if prioEnable ∧ c.priority < best.priority then false
      else if ¬prioEnable ∨ c.priority = best.priority then !(best.rfu ≤ c.rfu)
      else true
    else true
  else true

/-- As long as there is no best, best_runable is -1 and a partition that is ready wins. -/
def Sched.choose : Option τ :=
  (s.cands.foldl (fun best c =>
    match best with
    | none => some c
    | some b => if c.beats s.prioEnable b then some c else some b) none).map Cand.thread

/-- What is compared; larger is better. -/
def Cand.rank (prioEnable : Bool) (c : Cand τ) : ℕ ×ₗ Bool ×ₗ ℕ ×ₗ ℕᵒᵈ :=
  toLex (c.starvation, toLex (c.runable, toLex (if prioEnable then c.priority else 0, OrderDual.toDual c.rfu)))

variable {s}

theorem branch_iff {α : Type} [LinearOrder α] {x y : α} {q : Bool} :
    (if x < y then false else if x = y then q else true) = true ↔ y < x ∨ y = x ∧ q = true := by
  rcases lt_trichotomy x y with h | rfl | h
  · simp [h, h.not_gt, h.ne']
  · simp
  · simp [h, h.not_gt, h.ne']

theorem Cand.beats_iff (e : Bool) (c b : Cand τ) : c.beats e b = true ↔ b.rank e < c.rank e := by
  rw [Cand.beats, branch_iff, branch_iff, Cand.rank, Cand.rank, Prod.Lex.toLex_lt_toLex, Prod.Lex.toLex_lt_toLex,
    Prod.Lex.toLex_lt_toLex]
  cases e with
  | false => simp
  | true =>
    simp only [true_and, not_true_eq_false, false_or, branch_iff, if_true, Bool.not_eq_true', decide_eq_false_iff_not,
      not_le, OrderDual.toDual_lt_toDual]

theorem choose_eq : s.choose = (s.cands.argmax (Cand.rank s.prioEnable)).map Cand.thread := by
  rw [Sched.choose, List.argmax]
  congr 2
  funext best c
  cases best with
  | none => rfl
  | some b => simp only [List.argAux, Cand.beats_iff]

theorem cand_eq_none {pap : Part τ} : s.cand pap = none ↔ ∀ t prio, pap.ready t prio → prio = 0 := by
  rw [Sched.cand]
  split_ifs with h0
  · exact ⟨fun _ t prio ht => Nat.le_zero.mp (h0 ▸ (pap.holds.highest (pap.lt ht) ht).2), fun _ => rfl⟩
  · rw [Option.map_eq_none_iff]
    constructor
    · intro hnone t prio ht
      obtain ⟨u, hu⟩ := (pap.holds.highest (pap.lt ht) ht).1
      exact absurd hu (pap.holds.empty hnone u)
    · intro h
      by_contra hthp
      obtain ⟨t, ht⟩ := Option.ne_none_iff_exists'.mp hthp
      exact h0 (h t _ (pap.holds.first ht))

/-- The chosen thread is a first thread of the greatest rank; none is chosen where no thread but an idle one is
ready. -/
theorem choose_greatest (s : Sched τ) :
    (s.choose = none ↔ ∀ pap ∈ s.activesPpg, ∀ t prio, pap.ready t prio → prio = 0) ∧
    ∀ t, s.choose = some t → ∃ c ∈ s.cands, c.thread = t ∧
      ∀ d ∈ s.cands, d.rank s.prioEnable ≤ c.rank s.prioEnable := by
  rw [choose_eq, Option.map_eq_none_iff, List.argmax_eq_none, Sched.cands, List.filterMap_eq_nil_iff]
  refine ⟨forall₂_congr fun pap _ => cand_eq_none, fun t ht => ?_⟩
  obtain ⟨c, hc, rfl⟩ := Option.map_eq_some_iff.mp ht
  exact ⟨c, List.argmax_mem hc, rfl, fun d hd => List.le_of_mem_argmax hd hc⟩

/-- A partition with one thread. -/
def single (t : Bool) (prio : Fin 256) (usedCycles : UInt32) : Part Bool where
  dpp := (emptyDisp.link3End prio t).dispatchSet prio
  ready := With (fun _ _ => False) t prio
  holds := Holds.finSet (holds_emptyDisp fun _ _ => id) fun _ => id
  lt h := (h.resolve_left id).2 ▸ prio.isLt
  ppg := ⟨none, 50, 1000, 1000, 0, 1, 0, none⟩
  usedCycles := usedCycles
  criticalCyclesUsed := 1
  lastRunWinrot := 0
  zeroBudget := false

def locked : Sched Bool where
  th t := if t then ⟨10, 0xfffffffe, false⟩ else ⟨20, 0, false⟩
  act := (0, 0)
  activesPpg := [single false 20 0, single true 10 1001]
  cyclesLeftInTick := 0
  cyclesPerBucket := 0
  minCritical := 0
  tsBuckets := 100
  windowRotations := 101
  byRatio := false

/-- A thread that is locked to the processor and has not run for a window goes before one of
a higher priority, whose partition has budget. -/
theorem locked_chosen : locked.choose = some true ∧
    locked.cands.map (fun c => (c.thread, c.runable, c.priority)) = [(false, true, 20), (true, false, 10)] := by
  decide +kernel

end QRV.Aps.Choose
