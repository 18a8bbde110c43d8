import QRV.Lib.Run

/- Adaptive partitions: their budgets, and the factors by which the scheduler orders them.

   A partition gets its budget, in percent, from its parent, and gives it back to it. From the
   percentages follow the budgets in cycles of the averaging window and, in set_factors, the
   factor and the offset of RELATIVE_FRACTION_USED. ker_sched_ctl creates and modifies
   partitions, and reinit_window_parms changes the window.

   Of the checks of ker_sched_ctl those of the pointers, the name and the reserved fields are an
   input (`rejected`, `taken`), and so is whether there is memory. A `none` stands for crash()
   and for a division by zero. The retries of reinit_window_parms store the same values again.

   Correspondence (C ↔ Lean)
     RELATIVE_FRACTION_USED, set_factors (aps_alg.c)   ↔ relativeFractionUsed, setFactors
     change_percent_budget (aps_config.c)              ↔ changePercentBudget
     create_ppg, aps_modify_partition (aps_config.c)   ↔ createPpg, apsModifyPartition
     aps_get_parent (aps_config.c)                     ↔ apsGetParent
     reinit_window_parms (aps_data.c)                  ↔ reinitWindowParms
     create_default_dispatch (aps_data.c)              ↔ createDefaultDispatch
     FAIL_*, ker_sched_ctl (ker_aps.c)                 ↔ Env.failsCreate, Env.failsModify, kerSchedCtl -/
namespace QRV.Aps

inductive Errno where
  | eok
  | einval
  | eacces
  | enospc
  | edquot
  | enomem
  | edom
  | eexist
  | enametoolong
  deriving DecidableEq

structure Ppg where
  parent : Option Nat
  budgetInPercent : Int
  bmpBudgetInCycles : Int
  stdBudgetInCycles : Int
  criticalBudgetInCycles : Nat
  relativeFractionUsedFactor : Nat
  relativeFractionUsedOffset : Nat
  /-- The critical budget that was asked for last, in milliseconds; the system partition has no limit. -/
  criticalMs : Option Nat
  deriving DecidableEq

structure State where
  numProcessors : Nat
  bmpSupportFactor : Nat
  windowsizeInCycles : Nat
  cyclesPerMs : Nat
  activesPpg : List Ppg
  deriving DecidableEq

/-- APS_MAX_PARTITIONS -/
def maxPartitions : Nat := 8

/-- What an `int` holds of a number. -/
def int32 (n : Nat) : Int := (BitVec.ofNat 32 n).toInt

/-- A percentage of the window, computed in 64 bits and stored in an `int32_t`. -/
def share (factor window : Nat) (percent : Int) : Int :=
  int32 (factor * window * (percent % 2 ^ 64).toNat % 2 ^ 64 / 100)

def Ppg.setBudget (st : State) (percent : Int) (ppg : Ppg) : Ppg :=
  { ppg with
    budgetInPercent := percent
    bmpBudgetInCycles := share st.bmpSupportFactor st.windowsizeInCycles percent
    stdBudgetInCycles := share st.numProcessors st.windowsizeInCycles percent }

def State.update (st : State) (ap : Nat) (f : Ppg → Ppg) : State :=
  { st with activesPpg := st.activesPpg.modify ap f }

/-! ## The factors -/

/-- The budgets that are not zero, as `uint64_t`. -/
def budgets (ppgs : List Ppg) : List Nat :=
  (ppgs.filter (·.budgetInPercent ≠ 0)).map fun ppg => (ppg.budgetInPercent % 2 ^ 64).toNat

def totalProduct (ppgs : List Ppg) : Nat := (budgets ppgs).foldl (fun total budget => total * budget % 2 ^ 64) 1

def minT64 (ppgs : List Ppg) : Nat :=
  (budgets ppgs).foldl (fun least budget => min least (totalProduct ppgs / budget)) (2 ^ 64 - 1)

/-- MAX_BUDGET_ERROR_INVERSE -/
def maxBudgetErrorInverse : Nat := 200

/-- The factor of a budget, before it is stored in 32 bits. -/
def factor (ppgs : List Ppg) (budget : Nat) : Nat :=
  totalProduct ppgs * maxBudgetErrorInverse % 2 ^ 64 / budget / minT64 ppgs

def maxFactor (ppgs : List Ppg) : Nat := (budgets ppgs).foldl (fun most budget => max most (factor ppgs budget)) 0

/-- What the partitions without a budget have at least. -/
def maxRfuPlus1 (st : State) : Nat :=
  (maxFactor st.activesPpg * (st.windowsizeInCycles >>> 16) + 1) % 2 ^ 32

def Ppg.setFactors (st : State) (ppg : Ppg) : Ppg :=
  if ppg.budgetInPercent ≠ 0 then { ppg with
    relativeFractionUsedFactor := factor st.activesPpg (ppg.budgetInPercent % 2 ^ 64).toNat % 2 ^ 32
    relativeFractionUsedOffset := 0 }
  else { ppg with relativeFractionUsedFactor := 1, relativeFractionUsedOffset := maxRfuPlus1 st }

def setFactors (st : State) : Option State :=
  if totalProduct st.activesPpg = 0 ∨ minT64 st.activesPpg = 0 then none
  else some { st with activesPpg := st.activesPpg.map (Ppg.setFactors st) }

/-- RELATIVE_FRACTION_USED of a partition that has used so many cycles. -/
def relativeFractionUsed (usedCycles : Nat) (ppg : Ppg) : Nat :=
  ((usedCycles >>> 16) * ppg.relativeFractionUsedFactor + ppg.relativeFractionUsedOffset) % 2 ^ 32

/-! ## Budgets -/

/-- The parent gives the difference or takes it back; `none` if it does not have enough. -/
def changePercentBudget (st : State) (ppg : Ppg) (newBudgetPercent : Int) : Option (State × Ppg) :=
  match ppg.parent with
  | none => some (st, ppg.setBudget st newBudgetPercent)
  | some id =>
    match st.activesPpg[id]? with
    | none => none
    | some parent =>
      let percentDelta := newBudgetPercent - ppg.budgetInPercent
      if parent.budgetInPercent < percentDelta then none
      else some (st.update id (Ppg.setBudget st (parent.budgetInPercent - percentDelta)),
        ppg.setBudget st newBudgetPercent)

/-- A critical budget in cycles: it is narrowed to 32 bits and then compared with what all processors have. -/
def criticalCycles (st : State) (ms : Nat) : Nat :=
  let cycles := ms * st.cyclesPerMs % 2 ^ 32
  let most := st.numProcessors * st.windowsizeInCycles % 2 ^ 64
  if most < cycles then most % 2 ^ 32 else cycles

def Ppg.setCritical (st : State) (ms : Nat) (ppg : Ppg) : Ppg :=
  { ppg with criticalBudgetInCycles := criticalCycles st ms, criticalMs := some ms }

structure CreateParms where
  budgetPercent : UInt16
  criticalBudgetMs : Int16
  /-- APS_CREATE_FLAGS_USE_PARENT_ID -/
  useParentId : Bool
  parentId : Int8

structure ModifyParms where
  id : Int16
  newBudgetPercent : Int16
  newCriticalBudgetMs : Int16

/-- The SCHED_APS_SEC_* flags, the calling thread, and what the rest of the call decides. -/
structure Env where
  rootMakesPartitions : Bool := false
  sysMakesPartitions : Bool := false
  parentModifies : Bool := false
  nonzeroBudgets : Bool := false
  rootMakesCritical : Bool := false
  sysMakesCritical : Bool := false
  partitionsLocked : Bool := false
  isRoot : Bool := true
  /-- The partition of the caller, and the one it belongs to (`orig_dpp`). -/
  dpp : Nat := 0
  origDpp : Nat := 0
  rejected : Option Errno := none
  taken : Bool := false
  alloc : Bool := true

/-- The `unsigned` value of an `int`. -/
def unsigned (n : Int) : Nat := (n % 2 ^ 32).toNat

def createPpg (st : State) (parms : CreateParms) (env : Env) : Option (State × Errno) :=
  let budget := parms.budgetPercent.toNat
  let criticalBudgetMs := if parms.criticalBudgetMs = -1 then 0 else unsigned parms.criticalBudgetMs.toInt
  if maxPartitions ≤ st.activesPpg.length then some (st, .enospc)
  else
    let parentId := if !parms.useParentId || parms.parentId < 0 then env.origDpp else parms.parentId.toInt.toNat
    match st.activesPpg[parentId]? with
    | none => none
    | some parent =>
      -- Check if we have budget we can give
      if unsigned parent.budgetInPercent < budget then some (st, .edquot)
      else if env.nonzeroBudgets ∧ budget = unsigned parent.budgetInPercent then some (st, .eacces)
      else if !env.alloc then some (st, .enomem)
      else
        let new : Ppg := ⟨some parentId, 0, 0, 0, 0, 0, 0, none⟩
        let (st, new) := (changePercentBudget st new budget).getD (st, new)
        (setFactors { st with activesPpg := st.activesPpg ++ [new.setCritical st criticalBudgetMs] }).map (·, .eok)

def apsGetParent (st : State) (id : Int) : Int :=
  if id < 0 then -1
  else match st.activesPpg[id.toNat]? with
    | none => -1
    | some ppg => ppg.parent.getD 0

def apsModifyPartition (st : State) (parms : ModifyParms) (env : Env) : Option (State × Errno) :=
  let ap := parms.id.toInt.toNat
  match if parms.id < 0 then none else st.activesPpg[ap]? with
  | none => some (st, .einval)
  | some ppg =>
    match ppg.parent.bind (st.activesPpg[·]?) with
    -- may not modify the system ppg
    | none => some (st, .einval)
    | some parent =>
      if env.nonzeroBudgets ∧ parent.budgetInPercent = parms.newBudgetPercent.toInt - ppg.budgetInPercent then
        some (st, .eacces)
      else
        let critical (st : State) : State :=
          if parms.newCriticalBudgetMs = -1 then st
          else st.update ap (Ppg.setCritical st (unsigned parms.newCriticalBudgetMs.toInt))
        if parms.newBudgetPercent = -1 then some (critical st, .eok)
        else match changePercentBudget st ppg parms.newBudgetPercent.toInt with
          | none => some (st, .einval)
          | some (st, ppg) => (setFactors (st.update ap fun _ => ppg)).map fun st => (critical st, .eok)

/-! ## ker_sched_ctl -/

/-- The security checks of SCHED_APS_CREATE_PARTITION. -/
def Env.failsCreate (env : Env) (parms : CreateParms) : Bool :=
  env.partitionsLocked || env.rootMakesPartitions && !env.isRoot || env.sysMakesPartitions && env.dpp ≠ 0 ||
    env.nonzeroBudgets && parms.budgetPercent = 0 ||
    env.rootMakesCritical && !env.isRoot && 0 < parms.criticalBudgetMs ||
    env.sysMakesCritical && env.dpp ≠ 0 && 0 < parms.criticalBudgetMs

/-- Those of SCHED_APS_MODIFY_PARTITION. -/
def Env.failsModify (env : Env) (st : State) (parms : ModifyParms) : Bool :=
  env.partitionsLocked || env.parentModifies && (env.dpp : Int) ≠ apsGetParent st parms.id.toInt ||
    env.rootMakesPartitions && !env.isRoot || env.sysMakesPartitions && env.dpp ≠ 0 ||
    env.nonzeroBudgets && parms.newBudgetPercent = 0 ||
    env.rootMakesCritical && !(env.isRoot || parms.newCriticalBudgetMs = -1) ||
    env.sysMakesCritical && !(env.dpp = 0 || parms.newCriticalBudgetMs = -1)

inductive Call where
  | create (parms : CreateParms) (env : Env)
  | modify (parms : ModifyParms) (env : Env)

def kerSchedCtl (st : State) : Call → Option (State × Errno)
  | .create parms env =>
    if let some errno := env.rejected then some (st, errno)
    else if env.failsCreate parms then some (st, .eacces)
    else if parms.criticalBudgetMs < -1 then some (st, .einval)
    else if parms.useParentId ∧ (st.activesPpg.length : Int) ≤ parms.parentId.toInt then some (st, .einval)
    else if env.taken then some (st, .eexist)
    else createPpg st parms env
  | .modify parms env =>
    if let some errno := env.rejected then some (st, errno)
    else if env.failsModify st parms then some (st, .eacces)
    -- -1 is valid, it means "no change"
    else if parms.newBudgetPercent < -1 ∨ 100 < parms.newBudgetPercent then some (st, .einval)
    else if parms.newCriticalBudgetMs < -1 then some (st, .einval)
    else apsModifyPartition st parms env

def step (st : State) (call : Call) : Option State := (kerSchedCtl st call).map (·.1)

/-! ## The window -/

/-- The length of a tick, and `cycles_per_sec` after CONDITION_CC. -/
structure Qtime where
  tickNsec : Nat
  cyclesPerSec : Nat

/-- MIN_WINDOWSIZE_MS, MAX_WINDOWSIZE_MS; MAX_TS_BUCKETS is one for each millisecond. -/
def reinitWindowParms (st : State) (newWindowsizeMs : Int) (qtime : Qtime) : Option (State × Errno) :=
  if newWindowsizeMs < 8 ∨ 400 < newWindowsizeMs then some (st, .einval)
  else if 1000000000 / qtime.tickNsec = 0 then none
  else
    let cyclesPerBucket := qtime.cyclesPerSec / (1000000000 / qtime.tickNsec)
    let cyclesPerMs := qtime.cyclesPerSec / 1000
    if cyclesPerBucket = 0 then none
    else
      let st := { st with cyclesPerMs := cyclesPerMs }
      let newTsBuckets := int32 (cyclesPerMs * newWindowsizeMs.toNat % 2 ^ 64 / cyclesPerBucket)
      if 400 < newTsBuckets ∨ newTsBuckets < 2 then some (st, .einval)
      else
        let st := { st with windowsizeInCycles := newTsBuckets.toNat * cyclesPerBucket % 2 ^ 64 }
        let st := { st with activesPpg := st.activesPpg.map fun ppg : Ppg => ppg.setBudget st ppg.budgetInPercent }
        let most := st.numProcessors * st.windowsizeInCycles % 2 ^ 32
        -- no need to call set_factors() since budgets in percent have not changed
        some (st.update 0 ({ · with criticalBudgetInCycles := most }), .eok)

inductive Op where
  | call (call : Call)
  | reinit (newWindowsizeMs : Int) (qtime : Qtime)

def opStep (st : State) : Op → Option State
  | .call call => step st call
  | .reinit newWindowsizeMs qtime => (reinitWindowParms st newWindowsizeMs qtime).map (·.1)

/-- The system partition has all of the time at first. -/
def createDefaultDispatch (numProcessors bmpSupportFactor windowsizeInCycles cyclesPerMs : Nat) : Option State :=
  let most := numProcessors * windowsizeInCycles
  let systemPpg : Ppg := ⟨none, 100, int32 (bmpSupportFactor * windowsizeInCycles), int32 most, most % 2 ^ 32, 0, 0, none⟩
  setFactors ⟨numProcessors, bmpSupportFactor, windowsizeInCycles, cyclesPerMs, [systemPpg]⟩

end QRV.Aps
