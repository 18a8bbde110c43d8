import QRV.Nano.Dispatch

/- The default scheduler (nano_sched.c): who runs on each processor and who waits
   on which ready list. Both variants are modelled, the uniprocessor one and the
   one built with VARIANT_smp; `Build` says which.

   A thread has the fields the scheduler reads or writes. The state of the
   scheduler is the dispatch table, the threads, the running thread of each
   processor and the list of pending replenishments of sporadic threads. Every
   operation returns `none` when the kernel crashes: a null pointer, a `crash()`,
   or a CRASHCHECK of a debug build.

   sched_ss_update and adjust_priority call each other. The functions below take
   the inner adjust_priority as an argument, and `adjustPriority` ties the knot;
   two levels are all that is ever used (`adjustPriority_depth`).

   Not part of the state: the wait queue of a blocked thread (adjust_priority
   moves the thread in it with pril_rem and pril_add, `QRV.Nano.PrilOps`),
   timeouts, accounting, tracing, and the interrupts sent to other processors,
   whose effect is a later resched there.

   Correspondence (C ↔ Lean) where the names differ:
     `select_cpu`, `select_thread_default`     ↔ `selectCpu`, `selectThread`
     `mark_running_default`                    ↔ `markRunning`
     `block_and_ready_default`                 ↔ `blockAndReady`
     `yield_default`, `resched_default`        ↔ `yieldDefault`, `resched`
     `adjust_priority_default`, `sched_thread` ↔ `adjustPriority`, `schedThread` -/
namespace QRV.Nano

open LinkCell

/-- The states of a thread (states.h). -/
inductive ThState where
  | dead | running | ready | stopped | send | receive | reply | stack | waitthread | waitpage
  | sigsuspend | sigwaitinfo | nanosleep | mutex | condvar | join | intr | sem | waitctx
  | netSend | netReply
  deriving DecidableEq, Repr

/-- The state is that of a thread that does not run and is not ready to. -/
def ThState.blocked (st : ThState) : Bool := st ≠ .running ∧ st ≠ .ready

/-- The policies a thread can have. -/
inductive Policy where
  | fifo | rr | other | sporadic
  deriving DecidableEq, Repr

/-- A priority, a byte. -/
abbrev Prio := Fin 256

instance neZero256 : NeZero 256 := ⟨by decide⟩

/-- The data of a sporadic thread, with its replenishment. -/
structure SsInfo where
  lowPriority : Prio
  orgPriority : Prio
  maxRepl : UInt16
  replCount : UInt16
  replPeriod : UInt64
  initBudget : UInt64
  currBudget : UInt64
  activationTime : UInt64
  consumed : UInt64
  amount : UInt64
  replTime : UInt64
  deriving DecidableEq

/-- What memset leaves in a fresh SSINFO. -/
def SsInfo.zero : SsInfo := ⟨0, 0, 0, 0, 0, 0, 0, 0, 0, 0, 0⟩

/-- A thread. `sendvnc` is the test of its syscall number, `ring0`, `loading` and
`root` are what kerschedok asks of its process. -/
structure Thread where
  state : ThState
  priority : Prio
  realPriority : Prio
  policy : Policy
  runmask : BitVec 32
  runcpu : Nat
  rrTicks : Nat
  ss : SsInfo
  toBeStopped : Bool
  killSelf : Bool
  waaa : Bool
  sendvnc : Bool
  ring0 : Bool
  loading : Bool
  root : Bool
  deriving DecidableEq

/-- How the kernel was built and started. -/
structure Build where
  smp : Bool
  debug : Bool
  numProcessors : Nat
  rrIntervalMul : Nat
  privPrio : Nat

/-- What one kernel call finds: the processor it runs on, the clock readings (one for
each thread that is stamped, and the one of sched_ss_adjust), whether an SSINFO can
be allocated, whether the active process has used up its processor time, and a
bound on the walks along a ready list. -/
structure Env (τ : Type) where
  kernCpu : Nat
  snap : Option τ → UInt64
  ssAlloc : Bool
  overCpuTime : Bool
  fuel : Nat

/-- The state of the scheduler. -/
structure Sched (τ : Type) where
  disp : Dispatch τ
  th : τ → Thread
  actives : Nat → τ
  replenishList : List τ
  replenishTime : UInt64

/-- CRASHCHECK, which only a debug build has. -/
def crashcheck (b : Build) (c : Bool) : Option Unit := if b.debug && c then none else some ()

/-! ## Round robin -/

def Build.rrMaxticks (b : Build) : Nat := b.rrIntervalMul * 2

namespace Thread

/-- IS_SCHED_RR. -/
def isRR (x : Thread) : Bool := x.policy = .rr || x.policy = .other

/-- The thread may run on this processor: its bit in the inverted mask is clear. -/
def runsOn (x : Thread) (cpu : Nat) : Bool := !x.runmask.getLsbD cpu

/-- STATE_LAZY_RESCHED. -/
def lazyResched (x : Thread) : Bool :=
  match x.state with
  | .reply | .waitpage | .stack => true
  | _ => false

/-- A pending stop that holds. -/
def stops (x : Thread) : Bool := x.toBeStopped && !x.killSelf

/-- RR_RESET_TICK. -/
def rrReset (x : Thread) : Thread := if x.isRR then { x with rrTicks := 0 } else x

/-- RR_ADD_PREEMPT_TICK. -/
def rrAddPreempt (b : Build) (x : Thread) : Thread :=
  if x.isRR then
    { x with rrTicks := if x.rrTicks ≤ b.rrMaxticks - 1 then x.rrTicks + 1 else b.rrMaxticks }
  else x

/-- A sporadic thread saves the priority it drops from, and takes the low one. -/
def saveReal (x : Thread) : Thread := { x with ss := { x.ss with orgPriority := x.realPriority } }
def takeLow (x : Thread) : Thread := { x with realPriority := x.ss.lowPriority }

/-- It takes the saved priority again. -/
def takeOrg (x : Thread) : Thread := { x with realPriority := x.ss.orgPriority }

/-- The stores of sched_thread: the policy, the real priority, the sporadic data of a
newcomer and of a thread that leaves the policy (the union then holds zero). -/
def withPolicy (p : Policy) (x : Thread) : Thread := { x with policy := p }
def withReal (p : Prio) (x : Thread) : Thread := { x with realPriority := p }
def newSporadic (x : Thread) : Thread := { x with policy := .fifo, ss := .zero }
def dropSs (x : Thread) : Thread := { x with ss := .zero, rrTicks := 0 }

/-- The stores of SCHED_SETPRIO. -/
def setprio (p : Prio) (x : Thread) : Thread :=
  { x with
    ss := if x.policy = .sporadic ∧ x.ss.orgPriority ≠ 0 then { x.ss with orgPriority := p } else x.ss
    realPriority := p }

end Thread

namespace Sched
variable {τ : Type} [DecidableEq τ]

/-- A store to the fields of one thread. -/
def upd (s : Sched τ) (t : τ) (f : Thread → Thread) : Sched τ :=
  { s with th := Function.update s.th t (f (s.th t)) }

def setState (s : Sched τ) (t : τ) (st : ThState) : Sched τ := s.upd t fun x => { x with state := st }

def setPriority (s : Sched τ) (t : τ) (p : Prio) : Sched τ := s.upd t fun x => { x with priority := p }

/-- A store to the sporadic data of one thread. -/
def updSs (s : Sched τ) (t : τ) (f : SsInfo → SsInfo) : Sched τ := s.upd t fun x => { x with ss := f x.ss }

def linkBeg (s : Sched τ) (p : Prio) (t : τ) : Sched τ := { s with disp := s.disp.link3Beg p t }
def linkEnd (s : Sched τ) (p : Prio) (t : τ) : Sched τ := { s with disp := s.disp.link3End p t }

def linkRem (s : Sched τ) (p : Prio) (t : τ) : Option (Sched τ) := do
  let d ← s.disp.link3Rem p t
  some { s with disp := d }

/-- DISPATCH_SET for a thread. -/
def dispatchSet (s : Sched τ) (t : τ) : Sched τ :=
  { s with disp := s.disp.dispatchSet (s.th t).priority }

/-- The sequence LINK3_REM, test of the head, DISPATCH_CLR. -/
def unlink (s : Sched τ) (t : τ) : Option (Sched τ) := do
  let s ← s.linkRem (s.th t).priority t
  if s.disp.thp (s.th t).priority = none then
    some { s with disp := s.disp.dispatchClr (s.th t).priority }
  else some s

/-- The stores `next = NULL` and `prev = NULL`. -/
def nullLinks (s : Sched τ) (t : τ) : Sched τ :=
  { s with disp := { s.disp with
      link := s.disp.link.set (.next t) none
      prev := Function.update s.disp.prev t none } }

variable (b : Build) (e : Env τ)

/-! ## Selection -/

/-- One turn of the loop of select_cpu: the best processor so far, the lowest
priority seen and the other processors with that priority. -/
def selectCpuTurn (s : Sched τ) (t : τ) (acc : Option Nat × Prio × List Nat) (i : Nat) :
    Option Nat × Prio × List Nat :=
  if (s.th t).runsOn i then
    let act := s.th (s.actives i)
    if act.priority < acc.2.1 then (some i, act.priority, [])
    else if act.priority = acc.2.1 then (acc.1, acc.2.1, i :: acc.2.2)
    else acc
  else acc

/-- select_cpu. -/
def selectCpu (s : Sched τ) (t : τ) : Option Nat :=
  let (cpu, _, alternates) :=
    (List.range b.numProcessors).reverse.foldl (s.selectCpuTurn t) (none, (s.th t).priority, [])
  match cpu with
  | none => none
  | some c =>
    if (s.th t).runcpu ≠ c then
      some (alternates.foldl (fun c n => if n = (s.th t).runcpu then n else c) c)
    else some c

/-- The walk along a ready list for a thread that may run on the processor. -/
def findOnCpu (s : Sched τ) : Nat → Option τ → Option (Option τ)
  | _, none => some none
  | 0, some _ => none
  | n + 1, some t =>
    if (s.th t).runsOn e.kernCpu then some (some t) else findOnCpu s n (s.disp.link (.next t))

/-- The loop of select_thread over the ready lists, from the list `k - 1` down. -/
def selectDown (s : Sched τ) (prio : Int) : Nat → Option (Option τ × Sched τ)
  | 0 => if prio = -1 then none else some (none, s)
  | k + 1 =>
    if (k : Int) < prio then some (none, s)
    else do
      match ← findOnCpu e s e.fuel (s.disp.thp k) with
      | some t =>
        if prio ≤ ((s.th t).priority : Int) then do
          let s ← s.unlink t
          some (some t, s)
        else some (some t, s)
      | none => selectDown s prio k

/-- select_thread_default: in the SMP variant the first thread that may run on this
processor, in the uniprocessor variant the first thread of the highest list. -/
def selectThread (s : Sched τ) (prio : Int) : Option (Option τ × Sched τ) :=
  if b.smp then s.selectDown e prio (s.disp.highestPri + 1)
  else if (s.disp.highestPri : Int) < prio then some (none, s)
  else
    match s.disp.thp s.disp.highestPri with
    | none => some (none, s)
    | some t => do
      let s ← s.unlink t
      some (some t, s)

/-- mark_running_default. FIND_HIGHEST of the SMP variant also stores `runcpu`, with the
same value. -/
def markRunning (s : Sched τ) (t : τ) : Sched τ :=
  { s with actives := Function.update s.actives e.kernCpu t }.upd t fun x =>
    { x with state := .running, runcpu := e.kernCpu }

/-! ## Sporadic threads -/

/-- The loop that looks for the place of a replenishment: behind all earlier ones. -/
def insertRepl (time : τ → UInt64) (t : τ) : List τ → List τ
  | [] => [t]
  | u :: l => if time u < time t then u :: insertRepl time t l else t :: u :: l

/-- The first branch of sched_ss_update: the replenishment is filled in and linked. -/
def schedRepl (s : Sched τ) (t : τ) : Sched τ :=
  let s := s.updSs t fun i =>
    { i with
      amount := if i.consumed = 0 then 1 else i.consumed
      replTime := i.activationTime + i.replPeriod }
  let time := fun u => (s.th u).ss.replTime
  { s with
    replenishList := insertRepl time t s.replenishList
    replenishTime := match s.replenishList with
      | u :: _ => if time u < time t then s.replenishTime else time t
      | [] => time t }

/-- The replenishment is scheduled, or added to, and counted. -/
def ssCharge (s : Sched τ) (t : τ) : Sched τ :=
  let s := if (s.th t).ss.amount = 0 then s.schedRepl t
    else s.updSs t fun i => { i with amount := i.amount + i.consumed }
  s.updSs t fun i => { i with replCount := i.replCount + 1 }

section Inner
variable (adjust : Sched τ → τ → Prio → Option (Sched τ))

/-- The last part of sched_ss_update: a thread without a higher inherited priority goes
to the low one. -/
def ssDrop (s : Sched τ) (t : τ) : Option (Sched τ) :=
  if (s.th t).priority ≤ (s.th t).realPriority then adjust s t (s.th t).ss.lowPriority else some s

/-- sched_ss_update. -/
def schedSsUpdate (s : Sched τ) (t : τ) (drop : Bool) : Option (Sched τ) :=
  if (s.th t).ss.orgPriority ≠ 0 then some s
  else do
    let s := s.ssCharge t
    crashcheck b ((s.th t).ss.amount = 0)
    if drop then do
      let s ← ssDrop adjust (s.upd t Thread.saveReal) t
      some (s.upd t Thread.takeLow)
    else some s

/-- sched_ss_block: only a thread that blocks is charged, not one that is preempted. -/
def schedSsBlock (s : Sched τ) (t : τ) (preempted : Bool) : Option (Sched τ) :=
  if (s.th t).ss.orgPriority ≠ 0 then some s
  else if preempted then some s
  else schedSsUpdate b adjust s t ((s.th t).ss.replCount.toNat + 1 ≥ (s.th t).ss.maxRepl.toNat)

/-- SS_STOP_RUNNING. -/
def ssStopRunning (s : Sched τ) (t : τ) (preempted : Bool) : Option (Sched τ) :=
  if (s.th t).policy = .sporadic then schedSsBlock b adjust s t preempted else some s

/-- SS_CHECK_EXPIRY. -/
def ssCheckExpiry (s : Sched τ) (t : τ) : Option (Sched τ) :=
  if (s.th t).policy = .sporadic ∧ (s.th t).ss.currBudget = 0 ∧ (s.th t).ss.orgPriority = 0 then
    schedSsUpdate b adjust s t true
  else some s

end Inner

/-- sched_ss_queue. -/
def schedSsQueue (s : Sched τ) (t : τ) : Sched τ :=
  if (s.th t).ss.orgPriority ≠ 0 then s
  else
    match (s.th t).state with
    | .running | .ready => s
    | _ => s.updSs t fun i => { i with activationTime := e.snap (some t), consumed := 0 }

/-- SS_MARK_ACTIVATION. -/
def ssMarkActivation (s : Sched τ) (t : τ) : Sched τ :=
  if (s.th t).policy = .sporadic then schedSsQueue e s t else s

/-! ## The operations -/

section Inner
variable (adjust : Sched τ → τ → Prio → Option (Sched τ))

/-- The thread yield_default gives the processor to. -/
def yieldTo (s : Sched τ) (prio : Prio) : Option (Option τ) :=
  if b.smp then findOnCpu e s e.fuel (s.disp.thp prio) else some (s.disp.thp prio)

/-- yield_default. -/
def yieldDefault (s : Sched τ) : Option (Sched τ) := do
  let act := s.actives e.kernCpu
  let prio := (s.th act).priority
  match ← yieldTo b e s prio with
  | none => some s
  | some t => do
    let s ← s.linkRem prio t
    let s := s.linkEnd prio act
    let s := s.upd act Thread.rrReset
    let s := s.setState act .ready
    let s := markRunning e s t
    let s ← ssStopRunning b adjust s act false
    some (ssMarkActivation e s act)

/-- A thread that does not run goes on its ready list: at the head when it comes back
from a MsgSendvnc. The uniprocessor variant charges the active thread for that. -/
def readyLink (s : Sched τ) (t : τ) (prio : Prio) (sendvnc : Bool) : Sched τ :=
  let s := s.setState t .ready
  let s :=
    if sendvnc then
      (s.upd (if b.smp then t else s.actives e.kernCpu) (Thread.rrAddPreempt b)).linkBeg prio t
    else (s.upd t Thread.rrReset).linkEnd prio t
  s.dispatchSet t

/-- A thread takes the processor: the active one goes to the head of its ready list. -/
def readyRun (s : Sched τ) (t : τ) : Option (Sched τ) := do
  let act := s.actives e.kernCpu
  let s := markRunning e s t
  let s := s.upd act (Thread.rrAddPreempt b)
  let s := s.setState act .ready
  let s := s.linkBeg (s.th act).priority act
  let s ← ssStopRunning b adjust s act true
  some (s.dispatchSet act)

/-- The SS_CHECK_EXPIRY of ready_default, which only the uniprocessor variant has. -/
def readyExpiry (s : Sched τ) : Option (Sched τ) :=
  if b.smp then some s else ssCheckExpiry b adjust s (s.actives e.kernCpu)

/-- The end of ready_default: where the thread goes. -/
def readyPlace (s : Sched τ) (t : τ) (prio : Prio) (sendvnc : Bool) : Option (Sched τ) :=
  let act := s.actives e.kernCpu
  if b.smp then
    if (s.th t).lazyResched ∧ prio ≤ (s.th act).priority ∧ (s.th t).runsOn e.kernCpu then
      some (readyLink b e s t prio sendvnc)
    else
      match selectCpu b s t with
      | some cpu =>
        if cpu ≠ e.kernCpu then some (readyLink b e s t prio sendvnc) else readyRun b e adjust s t
      | none => some (readyLink b e s t prio sendvnc)
  else if prio > (s.th act).priority then readyRun b e adjust s t
  else some (readyLink b e s t prio sendvnc)

/-- ready_default. -/
def readyDefault (s : Sched τ) (t : τ) : Option (Sched τ) := do
  let prio := (s.th t).priority
  crashcheck b (t = s.actives e.kernCpu)
  crashcheck b ((s.th t).state = .running)
  crashcheck b ((s.th t).state = .ready)
  let sendvnc := (s.th t).state = .reply ∧ (s.th t).sendvnc
  if (s.th t).stops then some (s.setState t .stopped)
  else do
    let s := s.nullLinks t
    let s ← readyExpiry b e adjust s
    readyPlace b e adjust (ssMarkActivation e s t) t prio sendvnc

/-- The case STATE_READY of adjust_priority_default. -/
def adjustReady (s : Sched τ) (t : τ) (prio : Prio) : Option (Sched τ) := do
  let act := s.actives e.kernCpu
  crashcheck b (t = act)
  let s ← s.unlink t
  let s := s.setPriority t prio
  if b.smp then
    let s := if b.debug then s.setState t .dead else s
    readyDefault b e adjust s t
  else if (s.th t).priority > (s.th act).priority then do
    let s := s.setState act .ready
    let s := s.upd act (Thread.rrAddPreempt b)
    let s := markRunning e s t
    let s := s.linkBeg (s.th act).priority act
    let s ← ssStopRunning b adjust s act true
    some (s.dispatchSet act)
  else
    let s := s.upd t Thread.rrReset
    let s := s.linkEnd (s.th t).priority t
    some (s.dispatchSet t)

/-- The active thread goes on the ready list of the priority it has been given: at the
head when the change comes from priority inheritance. -/
def adjustLink (s : Sched τ) (act : τ) (inherit : Bool) : Sched τ :=
  let s :=
    if inherit then (s.upd act (Thread.rrAddPreempt b)).linkBeg (s.th act).priority act
    else (s.upd act Thread.rrReset).linkEnd (s.th act).priority act
  s.dispatchSet act

/-- The case STATE_RUNNING of adjust_priority_default. -/
def adjustRunning (s : Sched τ) (t : τ) (prio : Prio) (inherit : Bool) : Option (Sched τ) := do
  let act := s.actives e.kernCpu
  if b.smp then
    if act ≠ t then some (s.setPriority t prio)
    else if prio < (s.th act).priority then do
      let (r, s) ← selectThread b e s prio
      match r with
      | some u =>
        if (s.th u).priority ≥ prio then do
          let s := (s.setState act .ready).setPriority act prio
          let s := adjustLink b s act inherit
          let s := markRunning e s u
          ssStopRunning b adjust s act true
        else some (s.setPriority act prio)
      | none => some (s.setPriority act prio)
    else some (s.setPriority act prio)
  else do
    crashcheck b (t ≠ act)
    if prio < (s.th act).priority ∧ prio.val ≤ s.disp.highestPri then do
      let s := (s.setPriority act prio).setState act .ready
      let s := adjustLink b s act inherit
      let u ← s.disp.thp s.disp.highestPri
      let s ← s.unlink u
      let s := markRunning e s u
      ssStopRunning b adjust s act true
    else some (s.setPriority act prio)

/-- adjust_priority_default. A blocked thread only gets the new priority here. -/
def adjustBody (s : Sched τ) (t : τ) (prio : Prio) (inherit : Bool) : Option (Sched τ) :=
  if (s.th t).priority = prio then
    if t = s.actives e.kernCpu then yieldDefault b e adjust s else some s
  else
    match (s.th t).state with
    | .ready => adjustReady b e adjust s t prio
    | .running => adjustRunning b e adjust s t prio inherit
    | _ => some (s.setPriority t prio)

end Inner

/-- adjust_priority to the depth `n` of calls through sched_ss_update. -/
def adjustPriority : Nat → Sched τ → τ → Prio → Bool → Option (Sched τ)
  | 0 => fun _ _ _ _ => none
  | n + 1 => adjustBody b e fun s t p => adjustPriority n s t p false

/-- The adjust_priority that sched_ss_update calls. -/
def adjustDrop (s : Sched τ) (t : τ) (p : Prio) : Option (Sched τ) := adjustPriority b e 2 s t p false

/-- The tick a round robin thread is charged for when it loses the processor to a higher
one. -/
def blockTick (s : Sched τ) (thp act : τ) : Sched τ :=
  if thp = act ∨ (s.th thp).priority < (s.th act).priority then s.upd thp (Thread.rrAddPreempt b) else s

/-- block. The caller has stored the new state of the active thread. -/
def block (s : Sched τ) : Option (Sched τ) := do
  let thp := s.actives e.kernCpu
  let (r, s) ← selectThread b e s (-1)
  let act ← r
  let s := markRunning e (blockTick b s thp act) act
  if thp ≠ act then ssStopRunning b (adjustDrop b e) s thp ((s.th thp).priority < (s.th act).priority)
  else some s

/-- The thread block_and_ready_default does not let run at once goes on its ready list. -/
def blockLink (s : Sched τ) (t : τ) (prio : Prio) : Sched τ :=
  let s := if (s.th t).policy = .fifo then s.linkEnd prio t else s.linkBeg prio t
  let s := s.dispatchSet t
  s.setState t .ready

/-- block_and_ready_default. -/
def blockAndReady (s : Sched τ) (t : τ) : Option (Sched τ) := do
  let act := s.actives e.kernCpu
  let s := s.nullLinks t
  if (s.th t).stops then block b e (s.setState t .stopped)
  else do
    let prio := (s.th t).priority
    let s ← ssStopRunning b (adjustDrop b e) s act
      ((s.th act).state = .ready ∨ (s.th act).state = .running)
    let s := ssMarkActivation e s t
    if b.smp ∧ !(s.th t).runsOn e.kernCpu ∧ selectCpu b s t = some e.kernCpu then none
    else if (b.smp → (s.th t).runsOn e.kernCpu) ∧
        (prio > (s.th act).priority ∨ prio.val > s.disp.highestPri) then
      some (markRunning e s t)
    else do
      let (r, s) ← selectThread b e (blockLink s t prio) (-1)
      let act ← r
      some (markRunning e s act)

/-- Only a READY thread is on a ready list. -/
def leaveList (s : Sched τ) (t : τ) : Option (Sched τ) :=
  if (s.th t).state = .ready then s.unlink t else some s

/-- unready. -/
def unready (s : Sched τ) (t : τ) (newstate : ThState) : Option (Sched τ) :=
  if t = s.actives e.kernCpu then do
    crashcheck b ((s.th t).state ≠ .running)
    block b e (s.setState t newstate)
  else do
    crashcheck b ((s.th t).state = .running)
    let s ← s.leaveList t
    some (s.setState t newstate)

/-- A dropped thread gets its priority back, unless it has inherited a higher one. -/
def ssBoost (s : Sched τ) (t : τ) : Option (Sched τ) :=
  if (s.th t).priority ≤ (s.th t).ss.orgPriority then adjustDrop b e s t (s.th t).ss.orgPriority else some s

/-- The part of sched_ss_adjust about a dropped thread: how many it has restored. -/
def ssRestore (s : Sched τ) (t : τ) : Option (Nat × Sched τ) :=
  if (s.th t).ss.orgPriority ≠ 0 then do
    let s ← ssBoost b e (s.updSs t fun i => { i with activationTime := e.snap none, consumed := 0 }) t
    let s := s.upd t Thread.takeOrg
    some (1, s.updSs t fun i => { i with orgPriority := 0 })
  else some (0, s)

/-- The head of the list of replenishments goes. -/
def popRepl (s : Sched τ) (rest : List τ) : Sched τ :=
  { s with
    replenishTime := match rest with
      | u :: _ => (s.th u).ss.replTime
      | [] => s.replenishTime
    replenishList := rest }

/-- One turn of the loop of sched_ss_adjust, with the head of the list due. -/
def ssAdjustTurn (s : Sched τ) (t : τ) (rest : List τ) : Option (Nat × Sched τ) :=
  let s := s.popRepl rest
  if (s.th t).policy = .sporadic then do
    let s := s.updSs t fun i => { i with currBudget := i.initBudget, replCount := 0 }
    let (n, s) ← ssRestore b e s t
    some (n, s.updSs t fun i => { i with amount := 0, replTime := 0 })
  else if b.debug then none
  else some (0, s)

/-- The loop of sched_ss_adjust: how many priorities it has restored. -/
def ssAdjustLoop : Nat → Sched τ → Option (Nat × Sched τ)
  | n, s =>
    match s.replenishList with
    | [] => some (0, s)
    | t :: rest =>
      if (s.th t).ss.replTime ≤ e.snap none then
        match n with
        | 0 => none
        | n + 1 => do
          let (k, s) ← ssAdjustTurn b e s t rest
          let (k', s) ← ssAdjustLoop n s
          some (k + k', s)
      else some (0, s)

/-- sched_ss_adjust. -/
def schedSsAdjust (s : Sched τ) : Option (Nat × Sched τ) := ssAdjustLoop b e s.replenishList.length s

/-- The lowest priority resched_default gives the processor to. -/
def reschedPrio (x : Thread) (cpu : Nat) : Nat :=
  if !x.runsOn cpu then 0 else if x.policy = .fifo then min (x.priority + 1) 255 else x.priority

/-- The active thread goes back on its ready list: behind the others when it has used
its time slice. -/
def reschedLink (s : Sched τ) (act : τ) : Sched τ :=
  let s := s.upd act (Thread.rrAddPreempt b)
  let s :=
    if (s.th act).isRR ∧ (s.th act).rrTicks ≥ b.rrMaxticks then
      (s.upd act Thread.rrReset).linkEnd (s.th act).priority act
    else s.linkBeg (s.th act).priority act
  let s := s.dispatchSet act
  s.setState act .ready

/-- resched_default. -/
def resched (s : Sched τ) : Option (Sched τ) := do
  let act := s.actives e.kernCpu
  let s ← ssCheckExpiry b (adjustDrop b e) s act
  let (n, s) ← schedSsAdjust b e s
  if n ≠ 0 ∨ act ≠ s.actives e.kernCpu then some s
  else if e.overCpuTime ∧ !(s.th act).killSelf then some s
  else do
    let (r, s) ← selectThread b e s (reschedPrio (s.th act) e.kernCpu)
    match r with
    | none => some s
    | some t => some (markRunning e (reschedLink b s act) t)

/-! ## sched_thread -/

/-- The requests sched_thread takes in its argument `policy`. -/
inductive Request where
  | adjToHead | adjToTail | noChange | setPrio | policy (p : Policy) | bad
  deriving DecidableEq, Repr

/-- `struct sched_param`, with the two times in nanoseconds. -/
structure Param where
  priority : Int
  lowPriority : Int
  maxRepl : Int
  replPeriod : UInt64
  initBudget : UInt64

/-- What sched_thread returns. -/
inductive Err where
  | eok | einval | eperm | eagain
  deriving DecidableEq, Repr

/-- kerschedok. A request that is no policy at all is `none`. -/
def kerschedok (x : Thread) (policy : Option Policy) (param : Param) : Err :=
  if param.priority < 0 ∨ param.priority ≥ 256 then .einval
  else if param.priority = 0 ∧ ¬(x.ring0 ∧ !x.loading) then .einval
  else if !x.root ∧ param.priority ≥ b.privPrio then .eperm
  else
    match policy with
    | none => .einval
    | some .sporadic =>
      if param.maxRepl < 1 ∨ param.maxRepl > 65535 then .einval
      else if param.lowPriority ≤ 0 ∨ param.lowPriority > param.priority then .einval
      else if param.replPeriod < param.initBudget then .einval
      else .eok
    | some _ => .eok

/-- A checked int as the byte it is stored in. -/
def toPrio (x : Int) : Prio := Fin.ofNat 256 x.toNat

/-- The time when an entry goes: the one of the next, if it was the head. -/
def removeTime (time : τ → UInt64) (first : Bool) (l : List τ) (now : UInt64) : UInt64 :=
  match l with
  | [] => now
  | v :: _ => if first then time v else now

/-- The loop of sched_ss_cleanup. A release build stops at the first hit. -/
def removeRepl (time : τ → UInt64) (t : τ) : Bool → List τ → UInt64 → List τ × UInt64
  | _, [], now => ([], now)
  | first, u :: l, now =>
    if u = t then
      let now := removeTime time first l now
      if b.debug then removeRepl time t first l now else (l, now)
    else
      let (l, now) := removeRepl time t false l now
      (u :: l, now)

/-- sched_ss_cleanup. The thread has no sporadic data any more; the union holds zero. -/
def schedSsCleanup (s : Sched τ) (t : τ) : Option (Sched τ) := do
  let s := s.upd t (Thread.withPolicy .fifo)
  let (list, time) := removeRepl b (fun u => (s.th u).ss.replTime) t true s.replenishList s.replenishTime
  crashcheck b (s.replenishList.count t > 1)
  crashcheck b ((s.th t).ss.amount ≠ 0 ∧ s.replenishList.count t = 0)
  let s := { s with replenishList := list, replenishTime := time }
  some (s.upd t Thread.dropSs)

/-- The sporadic attributes sched_thread stores, and the priority it goes on with: a
dropped thread saves the new priority and stays at the low one. -/
def setAttributes (s : Sched τ) (t : τ) (param : Param) : Prio × Sched τ :=
  let low := toPrio param.lowPriority
  let maxRepl := UInt16.ofNat param.maxRepl.toNat
  let i := (s.th t).ss
  if i.lowPriority = low ∧ i.maxRepl = maxRepl ∧ i.replPeriod = param.replPeriod ∧
      i.initBudget = param.initBudget then (toPrio param.priority, s)
  else
    let s := s.updSs t fun i =>
      { i with
        lowPriority := low, maxRepl := maxRepl, replPeriod := param.replPeriod
        initBudget := param.initBudget }
    if i.orgPriority ≠ 0 then
      (low, s.updSs t fun i => { i with orgPriority := toPrio param.priority })
    else (toPrio param.priority, s)

/-- The sporadic branch of sched_thread: a newcomer gets fresh data. -/
def setSporadic (s : Sched τ) (t : τ) (param : Param) : Prio × Sched τ :=
  let s := if (s.th t).policy ≠ .sporadic then s.upd t Thread.newSporadic else s
  let s := if (s.th t).waaa ∨ (s.th t).policy ≠ .sporadic then
      s.updSs t fun i => { i with activationTime := e.snap (some t), currBudget := param.initBudget }
    else s
  s.setAttributes t param

/-- The other branch: sporadic data goes. -/
def setPlain (s : Sched τ) (t : τ) (param : Param) : Option (Prio × Sched τ) :=
  if (s.th t).policy = .sporadic then do
    let s ← schedSsCleanup b s t
    some (toPrio param.priority, s.upd t Thread.rrReset)
  else some (toPrio param.priority, s.upd t Thread.rrReset)

def setSchedinfo (s : Sched τ) (t : τ) (policy : Policy) (param : Param) : Option (Prio × Sched τ) :=
  if policy = .sporadic then some (setSporadic e s t param) else setPlain b s t param

/-- The part of sched_thread behind its switch: `policy` is what the thread is to have. -/
def setPolicy (s : Sched τ) (t : τ) (policy : Option Policy) (param : Param) :
    Option (Err × Sched τ) :=
  match kerschedok b (s.th t) policy param, policy with
  | .eok, some policy =>
    if policy = .sporadic ∧ (s.th t).policy ≠ .sporadic ∧ !e.ssAlloc then some (.eagain, s)
    else do
      let (prio, s) ← setSchedinfo b e s t policy param
      let s ← adjustPriority b e 2 (s.upd t (Thread.withPolicy policy)) t prio false
      some (.eok, s.upd t (Thread.withReal prio))
  | err, _ => some (err, s)

/-- A thread whose priority was lowered goes to the head of its ready list. -/
def toHead (s : Sched τ) (t : τ) (lowered : Bool) : Option (Sched τ) :=
  if lowered ∧ (s.th t).state = .ready then do
    let s ← s.linkRem (s.th t).priority t
    some (s.linkBeg (s.th t).priority t)
  else some s

/-- The change of priority in SCHED_SETPRIO. -/
def setPrioMove (s : Sched τ) (t : τ) (prio : Prio) : Option (Sched τ) :=
  if prio ≠ (s.th t).priority then do
    let s' ← adjustPriority b e 2 s t prio false
    s'.toHead t (prio < (s.th t).priority)
  else some s

/-- The case SCHED_SETPRIO of sched_thread, with the priority accepted. -/
def setPrio (s : Sched τ) (t : τ) (prio : Prio) : Option (Sched τ) := do
  let s ← setPrioMove b e s t prio
  some (s.upd t (Thread.setprio prio))

/-- sched_thread. -/
def schedThread (s : Sched τ) (t : τ) (req : Request) (param : Param) : Option (Err × Sched τ) :=
  match req with
  | .adjToHead =>
    if (s.th t).state ≠ .ready then some (.einval, s)
    else do
      let s ← s.linkRem (s.th t).priority t
      some (.eok, s.linkBeg (s.th t).priority t)
  | .adjToTail =>
    if (s.th t).state ≠ .ready then some (.einval, s)
    else do
      let s ← s.linkRem (s.th t).priority t
      let s := s.upd t Thread.rrReset
      some (.eok, s.linkEnd (s.th t).priority t)
  | .setPrio =>
    if param.priority ≤ 0 ∨ param.priority ≥ 256 then some (.einval, s)
    else if !(s.th t).root ∧ param.priority ≥ b.privPrio then some (.eperm, s)
    else do
      let s ← setPrio b e s t (toPrio param.priority)
      some (.eok, s)
  | .noChange => setPolicy b e s t (some (s.th t).policy) param
  | .policy p => setPolicy b e s t (some p) param
  | .bad => setPolicy b e s t none param

/-! ## Runs -/

/-- The operations of the scheduler. `block` and `blockAndReady` name the state the
caller stores in the active thread first. Between two operations the rest of the
kernel may change the threads (`outside`): flags, budgets, masks, and the link words
of threads that are not READY, which belong to other queues then. -/
inductive Op (τ : Type) where
  | ready (t : τ)
  | block (st : ThState)
  | blockAndReady (st : ThState) (t : τ)
  | unready (t : τ) (st : ThState)
  | yield
  | resched
  | adjust (t : τ) (prio : Prio) (inherit : Bool)
  | sched (t : τ) (req : Request) (param : Param)
  | outside (th : τ → Thread) (next : τ → Option τ) (prev : τ → Option (Cell Nat τ))

/-- One kernel call: what it finds and what it does. -/
structure Call (τ : Type) where
  env : Env τ
  op : Op τ

/-- The words the rest of the kernel leaves. -/
def outside (s : Sched τ) (th : τ → Thread) (next : τ → Option τ) (prev : τ → Option (Cell Nat τ)) :
    Sched τ :=
  { s with
    th := th
    disp := { s.disp with
      link := fun c => match c with
        | .head p => s.disp.link (.head p)
        | .next t => next t
      prev := prev } }

/-- One operation. -/
def step (s : Sched τ) (c : Call τ) : Option (Sched τ) :=
  let e := c.env
  match c.op with
  | .ready t => readyDefault b e (adjustDrop b e) s t
  | .block st => block b e (s.setState (s.actives e.kernCpu) st)
  | .blockAndReady st t => blockAndReady b e (s.setState (s.actives e.kernCpu) st) t
  | .unready t st => unready b e s t st
  | .yield => yieldDefault b e (adjustDrop b e) s
  | .resched => resched b e s
  | .adjust t prio inherit => adjustPriority b e 2 s t prio inherit
  | .sched t req param => do
    let (_, s) ← schedThread b e s t req param
    some s
  | .outside th next prev => some (s.outside th next prev)

/-- A run: the operations one after the other. -/
def run : Sched τ → List (Call τ) → Option (Sched τ)
  | s, [] => some s
  | s, c :: cs => do
    let s ← step b s c
    run s cs

/-- What the callers of an operation promise: the CRASHCHECKs at its start, that a thread
is blocked in a state that is neither RUNNING nor READY, and that the rest of the
kernel changes neither the state nor the priority of a thread, nor the words of a
READY one. -/
def Ok (s : Sched τ) (c : Call τ) : Prop :=
  c.env.kernCpu < b.numProcessors ∧
  match c.op with
  | .ready t => t ≠ s.actives c.env.kernCpu ∧ (s.th t).state.blocked
  | .block st => st.blocked
  | .blockAndReady st t => st.blocked ∧ t ≠ s.actives c.env.kernCpu ∧ (s.th t).state.blocked
  | .unready t st => st.blocked ∧ (t ≠ s.actives c.env.kernCpu → (s.th t).state ≠ .running)
  | .outside th next prev =>
    (∀ t, (th t).state = (s.th t).state ∧ (th t).priority = (s.th t).priority) ∧
      ∀ t, (s.th t).state = .ready → next t = s.disp.link (.next t) ∧ prev t = s.disp.prev t
  | _ => True

/-- Every operation of a run is called as promised. -/
def OkAlong : Sched τ → List (Call τ) → Prop
  | _, [] => True
  | s, c :: cs => Ok b s c ∧ ∀ s', step b s c = some s' → OkAlong s' cs

end Sched

end QRV.Nano
