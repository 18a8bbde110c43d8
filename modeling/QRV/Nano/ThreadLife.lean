import QRV.Lib.Run

/- The threads of a process and who points at them: thread_create and thread_destroy of
   `kernel/nano/nano_thread.c`, the timers and the alarm of `kernel/ker_timer.c`, and
   interrupt_attach and interrupt_detach of `kernel/nano/nano_interrupt.c`.

   A thread dies in stages. thread_destroy can give up early (the thread runs on another processor, is
   in a state that it cannot be taken out of, or its FPU registers are elsewhere), it can leave the
   thread in STATE_STACK until the process manager has freed the stack, and a thread that is neither
   detached nor joined stays as a zombie in STATE_DEAD until the call is made again. The object goes
   back to thread_souls at the end.

   `threads` is the thread vector in the order of its entries, `flagged` the bit that makes lookups
   fail. `allocated` are the objects that have not been returned. Timers and interrupts are those of the
   process. A pointer is an `Option`. Of a timer only the fields that decide about its thread are
   modelled. `none` is a crash: a null pointer or an object that has been returned is followed.

   Correspondence (C ↔ Lean) where the names differ:
     `thread_start` (WAAA)             ↔ `threadStart`
     `thread_destroy`                  ↔ `threadDestroy` (`kill`, `remove`)
     `ker_timer_create`, `_destroy`    ↔ `Op.timerCreate`, `Op.timerDestroy`
     `ker_timer_settime`, `_alarm`     ↔ `timerSettime`, `timerAlarm`
     `ker_timer_info`                  ↔ `timerInfo`
     `timer_rearm` (one shot)          ↔ `Op.timerExpire`, `Op.alarmExpire`
     `interrupt_attach`, `_detach`     ↔ `Op.attach`, `Op.detach` -/
namespace QRV.Nano.ThreadLife
open Function (update)

/-- The states that matter: STATE_STACK, STATE_DEAD, and all others. -/
inductive Life where
  | live
  | stack
  | dead
  deriving DecidableEq, Repr

structure Timer (T : Type) where
  id : Nat
  thread : Option T
  /-- _NTO_TI_ACTIVE -/
  active : Bool
  /-- _NTO_TI_TARGET_PROCESS -/
  targetProcess : Bool

structure Interrupt (T : Type) where
  id : Nat
  thread : Option T
  /-- _NTO_INTR_FLAGS_PROCESS -/
  process : Bool

structure Process (T : Type) where
  threads : List T
  flagged : T → Bool
  life : T → Life
  allocated : List T
  validThp : Option T
  numActiveThreads : Nat
  timers : List (Timer T)
  alarm : Option (Timer T)
  interrupts : List (Interrupt T)
  /-- QRV_FLG_PROC_CHECK_INTR -/
  checkIntr : Bool

variable {T : Type} [DecidableEq T]

/-- thread_create: `pos` is the place of the entry that vector_add finds, and `hookFails` says that
kerop_thread_create_hook returns an error. -/
def threadCreate (thp : T) (pos : Nat) (hookFails : Bool) (prp : Process T) : Process T :=
  if thp ∈ prp.allocated ∨ thp ∈ prp.threads then prp
  else
    let prp := { prp with
      allocated := thp :: prp.allocated
      threads := prp.threads.insertIdx (min pos prp.threads.length) thp
      validThp := if prp.validThp = none then some thp else prp.validThp
      life := update prp.life thp .live
      flagged := update prp.flagged thp false }
    if hookFails then { prp with allocated := prp.allocated.erase thp }
    else { prp with
      numActiveThreads := prp.numActiveThreads + 1
      flagged := update prp.flagged thp true }

/-- The thread starts to run: lookups find it. -/
def threadStart (thp : T) (prp : Process T) : Process T :=
  if thp ∈ prp.threads ∧ prp.life thp = .live then
    { prp with flagged := update prp.flagged thp false }
  else prp

/-- The search for another thread: the first one that lookups find, or else the last one that is not dead. -/
def findThread (flagged : T → Bool) (life : T → Life) : List T → Option T → Option T
  | [], thp3 => thp3
  | thp2 :: rest, thp3 =>
    if flagged thp2 = false then some thp2
    else findThread flagged life rest (if life thp2 ≠ .dead then some thp2 else thp3)

/-- What happens to a timer when the thread dies and `n` threads are left. -/
def retarget (thp : T) (n : Nat) (validThp : Option T) (tip : Timer T) : Timer T :=
  if tip.active = true ∧ (n = 0 ∨ tip.thread = some thp) then
    if tip.targetProcess = true ∧ validThp ≠ none then { tip with thread := validThp }
    -- timer_deactivate
    else { tip with active := false }
  else tip

/-- Alarm timers are always process based. -/
def retargetAlarm (thp : T) (validThp : Option T) (tip : Timer T) : Timer T :=
  if tip.thread = some thp then { tip with thread := validThp } else tip

/-- The same for an interrupt; `none` if it is detached. -/
def retargetIntr (thp : T) (n : Nat) (validThp : Option T) (itp : Interrupt T) : Option (Interrupt T) :=
  if n = 0 then none
  else if itp.thread ≠ some thp then some itp
  else if itp.process then some { itp with thread := validThp }
  else none

/-- The part of thread_destroy in which the thread becomes dead, from the lookups on. -/
def kill (thp : T) (prp : Process T) : Process T :=
  let flagged := update prp.flagged thp true
  let life := update prp.life thp .dead
  let n := prp.numActiveThreads - 1
  let validThp :=
    if n ≠ 0 ∧ prp.validThp = some thp then findThread flagged life prp.threads none
    else if n = 0 then none
    else prp.validThp
  { prp with
    flagged := flagged
    life := life
    numActiveThreads := n
    validThp := validThp
    timers := prp.timers.map (retarget thp n validThp)
    alarm := prp.alarm.map (retargetAlarm thp validThp)
    interrupts :=
      if prp.checkIntr then prp.interrupts.filterMap (retargetIntr thp n validThp) else prp.interrupts }

/-- The end of thread_destroy: the object is returned, unless the thread becomes a zombie. -/
def remove (thp : T) (zombie : Bool) (prp : Process T) : Process T :=
  if zombie = true ∧ prp.threads.length ≠ 1 then prp
  else { prp with threads := prp.threads.erase thp, allocated := prp.allocated.erase thp }

/-- What thread_destroy finds. -/
structure Env where
  /-- the thread cannot be killed now -/
  later : Bool
  /-- its stack is to be freed by the process manager -/
  stack : Bool
  /-- nobody joins it, and it is not detached -/
  zombie : Bool

def threadDestroy (thp : T) (env : Env) (prp : Process T) : Process T :=
  if thp ∉ prp.threads then prp
  else if prp.life thp = .dead then remove thp env.zombie prp
  else if env.later then prp
  else if env.stack then { prp with life := update prp.life thp .stack }
  else remove thp env.zombie (kill thp prp)

/-! ## Timers and interrupts -/

/-- A thread that makes a call. -/
def Process.Calls (prp : Process T) (act : T) : Prop := act ∈ prp.threads ∧ prp.life act = .live

instance (prp : Process T) (act : T) : Decidable (prp.Calls act) :=
  inferInstanceAs (Decidable (act ∈ prp.threads ∧ prp.life act = .live))

/-- A timer is set, or disabled (`nsec` is 0). -/
def timerSettime (act : T) (nsec : Nat) (tip : Timer T) : Timer T :=
  if nsec ≠ 0 then { tip with active := true, thread := some act } else { tip with active := false }

def timerAlarm (act : T) (nsec : Nat) : Option (Timer T) :=
  if nsec = 0 then none else some ⟨0, some act, true, true⟩

/-- ker_timer_info reads the id of the thread, if the timer has one for target. -/
def timerInfo (prp : Process T) (tip : Timer T) : Option (Process T) :=
  if tip.targetProcess then some prp
  else
    match tip.thread with
    | none => none
    | some thp => if thp ∈ prp.allocated then some prp else none

inductive Op (T : Type) where
  | create (thp : T) (pos : Nat) (hookFails : Bool)
  | start (thp : T)
  | destroy (thp : T) (env : Env)
  /-- the event of the timer is SIGEV_SIGNAL_THREAD, or not -/
  | timerCreate (act : T) (id : Nat) (signalThread : Bool)
  | timerDestroy (id : Nat)
  | timerSettime (act : T) (id : Nat) (nsec : Nat)
  | timerExpire (id : Nat)
  | timerInfo (id : Nat)
  | alarm (act : T) (nsec : Nat)
  | alarmExpire
  | attach (act : T) (id : Nat) (process : Bool)
  | detach (id : Nat)

def step (prp : Process T) : Op T → Option (Process T)
  | .create thp pos hookFails => some (threadCreate thp pos hookFails prp)
  | .start thp => some (threadStart thp prp)
  | .destroy thp env => some (threadDestroy thp env prp)
  | .timerCreate act id signalThread =>
    if prp.Calls act ∧ ∀ tip ∈ prp.timers, tip.id ≠ id then
      some { prp with timers := prp.timers ++ [⟨id, none, false, !signalThread⟩] }
    else some prp
  | .timerDestroy id => some { prp with timers := prp.timers.filter (·.id ≠ id) }
  | .timerSettime act id nsec =>
    if prp.Calls act then
      some { prp with timers := prp.timers.map fun tip => if tip.id = id then timerSettime act nsec tip else tip }
    else some prp
  | .timerExpire id =>
    some { prp with timers := prp.timers.map fun tip => if tip.id = id then { tip with active := false } else tip }
  | .timerInfo id =>
    match prp.timers.find? (·.id = id) with
    | none => some prp
    | some tip => timerInfo prp tip
  | .alarm act nsec => if prp.Calls act then some { prp with alarm := timerAlarm act nsec } else some prp
  | .alarmExpire => some { prp with alarm := prp.alarm.map fun tip => { tip with active := false } }
  | .attach act id process =>
    if prp.Calls act ∧ ∀ itp ∈ prp.interrupts, itp.id ≠ id then
      some { prp with interrupts := prp.interrupts ++ [⟨id, some act, process⟩], checkIntr := true }
    else some prp
  | .detach id => some { prp with interrupts := prp.interrupts.filter (·.id ≠ id) }

def run (ops : List (Op T)) (prp : Process T) : Option (Process T) := Run.exec step ops prp

/-- A process without threads. -/
def newProcess : Process T where
  threads := []
  flagged _ := false
  life _ := .dead
  allocated := []
  validThp := none
  numActiveThreads := 0
  timers := []
  alarm := none
  interrupts := []
  checkIntr := false

end QRV.Nano.ThreadLife
