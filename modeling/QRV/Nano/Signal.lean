import QRV.Lib.Run
import QRV.Lib.StableQueue

/- The signals of one process: `kernel/nano/nano_signal.c`, the calls of
   `kernel/ker_signal.c`, and what specialret, thread_create and thread_destroy do with
   masks and pending signals.

   A pending signal is a pulse on a priority list, that of the process or that of a thread;
   its priority is `_SIGMAX - signo`. The lists are lists here, in the order of
   PRIL_PRIORITY (`Pulse.key`); a boosted pulse (a fault) goes before all others. Signal
   numbers are at most `_SIGMAX`.

   What the other parts of the kernel decide is input: whether a pulse can be allocated,
   whether the debugger takes a signal, what becomes of a thread that a signal kills.
   Signals that go to the parent process or to the process manager are not signals of this
   process. READY, RUNNING and STOPPED are one state. A handler is one entry, not a table of
   four; an entry without handler behaves as a missing one.

   `none` is an access to a pulse that has been freed, a division by zero or a call of
   crash().

   Correspondence (C ↔ Lean) where the names differ:
     `ker_signal_*`                             ↔ `signalReturn`, `signalAction`, `signalProcmask`,
                                                  `signalSuspend`, `signalWaitinfo`
     specialret with QRV_FLG_THR_SIGSUSPEND     ↔ the second case of `specret` -/
namespace QRV.Nano.Signal
open StableQueue

/-! ## Signal sets -/

abbrev SigSet := BitVec 64

def sigill : Nat := 4
def sigtrap : Nat := 5
def sigkill : Nat := 9
def sigchld : Nat := 18
def sigpwr : Nat := 19
def sigwinch : Nat := 20
def sigurg : Nat := 21
def sigstop : Nat := 23
def sigtstp : Nat := 24
def sigcont : Nat := 25
def sigttin : Nat := 26
def sigttou : Nat := 27
def sigrtMax : Nat := 56
def sigMax : Nat := 64

def sigTst (set : SigSet) (signo : Nat) : Bool := set.getLsbD (signo - 1)
def sigSet (set : SigSet) (signo : Nat) : SigSet := set ||| 1#64 <<< (signo - 1)
def sigClr (set : SigSet) (signo : Nat) : SigSet := set &&& ~~~(1#64 <<< (signo - 1))
def sigmaskNoKillstop (set : SigSet) : SigSet := set &&& ~~~(1#64 <<< (sigkill - 1) ||| 1#64 <<< (sigstop - 1))
def sigmaskSpecial (set : SigSet) : SigSet := set ||| 0xff00000000000000#64
def sigmaskOnes : SigSet := BitVec.allOnes 64

/-! ## Pending signals -/

structure Pulse where
  signo : Nat
  /-- TYPE_FLAG_FIRST -/
  boost : Bool := false
  code : Int8
  value : UInt32
  id : Int32
  /-- How often the pulse stands for more than one; `count` is one more. -/
  more : Nat := 0
  deriving DecidableEq, Repr

def Pulse.count (pup : Pulse) : Nat := pup.more + 1

/-- PRIL_PRIORITY -/
def Pulse.key (pup : Pulse) : Nat := (sigMax - pup.signo) + if pup.boost then 256 else 0

/-- `_PULSE_COUNT_MAX` -/
def pulseCountMax : Nat := 0xffffffff

/-- The scan of pulse_add with `_PULSE_PRIO_REPLACE`. -/
def pulseReplace (new : Pulse) : List Pulse → Option (List Pulse)
  | [] => none
  | pup :: queue =>
    if pup.key = new.key ∧ pup.code = new.code ∧ pup.id = new.id then some ({ pup with value := new.value } :: queue)
    else (pulseReplace new queue).map (pup :: ·)

/-- The last pulse of the level counts one that repeats it. -/
def pulseCompress (new : Pulse) : List Pulse → Option (List Pulse)
  | [] => none
  | pup :: queue =>
    if pup.key = new.key ∧ queue.all (·.key ≠ new.key) then
      if pup.code = new.code ∧ pup.id = new.id ∧ pup.value = new.value ∧ pup.count < pulseCountMax then
        some ({ pup with more := pup.more + 1 } :: queue)
      else none
    else (pulseCompress new queue).map (pup :: ·)

/-- pulse_add; `alloc` says whether object_alloc finds a pulse. The result is the queue, and whether the
signal is on it. -/
def pulseAdd (queue : List Pulse) (new : Pulse) (replace alloc : Bool) : List Pulse × Bool :=
  match if replace then pulseReplace new queue else pulseCompress new queue with
  | some queue => (queue, true)
  | none => if alloc then (enqueue Pulse.key new queue, true) else (queue, false)

/-- pulse_remove of the first pulse that passes the test. -/
def pulseRemove (test : Pulse → Bool) : List Pulse → List Pulse
  | [] => []
  | pup :: queue =>
    if test pup then if pup.more = 0 then queue else { pup with more := pup.more - 1 } :: queue
    else pup :: pulseRemove test queue

/-- signal_discard walks the level of the signal, where no boosted pulse is. -/
def signalDiscard (signo : Nat) (queue : List Pulse) : List Pulse :=
  queue.filter fun pup => pup.signo ≠ signo || pup.boost

/-! ## Threads and the process -/

inductive ThState where
  | ready
  | sigwaitinfo (sigWait : SigSet)
  /-- REPLY blocked; `unblock`: the server gets an unblock pulse instead. -/
  | reply (unblock : Bool)
  /-- STATE_STACK or STATE_WAITPAGE -/
  | stack
  | dead
  | other
  deriving DecidableEq, Repr

structure Thread where
  /-- The entry of the thread vector is not flagged. -/
  valid : Bool
  state : ThState
  sigBlocked : SigSet
  sigPending : List Pulse
  /-- QRV_FLG_THR_SIG_ACTIVE -/
  sigActive : Bool
  /-- QRV_FLG_THR_SIGSUSPEND -/
  sigSuspend : Bool
  /-- args.ss.sig_blocked -/
  saved : SigSet
  /-- The thread is being destroyed. -/
  dying : Bool
  deriving DecidableEq, Repr

structure Handler where
  /-- There is a handler. -/
  handler : Bool
  /-- SA_RESETHAND -/
  resetHand : Bool
  /-- SA_NODEFER -/
  noDefer : Bool
  sigBlocked : SigSet
  deriving DecidableEq, Repr

structure Proc where
  /-- The thread vector; a free entry is `none`. -/
  threads : List (Option Thread)
  sigPending : List Pulse
  sigIgnore : SigSet
  sigQueue : SigSet
  handlers : Nat → Option Handler
  /-- QRV_FLG_PROC_STOPPED, QRV_FLG_PROC_CONTINUED, QRV_FLG_PROC_DESTROYALL -/
  stopped : Bool
  continued : Bool
  destroyAll : Bool
  sigtidCache : Nat

def Proc.thread (prp : Proc) (tid : Nat) : Option Thread := prp.threads[tid]?.join

/-- What all threads satisfy. -/
def Proc.All (prp : Proc) (P : Thread → Prop) : Prop := ∀ entry ∈ prp.threads, ∀ thp ∈ entry, P thp

instance (prp : Proc) (P : Thread → Prop) [DecidablePred P] : Decidable (prp.All P) :=
  inferInstanceAs (Decidable (∀ entry ∈ prp.threads, ∀ thp ∈ entry, P thp))

def Proc.setThread (prp : Proc) (tid : Nat) (thp : Thread) : Proc :=
  { prp with threads := prp.threads.set tid (some thp) }

/-- `(shp = get_signal_handler(prp, signo, 0)) && shp->handler` -/
def Proc.handles (prp : Proc) (signo : Nat) : Bool := (prp.handlers signo).any (·.handler)

/-- `shp->handler = NULL` -/
def Proc.unhandle (prp : Proc) (signo : Nat) : Proc :=
  { prp with handlers := Function.update prp.handlers signo ((prp.handlers signo).map ({ · with handler := false })) }

/-- force_ready, as far as the states here go. -/
def Thread.forceReady (thp : Thread) : Thread :=
  match thp.state with
  | .ready | .dead | .stack | .reply true => thp
  | _ => { thp with state := .ready }

/-- A signal that is not blocked is pending. -/
def Thread.due (thp : Thread) : Bool := thp.sigPending.any fun pup => !sigTst thp.sigBlocked pup.signo

/-- signal_remove for one thread. -/
def Thread.remove (signo : Nat) (thp : Thread) : Thread :=
  if thp.valid then
    let thp := { thp with sigPending := signalDiscard signo thp.sigPending }
    { thp with sigActive := thp.sigActive && thp.due }
  else thp

def signalRemove (prp : Proc) (signo : Nat) : Proc :=
  { prp with
    sigPending := signalDiscard signo prp.sigPending
    threads := prp.threads.map (·.map (Thread.remove signo)) }

/-- What the calls that send a signal return. -/
inductive SigStat where
  | noperms
  | ignored
  | queued
  | notQueued
  deriving DecidableEq, Repr

/-- What a stop signal does to a process that has no handler for it. -/
def stopProcess (prp : Proc) : Proc × Option SigStat :=
  -- don't stop if process is being destroyed
  if prp.destroyAll then (prp, some .queued)
  else
    let prp := if prp.stopped then prp else { prp with stopped := true, continued := false }
    (signalRemove prp sigcont, some .queued)

/-- special_case_signalhandling; no status is -1. `thp` says that there is a thread, `debug` that the
debugger takes the signal. -/
def specialCaseSignalhandling (prp : Proc) (thp : Bool) (signo : Nat) (debug : Bool) : Proc × Option SigStat :=
  if signo = sigtstp ∨ signo = sigttin ∨ signo = sigttou then
    if prp.handles signo then (signalRemove prp sigcont, none) else stopProcess prp
  else if signo = sigstop then stopProcess prp
  else if signo = sigcont then
    if thp && debug then (prp, some .queued)
    else
      let prp := { prp with stopped := false, continued := true }
      let prp := signalRemove (signalRemove prp sigstop) sigtstp
      let prp := signalRemove (signalRemove prp sigttin) sigttou
      (prp, if prp.handles signo then none else some .queued)
  else if signo = sigpwr ∨ signo = sigurg ∨ signo = sigwinch ∨ signo = sigchld then
    (prp, if prp.handles signo then none else some .queued)
  else if signo = sigkill then ({ prp with stopped := false, destroyAll := true }, none)
  else (prp, none)

/-! ## Sending signals -/

structure Sig where
  signo : Nat
  code : Int32
  value : UInt32
  id : Int32
  deriving DecidableEq, Repr

/-- SI_TIMER -/
def siTimer : Int32 := -3

/-- What the rest of the kernel decides while a signal is sent. -/
structure Env where
  /-- A pulse can be allocated for the thread, or (`none`) for the process. -/
  alloc : Option Nat → Bool
  /-- The debugger takes the signal of the thread. -/
  debug : Nat → Bool

def Sig.pulse (sig : Sig) : Pulse :=
  { signo := sig.signo, code := sig.code.toInt8, value := sig.value, id := sig.id }

/-- Signals that are not queued replace, and SI_TIMER is never queued. -/
def Proc.replaces (prp : Proc) (sig : Sig) : Bool := !sigTst prp.sigQueue sig.signo || sig.code = siTimer

/-- The thread waits for the signal in SignalWaitinfo. -/
def Thread.waits (thp : Thread) (signo : Nat) : Bool :=
  match thp.state with
  | .sigwaitinfo sigWait => sigTst sigWait signo
  | _ => false

/-- The end of signal_kill_thread: the signal is put on the thread. -/
def queueThread (env : Env) (prp : Proc) (tid : Nat) (thp : Thread) (sig : Sig) : Proc × SigStat :=
  let (queue, pup) := pulseAdd thp.sigPending sig.pulse (prp.replaces sig) (env.alloc (some tid))
  let thp := { thp with sigPending := queue }
  let thp := if sigTst thp.sigBlocked sig.signo then thp else { thp.forceReady with sigActive := true }
  (prp.setThread tid thp, if pup then .queued else .notQueued)

def signalKillThread (env : Env) (prp : Proc) (tid : Nat) (sig : Sig) : Proc × SigStat :=
  match prp.thread tid with
  | none => (prp, .noperms)
  | some thp =>
    -- Ignoring SIGCONT is equivalent to default action
    if sigTst prp.sigIgnore sig.signo ∧ sig.signo ≠ sigcont then (prp, .ignored)
    else if thp.waits sig.signo then
      if env.debug tid then (prp, .queued) else (prp.setThread tid { thp with state := .ready }, .queued)
    else
      match specialCaseSignalhandling prp true sig.signo (env.debug tid) with
      | (prp, some status) => (prp, status)
      | (prp, none) =>
        -- the pulses of the thread may have changed
        match prp.thread tid with
        | none => (prp, .noperms)
        | some thp => queueThread env prp tid thp sig

/-- What the scan of signal_kill_process has found. -/
structure Scan where
  prp : Proc
  target : Option Nat := none
  /-- The status of the last SIGKILL it sent. -/
  sent : Option SigStat := none

def scanThreads (env : Env) (sig : Sig) : Nat → Nat → Scan → Scan
  | 0, _, sc => sc
  | iters + 1, tid, sc =>
    let next := (tid + 1) % sc.prp.threads.length
    match sc.prp.thread tid with
    | none => scanThreads env sig iters next sc
    | some thp =>
      if thp.waits sig.signo then { sc with target := some tid }
      else if sigTst thp.sigBlocked sig.signo then scanThreads env sig iters next sc
      else
        match thp.state with
        -- Try to stay away from a thread that may need an unblock pulse
        | .reply _ => scanThreads env sig iters next { sc with target := some tid }
        | _ =>
          if sig.signo = sigkill then
            let (prp, status) := signalKillThread env sc.prp tid sig
            scanThreads env sig iters next ⟨prp, some tid, some status⟩
          else { sc with target := some tid }

/-- The signal goes on the process. -/
def queueProcess (env : Env) (prp : Proc) (sig : Sig) : Proc × SigStat :=
  ({ prp with sigPending := (pulseAdd prp.sigPending sig.pulse (prp.replaces sig) (env.alloc none)).1 }, .queued)

/-- None of the threads would accept the signal. -/
def killUnaccepted (env : Env) (prp : Proc) (sig : Sig) : Proc × SigStat :=
  if (sig.signo = sigchld ∨ sig.signo = sigpwr ∨ sig.signo = sigurg ∨ sig.signo = sigwinch) ∧
      ¬ prp.handles sig.signo then (prp, .queued)
  else if sig.signo = sigcont then
    -- Ensure that SIGCONT always continues the process
    let prp := (specialCaseSignalhandling prp false sig.signo false).1
    if sigTst prp.sigIgnore sig.signo then (prp, .ignored) else queueProcess env prp sig
  else queueProcess env prp sig

def signalKillProcess (env : Env) (prp : Proc) (sig : Sig) : Option (Proc × SigStat) :=
  if sigTst prp.sigIgnore sig.signo ∧ sig.signo ≠ sigcont then some (prp, .ignored)
  else if prp.threads.length = 0 then none
  else
    let tid := if sig.signo = sigkill ∨ sig.signo = sigcont ∨ sig.signo = sigstop then 0 else prp.sigtidCache
    let sc := scanThreads env sig (prp.threads.length + 1) tid ⟨prp, none, none⟩
    match sc.target, sc.sent with
    | some _, some status => some (sc.prp, status)
    | some target, none => some (signalKillThread env { sc.prp with sigtidCache := target } target sig)
    | none, _ => some (killUnaccepted env sc.prp sig)

/-! ## The mask of a thread -/

/-- The loop of signal_block over the pulses of the thread; `kept` are those it has passed. Once SIGCONT is
removed, its pulses are not on the list any more, and if the next one was such a pulse the loop goes on
with freed memory. -/
def blockLoop (tid : Nat) : Proc → Bool → List Pulse → List Pulse → Option Proc
  | prp, _, _, [] => some prp
  | prp, removed, kept, pup :: rest =>
    match prp.thread tid with
    | none => none
    | some thp =>
      if removed && pup.signo = sigcont && !pup.boost then blockLoop tid prp removed kept rest
      else if sigTst thp.sigBlocked pup.signo then blockLoop tid prp removed (kept ++ [pup]) rest
      else if pup.signo = sigcont then
        -- If there is no handler, discard the SIGCONT.
        if prp.handles sigcont then
          blockLoop tid (prp.setThread tid { thp with sigActive := true }) removed (kept ++ [pup]) rest
        else
          let left := if removed then signalDiscard sigcont rest else rest
          blockLoop tid (prp.setThread tid { thp with sigPending := kept ++ left }) removed kept rest
      else
        let (prp', status) := specialCaseSignalhandling prp true pup.signo false
        match prp'.thread tid with
        | none => none
        | some thp' =>
          -- whether SIGCONT was removed, and with it the next pulse
          let gone := decide (thp'.sigPending ≠ thp.sigPending)
          if gone && rest.head?.any (fun next => next.signo = sigcont && !next.boost) then none
          else
            let removed := removed || gone
            let kept := if gone then signalDiscard sigcont kept else kept
            let left := if removed then signalDiscard sigcont rest else rest
            match status with
            | none =>
              blockLoop tid (prp'.setThread tid { thp' with sigActive := true }) removed (kept ++ [pup]) rest
            | some _ =>
              -- this one's been dealt with, so remove it
              blockLoop tid (prp'.setThread tid { thp' with sigPending := kept ++ left }) removed kept rest

/-- signal_block. Signals of the process that the thread does not block are moved to it. -/
def signalBlock (prp : Proc) (tid : Nat) (sigBlocked : SigSet) : Option Proc :=
  match prp.thread tid with
  | none => some prp
  | some thp =>
    let mask := sigmaskNoKillstop sigBlocked
    let moved := prp.sigPending.filter fun pup => !sigTst mask pup.signo
    let pending := moved.foldl (fun queue pup => enqueue Pulse.key pup queue) thp.sigPending
    let thp := { thp with sigBlocked := mask, sigPending := pending, sigActive := false }
    let prp := { prp with sigPending := prp.sigPending.filter fun pup => sigTst mask pup.signo }
    (blockLoop tid (prp.setThread tid thp) false [] pending).map fun prp =>
      match prp.thread tid with
      | none => prp
      | some thp => if thp.sigActive then prp.setThread tid thp.forceReady else prp

/-- `how` of SignalProcmask. -/
inductive How where
  | block
  | unblock
  | setmask

def signalProcmask (prp : Proc) (tid : Nat) (how : How) (sigBlocked : SigSet) : Option Proc :=
  match prp.thread tid with
  | none => some prp
  | some thp =>
    let newbits := match how with
      | .block => thp.sigBlocked ||| sigBlocked
      | .unblock => thp.sigBlocked &&& ~~~sigBlocked
      | .setmask => sigBlocked
    -- The top 8 signal bits (of 64) may not be changed.
    signalBlock prp tid (sigmaskSpecial newbits)

/-- How SignalSuspend goes on when no signal is active. -/
inductive Suspend where
  /-- an immediate timeout -/
  | timeout
  /-- a pending cancelation -/
  | cancel
  | block

def signalSuspend (prp : Proc) (tid : Nat) (sigBlocked : SigSet) (how : Suspend) : Option Proc :=
  match prp.thread tid with
  | none => some prp
  | some thp => do
    let prp ← signalBlock (prp.setThread tid { thp with saved := thp.sigBlocked }) tid (sigmaskSpecial sigBlocked)
    let thp ← prp.thread tid
    if thp.sigActive then some (prp.setThread tid { thp with sigSuspend := true })
    else
      match how with
      | .timeout => some (prp.setThread tid { thp with sigBlocked := thp.saved })
      | .cancel => some prp
      | .block =>
        some { prp.setThread tid { thp with state := .other, sigSuspend := true } with sigtidCache := tid }

/-- ker_signal_return, with the mask it finds in the SIGSTACK of the user. -/
def signalReturn (prp : Proc) (tid : Nat) (sigBlocked : SigSet) : Option Proc := signalBlock prp tid sigBlocked

/-- ker_signal_waitinfo: a pending signal is taken, or the thread waits; `timeout` stands for a timeout or a
cancelation. -/
def signalWaitinfo (prp : Proc) (tid : Nat) (sigWait : SigSet) (timeout : Bool) : Proc :=
  match prp.thread tid with
  | none => prp
  | some thp =>
    let test (pup : Pulse) := sigTst sigWait pup.signo
    if thp.sigPending.any test then prp.setThread tid { thp with sigPending := pulseRemove test thp.sigPending }
    else if prp.sigPending.any test then { prp with sigPending := pulseRemove test prp.sigPending }
    else if timeout then prp
    else { prp.setThread tid { thp with state := .sigwaitinfo (sigmaskNoKillstop sigWait) } with sigtidCache := tid }

/-! ## Handlers -/

def signalIgnore (prp : Proc) (signo : Nat) : Proc :=
  signalRemove { prp with sigIgnore := sigSet prp.sigIgnore signo } signo

/-- The new action of SignalAction. -/
inductive Action where
  | ignore
  | default
  /-- A value below 16 that stands for nothing. -/
  | reserved
  /-- A handler; the entry for it can be allocated or not. -/
  | handle (sigBlocked : SigSet) (alloc : Bool)

/-- The first changes of ker_signal_action: how the signal is queued, and the entry of the signal loses its
handler. -/
def Proc.resetAction (prp : Proc) (signo : Nat) (siginfo resetHand noDefer : Bool) : Proc :=
  let shp := (prp.handlers signo).map ({ · with handler := false, resetHand := resetHand, noDefer := noDefer })
  { prp with
    sigQueue := if siginfo then sigSet prp.sigQueue signo else sigClr prp.sigQueue signo
    handlers := Function.update prp.handlers signo shp }

/-- ker_signal_action with an action. -/
def signalAction (prp : Proc) (signo : Nat) (action : Action) (siginfo resetHand noDefer : Bool) : Proc :=
  let prp' := prp.resetAction signo siginfo resetHand noDefer
  -- You can only set SIGKILL and SIGSTOP to their default action.
  let only := signo = sigkill ∨ signo = sigstop
  if signo = 0 ∨ sigrtMax < signo then prp
  else match action with
  | .ignore => if only then prp else signalIgnore prp' signo
  | .default =>
    -- Remove pending signals whose default action is to ignore
    let prp' := if signo = sigchld ∨ signo = sigurg ∨ signo = sigcont ∨ signo = sigpwr ∨ signo = sigwinch then
      signalIgnore prp' signo else prp'
    { prp' with sigIgnore := sigClr prp'.sigIgnore signo }
  | .reserved => if only then prp else prp'
  | .handle sigBlocked alloc =>
    if only then prp
    else
      let prp' := { prp' with sigIgnore := sigClr prp'.sigIgnore signo }
      if (prp.handlers signo).isNone ∧ ¬ alloc then prp'
      else
        let shp : Handler := ⟨true, resetHand, noDefer, sigmaskNoKillstop sigBlocked⟩
        { prp' with handlers := Function.update prp'.handlers signo (some shp) }

/-! ## Destroying threads -/

/-- How far thread_destroy comes: it stops before the pulses are purged, the thread is dead, or its entry is
free again. -/
inductive Destroy where
  | started
  | dead
  | gone

/-- thread_destroy from the point where all signals are blocked. -/
def threadDestroy (prp : Proc) (tid : Nat) (thp : Thread) : Destroy → Proc
  | .started => prp.setThread tid { thp with dying := true, sigBlocked := sigmaskOnes }
  | .dead => prp.setThread tid { thp with dying := true, sigBlocked := sigmaskOnes, sigPending := []
                                          valid := false, state := .dead }
  | .gone =>
    let prp := { prp with threads := prp.threads.set tid none }
    -- the pulses of the process go with its last thread
    if prp.threads.all (·.isNone) then { prp with sigPending := [], sigIgnore := sigmaskOnes } else prp

/-! ## Delivery -/

/-- The scan of signal_specret: whether another pulse keeps the thread's signals active. The pulses of a
blocked level are passed one by one here. -/
def scanActive (sigBlocked : SigSet) : Bool → List Pulse → Bool
  | _, [] => false
  | found, pup :: rest =>
    if sigTst sigBlocked pup.signo then scanActive sigBlocked found rest
    else if found then true
    else if rest.head?.any (·.signo = pup.signo) then true
    else scanActive sigBlocked true rest

/-- Whether the frame for the handler can be written to the user's stack. -/
inductive Frame where
  | ok
  /-- the stack is outside of the process -/
  | outside
  | fault

/-- What becomes of a thread that a signal kills. -/
inductive Kill where
  /-- The kernel debugger has dealt with a fault. -/
  | debugged
  /-- Only the thread goes (QRV_FLG_THR_NOMULTISIG). -/
  | thread (stage : Destroy)
  /-- The process manager dumps the process first. -/
  | coredump
  | process

/-- `SI_USER` -/
def siUser : Int8 := 0

/-- thread_destroyall, for the thread that calls it. -/
def threadDestroyall (prp : Proc) (tid : Nat) (thp : Thread) : Proc :=
  { prp.setThread tid { thp with sigActive := false, sigSuspend := false, dying := true
                                 sigBlocked := sigmaskOnes } with destroyAll := true }

/-- The end of signal_specret, for a signal that has no handler. -/
def killit (prp : Proc) (tid : Nat) (thp : Thread) (pup : Pulse) (active : Bool) (kill : Kill) : Proc :=
  let thp := { thp with sigActive := active }
  match kill with
  | .debugged =>
    if siUser < pup.code then prp.setThread tid { thp with
      sigPending := pulseRemove (fun pup => !sigTst thp.sigBlocked pup.signo) thp.sigPending }
    else threadDestroyall prp tid thp
  | .thread stage => threadDestroy (prp.setThread tid thp) tid thp stage
  | .coredump => prp.setThread tid { thp with sigActive := false, sigSuspend := false }
  | .process => threadDestroyall prp tid thp

/-- The handler is entered. -/
def enterHandler (prp : Proc) (tid : Nat) (thp : Thread) (signo : Nat) (shp : Handler) (active : Bool) : Proc :=
  let pending := pulseRemove (fun pup => !sigTst thp.sigBlocked pup.signo) thp.sigPending
  -- We block the signal before entering the handler and apply sigaction mask.
  let mask := if shp.noDefer || shp.resetHand then thp.sigBlocked else sigSet thp.sigBlocked signo
  let prp := prp.setThread tid { thp with sigActive := active, sigSuspend := false, sigPending := pending
                                          sigBlocked := mask ||| shp.sigBlocked }
  if shp.resetHand ∧ signo ≠ sigill ∧ signo ≠ sigtrap then
    { prp.unhandle signo with sigQueue := sigClr prp.sigQueue signo }
  else prp

/-- signal_specret. -/
def signalSpecret (prp : Proc) (tid : Nat) (thp : Thread) (debug : Bool) (frame : Frame) (kill : Kill) : Proc :=
  match thp.sigPending.find? fun pup => !sigTst thp.sigBlocked pup.signo with
  | none => prp.setThread tid { thp with sigActive := false }
  | some pup =>
    let active := scanActive thp.sigBlocked false thp.sigPending
    -- If debugger stops the process, don't deliver the signal
    if debug then prp
    else
      match (prp.handlers pup.signo).filter (·.handler), frame with
      | some shp, .ok => enterHandler prp tid thp pup.signo shp active
      -- sigstack_fault: come back with no signal handler installed
      | some _, .fault => (prp.unhandle pup.signo).setThread tid { thp with sigActive := true }
      | _, _ => killit prp tid thp pup active kill

/-- The cases of specialret that concern signals, in the order of their flags. -/
def specret (prp : Proc) (tid : Nat) (debug : Bool) (frame : Frame) (kill : Kill) : Proc :=
  match prp.thread tid with
  | none => prp
  | some thp =>
    if thp.sigActive then signalSpecret prp tid thp debug frame kill
    -- Handle case where sigsuspend is unblocked without a signal.
    else if thp.sigSuspend then prp.setThread tid { thp with sigBlocked := thp.saved, sigSuspend := false }
    else prp

/-! ## Faults and the debugger -/

/-- deliver_fault. A second fault like the first crashes the kernel. -/
def deliverFault (prp : Proc) (tid : Nat) (sig : Sig) (alloc : Bool) : Option Proc :=
  match prp.thread tid with
  | none => some prp
  | some thp =>
    let blocked := sigTst thp.sigBlocked sig.signo
    -- Unblock the signal and remove the handler
    let prp := if blocked then prp.unhandle sig.signo else prp
    let mask := if blocked then sigClr thp.sigBlocked sig.signo else thp.sigBlocked
    let new := { sig.pulse with boost := true }
    let like (pup : Pulse) : Bool := pup.signo = new.signo && pup.code = new.code && pup.value = new.value &&
      pup.id = new.id
    let double := (pulseCompress new thp.sigPending).isSome ||
      alloc && !(thp.sigPending.all (·.key < new.key)) && thp.sigPending.head?.any like
    if double then none
    else some (prp.setThread tid { thp with sigBlocked := mask, sigActive := true
                                            sigPending := (pulseAdd thp.sigPending new false alloc).1 })

/-- The inner loop of signal_clear_thread, over the pulses of the signal from one on: how far the pulse is
that matches, and the counts seen, modulo 2^32. -/
def clearWalk (test : Pulse → Bool) (signo : Nat) : Nat → List Pulse → Option Nat × Nat
  | count, [] => (none, count)
  | count, pup :: rest =>
    let more := (rest.head?.filter (·.signo = signo)).map (·.count)
    let count := (count + more.getD 0) % 2 ^ 32
    if test pup then (some 0, (count + (2 ^ 32 - 1)) % 2 ^ 32)
    else if more.isNone then (none, count)
    else
      let (pos, count) := clearWalk test signo count rest
      (pos.map (· + 1), count)

/-- pulse_remove of the pulse at a place. -/
def removeAt : Nat → List Pulse → List Pulse
  | _, [] => []
  | 0, pup :: rest => if pup.more = 0 then rest else { pup with more := pup.more - 1 } :: rest
  | n + 1, pup :: rest => pup :: removeAt n rest

/-- The outer loop of signal_clear_thread, level by level; the result is the list and CT_SIG_ACT. If the
pulse that starts the next level is freed, the loop goes on with freed memory. -/
def clearLoop (sigBlocked : SigSet) (test : Pulse → Bool) (signo : Nat) :
    Nat → Bool → Bool → List Pulse → Option (List Pulse × Bool)
  | _, _, act, [] => some ([], act)
  | 0, _, _, _ :: _ => none
  | fuel + 1, cleared, act, pup :: rest =>
    let prioAct := !sigTst sigBlocked pup.signo
    let level := pup :: rest.takeWhile (·.key = pup.key)
    let after := rest.dropWhile (·.key = pup.key)
    if pup.signo = signo ∧ ¬ cleared then
      let (pos, count) := clearWalk test signo pup.count (pup :: rest)
      let prioAct := prioAct && count ≠ 0
      match pos with
      | none => (clearLoop sigBlocked test signo fuel false (act || prioAct) after).map fun (queue, act) =>
          (level ++ queue, act)
      | some n =>
        if n < level.length then
          (clearLoop sigBlocked test signo fuel true (act || prioAct) after).map fun (queue, act) =>
            (removeAt n level ++ queue, act)
        else if n = level.length ∧ after.head?.any (·.more = 0) then none
        else
          (clearLoop sigBlocked test signo fuel true (act || prioAct) (removeAt (n - level.length) after)).map
            fun (queue, act) => (level ++ queue, act)
    else (clearLoop sigBlocked test signo fuel cleared (act || prioAct) after).map fun (queue, act) =>
      (level ++ queue, act)

/-- signal_clear_thread: one pulse like `sig` is discarded. -/
def signalClearThread (prp : Proc) (tid : Nat) (sig : Sig) : Option Proc :=
  match prp.thread tid with
  | none => some prp
  | some thp =>
    let test (pup : Pulse) : Bool := pup.code.toInt32 = sig.code && pup.value = sig.value && pup.id = sig.id
    (clearLoop thp.sigBlocked test sig.signo thp.sigPending.length false false thp.sigPending).map fun (queue, act) =>
      prp.setThread tid { thp with sigPending := queue, sigActive := thp.sigActive && act }

/-! ## Runs -/

/-- thread_create, with the mask of the creating thread. -/
def threadCreate (prp : Proc) (sigBlocked : SigSet) : Proc :=
  let thp : Thread :=
    { valid := false, state := .ready, sigBlocked := sigmaskNoKillstop (sigmaskSpecial sigBlocked), sigPending := []
      sigActive := false, sigSuspend := false, saved := 0, dying := false }
  match prp.threads.findIdx? Option.isNone with
  | some tid => { prp with threads := prp.threads.set tid (some thp) }
  | none => { prp with threads := prp.threads ++ [some thp] }

inductive Op where
  | killProcess (sig : Sig) (env : Env)
  | killThread (tid : Nat) (sig : Sig) (env : Env)
  | procmask (tid : Nat) (how : How) (sigBlocked : SigSet)
  | suspend (tid : Nat) (sigBlocked : SigSet) (how : Suspend)
  | sigreturn (tid : Nat) (sigBlocked : SigSet)
  | waitinfo (tid : Nat) (sigWait : SigSet) (timeout : Bool)
  | action (signo : Nat) (action : Action) (siginfo resetHand noDefer : Bool)
  | specret (tid : Nat) (debug : Bool) (frame : Frame) (kill : Kill)
  | clear (tid : Nat) (sig : Sig)
  | fault (tid : Nat) (sig : Sig) (alloc : Bool)
  | create (sigBlocked : SigSet)
  /-- specialret with QRV_FLG_THR_KILLSELF -/
  | killself (tid : Nat)
  | destroy (tid : Nat) (stage : Destroy)
  /-- The end of thread creation makes the entry of the vector valid. -/
  | valid (tid : Nat)
  /-- A thread blocks or is made ready for other reasons. -/
  | move (tid : Nat) (state : ThState)

/-- A signal number of SignalKill. -/
def Sig.ok (sig : Sig) : Bool := 1 ≤ sig.signo && sig.signo ≤ sigMax

def Proc.update (prp : Proc) (tid : Nat) (f : Thread → Thread) : Proc :=
  match prp.thread tid with
  | none => prp
  | some thp => prp.setThread tid (f thp)

def step (prp : Proc) : Op → Option Proc
  | .killProcess sig env => if sig.ok then (signalKillProcess env prp sig).map (·.1) else some prp
  | .killThread tid sig env => some (if sig.ok then (signalKillThread env prp tid sig).1 else prp)
  | .procmask tid how sigBlocked => signalProcmask prp tid how sigBlocked
  | .suspend tid sigBlocked how => signalSuspend prp tid sigBlocked how
  | .sigreturn tid sigBlocked => signalReturn prp tid sigBlocked
  | .waitinfo tid sigWait timeout => some (signalWaitinfo prp tid sigWait timeout)
  | .action signo action siginfo resetHand noDefer => some (signalAction prp signo action siginfo resetHand noDefer)
  | .specret tid debug frame kill => some (specret prp tid debug frame kill)
  | .clear tid sig => signalClearThread prp tid sig
  | .fault tid sig alloc => if sig.ok then deliverFault prp tid sig alloc else some prp
  | .create sigBlocked => some (threadCreate prp sigBlocked)
  | .killself tid => some (prp.update tid ({ · with dying := true, sigBlocked := sigmaskOnes
                                                    sigActive := false, sigSuspend := false }))
  | .destroy tid stage =>
    match prp.thread tid with
    | none => some prp
    | some thp => some (threadDestroy prp tid thp stage)
  | .valid tid => some (prp.update tid ({ · with valid := true }))
  | .move tid state => some (prp.update tid ({ · with state := state }))

def run (ops : List Op) (prp : Proc) : Option Proc := Run.exec step ops prp

/-- A process without threads. -/
def newProc (sigIgnore sigQueue : SigSet) : Proc where
  threads := []
  sigPending := []
  sigIgnore := sigIgnore
  sigQueue := sigQueue
  handlers _ := none
  stopped := false
  continued := false
  destroyAll := false
  sigtidCache := 0

end QRV.Nano.Signal
